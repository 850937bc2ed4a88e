import CmakeXenomai.Lib.Shell
import CmakeXenomai.Install.Derefvar

/-!
# Options of the installer

How `install_cmakeconfig.sh` reads its command line: `getopt` checks it and
prints it again in one normal form, quoted for the shell; `eval set --` takes
that apart into the positional parameters; a loop assigns the variables. The
quoting has to bring every argument through the evaluation unchanged, and the
normal form has to keep the loop on its good branches (`readOptions_returns`).
-/

namespace CmakeXenomai.Install

open Lib.Loop Lib.Path
open Lib.Shell (Token line words)

/-! ## getopt -/

/-- The names behind `--long`; each option has an argument. -/
inductive LongOption where
  | withCore
  | pfx
  | execPrefix
  | libdir
  | includedir
  | version
  | bitness
deriving DecidableEq, Repr

namespace LongOption

def name : LongOption → Str
  | withCore => "with-core".toList
  | pfx => "prefix".toList
  | execPrefix => "exec-prefix".toList
  | libdir => "libdir".toList
  | includedir => "includedir".toList
  | version => "version".toList
  | bitness => "bitness".toList

def all : List LongOption :=
  [withCore, pfx, execPrefix, libdir, includedir, version, bitness]

theorem mem_all (o : LongOption) : o ∈ all := by
  cases o <;> decide

/-- `--name` -/
def spelled (o : LongOption) : Str := '-' :: '-' :: o.name

end LongOption

/-- The option a name stands for: its own, or the only one it abbreviates. -/
def longOption? (name : Str) : Option LongOption :=
  match LongOption.all.find? fun o => o.name == name with
  | some o => some o
  | none =>
    match LongOption.all.filter fun o => name.isPrefixOf o.name with
    | [o] => some o
    | _ => none

/-- `name=value` -/
def splitValue (s : Str) : Str × Option Str :=
  (s.takeWhile (· != '='), if '=' ∈ s then some (s.dropWhile (· != '=')).tail else none)

/-- A command line after getopt. -/
structure Parsed where
  options : List (LongOption × Str)
  operands : List Str
deriving DecidableEq, Repr

namespace Parsed

def addOption (o : LongOption) (value : Str) (p : Parsed) : Parsed :=
  ⟨(o, value) :: p.options, p.operands⟩

def addOperand (s : Str) (p : Parsed) : Parsed := ⟨p.options, s :: p.operands⟩

end Parsed

/-- `getopt -o '' --long … -- "$@"`, by what it accepts. Where the environment
has POSIXLY_CORRECT, the first operand ends the options. -/
def getopt (posixlyCorrect : Bool) : List Str → Option Parsed
  | [] => some ⟨[], []⟩
  | ['-', '-'] :: args => some ⟨[], args⟩
  | ('-' :: '-' :: s) :: args =>
    match longOption? (splitValue s).1 with
    | none => none
    | some o =>
      match (splitValue s).2 with
      | some value => (getopt posixlyCorrect args).map (.addOption o value)
      | none =>
        match args with
        | [] => none
        | value :: args => (getopt posixlyCorrect args).map (.addOption o value)
  | ('-' :: _ :: _) :: _ => none
  | arg :: args =>
    if posixlyCorrect then some ⟨[], arg :: args⟩
    else (getopt posixlyCorrect args).map (.addOperand arg)

/-- The normal form: options with their arguments, `--`, operands. -/
def Parsed.tokens (p : Parsed) : List Token :=
  (p.options.flatMap fun (o, value) => [.bare o.spelled, .quoted value]) ++
    .bare ['-', '-'] :: p.operands.map .quoted

/-- What `getopt -s sh` prints. -/
def Parsed.printed (p : Parsed) : Str := line p.tokens ++ ['\n']

/-- `eval set -- "$TMP"`, by the positional parameters after it; none where
the line is no list of words. -/
def evalSet (tmp : Str) : Option (List Str) :=
  (words ("set -- ".toList ++ tmp)).map (List.drop 2)

/-! ## The option loop -/

/-- The variables the options set. -/
@[ext] structure Settings where
  core : Str
  vars : Vars
  version : Str
  bitness : Str
  doVersion : Str
  hasBitness : Str

namespace Settings

/-- The assignments before the loop. -/
def initial : Settings where
  core := "cobalt".toList
  vars
    | .pfx => "/usr/xenomai".toList
    | .execPrefix => "$\x7bprefix\x7d".toList
    | .libdir => "$\x7bexec_prefix\x7d/lib".toList
    | .includedir => "$\x7bprefix\x7d/include".toList
  version := "@CMAKE_VERSION_CODE@".toList
  bitness := []
  doVersion := []
  hasBitness := []

/-- The assignment of an option's branch, `$2` being `value`. -/
def assign (s : Settings) (o : LongOption) (value : Str) : Settings :=
  match o with
  | .withCore => { s with core := value }
  | .pfx => { s with vars := Function.update s.vars .pfx value }
  | .execPrefix => { s with vars := Function.update s.vars .execPrefix value }
  | .libdir => { s with vars := Function.update s.vars .libdir value }
  | .includedir => { s with vars := Function.update s.vars .includedir value }
  | .version => { s with version := value, doVersion := ['1'] }
  | .bitness => { s with bitness := value, hasBitness := ['1'] }

end Settings

/-- Where the script stops early. -/
inductive Stop where
  /-- getopt failed, in an assignment under `set -e`. -/
  | getopt
  /-- The usage, and then the parameter of `printusage` that is not there. -/
  | help
  | scriptError
  /-- A parameter that is not set, under `set -u`. -/
  | unset
  | noTargetpath
  | torelpath (status : Nat)
  /-- No directory from `mktemp -d`. -/
  | tempdir
  /-- `exit 20` -/
  | template
deriving DecidableEq, Repr

structure OptionLoop where
  settings : Settings
  args : List Str

/-- `while true ; do case "$1" in … esac; shift; done` -/
def optionLoop (s : OptionLoop) : Turn OptionLoop (Except Stop OptionLoop) :=
  match s.args with
  | [] => .leave (.error .unset)
  | arg :: args =>
    match LongOption.all.find? fun o => arg == o.spelled with
    | some o =>
      match args with
      | [] => .leave (.error .unset)
      | value :: args => .again ⟨s.settings.assign o value, args⟩
    | none =>
      if arg = "--help".toList then .leave (.error .help)
      else if arg = ['-', '-'] then .leave (.ok ⟨s.settings, args⟩)
      else .leave (.error .scriptError)

/-- The script up to the end of the option loop, with a turn budget. -/
def readOptions (posixlyCorrect : Bool) (fuel : Nat) (argv : List Str) :
    Option (Except Stop OptionLoop) :=
  match getopt posixlyCorrect argv with
  | none => some (.error .getopt)
  | some p => do
    let args ← evalSet (cmdSubst p.printed)
    run optionLoop fuel ⟨.initial, args⟩

/-! ## Through the shell -/

theorem end_valid : (Token.bare ['-', '-']).Valid :=
  ⟨by decide, List.all_eq_true.mp (by decide)⟩

theorem spelled_valid (o : LongOption) : (Token.bare o.spelled).Valid := by
  cases o <;> exact ⟨by decide, List.all_eq_true.mp (by decide +kernel)⟩

namespace Parsed

theorem tokens_valid (p : Parsed) : ∀ t ∈ p.tokens, t.Valid := by
  intro t ht
  rcases List.mem_append.mp ht with ht | ht
  · obtain ⟨⟨o, value⟩, -, ht⟩ := List.mem_flatMap.mp ht
    rcases List.mem_cons.mp ht with rfl | ht
    · exact spelled_valid o
    · obtain rfl := List.mem_singleton.mp ht
      trivial
  · rcases List.mem_cons.mp ht with rfl | ht
    · exact end_valid
    · obtain ⟨s, -, rfl⟩ := List.mem_map.mp ht
      trivial

/-- The positional parameters of a normal form. -/
def args (p : Parsed) : List Str :=
  (p.options.flatMap fun (o, value) => [o.spelled, value]) ++ ['-', '-'] :: p.operands

theorem word_tokens (p : Parsed) : p.tokens.map Token.word = p.args := by
  unfold tokens args
  rw [List.map_append, List.map_flatMap, List.map_cons, List.map_map]
  congr 2
  exact List.map_id _

end Parsed

theorem quoteRest_getLast? (s : Str) : (Lib.Shell.quoteRest s).getLast? = some '\'' := by
  induction s with
  | nil => rfl
  | cons c s ih =>
    by_cases hc : c = '\''
    · subst hc
      show ('\'' :: '\\' :: '\'' :: '\'' :: Lib.Shell.quoteRest s).getLast? = _
      simp [List.getLast?_cons, ih]
    · rw [Lib.Shell.quoteRest_cons hc, List.getLast?_cons, ih]
      rfl

theorem text_getLast?_ne_newline {t : Token} (ht : t.Valid) : t.text.getLast? ≠ some '\n' := by
  intro hlast
  cases t with
  | quoted s =>
    have hquote : (Token.quoted s).text.getLast? = some '\'' := by
      show ('\'' :: Lib.Shell.quoteRest s).getLast? = _
      rw [List.getLast?_cons, quoteRest_getLast?]
      rfl
    rw [hquote] at hlast
    cases hlast
  | bare s => exact absurd (ht.2 '\n' (List.mem_of_getLast? hlast)) (by decide)

/-- A line of words ends in a quote or in a character of a bare word. -/
theorem line_getLast?_ne_newline {ts : List Token} (hts : ∀ t ∈ ts, t.Valid) :
    (line ts).getLast? ≠ some '\n' := by
  induction ts with
  | nil => simp [line]
  | cons t ts ih =>
    rw [List.forall_mem_cons] at hts
    rw [Lib.Shell.line_cons, ← List.cons_append, List.getLast?_append]
    intro hlast
    cases hrest : (line ts).getLast? with
    | some c =>
      rw [hrest] at hlast
      exact ih hts.2 (hrest.trans hlast)
    | none =>
      rw [hrest, Option.none_or, List.getLast?_cons] at hlast
      cases htext : t.text.getLast? with
      | none =>
        rw [htext] at hlast
        cases hlast
      | some c =>
        rw [htext] at hlast
        exact text_getLast?_ne_newline hts.1 (htext.trans hlast)

/-- The command substitution takes the newline of getopt, and nothing else. -/
theorem cmdSubst_printed (p : Parsed) : cmdSubst p.printed = line p.tokens := by
  unfold Parsed.printed cmdSubst
  rw [List.rdropWhile_concat_pos _ _ _ (by simp), List.rdropWhile_eq_self_iff]
  intro hne hlast
  apply line_getLast?_ne_newline p.tokens_valid
  rw [List.getLast?_eq_getLast_of_ne_nil hne]
  exact congrArg some (of_decide_eq_true hlast)

/-- **Every argument comes through the evaluation as it was.** -/
theorem evalSet_printed (p : Parsed) : evalSet (cmdSubst p.printed) = some p.args := by
  have hset : (Token.bare "set".toList).Valid := ⟨by decide, List.all_eq_true.mp (by decide)⟩
  have hwords : words ("set -- ".toList ++ line p.tokens) =
      ((words (line p.tokens)).map (['-', '-'] :: ·)).map ("set".toList :: ·) := by
    show Lib.Shell.lex .between ((Token.bare "set".toList).text ++
      ' ' :: ((Token.bare ['-', '-']).text ++ ' ' :: line p.tokens)) = _
    rw [Token.lex_text hset, Lib.Shell.lex_word_blank, Token.lex_text end_valid,
      Lib.Shell.lex_word_blank]
    rfl
  rw [cmdSubst_printed, evalSet, hwords, Lib.Shell.words_line p.tokens_valid, p.word_tokens]
  rfl

/-! ## What the loop assigns -/

theorem find?_spelled (o : LongOption) :
    (LongOption.all.find? fun o' => o.spelled == o'.spelled) = some o := by
  cases o <;> decide +kernel

theorem optionLoop_assign (s : Settings) (o : LongOption) (value : Str) (args : List Str) :
    optionLoop ⟨s, o.spelled :: value :: args⟩ = .again ⟨s.assign o value, args⟩ := by
  unfold optionLoop
  simp only [find?_spelled]

theorem optionLoop_done (s : Settings) (args : List Str) :
    optionLoop ⟨s, ['-', '-'] :: args⟩ = .leave (.ok ⟨s, args⟩) := by
  unfold optionLoop
  have hnone : (LongOption.all.find? fun o => ['-', '-'] == o.spelled) = none := by decide +kernel
  simp only [hnone]
  rw [if_neg (by decide), if_pos trivial]

/-- The assignments of a list of options, one after the other. -/
def Settings.assignAll (s : Settings) (options : List (LongOption × Str)) : Settings :=
  options.foldl (fun s (o, value) => s.assign o value) s

theorem optionLoop_returns (options : List (LongOption × Str)) (operands : List Str)
    (s : Settings) :
    Returns optionLoop ⟨s, Parsed.args ⟨options, operands⟩⟩
      (.ok ⟨s.assignAll options, operands⟩) := by
  induction options generalizing s with
  | nil => exact .of_leave (optionLoop_done s operands)
  | cons option options ih =>
    obtain ⟨o, value⟩ := option
    exact .of_again (optionLoop_assign s o value _) (ih (s.assign o value))

/-- The argument an option was last given. -/
def lastValue (o : LongOption) (options : List (LongOption × Str)) : Option Str :=
  options.foldl (fun last (o', value) => if o' = o then some value else last) none

theorem lastValue_concat (o : LongOption) (options : List (LongOption × Str))
    (o' : LongOption) (value : Str) :
    lastValue o (options ++ [(o', value)]) =
      if o' = o then some value else lastValue o options := by
  unfold lastValue
  rw [List.foldl_append]
  rfl

/-- The option of a path variable. -/
def Var.option : Var → LongOption
  | .pfx => .pfx
  | .execPrefix => .execPrefix
  | .libdir => .libdir
  | .includedir => .includedir

/-- Each variable as its option was last given, or as it was. -/
def Settings.given (s : Settings) (options : List (LongOption × Str)) : Settings where
  core := (lastValue .withCore options).getD s.core
  vars x := (lastValue x.option options).getD (s.vars x)
  version := (lastValue .version options).getD s.version
  bitness := (lastValue .bitness options).getD s.bitness
  doVersion := if (lastValue .version options).isSome then ['1'] else s.doVersion
  hasBitness := if (lastValue .bitness options).isSome then ['1'] else s.hasBitness

theorem vars_given_concat (s : Settings) (options : List (LongOption × Str)) {o : LongOption}
    (ho : ∀ x : Var, o ≠ x.option) (value : Str) :
    (s.given (options ++ [(o, value)])).vars = (s.given options).vars := by
  funext x
  show (lastValue x.option (options ++ [(o, value)])).getD _ = _
  rw [lastValue_concat, if_neg (ho x)]
  rfl

theorem update_given (s : Settings) (options : List (LongOption × Str)) (x : Var) (value : Str) :
    (s.given (options ++ [(x.option, value)])).vars =
      Function.update (s.given options).vars x value := by
  funext y
  show (lastValue y.option (options ++ [(x.option, value)])).getD _ = _
  rw [lastValue_concat]
  by_cases hy : y = x
  · subst hy
    rw [Function.update_self, if_pos rfl]
    rfl
  · rw [Function.update_of_ne hy, if_neg]
    · rfl
    · cases x <;> cases y <;> first | exact absurd rfl hy | decide

theorem vars_concat (s : Settings) (options : List (LongOption × Str)) (o : LongOption)
    (value : Str) :
    (s.given (options ++ [(o, value)])).vars = ((s.given options).assign o value).vars := by
  cases o with
  | pfx => exact update_given s options .pfx value
  | execPrefix => exact update_given s options .execPrefix value
  | libdir => exact update_given s options .libdir value
  | includedir => exact update_given s options .includedir value
  | withCore => exact vars_given_concat s options (by intro x; cases x <;> decide) value
  | version => exact vars_given_concat s options (by intro x; cases x <;> decide) value
  | bitness => exact vars_given_concat s options (by intro x; cases x <;> decide) value

/-- One more option is one more assignment. -/
theorem given_concat (s : Settings) (options : List (LongOption × Str)) (o : LongOption)
    (value : Str) :
    s.given (options ++ [(o, value)]) = (s.given options).assign o value := by
  have hlast := fun o' => lastValue_concat o' options o value
  refine Settings.ext ?_ (vars_concat s options o value) ?_ ?_ ?_ ?_
  all_goals cases o <;> simp [Settings.given, Settings.assign, hlast]

theorem assignAll_eq_given (s : Settings) (options : List (LongOption × Str)) :
    s.assignAll options = s.given options := by
  induction options using List.reverseRecOn with
  | nil => rfl
  | append_singleton options option ih =>
    obtain ⟨o, value⟩ := option
    have hstep : s.assignAll (options ++ [(o, value)]) = (s.assignAll options).assign o value := by
      unfold Settings.assignAll
      rw [List.foldl_append]
      rfl
    rw [hstep, ih, given_concat]

/-- The loop takes the normal form apart to its end. -/
theorem exists_readOptions {posixlyCorrect : Bool} {argv : List Str} {p : Parsed}
    (hp : getopt posixlyCorrect argv = some p) :
    ∃ fuel, readOptions posixlyCorrect fuel argv =
      some (.ok ⟨Settings.initial.given p.options, p.operands⟩) := by
  obtain ⟨fuel, hrun⟩ := optionLoop_returns p.options p.operands .initial
  refine ⟨fuel, ?_⟩
  rw [assignAll_eq_given] at hrun
  rw [readOptions, hp]
  simp only [evalSet_printed]
  exact hrun

/-- **What the options say is what the variables have.** The loop always ends.
Either getopt rejects the command line, and then the script is over, with or
without `--help` on it; or every variable has the argument its option was last
given, whatever characters are in it, or its default, and the operands are what
is left. -/
theorem readOptions_returns (posixlyCorrect : Bool) (argv : List Str) :
    ∃ fuel, readOptions posixlyCorrect fuel argv =
      some (match getopt posixlyCorrect argv with
        | none => .error .getopt
        | some p => .ok ⟨Settings.initial.given p.options, p.operands⟩) := by
  cases hp : getopt posixlyCorrect argv with
  | none => exact ⟨0, by rw [readOptions, hp]⟩
  | some p => exact exists_readOptions hp

/-! ## Command lines as they are written -/

/-- An argument as a user writes it: an option by its name or the beginning of
it, the value behind `=` or on its own, or an operand. -/
inductive Arg where
  | joined (name : Str) (o : LongOption) (value : Str)
  | apart (name : Str) (o : LongOption) (value : Str)
  | operand (s : Str)

namespace Arg

def Valid : Arg → Prop
  | joined name o _ => name ≠ [] ∧ name <+: o.name
  | apart name o _ => name ≠ [] ∧ name <+: o.name
  | operand s => s.head? = some '-' → s = ['-']

def argv : Arg → List Str
  | joined name _ value => ['-' :: '-' :: (name ++ '=' :: value)]
  | apart name _ value => ['-' :: '-' :: name, value]
  | operand s => [s]

def option? : Arg → Option (LongOption × Str)
  | joined _ o value => some (o, value)
  | apart _ o value => some (o, value)
  | operand _ => none

def operand? : Arg → Option Str
  | operand s => some s
  | _ => none

end Arg

/-- The names of the options begin differently, so any beginning is enough. -/
theorem longOption?_of_isPrefix {name : Str} {o : LongOption} (hne : name ≠ [])
    (h : name <+: o.name) : longOption? name = some o := by
  have hall : ∀ o ∈ LongOption.all, ∀ name ∈ o.name.inits, name ≠ [] →
      longOption? name = some o := by decide +kernel
  exact hall o o.mem_all name ((List.mem_inits _ _).mpr h) hne

theorem eq_not_mem_of_isPrefix {name : Str} {o : LongOption} (h : name <+: o.name) :
    '=' ∉ name := by
  have ho : '=' ∉ o.name := by cases o <;> decide
  exact fun hmem => ho (h.subset hmem)

theorem splitValue_joined {name : Str} (hname : '=' ∉ name) (value : Str) :
    splitValue (name ++ '=' :: value) = (name, some value) := by
  have hne : ∀ c ∈ name, (c != '=') = true := by
    intro c hc
    rw [bne_iff_ne]
    rintro rfl
    exact hname hc
  unfold splitValue
  rw [List.takeWhile_append_of_pos hne, List.dropWhile_append_of_pos hne, if_pos (by simp)]
  simp

theorem splitValue_apart {name : Str} (hname : '=' ∉ name) : splitValue name = (name, none) := by
  have hne : ∀ c ∈ name, (c != '=') = true := by
    intro c hc
    rw [bne_iff_ne]
    rintro rfl
    exact hname hc
  unfold splitValue
  rw [if_neg hname, List.takeWhile_eq_self_iff.mpr hne]

theorem getopt_joined (posixlyCorrect : Bool) {s name value : Str} {args : List Str}
    {o : LongOption} (hs : s ≠ []) (h : splitValue s = (name, some value))
    (ho : longOption? name = some o) :
    getopt posixlyCorrect (('-' :: '-' :: s) :: args) =
      (getopt posixlyCorrect args).map (.addOption o value) := by
  obtain ⟨c, s, rfl⟩ := List.exists_cons_of_ne_nil hs
  rw [getopt.eq_def]
  simp only [h, ho]

theorem getopt_apart (posixlyCorrect : Bool) {name value : Str} {args : List Str}
    {o : LongOption} (hs : name ≠ []) (h : splitValue name = (name, none))
    (ho : longOption? name = some o) :
    getopt posixlyCorrect (('-' :: '-' :: name) :: value :: args) =
      (getopt posixlyCorrect args).map (.addOption o value) := by
  obtain ⟨c, s, rfl⟩ := List.exists_cons_of_ne_nil hs
  rw [getopt.eq_def]
  simp only [h, ho]

theorem getopt_operand {s : Str} (hs : s.head? = some '-' → s = ['-']) (args : List Str) :
    getopt false (s :: args) = (getopt false args).map (.addOperand s) := by
  rcases s with _ | ⟨c, s⟩
  · rfl
  · by_cases hc : c = '-'
    · rw [hs (by rw [hc]; rfl)]
      rfl
    · rw [getopt, if_neg (by decide)]
      -- the patterns with a hyphen
      all_goals simp [hc]

/-- What is written is accepted, in any order, and added to what getopt makes
of the rest; under POSIXLY_CORRECT as long as it is options. -/
theorem getopt_written {posixlyCorrect : Bool} {as : List Arg} (has : ∀ a ∈ as, a.Valid)
    (hoptions : posixlyCorrect = true → as.filterMap Arg.operand? = []) (tail : List Str) :
    getopt posixlyCorrect (as.flatMap Arg.argv ++ tail) =
      (getopt posixlyCorrect tail).map fun p =>
        ⟨as.filterMap Arg.option? ++ p.options, as.filterMap Arg.operand? ++ p.operands⟩ := by
  induction as with
  | nil => cases h : getopt posixlyCorrect tail <;> simp [h]
  | cons a as ih =>
    rw [List.forall_mem_cons] at has
    obtain ⟨ha, has⟩ := has
    cases a with
    | joined name o value =>
      obtain ⟨hne, hname⟩ := ha
      show getopt posixlyCorrect (('-' :: '-' :: (name ++ '=' :: value)) ::
        (as.flatMap Arg.argv ++ tail)) = _
      rw [getopt_joined posixlyCorrect (by simp)
        (splitValue_joined (eq_not_mem_of_isPrefix hname) value)
        (longOption?_of_isPrefix hne hname), ih has hoptions, Option.map_map]
      rfl
    | apart name o value =>
      obtain ⟨hne, hname⟩ := ha
      show getopt posixlyCorrect (('-' :: '-' :: name) :: value ::
        (as.flatMap Arg.argv ++ tail)) = _
      rw [getopt_apart posixlyCorrect hne (splitValue_apart (eq_not_mem_of_isPrefix hname))
        (longOption?_of_isPrefix hne hname), ih has hoptions, Option.map_map]
      rfl
    | operand s =>
      have hposix : posixlyCorrect = false := by
        by_contra h
        cases hoptions (by simpa using h)
      subst hposix
      show getopt false (s :: (as.flatMap Arg.argv ++ tail)) = _
      rw [getopt_operand ha, ih has (fun h => absurd h (by decide)), Option.map_map]
      rfl

/-- How a command line goes on behind what is written there, and with which
operands: not at all, with `--`, or with the operand that ends the options
under POSIXLY_CORRECT. -/
inductive Ends (posixlyCorrect : Bool) : List Str → List Str → Prop where
  | here : Ends posixlyCorrect [] []
  | dashes (rest : List Str) : Ends posixlyCorrect (['-', '-'] :: rest) rest
  | operand (s : Str) (rest : List Str) (h : posixlyCorrect = true)
      (hs : (Arg.operand s).Valid) : Ends posixlyCorrect (s :: rest) (s :: rest)

theorem getopt_ends {posixlyCorrect : Bool} {tail operands : List Str}
    (h : Ends posixlyCorrect tail operands) : getopt posixlyCorrect tail = some ⟨[], operands⟩ := by
  cases h with
  | here => rfl
  | dashes rest => rfl
  | operand s rest hposix hs =>
    subst hposix
    rcases s with _ | ⟨c, s⟩
    · rfl
    · by_cases hc : c = '-'
      · rw [hs (by rw [hc]; rfl)]
        rfl
      · rw [getopt, if_pos rfl]
        -- the patterns with a hyphen
        all_goals simp [hc]

/-- **However the command line is written**, options by name or abbreviated,
with the value behind `=` or on its own, in any order and with operands in
between, ended by `--` or not: the variables have the values written last, and
the operands are left over in their order. Under POSIXLY_CORRECT the options
stand in front, and everything from the first operand on is left over. -/
theorem readOptions_written {posixlyCorrect : Bool} {as : List Arg} (has : ∀ a ∈ as, a.Valid)
    (hoptions : posixlyCorrect = true → as.filterMap Arg.operand? = [])
    {tail operands : List Str} (htail : Ends posixlyCorrect tail operands) :
    ∃ fuel, readOptions posixlyCorrect fuel (as.flatMap Arg.argv ++ tail) =
      some (.ok ⟨Settings.initial.given (as.filterMap Arg.option?),
        as.filterMap Arg.operand? ++ operands⟩) := by
  refine exists_readOptions (p := ⟨as.filterMap Arg.option?, _⟩) ?_
  rw [getopt_written has hoptions, getopt_ends htail, Option.map_some, List.append_nil]

/-- `--pre "/opt/my 'xeno'" stage --prefix=/usr`, as it is and with `-- --help`
behind it; and `--prefix=/usr stage --help` under POSIXLY_CORRECT. -/
theorem readOptions_written_quotes :
    (∃ fuel, readOptions false fuel
        (["--pre", "/opt/my 'xeno'", "stage", "--prefix=/usr"].map String.toList) =
      some (.ok ⟨Settings.initial.given
        [(.pfx, "/opt/my 'xeno'".toList), (.pfx, "/usr".toList)], ["stage".toList]⟩)) ∧
    (∃ fuel, readOptions false fuel
        (["--pre", "/opt/my 'xeno'", "stage", "--prefix=/usr", "--", "--help"].map String.toList) =
      some (.ok ⟨Settings.initial.given
        [(.pfx, "/opt/my 'xeno'".toList), (.pfx, "/usr".toList)],
        ["stage".toList, "--help".toList]⟩)) ∧
    ∃ fuel, readOptions true fuel (["--prefix=/usr", "stage", "--help"].map String.toList) =
      some (.ok ⟨Settings.initial.given [(.pfx, "/usr".toList)],
        ["stage".toList, "--help".toList]⟩) := by
  have husr : (Arg.joined "prefix".toList .pfx "/usr".toList).Valid := ⟨by decide, by decide⟩
  have hstage : (Arg.operand "stage".toList).Valid := fun h => absurd h (by decide)
  have hvalid : ∀ a ∈ [Arg.apart "pre".toList .pfx "/opt/my 'xeno'".toList,
      .operand "stage".toList, .joined "prefix".toList .pfx "/usr".toList], a.Valid := by
    intro a ha
    simp only [List.mem_cons, List.not_mem_nil, or_false] at ha
    rcases ha with rfl | rfl | rfl
    · exact ⟨by decide, by decide⟩
    · exact hstage
    · exact husr
  refine ⟨?_, ?_, ?_⟩
  · exact readOptions_written hvalid (by decide) .here
  · exact readOptions_written hvalid (by decide) (.dashes ["--help".toList])
  · exact readOptions_written (List.forall_mem_singleton.mpr husr) (fun _ => rfl)
      (.operand _ ["--help".toList] rfl hstage)

end CmakeXenomai.Install
