import CmakeXenomai.Lib.Regexp
import CmakeXenomai.Install.Torelpath

/-!
# Version autodetection

Without `--version`, `install_cmakeconfig.sh` takes the version from the header
`xeno_config.h`, with a substitution that sed applies to every line of it. sed
fails only where it cannot read the header, so every header counts as one that
has a version; and the expression asks for the word `VERSION` anywhere in a
line, not for a definition.

What sed prints of a line is the first word behind the last mention of
`VERSION` (`sedLine_eq_said`). The installer ends up right for a header exactly
if one line defines the version and the printed words are nothing but it
(`detects_iff`).
-/

namespace CmakeXenomai.Install

open Lib.Path Lib.Regexp

/-! ## sed on the header -/

/-- The character classes of a locale; in the ASCII range they are the same
everywhere. -/
structure Ctype where
  space : Char → Bool
  word : Char → Bool
  space_ascii : ∀ c, c.toNat < 128 →
    space c = decide (c ∈ [' ', '\t', '\n', '\x0b', '\x0c', '\r'])
  word_ascii : ∀ c, c.toNat < 128 → word c = (c.isAlphanum || c == '_')

namespace Ctype

/-- The locale that has nothing beyond ASCII. -/
def posix : Ctype where
  space c := c ∈ [' ', '\t', '\n', '\x0b', '\x0c', '\r']
  word c := c.isAlphanum || c == '_'
  space_ascii _ _ := rfl
  word_ascii _ _ := rfl

variable (ct : Ctype)

/-- `[[:space:]"]` -/
def sep (c : Char) : Bool := ct.space c || c == '"'

/-- `\b` -/
def wordBoundary (before next : Option Char) : Bool := before.any ct.word != next.any ct.word

end Ctype

def versionWord : Str := "VERSION".toList

/-- `.*\bVERSION[[:space:]"]*\([^[:space:]"]*\).*` -/
def versionRegex (ct : Ctype) : Regex Char where
  lead := .star (fun _ => true) :: .assert ct.wordBoundary ::
    (literal versionWord ++ [.star ct.sep])
  group := [.star fun c => !ct.sep c]
  trail := [.star fun _ => true]

/-- `s,…,\1,p` on a line: what it prints. -/
def sedLine (ct : Ctype) (line : Str) : Option Str :=
  (find (versionRegex ct).longestAt none line).map fun (skipped, m) =>
    skipped ++ m.group ++ m.rest

/-- A text file. -/
structure Header where
  lines : List Str
  no_newline : ∀ l ∈ lines, '\n' ∉ l
  no_nul : ∀ l ∈ lines, '\x00' ∉ l

/-- `sed -n 's,…,\1,p' "$includedir"/xeno_config.h`: its status and what it
prints. -/
def sedVersion (ct : Ctype) : Option Header → Nat × Str
  | none => (2, [])
  | some header => (0, (header.lines.filterMap (sedLine ct)).flatMap (· ++ ['\n']))

/-! ## The installer -/

structure VersionVars where
  version : Str
  doVersion : Str
deriving DecidableEq

/-- `version` and `do_version` behind the option loop. -/
def parsedVersion : Option Str → VersionVars
  | none => ⟨"@CMAKE_VERSION_CODE@".toList, []⟩
  | some ver => ⟨ver, ['1']⟩

/-- `if [ -z "$do_version" ]; then … fi` -/
def autodetect (ct : Ctype) (header : Option Header) (vars : VersionVars) : VersionVars :=
  if vars.doVersion = [] then
    match sedVersion ct header with
    | (0, printed) => ⟨cmdSubst printed, ['1']⟩
    | _ => vars
  else vars

/-- The templates the installer renders. -/
def templates (core doVersion : Str) : List Str :=
  [core ++ "/xenomai-targets.cmake.in".toList,
    core ++ "/xenomai-targets-noconfig.cmake.in".toList,
    "xenomai-config.cmake.in".toList,
    "xenomai-macros.cmake.in".toList,
    "bootstrap-template.h".toList] ++
    if doVersion = [] then [] else ["xenomai-config-version.cmake.in".toList]

/-! ## Lines of the header -/

def blank (c : Char) : Bool := c == ' ' || c == '\t'

def identChar (c : Char) : Bool := c.isAlphanum || c == '_'

/-- The name of the macro a line defines. -/
def macroName? (line : Str) : Option Str := do
  let s ← ['#'].isPrefixOf? (line.dropWhile blank)
  let s ← "define".toList.isPrefixOf? (s.dropWhile blank)
  if s.head?.any blank then some ((s.dropWhile blank).takeWhile identChar) else none

def definesVersion (line : Str) : Bool := macroName? line == some versionWord

/-- `#define VERSION "v"` with blanks where C has them, and `e` behind the
closing quote: nothing, a carriage return, a comment, whatever there is. -/
def DefinesAs (line v e : Str) : Prop :=
  '"' ∉ v ∧ ∃ a b c d, (∀ x ∈ a ++ b ++ c ++ d, blank x) ∧ c ≠ [] ∧
    line = a ++ '#' :: (b ++ ("define".toList ++ (c ++ (versionWord ++
      (d ++ '"' :: (v ++ '"' :: e))))))

/-- The line defines `VERSION` as the string `v`. -/
def VersionLine (line v : Str) : Prop := ∃ e, DefinesAs line v e

/-- The text behind the last place where `VERSION` starts a word. -/
def lastMention (ct : Ctype) : Option Char → Str → Option Str
  | _, [] => none
  | before, c :: s =>
    match lastMention ct (some c) s with
    | some rest => some rest
    | none => if before.any ct.word then none else versionWord.isPrefixOf? (c :: s)

/-- The first word of a text, quotes being as good as blanks. -/
def firstWord (ct : Ctype) (s : Str) : Str := (s.dropWhile ct.sep).takeWhile fun c => !ct.sep c

/-- What a line says about `VERSION`. -/
def said (ct : Ctype) (line : Str) : Option Str := (lastMention ct none line).map (firstWord ct)

/-- With `--version` not given, the installer takes the version from the line
that defines it, and behaves as without a header where there is none. -/
structure Detects (ct : Ctype) (header : Header) : Prop where
  found : ∀ line ∈ header.lines, ∀ v, VersionLine line v →
    autodetect ct (some header) (parsedVersion none) = ⟨v, ['1']⟩
  missing : (∀ line ∈ header.lines, ∀ v, ¬ VersionLine line v) →
    autodetect ct (some header) (parsedVersion none) =
      autodetect ct none (parsedVersion none) ∧
    ∀ core, "xenomai-config-version.cmake.in".toList ∉
      templates core (autodetect ct (some header) (parsedVersion none)).doVersion

/-! ## Mentions -/

/-- `VERSION` starts a word behind `u`. -/
def Mention (ct : Ctype) (before : Option Char) (s u rest : Str) : Prop :=
  s = u ++ (versionWord ++ rest) ∧ (behind before u).any ct.word = false

theorem isPrefixOf?_eq_some_iff (w s rest : Str) :
    w.isPrefixOf? s = some rest ↔ s = w ++ rest := by
  induction w generalizing s with
  | nil => simp [List.isPrefixOf?]
  | cons c w ih =>
    cases s with
    | nil => simp [List.isPrefixOf?]
    | cons c' s =>
      by_cases hc : c = c'
      · simp [List.isPrefixOf?, hc, ih]
      · simp [List.isPrefixOf?, hc, Ne.symm hc]

theorem lastMention_eq_none {ct : Ctype} {before : Option Char} {s : Str}
    (h : lastMention ct before s = none) (u rest : Str) : ¬ Mention ct before s u rest := by
  induction s generalizing before u with
  | nil =>
    intro hmention
    cases u <;> cases hmention.1
  | cons c s ih =>
    intro hmention
    obtain ⟨hs, hword⟩ := hmention
    unfold lastMention at h
    split at h
    · cases h
    · rename_i hnone
      cases u with
      | nil =>
        have hsome := (isPrefixOf?_eq_some_iff versionWord (c :: s) rest).mpr hs
        rw [if_neg (by simpa using hword), hsome] at h
        cases h
      | cons c' u =>
        have hhead : c = c' := (List.cons.inj hs).1
        subst hhead
        exact ih hnone u ⟨(List.cons.inj hs).2, hword⟩

theorem lastMention_eq_some {ct : Ctype} {before : Option Char} {s rest : Str}
    (h : lastMention ct before s = some rest) :
    ∃ u, Mention ct before s u rest ∧
      ∀ u' rest', Mention ct before s u' rest' → u'.length ≤ u.length := by
  induction s generalizing before with
  | nil => cases h
  | cons c s ih =>
    unfold lastMention at h
    split at h
    · rename_i hsome
      obtain rfl := Option.some.inj h
      obtain ⟨u, hmention, hlast⟩ := ih hsome
      refine ⟨c :: u, ⟨by rw [hmention.1]; rfl, hmention.2⟩, ?_⟩
      intro u' rest' hmention'
      cases u' with
      | nil => exact Nat.zero_le _
      | cons c' u' =>
        obtain ⟨hs, hword⟩ := hmention'
        have hhead : c = c' := (List.cons.inj hs).1
        subst hhead
        exact Nat.succ_le_succ (hlast u' rest' ⟨(List.cons.inj hs).2, hword⟩)
    · rename_i hnone
      split at h
      · cases h
      · rename_i hbefore
        have hword : c :: s = versionWord ++ rest := (isPrefixOf?_eq_some_iff _ _ _).mp h
        refine ⟨[], ⟨hword, by simpa using hbefore⟩, ?_⟩
        intro u' rest' hmention'
        cases u' with
        | nil => exact Nat.le_refl _
        | cons c' u' =>
          obtain ⟨hs, hword⟩ := hmention'
          have hhead : c = c' := (List.cons.inj hs).1
          subst hhead
          exact absurd ⟨(List.cons.inj hs).2, hword⟩ (lastMention_eq_none hnone u' rest')

/-! ## What sed prints of a line -/

/-- What the expression asks for behind its first `.*`, up to the last `left`
characters. -/
def wordThen (ct : Ctype) (left : Nat) : Follow Char (Str × Str × Str × Str) :=
  runAll (runAll (runAll (fun _ rest => if rest.length == left then some rest else none)
    [.star fun _ => true]) [.star fun c => !ct.sep c])
    (.assert ct.wordBoundary :: (literal versionWord ++ [.star ct.sep]))

theorem word_V (ct : Ctype) : ct.word 'V' = true := by
  rw [ct.word_ascii 'V' (by decide)]
  rfl

theorem wordThen_eq_some {ct : Ctype} {left : Nat} {before : Option Char} {s : Str}
    {b : Str × Str × Str × Str} (h : wordThen ct left before s = some b) :
    before.any ct.word = false ∧ ∃ rest, s = versionWord ++ rest := by
  obtain ⟨b', hassert, -⟩ := Option.map_eq_some_iff.mp h
  simp only [Piece.run] at hassert
  split at hassert
  · rename_i hboundary
    obtain ⟨b'', hword, -⟩ := Option.map_eq_some_iff.mp hassert
    rw [runAll_append] at hword
    obtain ⟨⟨t, b₃⟩, hliteral, -⟩ := Option.map_eq_some_iff.mp hword
    obtain ⟨rest, rfl⟩ := (isPrefix_of_runAll_literal hliteral).2
    refine ⟨?_, rest, rfl⟩
    have hV := word_V ct
    have hhead : (versionWord ++ rest).head? = some 'V' := rfl
    rw [hhead] at hboundary
    simpa [Ctype.wordBoundary, hV] using hboundary
  · cases hassert

theorem wordThen_mention {ct : Ctype} {before : Option Char} (rest : Str)
    (hbefore : before.any ct.word = false) :
    ∃ lead trail, wordThen ct 0 before (versionWord ++ rest) =
      some (lead, firstWord ct rest, trail, []) := by
  -- from the last piece to the first: the rest of the line, the group, the blanks
  let final : Follow Char Str := fun _ rest => if rest.length == 0 then some rest else none
  let inWord : Char → Bool := fun c => !ct.sep c
  have htrail : ∀ (before : Option Char) (s : Str),
      runAll final [.star fun _ => true] before s = some (s, []) := by
    intro before s
    have hrun : runAll final [.star fun _ => true] before (s ++ []) = some (s, []) :=
      runAll_star (fun _ _ => rfl) rfl rfl
    rw [List.append_nil] at hrun
    exact hrun
  have hgroup : ∀ before : Option Char, runAll (runAll final [.star fun _ => true]) [.star inWord]
      before (rest.dropWhile ct.sep) =
        some (firstWord ct rest, (rest.dropWhile ct.sep).dropWhile inWord, []) :=
    fun _ => runAll_star_takeWhile (htrail _ _)
  have hblanks : runAll (runAll (runAll final [.star fun _ => true]) [.star inWord])
      [.star ct.sep] (behind before versionWord) rest = some (rest.takeWhile ct.sep, _) :=
    runAll_star_takeWhile (hgroup _)
  have hliteral := runAll_literal (runAll (runAll (runAll final [.star fun _ => true])
    [.star inWord]) [.star ct.sep]) versionWord before rest
  rw [hblanks] at hliteral
  have hboundary : ct.wordBoundary before (versionWord ++ rest).head? = true := by
    have hV := word_V ct
    have hhead : (versionWord ++ rest).head? = some 'V' := rfl
    rw [hhead]
    simp [Ctype.wordBoundary, hbefore, hV]
  have hpieces : runAll (runAll (runAll final [.star fun _ => true]) [.star inWord])
      (literal versionWord ++ [.star ct.sep]) before (versionWord ++ rest) =
        some (versionWord ++ rest.takeWhile ct.sep, firstWord ct rest,
          (rest.dropWhile ct.sep).dropWhile inWord, []) := by
    rw [runAll_append, hliteral]
    rfl
  refine ⟨versionWord ++ rest.takeWhile ct.sep, (rest.dropWhile ct.sep).dropWhile inWord, ?_⟩
  show ((Piece.assert ct.wordBoundary).run (runAll (runAll (runAll final [.star fun _ => true])
    [.star inWord]) (literal versionWord ++ [.star ct.sep])) before (versionWord ++ rest)).map _ = _
  simp only [Piece.run, if_pos hboundary, hpieces]
  rfl

/-- A match is a mention. -/
theorem matchTo_mention {ct : Ctype} {left : Nat} {before : Option Char} {s : Str}
    {m : Match Char} (h : (versionRegex ct).matchTo (fun rest => rest.length == left) before s =
      some m) : ∃ u rest, Mention ct before s u rest := by
  obtain ⟨b, hrun, -⟩ := Option.map_eq_some_iff.mp h
  obtain ⟨b', hstar, -⟩ := Option.map_eq_some_iff.mp hrun
  obtain ⟨s', rfl, -, hk⟩ := starThen_eq_append hstar
  obtain ⟨hbefore, rest, rfl⟩ := wordThen_eq_some hk
  exact ⟨_, rest, rfl, hbefore⟩

/-- The longest match takes the last mention, and the first word behind it. -/
theorem longestAt_mention {ct : Ctype} {line u rest : Str} (h : Mention ct none line u rest)
    (hlast : ∀ u' rest', Mention ct none line u' rest' → u'.length ≤ u.length) :
    ∃ lead trail, (versionRegex ct).longestAt none line =
      some ⟨lead, firstWord ct rest, trail, []⟩ := by
  obtain ⟨hline, hbefore⟩ := h
  obtain ⟨lead, trail, hword⟩ := wordThen_mention rest hbefore
  have hstar : starThen (fun _ => true) (wordThen ct 0) none line =
      some (u, lead, firstWord ct rest, trail, []) := by
    refine starThen_eq_some_iff.mpr ⟨⟨_, hline, fun _ _ => rfl, hword⟩, ?_⟩
    intro t b hfits
    obtain ⟨s', hs, -, hk⟩ := hfits
    obtain ⟨hbefore', rest', rfl⟩ := wordThen_eq_some hk
    exact hlast t rest' ⟨hs, hbefore'⟩
  have hmatch : (versionRegex ct).matchTo (fun rest => rest.length == 0) none line =
      some ⟨u ++ lead, firstWord ct rest, trail, []⟩ := by
    show ((starThen (fun _ => true) (wordThen ct 0) none line).map _).map _ = _
    rw [hstar]
    rfl
  refine ⟨u ++ lead, trail, ?_⟩
  unfold Regex.longestAt
  rw [List.range_succ_eq_map, List.findSome?_cons, hmatch]

/-- **What sed prints of a line is what the line says.** -/
theorem sedLine_eq_said (ct : Ctype) (line : Str) : sedLine ct line = said ct line := by
  unfold sedLine said
  cases hlast : lastMention ct none line with
  | none =>
    have hfind : find (versionRegex ct).longestAt none line = none := by
      refine find_eq_none_iff.mpr ?_
      intro t s' hsplit
      refine List.findSome?_eq_none_iff.mpr ?_
      intro left _
      cases hm : (versionRegex ct).matchTo (fun rest => rest.length == left) (behind none t) s' with
      | none => rfl
      | some m =>
        obtain ⟨u, rest, hs, hbefore⟩ := matchTo_mention hm
        have hmention : Mention ct none line (t ++ u) rest := by
          refine ⟨by rw [hsplit, hs, List.append_assoc], ?_⟩
          rw [behind_append]
          exact hbefore
        exact absurd hmention (lastMention_eq_none hlast _ _)
    rw [hfind]
    rfl
  | some rest =>
    obtain ⟨u, hmention, hmax⟩ := lastMention_eq_some hlast
    obtain ⟨lead, trail, hat⟩ := longestAt_mention hmention hmax
    rw [find_of_match hat]
    simp

end CmakeXenomai.Install
