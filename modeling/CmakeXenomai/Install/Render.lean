import CmakeXenomai.Install.Sed

/-!
# Rendered templates

What the installed files have to do with the templates: each of the ten
substitutions sees the text the earlier ones put in, and sed reads every value
as part of its script. A file is the template with the values in place of the
placeholders exactly when sed's reading of each value that is used, with the
later substitutions applied, is the value.
-/

namespace CmakeXenomai.Install

open Lib.Gsub Lib.Templates

/-! ## Templates -/

/-- Part of a line that has no placeholder in it. -/
def Untouched (s : Text) : Prop :=
  '\n' ∉ s ∧ ∀ x ∈ Placeholder.all, ¬ x.spelled <:+: s

instance (s : Text) : Decidable (Untouched s) :=
  inferInstanceAs (Decidable (_ ∧ _))

/-- Every placeholder begins with an at sign. -/
theorem untouched_of_no_at {s : Text} (hat : '@' ∉ s) (hline : '\n' ∉ s) : Untouched s :=
  ⟨hline, fun _ _ hx => hat (hx.subset List.mem_cons_self)⟩

/-- Characters that no placeholder has. -/
def separator (c : Char) : Bool :=
  Placeholder.all.all fun x => c ∉ x.spelled

/-- A line of a template: at most one placeholder, kept apart from the rest of
the line as the templates have it by a quote, a slash or a space. -/
inductive Line where
  | plain (s : Text) (h : Untouched s)
  | hole (before : Text) (x : Placeholder) (after : Text) (hbefore : Untouched before)
      (hafter : Untouched after) (hleft : before.getLast?.all separator)
      (hright : after.head?.all separator)

namespace Line

def frags : Line → Template Char Placeholder
  | plain s _ => lits s
  | hole before x after _ _ _ _ => lits before ++ .ref x :: lits after

/-- The line as it stands in the file. -/
def text (l : Line) : Text := fill id Placeholder.spelled l.frags

/-- The line with the value in place of the placeholder. -/
def filled (v : Values) (l : Line) : Text := fill id v.val l.frags

/-- The placeholder of the line. -/
def placeholder? : Line → Option Placeholder
  | plain _ _ => none
  | hole _ x _ _ _ _ _ => some x

theorem fill_plain (val : Placeholder → Text) (s : Text) (h : Untouched s) :
    fill id val (plain s h).frags = s := by
  show fill id val (lits s) = s
  rw [fill_lits, List.map_id]

theorem fill_hole (val : Placeholder → Text) {before after : Text} {x : Placeholder} {h₁ h₂ h₃ h₄} :
    fill id val (hole before x after h₁ h₂ h₃ h₄).frags = before ++ val x ++ after := by
  show fill id val (lits before ++ .ref x :: lits after) = _
  rw [fill_append, fill_cons, fill_lits, fill_lits, List.map_id, List.map_id, List.append_assoc]
  rfl

theorem newline_not_mem_filled (v : Values) (l : Line) : '\n' ∉ l.filled v := by
  unfold filled
  cases l with
  | plain s h =>
    rw [fill_plain]
    exact h.1
  | hole before x after hbefore hafter _ _ =>
    rw [fill_hole]
    simp [hbefore.1, hafter.1, v.no_newline x]

end Line

/-- A template file, as its lines. -/
abbrev TemplateFile := List Line

/-- The template with the values in place of the placeholders. -/
def filled (v : Values) (t : TemplateFile) : Text :=
  t.flatMap fun l => l.filled v ++ ['\n']

/-- `sed … "${template}"` -/
def render (S : Sed) (v : Values) (t : TemplateFile) : Option Text :=
  S.run (script v) (t.map Line.text)

/-- Whenever sed succeeds on all templates, every installed file is its
template with the values in place of the placeholders. -/
def RenderedLiterally (S : Sed) (v : Values) (ts : List TemplateFile) : Prop :=
  (∀ t ∈ ts, ∃ out, render S v t = some out) → ∀ t ∈ ts, render S v t = some (filled v t)

/-! ## Conditions on the values -/

/-- The comma after a value is not the one that ends its replacement, and sed
takes what comes after that one for flags and further commands. -/
def Smuggles (S : Sed) (v : Values) : Prop :=
  ∃ x, S.read (chunk v x) = .smuggled

/-- sed does not accept the script. -/
def Rejects (S : Sed) (v : Values) : Prop :=
  ∃ x, S.read (chunk v x) = .reject

/-- What ends up in place of a placeholder: the reading of its value, with the
substitutions after its own. -/
def putIn (S : Sed) (v : Values) (x : Placeholder) : Option Text :=
  match S.read (chunk v x), S.substs (x.later.map (chunk v)) with
  | .subst _ repl, some cmds => some (gsubs cmds repl)
  | _, _ => none

/-- Some template has the placeholder. -/
def Uses (ts : List TemplateFile) (x : Placeholder) : Prop :=
  ∃ t ∈ ts, ∃ l ∈ t, l.placeholder? = some x

/-! ## Scripts of substitutions only -/

/-- The commands that put `r` in place of the placeholders. -/
def commands (r : Placeholder → Text) (xs : List Placeholder) : List (Text × Text) :=
  xs.map fun x => (x.spelled, r x)

theorem spelled_of_mem_commands {r : Placeholder → Text} {xs : List Placeholder} {cmd : Text × Text}
    (h : cmd ∈ commands r xs) : ∃ x : Placeholder, cmd.1 = x.spelled := by
  obtain ⟨x, -, rfl⟩ := List.mem_map.mp h
  exact ⟨x, rfl⟩

theorem read_chunk_subst {S : Sed} {v : Values} {x : Placeholder} {pat repl : Text}
    (h : S.read (chunk v x) = .subst pat repl) : pat = x.spelled := by
  rw [read_chunk] at h
  split at h
  · simp at h
  · exact (S.command_eq_subst h).1

/-- Every option is a substitution unless one is rejected or goes on. -/
theorem exists_replacements {S : Sed} {v : Values} (hsmuggles : ¬ Smuggles S v)
    (hrejects : ¬ Rejects S v) :
    ∃ r : Placeholder → Text, ∀ x, S.read (chunk v x) = .subst x.spelled (r x) := by
  have hread : ∀ x, ∃ r, S.read (chunk v x) = .subst x.spelled r := by
    intro x
    cases h : S.read (chunk v x) with
    | reject => exact absurd ⟨x, h⟩ hrejects
    | smuggled => exact absurd ⟨x, h⟩ hsmuggles
    | subst pat repl => exact ⟨repl, by rw [read_chunk_subst h]⟩
  exact Classical.axiomOfChoice hread

theorem substs_commands {S : Sed} {v : Values} {r : Placeholder → Text}
    (hr : ∀ x, S.read (chunk v x) = .subst x.spelled (r x)) (xs : List Placeholder) :
    S.substs (xs.map (chunk v)) = some (commands r xs) := by
  induction xs with
  | nil => rfl
  | cons x xs ih =>
    rw [List.map_cons, Sed.substs, hr x]
    simp only
    rw [ih]
    rfl

theorem substs_of_rejects {S : Sed} {v : Values} {x : Placeholder}
    (hx : S.read (chunk v x) = .reject) (xs : List Placeholder) (hmem : x ∈ xs) :
    S.substs (xs.map (chunk v)) = none := by
  induction xs with
  | nil => cases hmem
  | cons y xs ih =>
    rw [List.map_cons, Sed.substs]
    rcases List.mem_cons.mp hmem with rfl | hmem
    · rw [hx]
    · split
      · rw [ih hmem]
        rfl
      · rfl

theorem run_script {S : Sed} {v : Values} (hsmuggles : ¬ Smuggles S v) (lines : List Text) :
    S.run (script v) lines = (S.substs (script v)).map fun cmds =>
      lines.flatMap fun line => gsubs cmds line ++ ['\n'] := by
  refine if_neg ?_
  intro h
  obtain ⟨c, hc, hread⟩ := h
  obtain ⟨x, -, rfl⟩ := List.mem_map.mp hc
  exact hsmuggles ⟨x, hread⟩

/-! ## One line -/

theorem separator_not_mem {c : Char} (hc : separator c) (x : Placeholder) : c ∉ x.spelled := by
  have h := List.all_eq_true.mp hc x (Placeholder.mem_all x)
  simpa using h

theorem Untouched.not_isInfix {s part : Text} (h : Untouched s) (hpart : part <:+: s)
    (x : Placeholder) : ¬ x.spelled <:+: part :=
  fun hx => h.2 x (Placeholder.mem_all x) (hx.trans hpart)

section

variable {cmds : List (Text × Text)} (hcmds : ∀ cmd ∈ cmds, ∃ x : Placeholder, cmd.1 = x.spelled)
include hcmds

theorem gsubs_untouched {s part : Text} (h : Untouched s) (hpart : part <:+: s) :
    gsubs cmds part = part := by
  refine gsubs_of_not_isInfix fun cmd hcmd => ?_
  obtain ⟨x, hx⟩ := hcmds cmd hcmd
  rw [hx]
  exact h.not_isInfix hpart x

theorem gsubs_split {c : Char} (hc : separator c) (a b : Text) :
    gsubs cmds (a ++ c :: b) = gsubs cmds a ++ c :: gsubs cmds b := by
  refine gsubs_append_sep (fun cmd hcmd => ?_) (fun cmd hcmd => ?_) a b
  · obtain ⟨x, hx⟩ := hcmds cmd hcmd
    simp [hx, Placeholder.spelled]
  · obtain ⟨x, hx⟩ := hcmds cmd hcmd
    rw [hx]
    exact separator_not_mem hc x

/-- The text around a placeholder stays, whatever is put in its place. -/
theorem gsubs_between {before after : Text} (hbefore : Untouched before) (hafter : Untouched after)
    (hleft : before.getLast?.all separator) (hright : after.head?.all separator) (s : Text) :
    gsubs cmds (before ++ s ++ after) = before ++ gsubs cmds s ++ after := by
  have hend : gsubs cmds (s ++ after) = gsubs cmds s ++ after := by
    cases after with
    | nil => simp
    | cons c a =>
      rw [gsubs_split hcmds (by simpa using hright),
        gsubs_untouched hcmds hafter (List.suffix_cons c a).isInfix]
  rw [List.append_assoc, List.append_assoc]
  rcases List.eq_nil_or_concat before with rfl | ⟨b, c, rfl⟩
  · exact hend
  · have hb : b <:+: b.concat c := by
      rw [List.concat_eq_append]
      exact List.infix_append_left
    rw [List.concat_eq_append, List.append_assoc, List.singleton_append,
      gsubs_split hcmds (by simpa using hleft), gsubs_untouched hcmds hbefore hb, hend]
    simp

end

/-- In place of a placeholder: nothing until its own substitution, then what
the later ones make of the replacement. -/
theorem gsubs_spelled (r : Placeholder → Text) (x : Placeholder) :
    gsubs (commands r Placeholder.all) x.spelled = gsubs (commands r x.later) (r x) := by
  have hsplit : commands r Placeholder.all =
      commands r x.earlier ++ (x.spelled, r x) :: commands r x.later := by
    rw [commands, x.all_eq, List.map_append]
    rfl
  have hbefore : gsubs (commands r x.earlier) x.spelled = x.spelled := by
    refine gsubs_of_not_isInfix fun cmd hcmd => ?_
    obtain ⟨y, hy, rfl⟩ := List.mem_map.mp hcmd
    exact x.not_isInfix_of_earlier y hy
  rw [hsplit, gsubs_append, hbefore]
  show gsubs (commands r x.later) (gsub x.spelled (r x) x.spelled) = _
  have hown : gsub x.spelled (r x) (x.spelled ++ []) = r x ++ gsub x.spelled (r x) [] :=
    gsub_append_left (List.cons_ne_nil _ _) []
  rw [List.append_nil, gsub_nil, List.append_nil] at hown
  rw [hown]

/-- A line comes out with its value exactly when that is what is put in. -/
theorem gsubs_line_iff (v : Values) (r : Placeholder → Text) (l : Line) :
    gsubs (commands r Placeholder.all) l.text = l.filled v ↔
      ∀ x, l.placeholder? = some x → gsubs (commands r x.later) (r x) = v.val x := by
  have hcmds : ∀ cmd ∈ commands r Placeholder.all, ∃ x : Placeholder, cmd.1 = x.spelled :=
    fun cmd => spelled_of_mem_commands
  unfold Line.text Line.filled
  cases l with
  | plain s h =>
    rw [Line.fill_plain, Line.fill_plain, gsubs_untouched hcmds h (List.infix_refl s)]
    simp [Line.placeholder?]
  | hole before x after hbefore hafter hleft hright =>
    rw [Line.fill_hole, Line.fill_hole, gsubs_between hcmds hbefore hafter hleft hright,
      gsubs_spelled, List.append_left_inj, List.append_right_inj]
    simp [Line.placeholder?]

/-! ## Whole files -/

theorem count_newline_filled (v : Values) (t : TemplateFile) :
    (filled v t).count '\n' = t.length := by
  induction t with
  | nil => rfl
  | cons l t ih =>
    have hl : (l.filled v).count '\n' = 0 :=
      List.count_eq_zero_of_not_mem (l.newline_not_mem_filled v)
    have hsplit : filled v (l :: t) = l.filled v ++ '\n' :: filled v t := by simp [filled]
    rw [hsplit, List.count_append, List.count_cons_self, hl, ih, List.length_cons]
    omega

theorem length_le_count_newline (f : Line → Text) (t : TemplateFile) :
    t.length ≤ (t.flatMap fun l => f l ++ ['\n']).count '\n' := by
  induction t with
  | nil => simp
  | cons l t ih =>
    rw [List.flatMap_cons, List.count_append, List.count_append, List.count_singleton_self,
      List.length_cons]
    omega

/-- Files are equal only line by line: values have no newlines, so a newline
too many in one line is one too many in the file. -/
theorem flatMap_eq_filled_iff (v : Values) (f : Line → Text) (t : TemplateFile) :
    (t.flatMap fun l => f l ++ ['\n']) = filled v t ↔ ∀ l ∈ t, f l = l.filled v := by
  constructor
  · intro h
    induction t with
    | nil => simp
    | cons l t ih =>
      have hlen := length_le_count_newline f t
      obtain ⟨rest, hrest⟩ : ∃ rest, rest = t.flatMap fun l => f l ++ ['\n'] := ⟨_, rfl⟩
      have hcons : f l ++ '\n' :: rest = l.filled v ++ '\n' :: filled v t := by
        simpa [filled, hrest] using h
      rw [← hrest] at ih hlen
      have hl := l.newline_not_mem_filled v
      have heq : f l = l.filled v := by
        rcases List.append_eq_append_iff.mp hcons with ⟨w, hw, hw'⟩ | ⟨w, hw, hw'⟩
        · cases w with
          | nil => simpa using hw.symm
          | cons c w =>
            obtain ⟨rfl, -⟩ := List.cons.inj hw'
            exact absurd (by simp [hw]) hl
        · cases w with
          | nil => simpa using hw
          | cons c w =>
            obtain ⟨rfl, htail⟩ := List.cons.inj hw'
            have hrest' : filled v t = w ++ '\n' :: rest := htail
            have hcount := congrArg (List.count '\n') hrest'
            rw [count_newline_filled, List.count_append, List.count_cons_self] at hcount
            omega
      rw [heq] at hcons
      have ht := ih (List.cons.inj (List.append_cancel_left hcons)).2
      intro l' hl'
      rcases List.mem_cons.mp hl' with rfl | hl'
      · exact heq
      · exact ht l' hl'
  · intro h
    unfold filled
    exact congrArg List.flatten (List.map_congr_left fun l hl => by rw [h l hl])

/-- For scripts that are nothing but their ten substitutions: the installed
files are rendered literally exactly if sed rejects the script, or the value
of every placeholder in them is what ends up in its place. -/
theorem renderedLiterally_iff {S : Sed} {v : Values} (hsmuggles : ¬ Smuggles S v)
    (ts : List TemplateFile) :
    RenderedLiterally S v ts ↔
      Rejects S v ∨ ∀ x, Uses ts x → putIn S v x = some (v.val x) := by
  by_cases hrejects : Rejects S v
  · refine iff_of_true ?_ (.inl hrejects)
    intro hsucceeds t ht
    obtain ⟨x, hx⟩ := hrejects
    obtain ⟨out, hout⟩ := hsucceeds t ht
    rw [render, run_script hsmuggles, script, substs_of_rejects hx _ x.mem_all] at hout
    cases hout
  · obtain ⟨r, hr⟩ := exists_replacements hsmuggles hrejects
    have hrender : ∀ t, render S v t =
        some (t.flatMap fun l => gsubs (commands r Placeholder.all) l.text ++ ['\n']) := by
      intro t
      rw [render, run_script hsmuggles, script, substs_commands hr, Option.map_some,
        List.flatMap_map]
    have hputIn : ∀ x, putIn S v x = some (gsubs (commands r x.later) (r x)) := by
      intro x
      rw [putIn, hr x, substs_commands hr]
    have hfile : ∀ t, render S v t = some (filled v t) ↔
        ∀ l ∈ t, ∀ x, l.placeholder? = some x → putIn S v x = some (v.val x) := by
      intro t
      rw [hrender, Option.some.injEq, flatMap_eq_filled_iff]
      simp only [gsubs_line_iff, hputIn, Option.some.injEq]
    have hiff : RenderedLiterally S v ts ↔ ∀ t ∈ ts, render S v t = some (filled v t) :=
      ⟨fun h => h fun t _ => ⟨_, hrender t⟩, fun h _ => h⟩
    rw [hiff, or_iff_right hrejects]
    simp only [hfile]
    constructor
    · rintro h x ⟨t, ht, l, hl, hx⟩
      exact h t ht l hl x hx
    · intro h t ht l hl x hx
      exact h x ⟨t, ht, l, hl, hx⟩

/-- When the installed files are rendered literally: unless a value goes on
after the end of its own replacement, exactly if sed rejects the script or what
ends up in place of every placeholder of the templates is its value. -/
theorem rendered_literally (S : Sed) (v : Values) (ts : List TemplateFile) :
    (¬ Smuggles S v ∧ (Rejects S v ∨ ∀ x, Uses ts x → putIn S v x = some (v.val x)) →
        RenderedLiterally S v ts) ∧
      (RenderedLiterally S v ts →
        Smuggles S v ∨ Rejects S v ∨ ∀ x, Uses ts x → putIn S v x = some (v.val x)) := by
  constructor
  · intro h
    exact (renderedLiterally_iff h.1 ts).mpr h.2
  · intro h
    by_cases hsmuggles : Smuggles S v
    · exact .inl hsmuggles
    · exact .inr ((renderedLiterally_iff hsmuggles ts).mp h)

/-! ## Values -/

/-- Characters that mean nothing to sed in a replacement. -/
def literalChar (c : Char) : Bool := c ∉ [',', '&', '\\']

theorem splitDelim_literal {s : Text} (h : ∀ c ∈ s, literalChar c) (rest : Text) :
    splitDelim (s ++ ',' :: rest) = some (s, rest) := by
  induction s with
  | nil => rfl
  | cons c s ih =>
    have hc := h c List.mem_cons_self
    simp only [literalChar, List.mem_cons, List.not_mem_nil, or_false, not_or,
      decide_eq_true_eq] at hc
    rw [List.cons_append, splitDelim, ih fun c' hc' => h c' (List.mem_cons_of_mem _ hc')]
    · rfl
    · exact hc.1
    · exact fun h _ => hc.2.2 h
    · exact fun _ _ h _ => hc.2.2 h

theorem reading_literal (S : Sed) (m : Text) {s : Text} (h : ∀ c ∈ s, literalChar c)
    (hnewline : '\n' ∉ s) : S.reading m s = some s := by
  induction s with
  | nil => exact S.reading_nil m
  | cons c s ih =>
    have hc := h c List.mem_cons_self
    simp only [literalChar, List.mem_cons, List.not_mem_nil, or_false, not_or,
      decide_eq_true_eq] at hc
    rw [List.mem_cons, not_or] at hnewline
    rw [S.reading_cons m c s hc.2.1 hc.2.2 (Ne.symm hnewline.1),
      ih (fun c' hc' => h c' (List.mem_cons_of_mem _ hc')) hnewline.2]
    rfl

/-- Such values are what sed reads. -/
theorem read_chunk_literal (S : Sed) {v : Values} (hliteral : ∀ x, ∀ c ∈ v.val x, literalChar c)
    (x : Placeholder) : S.read (chunk v x) = .subst x.spelled (v.val x) := by
  have hsplit : splitDelim (v.val x ++ ",g".toList) = some (v.val x, ['g']) :=
    splitDelim_literal (hliteral x) ['g']
  rw [read_chunk, hsplit]
  simp only
  rw [Sed.command, if_pos rfl, reading_literal S _ (hliteral x) (v.no_newline x)]

/-- Values without commas, ampersands and backslashes are rendered literally
where they do not contain a placeholder that is substituted later. -/
theorem renderedLiterally_of_literal (S : Sed) {v : Values} {ts : List TemplateFile}
    (hliteral : ∀ x, ∀ c ∈ v.val x, literalChar c)
    (hlater : ∀ x, Uses ts x → ∀ y ∈ x.later, ¬ y.spelled <:+: v.val x) :
    RenderedLiterally S v ts := by
  have hread := read_chunk_literal S hliteral
  have hsmuggles : ¬ Smuggles S v := by
    intro h
    obtain ⟨x, hx⟩ := h
    rw [hread] at hx
    cases hx
  refine (renderedLiterally_iff hsmuggles ts).mpr (.inr fun x hx => ?_)
  rw [putIn, hread, substs_commands hread]
  refine congrArg some (gsubs_of_not_isInfix fun cmd hcmd => ?_)
  obtain ⟨y, hy, rfl⟩ := List.mem_map.mp hcmd
  exact hlater x hx y hy

/-- Values of an installation below `/opt` whose libdir has an ampersand. -/
def ampersandValues : Values where
  val
    | .core => "cobalt".toList
    | .coreUpper => "COBALT".toList
    | .pfx => "/opt".toList
    | .libdir => "/opt/r&d/lib".toList
    | .includedir => "/opt/include".toList
    | .libToPrefix => "../..".toList
    | .libdirRel => "r&d/lib".toList
    | .includedirRel => "include".toList
    | .cmakeVersionCode => "3.0.4".toList
    | .cmakeSizeofVoidP => "8".toList
  no_newline := by intro x; cases x <;> decide

/-- A line from the texts around its placeholder. -/
def Line.around (before : String) (x : Placeholder) (after : String)
    (h : Untouched before.toList ∧ Untouched after.toList ∧
      before.toList.getLast?.all separator ∧ after.toList.head?.all separator) : Line :=
  .hole before.toList x after.toList h.1 h.2.1 h.2.2.1 h.2.2.2

/-- The line of `xenomai-targets.cmake.in` with a placeholder. -/
def importPrefixLine : Line :=
  .around "get_filename_component(_IMPORT_PREFIX \"${CMAKE_CURRENT_LIST_DIR}/../../"
    .libToPrefix "\" ABSOLUTE)" (by decide +kernel)

/-- The lines of `xenomai-config.cmake.in` with one. -/
def packagePrefixLine : Line :=
  .around "get_filename_component(PACKAGE_PREFIX_DIR \"${CMAKE_CURRENT_LIST_DIR}/../../"
    .libToPrefix "\" ABSOLUTE)" (by decide +kernel)

def includedirLine : Line :=
  .around "set(_xenomai_includedir \"" .includedirRel "\")" (by decide +kernel)

def libdirLine : Line :=
  .around "set(_xenomai_libdir \"" .libdirRel "\")" (by decide +kernel)

/-- All lines with placeholders in the templates of the repository. -/
def placeholderLines : List Line :=
  [importPrefixLine, packagePrefixLine, includedirLine, libdirLine,
    -- xenomai-config-version.cmake.in
    .around "set(PACKAGE_VERSION \"" .cmakeVersionCode "\")" (by decide +kernel),
    .around "if(\"${CMAKE_SIZEOF_VOID_P}\" STREQUAL \"\" OR \"" .cmakeSizeofVoidP
      "\" STREQUAL \"\")" (by decide +kernel),
    .around "if(NOT CMAKE_SIZEOF_VOID_P STREQUAL \"" .cmakeSizeofVoidP "\")" (by decide +kernel),
    .around "  math(EXPR installedBits \"" .cmakeSizeofVoidP " * 8\")" (by decide +kernel)]

/-- Of the ten placeholders the templates have five. -/
theorem uses_placeholderLines (x : Placeholder) :
    Uses [placeholderLines] x ↔
      x ∈ [.libToPrefix, .libdirRel, .includedirRel, .cmakeVersionCode, .cmakeSizeofVoidP] := by
  cases x <;> simp [Uses, placeholderLines, importPrefixLine, packagePrefixLine, includedirLine,
    libdirLine, Line.around, Line.placeholder?]

/-- The line is installed with `r@libdir_rel@d/lib`, whatever else is in the
files. -/
theorem not_renderedLiterally_ampersand :
    ¬ ∃ ts, (∃ t ∈ ts, libdirLine ∈ t) ∧ RenderedLiterally posix ampersandValues ts := by
  intro h
  obtain ⟨ts, ⟨t, ht, hline⟩, h⟩ := h
  have hsmuggles : ¬ Smuggles posix ampersandValues := by
    intro h
    obtain ⟨x, hx⟩ := h
    cases x <;> exact absurd hx (by decide)
  have hrejects : ¬ Rejects posix ampersandValues := by
    intro h
    obtain ⟨x, hx⟩ := h
    cases x <;> exact absurd hx (by decide)
  have hputIn := ((renderedLiterally_iff hsmuggles ts).mp h).resolve_left hrejects
  have huses : Uses ts .libdirRel := ⟨t, ht, libdirLine, hline, rfl⟩
  exact absurd (hputIn .libdirRel huses) (by decide)

end CmakeXenomai.Install
