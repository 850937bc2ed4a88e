import CmakeXenomai.Install.Render
import CmakeXenomai.Install.Script
import CmakeXenomai.Package.Config

/-!
# What the installed files say

The installed config files differ from one another in a few lines only: which
targets the import file expects, which libraries go with them, and three
relative paths the installer filled in. `Installed.read?` takes the package from
these lines of the files. From the filled templates of a core it reads back the
core and the values that were put in (`PackageTemplates.read?_filled`).
-/

namespace CmakeXenomai.Package

open Install
open Lib.Cmake (Str)

/-! ## Lines of a form -/

/-- A line with a text in it, by what stands around that. -/
structure Form where
  before : Str
  after : Str
  nonempty : before ≠ []

namespace Form

def line (f : Form) (value : Str) : Str := f.before ++ value ++ f.after

/-- The text in a line of this form. -/
def value? (f : Form) (line : Str) : Option Str :=
  (line.dropPrefix? f.before).bind fun rest => rest.dropSuffix? f.after

/-- The texts in the lines of this form. -/
def values (f : Form) (text : Text) : List Str := (text.splitOn '\n').filterMap f.value?

/-- The text in the only line of this form. -/
def only? (f : Form) (text : Text) : Option Str :=
  match f.values text with
  | [value] => some value
  | _ => none

theorem value?_eq_some_iff {f : Form} {line value : Str} :
    f.value? line = some value ↔ line = f.line value := by
  unfold value? Form.line
  simp only [Option.bind_eq_some_iff, List.dropPrefix?_eq_some_iff, List.dropSuffix?_eq_some_iff,
    beq_iff_eq]
  constructor
  · rintro ⟨_, ⟨_, rfl, rfl⟩, _, rfl, rfl⟩
    rw [List.append_assoc]
  · rintro rfl
    exact ⟨value ++ f.after, ⟨f.before, List.append_assoc .., rfl⟩, f.after, rfl, rfl⟩

theorem value?_line (f : Form) (value : Str) : f.value? (f.line value) = some value :=
  value?_eq_some_iff.mpr rfl

theorem value?_nil (f : Form) : f.value? [] = none := by
  rw [Option.eq_none_iff_forall_not_mem]
  intro value hvalue
  have hline : [] = f.before ++ value ++ f.after := value?_eq_some_iff.mp hvalue
  rw [List.append_assoc] at hline
  exact f.nonempty (List.append_eq_nil_iff.mp hline.symm).1

end Form

/-! ## The package in the files -/

def expectedForm : Form where
  before := "foreach(_expectedTarget ".toList
  after := ")".toList
  nonempty := by decide

def sonameForm : Form where
  before := "  IMPORTED_SONAME_NOCONFIG \"".toList
  after := "\"".toList
  nonempty := by decide

def importPrefixForm : Form where
  before := "get_filename_component(_IMPORT_PREFIX \"${CMAKE_CURRENT_LIST_DIR}/../../".toList
  after := "\" ABSOLUTE)".toList
  nonempty := by decide

def includedirForm : Form where
  before := "set(_xenomai_includedir \"".toList
  after := "\")".toList
  nonempty := by decide

def libdirForm : Form where
  before := "set(_xenomai_libdir \"".toList
  after := "\")".toList
  nonempty := by decide

/-- The names between `foreach(_expectedTarget` and the bracket. -/
def expectedNames (c : Core) : Str := List.intercalate [' '] (expectedTargets c)

/-- The core whose targets an import file expects. -/
def coreOf? (targets : Text) : Option Core :=
  [Core.cobalt, Core.mercury].find? fun c => expectedForm.only? targets == some (expectedNames c)

/-- The package whose config files are in `dir`; the commands between these lines
are those of `xenomaiTargets` and `xenomaiConfig`. -/
def Installed.read? (files : Dir) (dir : Str) : Option Installed := do
  let targets ← files "xenomai-targets.cmake".toList
  let noconfig ← files "xenomai-targets-noconfig.cmake".toList
  let config ← files "xenomai-config.cmake".toList
  let core ← coreOf? targets
  -- the libraries of this core, in their order
  guard (sonameForm.values noconfig = libraries core)
  let libToPrefix ← importPrefixForm.only? targets
  let libdirRel ← libdirForm.only? config
  let includedirRel ← includedirForm.only? config
  return ⟨core, ⟨libToPrefix, libdirRel, includedirRel⟩, dir⟩

/-- `file(GLOB … "xenomai-targets-*.cmake")` -/
def Globbed (n : Str) : Prop := "xenomai-targets-".toList <+: n ∧ ".cmake".toList <:+ n

/-- The files of a directory are those of a package: it is read from them, and no
other file is included. -/
structure Installed.Found (pkg : Installed) (files : Dir) : Prop where
  read : Installed.read? files pkg.dir = some pkg
  globbed : ∀ n, Globbed n → n ≠ "xenomai-targets-noconfig.cmake".toList → files n = none

/-! ## Lines of a template -/

/-- The line of this form with a placeholder for its text, and the one with a
text that stays. -/
def Form.Hole (f : Form) (x : Placeholder) (l : Line) : Prop :=
  ∃ h₁ h₂ h₃ h₄, l = .hole f.before x f.after h₁ h₂ h₃ h₄

def Form.Fixed (f : Form) (value : Str) (l : Line) : Prop := ∃ h, l = .plain (f.line value) h

/-- Whatever is put in for the placeholder, the line has another form. -/
def Form.Apart (f : Form) : Line → Prop
  | .plain s _ => ¬ f.before <+: s
  | .hole before _ _ _ _ _ _ => ¬ f.before <+: before ∧ ¬ before <+: f.before

instance (f : Form) : DecidablePred f.Apart
  | .plain _ _ => inferInstanceAs (Decidable (¬ _))
  | .hole _ _ _ _ _ _ _ => inferInstanceAs (Decidable (_ ∧ _))

/-- One line of the template is `l`, and the others are apart. -/
def Form.Only (f : Form) (l : Line) (t : TemplateFile) : Prop :=
  ∃ front back, t = front ++ l :: back ∧ ∀ l' ∈ front ++ back, f.Apart l'

variable {f : Form} {x : Placeholder} {l : Line} {t : TemplateFile}

theorem Form.Hole.filled (h : f.Hole x l) (v : Values) : l.filled v = f.line (v.val x) := by
  obtain ⟨h₁, h₂, h₃, h₄, rfl⟩ := h
  exact Line.fill_hole v.val

theorem Form.Fixed.filled {value : Str} (h : f.Fixed value l) (v : Values) :
    l.filled v = f.line value := by
  obtain ⟨h, rfl⟩ := h
  exact Line.fill_plain v.val _ h

theorem Form.Apart.value?_filled (h : f.Apart l) (v : Values) : f.value? (l.filled v) = none := by
  rw [Option.eq_none_iff_forall_not_mem]
  intro value hvalue
  have hline : l.filled v = f.before ++ (value ++ f.after) := by
    rw [← List.append_assoc]
    exact value?_eq_some_iff.mp hvalue
  have hbefore : f.before <+: l.filled v := hline ▸ List.prefix_append ..
  cases l with
  | plain s hs =>
    rw [Line.filled, Line.fill_plain] at hbefore
    exact h hbefore
  | hole before x after h₁ h₂ h₃ h₄ =>
    -- both texts begin the line, so one begins the other
    rw [Line.filled, Line.fill_hole, List.append_assoc] at hbefore
    rcases List.prefix_or_prefix_of_prefix hbefore (List.prefix_append before _) with h' | h'
    · exact h.1 h'
    · exact h.2 h'

/-- The lines of a filled template are its own. -/
theorem splitOn_filled (v : Values) (t : TemplateFile) :
    (filled v t).splitOn '\n' = t.map (Line.filled v) ++ [[]] := by
  induction t with
  | nil => rfl
  | cons l t ih =>
    have hcons : filled v (l :: t) = l.filled v ++ '\n' :: filled v t := by simp [filled]
    rw [hcons, List.splitOn_append_cons_self_of_not_mem (l.newline_not_mem_filled v), ih]
    rfl

theorem values_filled (f : Form) (v : Values) (t : TemplateFile) :
    f.values (filled v t) = t.filterMap fun l => f.value? (l.filled v) := by
  unfold Form.values
  rw [splitOn_filled, List.filterMap_append, List.filterMap_map]
  simp [f.value?_nil]

theorem Form.Only.only?_filled (h : f.Only l t) {v : Values} {value : Str}
    (hl : l.filled v = f.line value) : f.only? (Install.filled v t) = some value := by
  obtain ⟨front, back, rfl, hapart⟩ := h
  -- the lines in front and behind have nothing to say
  have hnone : ∀ ls : TemplateFile, (∀ l' ∈ ls, f.Apart l') →
      ls.filterMap (fun l => f.value? (l.filled v)) = [] :=
    fun ls hls => List.filterMap_eq_nil_iff.mpr fun l' hl' => (hls l' hl').value?_filled v
  rw [List.forall_mem_append] at hapart
  have hvalues : f.values (Install.filled v (front ++ l :: back)) = [value] := by
    rw [values_filled, List.filterMap_append, List.filterMap_cons, hnone front hapart.1,
      hnone back hapart.2, hl, f.value?_line]
    rfl
  unfold Form.only?
  rw [hvalues]

/-! ## The templates of a core -/

/-- The lines that decide, as the templates of a core have them. -/
structure PackageTemplates (c : Core) (targets noconfig config : TemplateFile) : Prop where
  expected : ∃ l, expectedForm.Fixed (expectedNames c) l ∧ expectedForm.Only l targets
  importPrefix : ∃ l, importPrefixForm.Hole .libToPrefix l ∧ importPrefixForm.Only l targets
  sonames : noconfig.filterMap (fun l => sonameForm.value? l.text) = libraries c
  /-- There are no placeholders in it. -/
  noconfig_plain : ∀ l ∈ noconfig, l.placeholder? = none
  libdir : ∃ l, libdirForm.Hole .libdirRel l ∧ libdirForm.Only l config
  includedir : ∃ l, includedirForm.Hole .includedirRel l ∧ includedirForm.Only l config

theorem filled_of_plain (h : l.placeholder? = none) (v : Values) : l.filled v = l.text := by
  cases l with
  | plain s hs => rw [Line.filled, Line.text, Line.fill_plain, Line.fill_plain]
  | hole => cases h

theorem coreOf?_of_only? {targets : Text} {c : Core}
    (h : expectedForm.only? targets = some (expectedNames c)) : coreOf? targets = some c := by
  have hne : expectedNames .mercury ≠ expectedNames .cobalt := by decide +kernel
  unfold coreOf?
  rw [h]
  cases c with
  | cobalt => simp
  | mercury => simp [hne]

/-- **The files say what was filled in.** From the filled templates of a core its
package is read, with the relative paths that were put in. -/
theorem PackageTemplates.read?_filled {c : Core} {targets noconfig config : TemplateFile}
    (h : PackageTemplates c targets noconfig config) {v : Values} {files : Dir}
    (htargets : files "xenomai-targets.cmake".toList = some (filled v targets))
    (hnoconfig : files "xenomai-targets-noconfig.cmake".toList = some (filled v noconfig))
    (hconfig : files "xenomai-config.cmake".toList = some (filled v config)) (dir : Str) :
    Installed.read? files dir =
      some ⟨c, ⟨v.val .libToPrefix, v.val .libdirRel, v.val .includedirRel⟩, dir⟩ := by
  obtain ⟨l₁, hfixed, hexpected⟩ := h.expected
  obtain ⟨l₂, hup, honlyUp⟩ := h.importPrefix
  obtain ⟨l₃, hlib, honlyLib⟩ := h.libdir
  obtain ⟨l₄, hinc, honlyInc⟩ := h.includedir
  have hcore : coreOf? (filled v targets) = some c :=
    coreOf?_of_only? (hexpected.only?_filled (hfixed.filled v))
  have hsonames : sonameForm.values (filled v noconfig) = libraries c := by
    rw [values_filled, ← h.sonames]
    refine List.filterMap_congr fun l hl => ?_
    rw [filled_of_plain (h.noconfig_plain l hl)]
  unfold Installed.read?
  rw [htargets, hnoconfig, hconfig]
  simp only [Option.bind_eq_bind, Option.bind_some, hcore, hsonames,
    honlyUp.only?_filled (hup.filled v), honlyLib.only?_filled (hlib.filled v),
    honlyInc.only?_filled (hinc.filled v)]
  rfl

end CmakeXenomai.Package
