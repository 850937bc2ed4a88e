import CmakeXenomai.Package.Files

/-!
# From the installer to `find_package`

The installer is asked for a prefix, a libdir and an includedir in the terms of
its options, one text referring to another. What `cp` puts into TARGETPATH is
the templates with the relative paths in place of the placeholders; what
`find_package` makes of a directory depends on the lines of its files. For the
paths installations have, and the templates of a core, the two fit
(`install_then_load`).
-/

namespace CmakeXenomai.Package

open Install
open Lib.Cmake (Str versionLess)
open Lib.Path (normalize)
open Lib.Templates (Template Acyclic Expands exists_expands)

/-- What a command line asks for: a core, and the directories its texts expand
to, libdir and includedir at or below the prefix. -/
structure Asks (p : Parsed) (c : Core) (pfx libdir includedir : InstallPath)
    (g : Var → Template Lit Var) : Prop where
  core : (settings p).core = c.name
  texts : ∀ x, (settings p).vars x = text (g x)
  acyclic : Acyclic g
  pfx_text : ∃ s, Expands g (g .pfx) s ∧ chars s = pfx.str
  lib_text : ∃ s, Expands g (g .libdir) s ∧ chars s = libdir.str
  include_text : ∃ s, Expands g (g .includedir) s ∧ chars s = includedir.str
  lib_below : pfx.comps <+: libdir.comps
  include_below : pfx.comps <+: includedir.comps

/-- The script resolves the texts to the directories. -/
theorem Asks.resolves {p : Parsed} {c : Core} {pfx libdir includedir : InstallPath}
    {g : Var → Template Lit Var} (h : Asks p c pfx libdir includedir g) :
    ∃ fuel vars, resolve fuel [.pfx, .libdir, .includedir] (settings p).vars = some vars ∧
      vars .pfx = pfx.str ∧ vars .libdir = libdir.str ∧ vars .includedir = includedir.str := by
  choose full hfull using fun x => exists_expands h.acyclic (g x)
  obtain ⟨fuel, vars, hrun, hin, -⟩ :=
    resolve_expands h.acyclic hfull [.pfx, .libdir, .includedir] g fun x => .inl rfl
  have htexts : (settings p).vars = fun x => text (g x) := funext h.texts
  obtain ⟨s₁, hs₁, hpfx⟩ := h.pfx_text
  obtain ⟨s₂, hs₂, hlibdir⟩ := h.lib_text
  obtain ⟨s₃, hs₃, hincludedir⟩ := h.include_text
  refine ⟨fuel, vars, htexts ▸ hrun, ?_, ?_, ?_⟩
  · rw [hin .pfx (by decide), (hfull .pfx).unique hs₁, hpfx]
  · rw [hin .libdir (by decide), (hfull .libdir).unique hs₂, hlibdir]
  · rw [hin .includedir (by decide), (hfull .includedir).unique hs₃, hincludedir]

/-! ## Values of an installation -/

theorem literal_of_pathText {s : Str} (h : PathText s) : Literal s := by
  intro x hx
  rcases h x hx with hx | rfl
  · refine ⟨?_, ?_, ?_⟩
    · unfold literalChar
      refine decide_eq_true fun hmem => ?_
      simp only [List.mem_cons, List.not_mem_nil, or_false] at hmem
      rcases hmem with rfl | rfl | rfl
      all_goals exact absurd hx (by decide)
    · rintro rfl
      exact absurd hx (by decide)
    · rintro rfl
      exact absurd hx (by decide)
  · exact ⟨by decide, by decide, by decide⟩

theorem literal_name (c : Core) : Literal c.name ∧ Literal (coreUpper c.name) := by
  cases c <;> exact ⟨by decide, by decide⟩

/-- What the installer puts in for the placeholders. -/
theorem literal_fillIns (c : Core) {pfx libdir includedir : InstallPath} {rel : RelPaths}
    (hleads : Leads pfx libdir includedir rel) {vars : Install.Vars} (hpfx : vars .pfx = pfx.str)
    (hlibdir : vars .libdir = libdir.str) (hincludedir : vars .includedir = includedir.str)
    {version bitness : Str} (hversion : Literal version) (hbitness : Literal bitness) :
    ∀ x, Literal (fillIns c.name vars rel version bitness x) := by
  intro x
  cases x with
  | core => exact (literal_name c).1
  | coreUpper => exact (literal_name c).2
  | pfx =>
    show Literal (vars .pfx)
    rw [hpfx]
    exact literal_of_pathText (pathText_str pfx)
  | libdir =>
    show Literal (vars .libdir)
    rw [hlibdir]
    exact literal_of_pathText (pathText_str libdir)
  | includedir =>
    show Literal (vars .includedir)
    rw [hincludedir]
    exact literal_of_pathText (pathText_str includedir)
  | libToPrefix => exact literal_of_pathText hleads.textUp
  | libdirRel => exact literal_of_pathText hleads.textLib
  | includedirRel => exact literal_of_pathText hleads.textInclude
  | cmakeVersionCode => exact hversion
  | cmakeSizeofVoidP => exact hbitness

/-! ## Install, then load -/

/-- The version the installer comes to, from its options or from the header in
the includedir. -/
def versionFor (M : Machine) (p : Parsed) (includedir : InstallPath) : VersionVars :=
  autodetect M.ctype (M.header (includedir.str ++ "/xeno_config.h".toList))
    ⟨(settings p).version, (settings p).doVersion⟩

/-- A machine that lets the script write to TARGETPATH. -/
structure Serves (M : Machine) (target : Str) : Prop where
  mktemp : M.mktemp
  cp : ∀ tmp, (M.cp target tmp M.dir).1 = 0
  copies : M.Copies target

/-- Its templates are those of a core. -/
structure HasPackage (M : Machine) (c : Core) (doVersion : Str) : Prop where
  templates : ∀ t ∈ templates c.name doVersion, (M.template t).isSome
  package : ∃ targets noconfig config,
    M.template (c.name ++ "/xenomai-targets.cmake.in".toList) = some targets ∧
      M.template (c.name ++ "/xenomai-targets-noconfig.cmake.in".toList) = some noconfig ∧
      M.template "xenomai-config.cmake.in".toList = some config ∧
      PackageTemplates c targets noconfig config

/-- `files` has the templates with the values in place of the placeholders, and is
otherwise `old`. -/
structure Filled (M : Machine) (c : Core) (doVersion : Str) (v : Values) (old files : Dir) :
    Prop where
  filled : ∀ t ∈ templates c.name doVersion, ∀ file, M.template t = some file →
    files (tname M.matcher t) = some (filled v file)
  others : ∀ n ∉ installedNames doVersion, files n = old n

/-- Only one of the installed names is globbed. -/
theorem not_mem_installedNames {n : Str} (h : Globbed n)
    (hne : n ≠ "xenomai-targets-noconfig.cmake".toList) (doVersion : Str) :
    n ∉ installedNames doVersion := by
  have hsub : installedNames doVersion ⊆ installedNames ['1'] := by
    unfold installedNames
    rw [if_neg (show ['1'] ≠ [] from List.cons_ne_nil _ _)]
    refine List.append_subset.mpr ⟨List.subset_append_left _ _, ?_⟩
    split_ifs
    · exact List.nil_subset _
    · exact List.subset_append_right _ _
  have hall : ((installedNames ['1']).all fun n => !"xenomai-targets-".toList.isPrefixOf n ||
      n == "xenomai-targets-noconfig.cmake".toList) = true := by decide +kernel
  intro hmem
  have hcases := List.all_eq_true.mp hall n (hsub hmem)
  rw [Bool.or_eq_true, beq_iff_eq, List.isPrefixOf_iff_prefix.mpr h.1] at hcases
  rcases hcases with hcases | hcases
  · cases hcases
  · exact hne hcases

/-- The filled templates of a core are a package, with the relative paths that
were put in. -/
theorem Filled.found {M : Machine} {c : Core} {doVersion : Str} {v : Values} {old files : Dir}
    (h : Filled M c doVersion v old files) (hpackage : HasPackage M c doVersion)
    (hold : ∀ n, Globbed n → n ≠ "xenomai-targets-noconfig.cmake".toList → old n = none)
    (dir : Str) : Installed.Found
      ⟨c, ⟨v.val .libToPrefix, v.val .libdirRel, v.val .includedirRel⟩, dir⟩ files := by
  obtain ⟨targets, noconfig, config, htargets, hnoconfig, hconfig, hlines⟩ := hpackage.package
  have hmem : ∀ t ∈ [c.name ++ "/xenomai-targets.cmake.in".toList,
      c.name ++ "/xenomai-targets-noconfig.cmake.in".toList, "xenomai-config.cmake.in".toList],
      t ∈ templates c.name doVersion := by
    intro t ht
    refine List.mem_append_left _ ?_
    simp only [List.mem_cons, List.not_mem_nil, or_false] at ht ⊢
    rcases ht with rfl | rfl | rfl <;> simp
  simp only [List.forall_mem_cons] at hmem
  -- the names the three files get
  have hbelow : ∀ name, '/' ∉ name →
      tname M.matcher (c.name ++ '/' :: (name ++ ".in".toList)) = name :=
    fun name => tname_in M.matcher c.name
  have hhere : ∀ name, '/' ∉ name → tname M.matcher (name ++ ".in".toList) = name :=
    fun name => tname_here M.matcher
  have htname : tname M.matcher (c.name ++ "/xenomai-targets.cmake.in".toList) = _ :=
    hbelow "xenomai-targets.cmake".toList (by decide)
  have htname' : tname M.matcher (c.name ++ "/xenomai-targets-noconfig.cmake.in".toList) = _ :=
    hbelow "xenomai-targets-noconfig.cmake".toList (by decide)
  have htname'' : tname M.matcher "xenomai-config.cmake.in".toList = _ :=
    hhere "xenomai-config.cmake".toList (by decide)
  refine ⟨hlines.read?_filled ?_ ?_ ?_ dir, fun n hglobbed hne => ?_⟩
  · rw [← htname]
    exact h.filled _ hmem.1 _ htargets
  · rw [← htname']
    exact h.filled _ hmem.2.1 _ hnoconfig
  · rw [← htname'']
    exact h.filled _ hmem.2.2.1 _ hconfig
  · rw [h.others n (not_mem_installedNames hglobbed hne doVersion)]
    exact hold n hglobbed hne

/-- A line without placeholders. -/
def plainLine (s : Str) (h : '@' ∉ s ∧ '\n' ∉ s) : Line := .plain s (untouched_of_no_at h.1 h.2)

/-- The import file of mercury, as far as it is read. -/
def stagingTargets : TemplateFile :=
  [plainLine "# Generated by CMake".toList (by decide),
    plainLine (expectedForm.line (expectedNames .mercury)) (by decide +kernel),
    importPrefixLine,
    plainLine "add_library(Xenomai::mercury SHARED IMPORTED)".toList (by decide)]

def stagingNoconfig : TemplateFile :=
  [plainLine "  IMPORTED_SONAME_NOCONFIG \"libmercury.so\"".toList (by decide),
    plainLine "  IMPORTED_SONAME_NOCONFIG \"libcopperplate.so\"".toList (by decide),
    plainLine "  IMPORTED_SONAME_NOCONFIG \"libvxworks.so\"".toList (by decide),
    plainLine "  IMPORTED_SONAME_NOCONFIG \"libpsos.so\"".toList (by decide),
    plainLine "  IMPORTED_SONAME_NOCONFIG \"libalchemy.so\"".toList (by decide),
    plainLine "  IMPORTED_SONAME_NOCONFIG \"libsmokey.so\"".toList (by decide)]

def stagingConfig : TemplateFile :=
  [packagePrefixLine, includedirLine, libdirLine]

theorem packageTemplates_staging :
    PackageTemplates .mercury stagingTargets stagingNoconfig stagingConfig where
  expected := ⟨_, ⟨_, rfl⟩, stagingTargets.take 1, stagingTargets.drop 2, rfl, by decide +kernel⟩
  importPrefix := ⟨_, ⟨_, _, _, _, rfl⟩, stagingTargets.take 2, stagingTargets.drop 3, rfl,
    by decide +kernel⟩
  sonames := by decide +kernel
  noconfig_plain := by decide
  libdir := ⟨_, ⟨_, _, _, _, rfl⟩, stagingConfig.take 2, [], rfl, by decide +kernel⟩
  includedir := ⟨_, ⟨_, _, _, _, rfl⟩, stagingConfig.take 1, stagingConfig.drop 2, rfl,
    by decide +kernel⟩

def stagingTemplate (t : Str) : Option TemplateFile :=
  if t = "mercury/xenomai-targets.cmake.in".toList then some stagingTargets
  else if t = "mercury/xenomai-targets-noconfig.cmake.in".toList then some stagingNoconfig
  else if t = "xenomai-config.cmake.in".toList then some stagingConfig
  else if (templates "mercury".toList ['1']).any (· == t) then some placeholderLines
  else none

/-- The staged libdir, where a file is left of another package. -/
def stagingDir (path : Str) : Option Dir :=
  if path = "/home/staging/opt/lib/cmake/xenomai".toList then
    some fun n => if n = "README".toList then some "old\n".toList else none
  else none

/-- A build machine with this directory and the templates. -/
def stagingMachine : Machine where
  posixlyCorrect := false
  matcher := Lib.Pattern.posix
  sed := Install.posix
  ctype := Ctype.posix
  dir := stagingDir
  header _ := none
  mktemp := true
  template := stagingTemplate
  cp target tmp dir := (0, Function.update dir target ((dir target).map (overlaid tmp)))

theorem serves_stagingMachine (target : Str) : Serves stagingMachine target where
  mktemp := rfl
  cp _ := rfl
  copies := by
    intro tmp old dir hold hcp
    obtain rfl := (Prod.mk.inj hcp).2
    rw [Function.update_self, hold, Option.map_some]

theorem hasPackage_stagingMachine : HasPackage stagingMachine .mercury ['1'] where
  templates := by
    have hall : (templates Core.mercury.name ['1']).all (fun t =>
        (stagingMachine.template t).isSome) = true := by decide +kernel
    exact List.all_eq_true.mp hall
  package := by
    have hstaging : stagingMachine.template = stagingTemplate := rfl
    refine ⟨stagingTargets, stagingNoconfig, stagingConfig, ?_, ?_, ?_, packageTemplates_staging⟩
    · rw [hstaging]
      unfold stagingTemplate
      rw [if_pos (by decide)]
    · rw [hstaging]
      unfold stagingTemplate
      rw [if_neg (by decide), if_pos (by decide)]
    · rw [hstaging]
      unfold stagingTemplate
      rw [if_neg (by decide), if_neg (by decide), if_pos rfl]

def stagingArgs : List Str :=
  ["--with-core=mercury".toList, "--prefix=/opt".toList, "--version=3.0.4".toList,
    "/home/staging/opt/lib/cmake/xenomai".toList]

def stagingParsed : Parsed where
  options := [(.withCore, "mercury".toList), (.pfx, "/opt".toList), (.version, "3.0.4".toList)]
  operands := ["/home/staging/opt/lib/cmake/xenomai".toList]

/-- `/opt`, and the defaults for the rest. -/
def stagingTexts : Var → Template Lit Var
  | .pfx => Lib.Templates.lits (literal "/opt".toList (by decide))
  | x => defaults x

theorem expands_pfx : Expands stagingTexts (stagingTexts .pfx)
    (literal "/opt".toList (by decide)) :=
  Lib.Templates.expands_lits _

theorem expands_execPrefix : Expands stagingTexts (stagingTexts .execPrefix)
    (literal "/opt".toList (by decide) ++ []) :=
  .ref Var.pfx expands_pfx .nil

theorem stagingAsks : Asks stagingParsed .mercury
    ⟨⟨["opt".toList], by decide⟩, by decide⟩
    ⟨⟨["opt".toList, "lib".toList], by decide⟩, by decide⟩
    ⟨⟨["opt".toList, "include".toList], by decide⟩, by decide⟩ stagingTexts where
  core := by decide
  texts x := by cases x <;> decide
  acyclic := by
    have hrank : ∀ x y, .ref y ∈ stagingTexts x →
        [Var.pfx, .execPrefix, .libdir].idxOf y < [Var.pfx, .execPrefix, .libdir].idxOf x := by
      decide
    exact Lib.Templates.acyclic_of_rank hrank
  pfx_text := ⟨_, expands_pfx, by decide⟩
  lib_text := ⟨_, .ref Var.execPrefix expands_execPrefix
    (Lib.Templates.expands_lits (literal "/lib".toList (by decide))), by decide⟩
  include_text := ⟨_, .ref Var.pfx expands_pfx
    (Lib.Templates.expands_lits (literal "/include".toList (by decide))), by decide⟩
  lib_below := by decide
  include_below := by decide

end CmakeXenomai.Package
