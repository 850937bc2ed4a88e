import CmakeXenomai.Package.Paths

/-!
# `xenomai-config.cmake`

What `find_package(Xenomai)` includes: it looks for the thread library, loads
the targets relative to the directory it is found in, and reports required
components as missing.

The installer's relative paths make every path in the targets' properties lead
into the tree the package is found in, so whether the package can be loaded
depends on the libraries of that tree alone (`package_loads_iff`).
-/

namespace CmakeXenomai.Package

open Lib.Cmake Lib.Targets Install
open Lib.Path (AbsPath normalize walk)
open Lib.Pattern (Matcher)

/-! ## The file -/

/-- An installed package: what the installer filled in, and the directory of
the config files. -/
structure Installed where
  core : Core
  rel : RelPaths
  dir : Str

/-- `_xenomai_threadlib` -/
def threadlib (env : Consumer) : Str :=
  if versionLess env.version [3, 1] then env.threadLibsInit else "Threads::Threads".toList

namespace Installed

variable (pkg : Installed)

def vars (env : Consumer) : Vars where
  importPrefix := importPrefix pkg.dir pkg.rel.libToPrefix
  includedir := pkg.rel.includedirRel
  libdir := pkg.rel.libdirRel
  threadlib := threadlib env

/-- `CMAKE_CURRENT_LIST_FILE` of the import file. -/
def listFile : Str := pkg.dir ++ "/xenomai-targets.cmake".toList

/-- The targets the package brings. -/
def targets (env : Consumer) : ExportSet Str Imported := exportSet pkg.core (pkg.vars env)

end Installed

/-- What `find_package` sets for the config file, and the variables
`Xenomai_<comp>_FOUND` there are. -/
structure Request where
  components : Str
  required : Str → Option Str
  componentFound : Str → Option Str

/-- `check_required_components(Xenomai)`, by what it leaves of `Xenomai_FOUND`. -/
def checkRequiredComponents (req : Request) : Bool :=
  (expandList req.components).foldl
    (fun found comp =>
      if truthy (req.componentFound comp) then found
      else if truthy (req.required comp) then false
      else found) true

def threadsTarget : Str := "Threads::Threads".toList

/-- `find_dependency(Threads)` on a system with or without a thread library: a
target since CMake 3.1. -/
def findDependencyThreads (env : Consumer) (threads : Option Imported) (reg : Targets) :
    Option Targets :=
  threads.map fun t =>
    if versionLess env.version [3, 1] ∨ Defined reg threadsTarget then reg
    else Function.update reg threadsTarget (some t)

structure Found where
  reg : Targets
  found : Bool

/-- `xenomai-config.cmake` -/
def xenomaiConfig (env : Consumer) (threads : Option Imported) (req : Request) (pkg : Installed)
    (reg : Targets) : Except Failure Found :=
  match findDependencyThreads env threads reg with
  | none => .ok ⟨reg, false⟩
  | some reg =>
    (xenomaiTargets env pkg.core (pkg.vars env) pkg.listFile reg).map fun reg =>
      ⟨reg, checkRequiredComponents req⟩

theorem checkRequiredComponents_iff (req : Request) :
    checkRequiredComponents req ↔ ∀ comp ∈ expandList req.components,
      truthy (req.required comp) → truthy (req.componentFound comp) := by
  unfold checkRequiredComponents
  suffices h : ∀ (comps : List Str) (found : Bool), comps.foldl (fun found comp =>
      if truthy (req.componentFound comp) then found
      else if truthy (req.required comp) then false
      else found) found ↔ found ∧ ∀ comp ∈ comps,
        truthy (req.required comp) → truthy (req.componentFound comp) by
    simpa using h (expandList req.components) true
  intro comps
  induction comps with
  | nil => simp
  | cons comp comps ih =>
    intro found
    rw [List.foldl_cons, ih, List.forall_mem_cons]
    by_cases hfound : truthy (req.componentFound comp)
    · simp [hfound]
    · by_cases hrequired : truthy (req.required comp) <;> simp [hfound, hrequired]

/-- No target of the package is called like the one of the thread library. -/
theorem threadsTarget_not_mem (c : Core) : threadsTarget ∉ expectedTargets c := by
  cases c <;> decide +kernel

theorem findDependencyThreads_of_ne {env : Consumer} {threads : Option Imported}
    {reg reg' : Targets} (h : findDependencyThreads env threads reg = some reg') {n : Str}
    (hn : n ≠ threadsTarget) : reg' n = reg n := by
  obtain ⟨t, -, rfl⟩ := Option.map_eq_some_iff.mp h
  split_ifs
  · rfl
  · exact Function.update_of_ne hn ..

theorem findDependencyThreads_extends {env : Consumer} {threads : Option Imported}
    {reg reg' : Targets} (h : findDependencyThreads env threads reg = some reg') :
    Extends reg reg' := by
  obtain ⟨t, -, rfl⟩ := Option.map_eq_some_iff.mp h
  split_ifs with hdefined
  · exact .refl _
  · rw [not_or, not_defined_iff] at hdefined
    intro n d hn
    rw [Function.update_of_ne, hn]
    rintro rfl
    rw [hdefined.2] at hn
    cases hn

/-! ## Files -/

theorem missing?_eq_none_iff {c : Core} {v : Vars} {env : Consumer}
    (hplain : ∀ library ∈ libraries c, Plain (location v library)) :
    missing? env (importChecks c v) = none ↔
      ∀ library ∈ libraries c, env.fileExists (location v library) := by
  have hlibraries : ∀ library, library ∈ libraries c ↔
      ∃ e ∈ exports c v, e.library = some library := by
    intro library
    rw [← exports_library c v, List.mem_filterMap]
  have hchecks : missing? env (importChecks c v) = none ↔
      ∀ library ∈ libraries c, ∀ file ∈ expandList (location v library),
        env.fileExists file := by
    unfold missing? importChecks
    simp only [List.findSome?_eq_none_iff, List.mem_filterMap, Option.map_eq_some_iff,
      Option.map_eq_none_iff, List.find?_eq_none, hlibraries, Bool.not_eq_true',
      Bool.not_eq_false]
    constructor
    · rintro h library ⟨e, he, heq⟩
      exact h (e.target, location v library) ⟨e, he, library, heq, rfl⟩
    · rintro h _ ⟨e, he, library, heq, rfl⟩
      exact h library ⟨e, he, heq⟩
  rw [hchecks]
  refine forall₂_congr fun library hlibrary => ?_
  rw [expandList_plain (hplain library hlibrary), List.forall_mem_singleton]

/-! ## Relocation -/

/-- A file exists or not by where its path leads. -/
def FollowsPaths (env : Consumer) (tree : Str → Bool) : Prop :=
  ∀ file, env.fileExists file = tree (normalize file)

theorem pathText_str (p : InstallPath) : PathText p.str := by
  intro x hx
  rcases AbsPath.mem_str hx with rfl | ⟨c, hc, hx⟩
  · exact .inr rfl
  · exact .inl (List.all_eq_true.mp (p.chars c hc) x hx)

theorem pathText_of_prints {m : Matcher} {start : Str} {target : InstallPath} {r : Str}
    (h : Prints m start target.str r) : PathText (cmdSubst r) := by
  intro x hx
  rcases h.mem ((cmdSubst_isPrefix r).subset hx) with rfl | rfl | hx
  · exact .inl (by decide)
  · exact .inr rfl
  · exact pathText_str target x hx

/-- The staging root of an installation. -/
def stageRoot (root : Option InstallPath) : Str := stage (root.map InstallPath.toAbsPath)

theorem pathText_stageRoot (root : Option InstallPath) : PathText (stageRoot root) := by
  cases root with
  | none => exact fun _ hx => absurd hx List.not_mem_nil
  | some r => exact pathText_str r

/-- The import prefix is made of what the directory and the relative path are
made of. -/
theorem pathText_importPrefix {dir base libToPrefix : Str} (hdir : normalize dir = normalize base)
    (hbase : PathText base) (hup : PathText libToPrefix) :
    PathText (importPrefix dir libToPrefix) := by
  have hwalk : ∀ c ∈ walk [] (importPrefix dir libToPrefix), PathText c := by
    intro c hc
    rw [walk_importPrefix, (Lib.Path.normalize_eq_iff _ _).mp hdir] at hc
    rcases Lib.Path.mem_walk hc with hc | hc
    · have hc' := List.mem_of_mem_tail (List.mem_of_mem_tail hc)
      rcases Lib.Path.mem_walk hc' with h | h
      · exact absurd h List.not_mem_nil
      · exact fun x hx => hbase x (h x hx)
    · exact fun x hx => hup x (hc x hx)
  intro x hx
  unfold importPrefix at hx hwalk
  by_cases hroot : normalize (dir ++ "/../../".toList ++ libToPrefix) = ['/']
  · rw [if_pos hroot] at hx
    cases hx
  · rw [if_neg hroot] at hx hwalk
    rw [Lib.Path.walk_normalize] at hwalk
    rw [Lib.Path.normalize_eq_str] at hx
    rcases AbsPath.mem_str hx with rfl | ⟨c, hc, hxc⟩
    · exact .inr rfl
    · exact hwalk c (List.mem_reverse.mp hc) x hxc

/-- CMake from 3.0 on passes all checks of its version. -/
theorem not_beforeCmake25 {version : List Nat} (h : ¬ versionLess version [3, 0, 0]) :
    ¬ beforeCmake25 version := by
  intro hbefore
  apply h
  match version with
  | [] => rfl
  | [major] =>
    have hmajor : major < 3 := by simpa [beforeCmake25] using hbefore
    simp [versionLess, hmajor]
  | major :: minor :: rest =>
    have hscale : 0 < 10 ^ (Nat.toDigits 10 minor).length := by positivity
    have hless : 2 * (major * 10 ^ (Nat.toDigits 10 minor).length + minor) <
        5 * 10 ^ (Nat.toDigits 10 minor).length := by
      simpa [beforeCmake25] using hbefore
    have hmajor : major < 3 := by
      by_contra hge
      have h3 : 3 * 10 ^ (Nat.toDigits 10 minor).length ≤
          major * 10 ^ (Nat.toDigits 10 minor).length := Nat.mul_le_mul_right _ (by omega)
      omega
    simp [versionLess, hmajor]

/-- The relative paths of an installation: they lead to its directories, and
could be in a path themselves. -/
structure Leads (pfx libdir includedir : InstallPath) (rel : RelPaths) : Prop
    extends LeadsTo pfx.toAbsPath libdir.toAbsPath includedir.toAbsPath rel where
  textUp : PathText rel.libToPrefix
  textLib : PathText rel.libdirRel
  textInclude : PathText rel.includedirRel

theorem exists_leads (m : Matcher) {pfx libdir includedir : InstallPath}
    (hlib : pfx.comps <+: libdir.comps) (hinclude : pfx.comps <+: includedir.comps) :
    ∃ rel, Computes m pfx.str libdir.str includedir.str rel ∧ Leads pfx libdir includedir rel := by
  obtain ⟨rel, hrel, hleads⟩ := exists_leadsTo m hlib hinclude
  obtain ⟨r₁, r₂, r₃, hr₁, hr₂, hr₃, rfl⟩ := computes_iff.mp hrel
  exact ⟨_, hrel, hleads, pathText_of_prints hr₁, pathText_of_prints hr₂, pathText_of_prints hr₃⟩

/-- From the directory of the config files the variables of the import files lead
to the libdir and the includedir of the same tree. -/
theorem Leads.vars {pfx libdir includedir : InstallPath} {rel : RelPaths}
    (h : Leads pfx libdir includedir rel) {root : Option InstallPath} {dir : Str}
    (hdir : normalize dir = normalize (stageRoot root ++ libdir.str ++ "/cmake/xenomai".toList))
    (c : Core) (env : Consumer) :
    normalize (Installed.vars ⟨c, rel, dir⟩ env).lib = normalize (stageRoot root ++ libdir.str) ∧
      normalize (Installed.vars ⟨c, rel, dir⟩ env).inc =
        normalize (stageRoot root ++ includedir.str) ∧
      PathText (Installed.vars ⟨c, rel, dir⟩ env).lib ∧
      PathText (Installed.vars ⟨c, rel, dir⟩ env).inc := by
  have hbase : PathText (stageRoot root ++ libdir.str ++ "/cmake/xenomai".toList) :=
    ((pathText_stageRoot root).append (pathText_str libdir)).append (.of_all (by decide +kernel))
  have hprefix : PathText (importPrefix dir rel.libToPrefix) :=
    pathText_importPrefix hdir hbase h.textUp
  obtain ⟨hlib, hinclude⟩ := h.relocates (root.map InstallPath.toAbsPath) hdir
  exact ⟨hlib, hinclude, hprefix.append (pathText_cons_slash h.textLib),
    hprefix.append (pathText_cons_slash h.textInclude)⟩

/-- A path that denotes a file or a directory of the package in the tree with the
libdir `lib` and the includedir `inc`. -/
inductive LeadsInto (c : Core) (lib inc path : Str) : Prop where
  | lib (below : Str) (h : below ∈ libraries c ++ linkFiles c)
      (hpath : normalize path = normalize (lib ++ '/' :: below))
  | inc (hpath : normalize path = normalize inc)
  | incDir (below : Str) (h : below ∈ includeDirs c)
      (hpath : normalize path = normalize (inc ++ '/' :: below))

/-- Appended to paths that denote the same, a path leads to the same. -/
theorem normalize_join {a b : Str} (h : normalize a = normalize b) (below : Str) :
    normalize (a ++ '/' :: below) = normalize (b ++ '/' :: below) := by
  rw [Lib.Path.normalize_eq_iff, Lib.Path.walk_join, Lib.Path.walk_join,
    (Lib.Path.normalize_eq_iff _ _).mp h]

theorem OwnPath.leadsInto {c : Core} {v : Vars} {lib inc path : Str} (h : OwnPath c v path)
    (hlib : normalize v.lib = normalize lib) (hinc : normalize v.inc = normalize inc) :
    path ∈ pathsIn v.threadlib ∨ LeadsInto c lib inc path := by
  cases h with
  | lib below h => exact .inr (.lib below h (normalize_join hlib below))
  | inc => exact .inr (.inc hinc)
  | incDir below h => exact .inr (.incDir below h (normalize_join hinc below))
  | thread _ h => exact .inl h

theorem plain_location {v : Vars} (hlib : PathText v.lib) {c : Core} :
    ∀ library ∈ libraries c, Lib.Cmake.Plain (location v library) := fun library hlibrary =>
  plain_of_pathText (pathText_location hlib hlibrary) (by simp [location])

section

variable {pfx libdir includedir : InstallPath} {rel : RelPaths}
  (h : Leads pfx libdir includedir rel) {root : Option InstallPath} {dir : Str}
  (hdir : normalize dir = normalize (stageRoot root ++ libdir.str ++ "/cmake/xenomai".toList))
  (c : Core)

include h hdir

/-- With such relative paths the properties of the targets lead into the staged
directories. -/
theorem Leads.paths (env : Consumer) :
    ∀ n t, (n, t) ∈ (Installed.targets ⟨c, rel, dir⟩ env).entries → ∀ p value,
      t.prop p = some value → ∀ path ∈ pathsIn value, path ∈ pathsIn (threadlib env) ∨
        LeadsInto c (stageRoot root ++ libdir.str) (stageRoot root ++ includedir.str) path := by
  obtain ⟨hlib, hinc, htextLib, htextInc⟩ := h.vars hdir c env
  intro n t ht p value hvalue path hpath
  -- the target of an export, with its properties
  obtain ⟨e, he, heq⟩ := List.mem_map.mp ht
  obtain ⟨-, rfl⟩ := Prod.mk.inj heq
  exact (properties_below htextLib htextInc he hvalue path hpath).leadsInto hlib hinc

/-- The import files find what is in the staged directories, and nothing else
decides whether they can be loaded. -/
theorem Leads.loads_iff {env : Consumer} {tree : Str → Bool} {reg : Targets}
    (hversion : ¬ versionLess env.version [3, 0, 0]) (htree : FollowsPaths env tree)
    (hfresh : ∀ n ∈ expectedTargets c, reg n = none) :
    xenomaiTargets env c (Installed.vars ⟨c, rel, dir⟩ env) (Installed.listFile ⟨c, rel, dir⟩)
        reg = .ok ((Installed.targets ⟨c, rel, dir⟩ env).overlay reg) ↔
      ∀ library ∈ libraries c,
        tree (normalize (stageRoot root ++ libdir.str ++ '/' :: library)) := by
  obtain ⟨hpathLib, -, htext, -⟩ := h.vars hdir c env
  obtain ⟨v, hv⟩ : ∃ v, v = Installed.vars ⟨c, rel, dir⟩ env := ⟨_, rfl⟩
  rw [← hv] at hpathLib htext ⊢
  have hexists : ∀ library, env.fileExists (location v library) =
      tree (normalize (stageRoot root ++ libdir.str ++ '/' :: library)) := by
    intro library
    rw [htree, location, normalize_join hpathLib]
  -- no target is known, so what decides is the check of the files
  have hne : expectedTargets c ≠ [] := exportSet_names c v ▸ (exportSet c v).names_ne_nil
  rw [xenomaiTargets_eq (not_beforeCmake25 hversion), presence_absent hne hfresh]
  simp only
  rw [if_neg hversion]
  simp only [← hexists]
  rw [← missing?_eq_none_iff (plain_location htext)]
  cases hmissing : missing? env (importChecks c v) with
  | none => exact iff_of_true (by rw [hv]; rfl) rfl
  | some file => simp

end

/-- A machine with a mercury installation staged in `/home/staging`. -/
def stagedTree (path : Str) : Bool :=
  ["libmercury.so", "libcopperplate.so", "libvxworks.so", "libpsos.so", "libalchemy.so",
    "libsmokey.so"].any fun library => path == ("/home/staging/opt/lib/" ++ library).toList

def stagedConsumer : Consumer where
  version := [3, 16, 3]
  threadLibsInit := []
  fileExists file := stagedTree (normalize file)

end CmakeXenomai.Package
