import CmakeXenomai.Package.Program

/-!
# Executables

A call of `xenomai_target_bootstrap` for an executable, in a project that has
loaded an installation: from the target it leaves behind to the processes of
the program. Where the application is complete but for `main`, the values of
`MAIN` and `MAIN_WRAP` after the fallback decide everything else
(`bootstrap_program`).
-/

namespace CmakeXenomai.Package

open Lib.Cmake Lib.Targets Macros Install
open Lib.Linker (Table preprocess)
open Bootstrap (Build ArgVec Process)

/-! ## Compiled sources -/

/-- The macros under which the header of an executable is compiled. -/
def headerTable (tc : Toolchain) (t : Table) (mainValue : Option Str) : Table :=
  if mainValue = some "PRECOMPILED".toList then tc.installed
  else if mainValue = some "SOURCE".toList then preprocess mainSource [] t
  else preprocess plainSource [] t

/-- Sources of an application: no generator expressions, not generated, and
there. -/
structure OwnSources (filePrefix : Str) (tree : Str → Option SourceFile) (sources : List Str) :
    Prop where
  nonempty : ∀ s ∈ sources, s ≠ []
  plain : ∀ s ∈ sources, ¬ typeTest <+: s
  other : ∀ s ∈ sources, s ∉ (generatedFiles filePrefix).map Prod.fst
  found : ∀ s ∈ sources, (tree s).isSome

section

variable {tc : Toolchain} {filePrefix : Str} {tree : Str → Option SourceFile} {sources : List Str}
  {t : Table}

theorem compile_own (hown : OwnSources filePrefix tree sources) (t : Table) :
    sources.mapM (compileSource tc.cc filePrefix tree t) =
      some ((sources.filterMap tree).map (compileApp t)) := by
  obtain ⟨-, -, hother, hfound⟩ := hown
  induction sources with
  | nil => rfl
  | cons s sources ih =>
    rw [List.forall_mem_cons] at hother hfound
    obtain ⟨file, hfile⟩ := Option.isSome_iff_exists.mp hfound.1
    have hnone : (generatedFiles filePrefix).lookup s = none := by
      rw [List.lookup_eq_none_iff]
      intro p hp
      exact bne_iff_ne.mpr fun h => hother.1 (List.mem_map.mpr ⟨p, hp, h.symm⟩)
    have hstep : compileSource tc.cc filePrefix tree t s = some (compileApp t file) := by
      unfold compileSource
      rw [hnone, hfile]
      rfl
    rw [List.mapM_cons, hstep, ih hother.2 hfound.2, List.filterMap_cons, hfile]
    rfl

theorem lookup_generated_main (filePrefix : Str) :
    (generatedFiles filePrefix).lookup (filePrefix ++ "_main.c".toList) = some mainSource :=
  List.lookup_cons_self

theorem lookup_generated_plain (filePrefix : Str) :
    (generatedFiles filePrefix).lookup (filePrefix ++ ".c".toList) = some plainSource := by
  have hne : ∀ suffix : Str, suffix ≠ ".c".toList →
      (filePrefix ++ ".c".toList == filePrefix ++ suffix) = false := by
    intro suffix hsuffix
    exact beq_false_of_ne fun h => hsuffix (List.append_cancel_left h).symm
  unfold generatedFiles
  rw [List.lookup_cons, hne _ (by decide)]
  show List.lookup _ ((filePrefix ++ "_shl.c".toList, _) :: _) = _
  rw [List.lookup_cons, hne _ (by decide)]
  exact List.lookup_cons_self

/-- The generated source of an executable. -/
theorem compile_generated (hquiet : Quiet t) {t' : Table} (ht : Renames t t')
    {mainValue : Option Str} (hpre : mainValue ≠ some "PRECOMPILED".toList) :
    compileSource tc.cc filePrefix tree t' (filePrefix ++
        if mainValue = some "SOURCE".toList then "_main.c".toList else ".c".toList) =
      some (headerUnit tc.cc (headerTable tc t' mainValue) mainValue) := by
  unfold compileSource headerUnit headerTable
  rw [if_neg hpre, if_neg hpre]
  by_cases hsource : mainValue = some "SOURCE".toList
  · rw [if_pos hsource, if_pos hsource, if_pos hsource, lookup_generated_main]
    exact compileHeader_mainSource hquiet ht
  · rw [if_neg hsource, if_neg hsource, if_neg hsource, lookup_generated_plain]
    exact compileHeader_plainSource hquiet ht

theorem evaluated_generated (hdirectory : '>' ∉ filePrefix) {suffix : Str}
    (hsuffix : '>' ∉ suffix ∧ suffix ≠ []) :
    evaluated .executable (generated filePrefix suffix) = [filePrefix ++ suffix] := by
  have hshl : '>' ∉ filePrefix ++ "_shl.c".toList := by
    rw [List.mem_append, not_or]
    exact ⟨hdirectory, by decide⟩
  have hexe : '>' ∉ filePrefix ++ suffix := by
    rw [List.mem_append, not_or]
    exact ⟨hdirectory, hsuffix.1⟩
  unfold evaluated generated
  rw [List.map_cons, List.map_singleton, genex_sharedLibrary hshl, genex_executable hexe]
  simp [hsuffix.2]

/-- **What is compiled**: the application, and the header unless it is taken
from the installation. -/
theorem compile_sources (hdirectory : '>' ∉ filePrefix) (hown : OwnSources filePrefix tree sources)
    (hquiet : Quiet t) {t' : Table} (ht : Renames t t') (xbs : Xbs) :
    (evaluated .executable (sources ++ addedSources filePrefix xbs)).mapM
        (compileSource tc.cc filePrefix tree t') =
      some ((sources.filterMap tree).map (compileApp t') ++
        if xbs.main = some "PRECOMPILED".toList then []
        else [headerUnit tc.cc (headerTable tc t' xbs.main) xbs.main]) := by
  have hsame : evaluated .executable sources = sources :=
    evaluated_eq (fun s hs => ⟨hown.nonempty s hs, hown.plain s hs⟩) _
  rw [evaluated_append, hsame, List.mapM_append, compile_own hown]
  unfold addedSources
  by_cases hpre : xbs.main = some "PRECOMPILED".toList
  · rw [if_pos hpre, if_pos hpre]
    rfl
  · have hsuffix : ∀ suffix ∈ ["_main.c".toList, ".c".toList], '>' ∉ suffix ∧ suffix ≠ [] := by
      intro suffix hmem
      simp only [List.mem_cons, List.not_mem_nil, or_false] at hmem
      rcases hmem with rfl | rfl <;> decide
    have hmem : (if xbs.main = some "SOURCE".toList then "_main.c".toList else ".c".toList) ∈
        ["_main.c".toList, ".c".toList] := by
      split_ifs <;> simp
    rw [if_neg hpre, if_neg hpre, evaluated_generated hdirectory (hsuffix _ hmem), List.mapM_cons,
      compile_generated hquiet ht hpre]
    rfl

end

/-! ## Macros -/

theorem macros_grown (tc : Toolchain) {target : Target} (htype : target.type = .executable)
    (sources libs : List Str) (xbs : Xbs) :
    macros tc (grown target sources (addedDefinitions xbs) libs) =
      wrapTable (macros tc target) xbs.mainWrap := by
  have htype' : (grown target sources (addedDefinitions xbs) libs).type = .executable := htype
  unfold macros wrapTable
  rw [htype, htype']
  show ((evaluated .executable (target.compileDefinitions ++ addedDefinitions xbs)).map
    definition).reverse ++ _ = _
  rw [evaluated_append, List.map_append, List.reverse_append, List.append_assoc]
  unfold addedDefinitions
  by_cases hrenamed : xbs.mainWrap = some "MACRO".toList
  · have hone : evaluated .executable [ifType "EXECUTABLE".toList "main=__real_main".toList] =
        ["main=__real_main".toList] := by
      unfold evaluated
      rw [List.map_singleton, genex_executable (by decide)]
      rfl
    rw [if_pos hrenamed, if_pos hrenamed, hone]
    rfl
  · rw [if_neg hrenamed, if_neg hrenamed]
    rfl

/-! ## The link line -/

section Line

variable {tc : Toolchain} {reg : Targets} {ok : Str → Prop}

theorem filter_harmless {items : List Str} (h : ∀ x ∈ items, Harmless tc reg ok x) (depth : Nat) :
    (items.flatMap (linkLine reg .executable depth)).filter isObject = [] := by
  rw [List.filter_eq_nil_iff]
  intro x hx
  obtain ⟨item, hitem, hx⟩ := List.mem_flatMap.mp hx
  rw [(h item hitem depth x hx).object]
  exact Bool.false_ne_true

theorem wraps_harmless {items : List Str} (h : ∀ x ∈ items, Harmless tc reg ok x) (depth : Nat) :
    ∀ n ∈ (items.flatMap (linkLine reg .executable depth)).flatMap (wraps tc), ok n := by
  intro n hn
  obtain ⟨x, hx, hn⟩ := List.mem_flatMap.mp hn
  obtain ⟨item, hitem, hx⟩ := List.mem_flatMap.mp hx
  exact (h item hitem depth x hx).wraps n hn

/-- What a call asks the installation for is there, and is no second request
for the bootstrap code. -/
structure Asked (c : Core) (xbs : Xbs) : Prop where
  modechk : xbs.modechk → c = .cobalt
  skins : ∀ skin ∈ xbs.skins, lower skin ∈ shorts c ∧
    lower skin ≠ "legacy_bootstrap".toList ∧ lower skin ≠ "legacy_bootstrap_wrap".toList

variable {env : Consumer} {pkg : Installed} (h : Loaded reg env pkg)
  (hlib : PathText (pkg.vars env).lib)
  (hflags : HarmlessFlags tc reg ok (pkg.vars env).threadlib) {xbs : Xbs}
  (hasked : Asked pkg.core xbs)

include h hlib hflags hasked

theorem harmless_modechk :
    ∀ x ∈ (if xbs.modechk then [modechkLibrary] else []), Harmless tc reg ok x := by
  intro x hx
  split_ifs at hx with hmodechk
  · rw [List.mem_singleton.mp hx]
    refine h.harmless hlib hflags (s := "modechk".toList) ?_ (by decide)
    rw [hasked.modechk hmodechk]
    decide +kernel
  · exact absurd hx List.not_mem_nil

theorem harmless_skins : ∀ x ∈ xbs.skins.map skinTarget, Harmless tc reg ok x := by
  intro x hx
  obtain ⟨skin, hskin, rfl⟩ := List.mem_map.mp hx
  obtain ⟨hmem, hno⟩ := hasked.skins skin hskin
  exact h.harmless hlib hflags hmem hno

variable {own : List Str} (hown : ∀ x ∈ own, Harmless tc reg ok x)

include hown

theorem objects_line (hobject : reg (bootstrapObject (pkg.vars env)) = none) (depth : Nat) :
    ((own ++ addedLibraries xbs).flatMap (linkLine reg .executable (depth + 1))).filter isObject =
      if xbs.main = some "PRECOMPILED".toList then [bootstrapObject (pkg.vars env)] else [] := by
  have hbootstrap := h.linkLine_legacyBootstrap hlib hobject depth
  have hwrap := h.linkLine_legacyBootstrapWrap hlib (hflags.flags _ rfl) depth
  unfold addedLibraries
  simp only [List.flatMap_append, List.filter_append, filter_harmless hown,
    filter_harmless (harmless_modechk h hlib hflags hasked),
    filter_harmless (harmless_skins h hlib hflags hasked), List.nil_append, List.append_nil]
  have hlinker :
      ((if xbs.mainWrap = some "LINKER".toList then [legacyBootstrapWrap] else []).flatMap
        (linkLine reg .executable (depth + 1))).filter isObject = [] := by
    split_ifs
    · rw [List.flatMap_singleton, hwrap, List.filter_singleton, not_isObject_wrapFlag]
      rfl
    · rfl
  rw [hlinker, List.append_nil]
  split_ifs
  · rw [List.flatMap_singleton, hbootstrap, List.filter_singleton, isObject_bootstrapObject]
    rfl
  · rfl

theorem wraps_line (hobject : reg (bootstrapObject (pkg.vars env)) = none) (hno : ¬ ok mainName)
    (depth : Nat) {wrapped : List Str}
    (hwrapped : wrapped = ((own ++ addedLibraries xbs).flatMap
      (linkLine reg .executable (depth + 1))).flatMap (wraps tc)) :
    (∀ n ∈ wrapped, n = mainName ∨ ok n) ∧
      (mainName ∈ wrapped ↔ xbs.mainWrap = some "LINKER".toList) := by
  have hbootstrap := h.linkLine_legacyBootstrap hlib hobject depth
  have hwrap := h.linkLine_legacyBootstrapWrap hlib (hflags.flags _ rfl) depth
  have hmembers : ∀ n, n ∈ wrapped → ok n ∨ n = mainName ∧ xbs.mainWrap = some "LINKER".toList := by
    intro n hn
    rw [hwrapped] at hn
    unfold addedLibraries at hn
    simp only [List.flatMap_append, List.mem_append] at hn
    rcases hn with hn | ((hn | hn) | hn) | hn
    · exact .inl (wraps_harmless hown _ n hn)
    · split_ifs at hn
      · rw [List.flatMap_singleton, hbootstrap, List.flatMap_singleton,
          wraps_bootstrapObject hlib] at hn
        exact absurd hn List.not_mem_nil
      · exact absurd hn List.not_mem_nil
    · exact .inl (wraps_harmless (harmless_modechk h hlib hflags hasked) _ n hn)
    · split_ifs at hn with hlinker
      · rw [List.flatMap_singleton, hwrap, List.flatMap_singleton, wraps_wrapFlag hlib] at hn
        exact .inr ⟨List.mem_singleton.mp hn, hlinker⟩
      · exact absurd hn List.not_mem_nil
    · exact .inl (wraps_harmless (harmless_skins h hlib hflags hasked) _ n hn)
  refine ⟨fun n hn => (hmembers n hn).elim .inr fun hmain => .inl hmain.1, ?_, ?_⟩
  · exact fun hn => ((hmembers _ hn).resolve_left hno).2
  · intro hlinker
    rw [hwrapped]
    unfold addedLibraries
    rw [if_pos hlinker]
    simp only [List.flatMap_append, List.mem_append, List.flatMap_singleton, hwrap,
      wraps_wrapFlag hlib, List.mem_singleton, true_or, or_true]

end Line

/-! ## Calls for executables -/

/-- The options of a call after the fallback. -/
def settled (c : Call) : Xbs := (settle c.version c.target c.read).xbs

/-- The files of the target before the call. -/
def ownFiles (tree : Str → Option SourceFile) (c : Call) : List SourceFile :=
  c.target.sources.filterMap tree

/-- The macros of its sources after it. -/
def callTable (tc : Toolchain) (c : Call) : Table :=
  wrapTable (macros tc c.target) (settled c).mainWrap

/-- `bootstrap.o` is the header with the wrapper, by the name `__wrap_main`. -/
structure Precompiled (tc : Toolchain) (file : Str) : Prop where
  object : tc.objectFile file = compileHeader tc.cc tc.installed
  define : tc.installed.lookup defineMainwrapper = some realMain
  weakref : tc.installed.lookup weakrefMainwrapper = some wrapMain
  others : ∀ n ∈ [realMain, wrapMain, xenomaiMainName, getargvName, bootstrapDso],
    tc.installed.lookup n = none

/-- A call for an executable that is complete but for `main`, in a project that
does not get in the way of the bootstrap code. -/
structure Ready (tc : Toolchain) (reg : Targets) (v : Vars) (core : Core)
    (tree : Str → Option SourceFile) (c : Call) : Prop where
  executable : c.target.type = .executable
  directory : '>' ∉ c.filePrefix
  sources : OwnSources c.filePrefix tree c.target.sources
  quiet : Quiet (macros tc c.target)
  closed : Closed tc (macros tc c.target) (ownFiles tree c)
  /-- Xenomai's libraries define what the header calls. -/
  calls : ∀ n ∈ (headerCalls tc.cc (headerTable tc (callTable tc c) (settled c).main)).map
    (headerTable tc (callTable tc c) (settled c).main).expand, tc.shared n
  precompiled : Precompiled tc (bootstrapObject v)
  flags : HarmlessFlags tc reg (Foreigner tc (functions (ownFiles tree c))) v.threadlib
  object : reg (bootstrapObject v) = none
  libraries : ∀ lib ∈ c.target.linkLibraries,
    Harmless tc reg (Foreigner tc (functions (ownFiles tree c))) lib
  asked : Asked core (settled c)

theorem Precompiled.compileHeader {tc : Toolchain} {file : Str} (h : Precompiled tc file) :
    tc.objectFile file = some (wrapperUnit tc.cc tc.installed wrapMain) :=
  h.object.trans (compileHeader_wrapper h.define h.weakref h.others)

/-- The steps of the build one by one. -/
theorem buildProgram_eq {tc : Toolchain} {reg : Targets} {depth : Nat} {filePrefix : Str}
    {tree : Str → Option SourceFile} {target : Target} (htype : target.type = .executable)
    {t : Table} (hmacros : macros tc target = t) {compiled objects : List CompiledUnit}
    {wrapped : List Str}
    (hcompiled : (evaluated .executable target.sources).mapM
      (compileSource tc.cc filePrefix tree t) = some compiled)
    (hobjects : ((target.linkLibraries.flatMap (linkLine reg .executable depth)).filter
      isObject).mapM tc.objectFile = some objects)
    (hwrapped : wrapped = (target.linkLibraries.flatMap (linkLine reg .executable depth)).flatMap
      (wraps tc)) :
    buildProgram tc reg depth filePrefix tree target =
      linkProgram tc (compiled ++ objects) wrapped := by
  unfold buildProgram
  rw [htype, hmacros, hcompiled]
  show (Option.bind (List.mapM _ _) _) = _
  rw [hobjects, hwrapped]
  rfl

theorem settled_skins {c : Call} (hplain : ∀ o ∈ c.opts, o.Plain) :
    (settled c).skins = c.skinNames :=
  (settle_skins ..).trans (read_skins hplain)

/-- `default_exe`, `wrap_main_exe`, `wrap_precompiled_exe` and `source_def_main`
in `test/CMakeLists.txt`. -/
example :
    entered none none [mainName] = some (mainName, .direct) ∧
    entered (some "SOURCE".toList) none [realMain] = some (realMain, .wrapped) ∧
    entered (some "PRECOMPILED".toList) (some "LINKER".toList) [mainName] =
      some (mainName, .wrapped) ∧
    entered (some "SOURCE".toList) (some "MACRO".toList) [mainName] =
      some (mainName, .wrapped) := by
  decide

/-- The targets of a project that has looked for the staged installation. -/
def stagedTargets : Targets :=
  (stagedMercury.targets stagedConsumer).overlay fun n =>
    if n = threadsTarget then some (.new .interface) else none

theorem loaded_stagedTargets : Loaded stagedTargets stagedConsumer stagedMercury := by
  refine loaded_of_holds (Absent.holds_overlay ?_ ⟨_, _, rfl⟩)
  rw [← unused_iff]
  intro c n hn
  have hne : n ≠ threadsTarget := fun heq => threadsTarget_not_mem c (heq ▸ hn)
  exact if_neg hne

/-- Other names are no targets there. -/
theorem stagedTargets_of_head {n : Str} (h : n.head? ≠ some 'X') :
    stagedTargets n = if n = threadsTarget then some (.new .interface) else none := by
  refine ExportSet.overlay_of_not_mem _ _ fun hmem => ?_
  have hexpected : n ∈ expectedTargets stagedMercury.core := by
    rw [← exportSet_names stagedMercury.core (stagedMercury.vars stagedConsumer)]
    exact hmem
  have hheads : (expectedTargets stagedMercury.core).all fun n => n.head? == some 'X' := by
    decide +kernel
  exact h (eq_of_beq (List.all_eq_true.mp hheads n hexpected))

/-- A toolchain with a C library and Xenomai's. -/
def stagedToolchain : Toolchain where
  cc := ⟨fun _ => 0, String.ofList⟩
  predefined := [("__GLIBC__".toList, "2".toList)]
  installed := [(defineMainwrapper, realMain), (weakrefMainwrapper, wrapMain),
    (glibcConstructors, []), ("__GLIBC__".toList, "2".toList)]
  objectFile _ := compileHeader ⟨fun _ => 0, String.ofList⟩
    [(defineMainwrapper, realMain), (weakrefMainwrapper, wrapMain), (glibcConstructors, []),
      ("__GLIBC__".toList, "2".toList)]
  response _ := []
  shared n := n == "xenomai_init".toList || n == "printf".toList

/-- `test/normal.c` -/
def normalTree (name : Str) : Option SourceFile :=
  if name = "normal.c".toList then some ⟨[mainName], ["printf".toList]⟩ else none

/-- The call for `wrap_precompiled_exe` in `test/CMakeLists.txt`. -/
def precompiledCall : Call where
  version := [3, 16, 3]
  binaryDir := "/build".toList
  target := ⟨"wrap_precompiled_exe".toList, .executable, ["normal.c".toList], [], []⟩
  opts := [.main "PRECOMPILED".toList, .mainWrap "LINKER".toList, .skins [posixSkin]]
  nodup := by decide +kernel

theorem settled_precompiledCall : settled precompiledCall =
    ⟨some "PRECOMPILED".toList, some "LINKER".toList, false, false, ["posix".toList]⟩ := by
  decide +kernel

theorem ownFiles_precompiledCall :
    ownFiles normalTree precompiledCall = [⟨[mainName], ["printf".toList]⟩] := by
  unfold ownFiles normalTree
  rfl

theorem harmless_stagedThreads (ok : Str → Prop) :
    HarmlessFlags stagedToolchain stagedTargets ok
      (stagedMercury.vars stagedConsumer).threadlib where
  flags n hn := by
    have hX : n.head? ≠ some 'X' := by
      rw [hn]
      decide
    rw [stagedTargets_of_head hX]
    refine if_neg ?_
    rintro rfl
    exact absurd hn (by decide)
  response _ := List.forall_mem_nil _
  threads := by
    have hthreads : (stagedMercury.vars stagedConsumer).threadlib = threadsTarget := rfl
    rw [hthreads]
    refine ⟨by decide, by decide, ?_⟩
    have hreg : stagedTargets threadsTarget = some (.new .interface) := by
      rw [stagedTargets_of_head (by decide), if_pos rfl]
    exact harmless_of_some hreg (idle_of_no_comma rfl (by decide))
      (fun file hfile => by cases hfile) (List.forall_mem_nil _)

theorem ready_precompiledCall : Ready stagedToolchain stagedTargets
    (stagedMercury.vars stagedConsumer) stagedMercury.core normalTree precompiledCall where
  executable := rfl
  directory := by decide
  sources := ⟨by decide, by decide, by decide, by decide⟩
  quiet := fun n hn => eq_of_beq (List.all_eq_true.mp
    (show reserved.all (fun n =>
      (macros stagedToolchain precompiledCall.target).lookup n == none) by decide) n hn)
  closed := by
    rw [ownFiles_precompiledCall]
    exact ⟨by decide, by decide, by decide, by decide, by decide⟩
  calls := by
    rw [settled_precompiledCall]
    decide
  precompiled := ⟨rfl, rfl, rfl, by decide⟩
  flags := harmless_stagedThreads _
  object := by
    have hX : (bootstrapObject (stagedMercury.vars stagedConsumer)).head? ≠ some 'X' := by
      decide +kernel
    rw [stagedTargets_of_head hX]
    exact if_neg (by decide +kernel)
  libraries := List.forall_mem_nil _
  asked := by
    rw [settled_precompiledCall]
    refine ⟨fun h => absurd h (by decide), List.forall_mem_singleton.mpr ?_⟩
    decide +kernel

end CmakeXenomai.Package
