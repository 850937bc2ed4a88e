import CmakeXenomai.Lib.Targets
import CmakeXenomai.Macros.TargetBootstrap

/-!
# `xenomai-targets.cmake`

The import files of the two cores, `xenomai-targets.cmake.in` and
`xenomai-targets-noconfig.cmake.in`: the protection against a second inclusion,
the imported targets with their properties, and the check that the files they
are about exist.

`add_library` stops CMake where the name is taken, and `set_target_properties`
where there is no such target. Behind the protection neither can happen
(`xenomaiTargets_eq`): inclusion is all or nothing.
-/

namespace CmakeXenomai.Package

open Lib.Cmake Lib.Targets Macros

/-! ## Imported targets -/

inductive Kind where
  | shared
  | interface
deriving DecidableEq

inductive Property where
  | interfaceCompileDefinitions
  | interfaceIncludeDirectories
  | interfaceLinkLibraries
  | importedConfigurations
  | importedLocation
  | importedLocationNoconfig
  | importedSonameNoconfig
deriving DecidableEq

structure Imported where
  kind : Kind
  prop : Property → Option Str

namespace Imported

/-- `add_library(… IMPORTED)` -/
def new (kind : Kind) : Imported := ⟨kind, fun _ => none⟩

def set (t : Imported) (p : Property) (value : Str) : Imported :=
  { t with prop := Function.update t.prop p (some value) }

/-- `set_target_properties(… PROPERTIES …)` -/
def setProperties (t : Imported) (props : List (Property × Str)) : Imported :=
  props.foldl (fun t p => t.set p.1 p.2) t

/-- `set_property(… APPEND PROPERTY …)` -/
def append (t : Imported) (p : Property) (value : Str) : Imported :=
  t.set p (match t.prop p with
    | none => value
    | some old => if old = [] then value else old ++ ';' :: value)

end Imported

abbrev Targets := Registry Str Imported

/-- What ends the configuration. -/
inductive Failure where
  | cmakeTooOld
  | consumerTooOld
  | someDefined (defined notDefined : Str)
  | missingFile (target file listFile : Str)
  /-- `add_library` on a name that is taken. -/
  | duplicate (name : Str)
  /-- Properties for no target. -/
  | noTarget (name : Str)
deriving DecidableEq

/-- The text after `message(FATAL_ERROR`; CMake's own errors have theirs. -/
def Failure.message? : Failure → Option Str
  | cmakeTooOld => some "CMake >= 2.6.0 required".toList
  | consumerTooOld =>
    some "This file relies on consumers using CMake 3.0.0 or greater.".toList
  | someDefined defined notDefined =>
    some ("Some (but not all) targets in this export set were already defined.\n".toList ++
      "Targets Defined: ".toList ++ defined ++
      "\nTargets not yet defined: ".toList ++ notDefined ++ "\n".toList)
  | missingFile target file listFile =>
    some ("The imported target \"".toList ++ target ++ "\" references the file\n   \"".toList ++
      file ++ ("\"\nbut this file does not exist.  Possible reasons include:\n" ++
      "* The file was deleted, renamed, or moved to another location.\n" ++
      "* An install or uninstall procedure did not complete successfully.\n" ++
      "* The installation package was faulty and contained\n   \"").toList ++ listFile ++
      "\"\nbut not all the files it references.\n".toList)
  | duplicate _ => none
  | noTarget _ => none

def addLibrary (name : Str) (kind : Kind) (reg : Targets) : Except Failure Targets :=
  if Defined reg name then .error (.duplicate name)
  else .ok (Function.update reg name (some (.new kind)))

def changeTarget (name : Str) (change : Imported → Imported) (reg : Targets) :
    Except Failure Targets :=
  match reg name with
  | none => .error (.noTarget name)
  | some t => .ok (Function.update reg name (some (change t)))

/-! ## The exports -/

inductive Core where
  | cobalt
  | mercury
deriving DecidableEq

def Core.name : Core → Str
  | cobalt => "cobalt".toList
  | mercury => "mercury".toList

/-- `__COBALT__`, `__MERCURY__` -/
def Core.definition : Core → Str
  | cobalt => "__COBALT__".toList
  | mercury => "__MERCURY__".toList

/-- The variables the import files read. -/
structure Vars where
  importPrefix : Str
  includedir : Str
  libdir : Str
  threadlib : Str
deriving DecidableEq

namespace Vars

variable (v : Vars)

/-- `${_IMPORT_PREFIX}/${_xenomai_includedir}` -/
def inc : Str := v.importPrefix ++ '/' :: v.includedir

/-- `${_IMPORT_PREFIX}/${_xenomai_libdir}` -/
def lib : Str := v.importPrefix ++ '/' :: v.libdir

end Vars

/-- A target of the import files, by its name in the namespace `Xenomai::`. -/
structure Export where
  short : Str
  kind : Kind
  properties : List (Property × Str)
  /-- The library it stands for, in `xenomai-targets-noconfig.cmake.in`. -/
  library : Option Str

namespace Export

variable (v : Vars)

def core (c : Core) : Export where
  short := c.name
  kind := .shared
  properties :=
    [(.interfaceCompileDefinitions, c.definition),
      (.interfaceIncludeDirectories, joinList [v.inc ++ '/' :: c.name, v.inc]),
      (.interfaceLinkLibraries, joinList [v.threadlib, "-lrt".toList])]
  library := some ("lib".toList ++ c.name ++ ".so".toList)

/-- `-Wl,@\"…/name.wrappers\"` -/
def wrappers (name : String) : Str :=
  "-Wl,@\"".toList ++ v.lib ++ '/' :: (name.toList ++ ".wrappers\"".toList)

def modechk : Export where
  short := "modechk".toList
  kind := .shared
  properties :=
    [(.interfaceLinkLibraries, joinList [wrappers v "modechk", v.threadlib, "-lrt".toList])]
  library := some "libmodechk.so".toList

def legacyBootstrap : Export where
  short := "legacy_bootstrap".toList
  kind := .interface
  properties :=
    [(.interfaceLinkLibraries, joinList
      [ifType "SHARED_LIBRARY".toList (v.lib ++ "/xenomai/bootstrap-pic.o".toList),
        ifType "EXECUTABLE".toList (v.lib ++ "/xenomai/bootstrap.o".toList)])]
  library := none

def legacyBootstrapWrap : Export where
  short := "legacy_bootstrap_wrap".toList
  kind := .interface
  properties :=
    [(.interfaceLinkLibraries, ifType "EXECUTABLE".toList
      ("-Wl,--wrap=main,--dynamic-list=".toList ++ v.lib ++ "/dynlist.ld".toList))]
  library := none

def posix : Core → Export
  | .cobalt => {
      short := "posix".toList
      kind := .interface
      properties :=
        [(.interfaceCompileDefinitions, "__COBALT_WRAP__".toList),
          (.interfaceLinkLibraries,
            joinList [wrappers v "cobalt", exportNamespace ++ "cobalt".toList])]
      library := none }
  | .mercury => {
      short := "posix".toList
      kind := .interface
      properties := [(.interfaceLinkLibraries, exportNamespace ++ "mercury".toList)]
      library := none }

def copperplate (c : Core) : Export where
  short := "copperplate".toList
  kind := .shared
  properties := [(.interfaceLinkLibraries, exportNamespace ++ c.name)]
  library := some "libcopperplate.so".toList

/-- The emulation skins are on top of copperplate. -/
def skin (name : String) : Export where
  short := name.toList
  kind := .shared
  properties :=
    [(.interfaceIncludeDirectories, v.inc ++ '/' :: name.toList),
      (.interfaceLinkLibraries, exportNamespace ++ "copperplate".toList)]
  library := some ("lib".toList ++ name.toList ++ ".so".toList)

/-- `Xenomai::short` -/
def target (e : Export) : Str := exportNamespace ++ e.short

end Export

/-- The targets of the import file of a core, in its order. -/
def exports (c : Core) (v : Vars) : List Export :=
  Export.core v c ::
    (match c with
      | .cobalt => [Export.modechk v]
      | .mercury => []) ++
    [Export.legacyBootstrap v, Export.legacyBootstrapWrap v, Export.posix v c,
      Export.copperplate c, Export.skin v "vxworks", Export.skin v "psos",
      Export.skin v "alchemy", Export.skin v "smokey"]

/-- The names after `foreach(_expectedTarget`, without the namespace. -/
def expectedShort : Core → List String
  | .cobalt => ["cobalt", "modechk", "legacy_bootstrap", "legacy_bootstrap_wrap", "posix",
      "copperplate", "vxworks", "psos", "alchemy", "smokey"]
  | .mercury => ["mercury", "legacy_bootstrap", "legacy_bootstrap_wrap", "posix",
      "copperplate", "vxworks", "psos", "alchemy", "smokey"]

def expectedTargets (c : Core) : List Str :=
  (expectedShort c).map fun n => exportNamespace ++ n.toList

/-! ## Protection against a second inclusion -/

/-- `_targetsDefined`, `_targetsNotDefined` and `_expectedTargets`. -/
structure Protection where
  defined : Str
  notDefined : Str
  expected : Str

/-- `list(APPEND list item)` -/
def listAppend (list item : Str) : Str := if list = [] then item else list ++ ';' :: item

/-- The body of `foreach(_expectedTarget …)`. -/
def protect (reg : Targets) (p : Protection) (name : Str) : Protection where
  expected := listAppend p.expected name
  notDefined := if Defined reg name then p.notDefined else listAppend p.notDefined name
  defined := if Defined reg name then listAppend p.defined name else p.defined

def protection (reg : Targets) (names : List Str) : Protection :=
  names.foldl (protect reg) ⟨[], [], []⟩

/-! ## The file -/

/-- CMake, and the machine it runs on. -/
structure Consumer where
  version : List Nat
  threadLibsInit : Str
  fileExists : Str → Bool

/-- `if("${CMAKE_MAJOR_VERSION}.${CMAKE_MINOR_VERSION}" LESS 2.5)`, a
comparison of decimal fractions. -/
def beforeCmake25 : List Nat → Bool
  | [] => true
  | [major] => major < 3
  | major :: minor :: _ =>
    let scale := 10 ^ (Nat.toDigits 10 minor).length
    2 * (major * scale + minor) < 5 * scale

/-- `add_library` and `set_target_properties` for one target. -/
def create (reg : Targets) (e : Export) : Except Failure Targets := do
  let reg ← addLibrary e.target e.kind reg
  changeTarget e.target (·.setProperties e.properties) reg

/-- `IMPORTED_LOCATION_NOCONFIG` -/
def location (v : Vars) (library : Str) : Str := v.lib ++ '/' :: library

/-- The commands of `xenomai-targets-noconfig.cmake.in` for one target. -/
def importNoconfig (v : Vars) (reg : Targets) (e : Export) : Except Failure Targets :=
  match e.library with
  | none => .ok reg
  | some library => do
    let reg ← changeTarget e.target (·.append .importedConfigurations "NOCONFIG".toList) reg
    changeTarget e.target (·.setProperties
      [(.importedLocationNoconfig, location v library), (.importedSonameNoconfig, library)]) reg

/-- The variables `_IMPORT_CHECK_FILES_FOR_…` by target, as that file leaves
them. -/
def importChecks (c : Core) (v : Vars) : List (Str × Str) :=
  (exports c v).filterMap fun e => e.library.map fun library => (e.target, location v library)

/-- The first file of the check loop that does not exist. -/
def missing? (env : Consumer) (checks : List (Str × Str)) : Option (Str × Str) :=
  checks.findSome? fun (target, files) =>
    ((expandList files).find? fun file => !env.fileExists file).map (target, ·)

/-- From the check for CMake 3.0 on. -/
def loadConfigurations (env : Consumer) (c : Core) (v : Vars) (listFile : Str) (reg : Targets) :
    Except Failure Targets :=
  if versionLess env.version [3, 0, 0] then .error .consumerTooOld
  else do
    let reg ← (exports c v).foldlM (importNoconfig v) reg
    match missing? env (importChecks c v) with
    | some (target, file) => .error (.missingFile target file listFile)
    | none => .ok reg

/-- `xenomai-targets.cmake` of a core, found as `listFile`. -/
def xenomaiTargets (env : Consumer) (c : Core) (v : Vars) (listFile : Str) (reg : Targets) :
    Except Failure Targets :=
  if beforeCmake25 env.version then .error .cmakeTooOld
  else
    let p := protection reg (expectedTargets c)
    if p.defined = p.expected then .ok reg
    else if p.defined ≠ [] then .error (.someDefined p.defined p.notDefined)
    else do
      let reg ← (exports c v).foldlM create reg
      loadConfigurations env c v listFile reg

/-! ## What the file does -/

theorem exports_target (c : Core) (v : Vars) :
    (exports c v).map Export.target = expectedTargets c := by
  cases c <;> rfl

theorem expectedTargets_nodup (c : Core) : (expectedTargets c).Nodup := by
  cases c <;> decide +kernel

theorem plain_expectedTargets (c : Core) : ∀ n ∈ expectedTargets c, Plain n := by
  have hall : (expectedTargets c).all (fun n => decide (Plain n)) = true := by
    cases c <;> decide +kernel
  exact fun n hn => of_decide_eq_true (List.all_eq_true.mp hall n hn)

theorem listAppend_joinList {xs : List Str} (hxs : ∀ x ∈ xs, Plain x) (x : Str) :
    listAppend (joinList xs) x = joinList (xs ++ [x]) := by
  have hempty : joinList xs = [] ↔ xs = [] := joinList_inj hxs (List.forall_mem_nil _)
  unfold listAppend
  rw [joinList_concat, if_congr hempty rfl rfl]

/-- The loop sorts the names into two lists. -/
theorem protection_eq (reg : Targets) {names : List Str} (hnames : ∀ n ∈ names, Plain n) :
    protection reg names =
      ⟨joinList (names.filter fun n => Defined reg n),
        joinList (names.filter fun n => ¬ Defined reg n), joinList names⟩ := by
  -- the names that are done, in front of those to come
  suffices h : ∀ done todo : List Str, (∀ n ∈ done ++ todo, Plain n) →
      todo.foldl (protect reg) ⟨joinList (done.filter fun n => Defined reg n),
        joinList (done.filter fun n => ¬ Defined reg n), joinList done⟩ =
      ⟨joinList ((done ++ todo).filter fun n => Defined reg n),
        joinList ((done ++ todo).filter fun n => ¬ Defined reg n), joinList (done ++ todo)⟩ from
    h [] names hnames
  intro done todo hplain
  induction todo generalizing done with
  | nil => rw [List.append_nil, List.foldl_nil]
  | cons n todo ih =>
    have hdone : ∀ m ∈ done, Plain m := fun m hm => hplain m (List.mem_append_left _ hm)
    have hfilter : ∀ q : Str → Bool, ∀ m ∈ done.filter q, Plain m :=
      fun q m hm => hdone m (List.mem_filter.mp hm).1
    have hstep : protect reg ⟨joinList (done.filter fun n => Defined reg n),
          joinList (done.filter fun n => ¬ Defined reg n), joinList done⟩ n =
        ⟨joinList ((done ++ [n]).filter fun n => Defined reg n),
          joinList ((done ++ [n]).filter fun n => ¬ Defined reg n), joinList (done ++ [n])⟩ := by
      unfold protect
      rw [listAppend_joinList hdone, listAppend_joinList (hfilter _),
        listAppend_joinList (hfilter _), List.filter_append, List.filter_append]
      by_cases hn : Defined reg n
      · simp [hn]
      · simp [hn]
    rw [List.foldl_cons, hstep, ih _ (by rwa [List.append_assoc]), List.append_assoc]
    rfl

/-- A target as `xenomai-targets.cmake` makes it. -/
def Export.created (e : Export) : Imported := (Imported.new e.kind).setProperties e.properties

/-- A target with its library. -/
def Export.imported (v : Vars) (e : Export) : Imported :=
  match e.library with
  | none => e.created
  | some library =>
    (e.created.append .importedConfigurations "NOCONFIG".toList).setProperties
      [(.importedLocationNoconfig, location v library), (.importedSonameNoconfig, library)]

theorem changeTarget_of_some {reg : Targets} {name : Str} {t : Imported} (h : reg name = some t)
    (change : Imported → Imported) :
    changeTarget name change reg = .ok (Function.update reg name (some (change t))) := by
  unfold changeTarget
  rw [h]

theorem create_eq {reg : Targets} {e : Export} (h : reg e.target = none) :
    create reg e = .ok (Function.update reg e.target (some e.created)) := by
  have hadd : addLibrary e.target e.kind reg =
      .ok (Function.update reg e.target (some (.new e.kind))) := by
    unfold addLibrary
    rw [if_neg (not_defined_iff.mpr h)]
  unfold create
  rw [hadd]
  show changeTarget _ _ _ = _
  rw [changeTarget_of_some (Function.update_self ..), Function.update_idem]
  rfl

theorem importNoconfig_eq (v : Vars) {reg : Targets} {e : Export}
    (h : reg e.target = some e.created) :
    importNoconfig v reg e = .ok (Function.update reg e.target (some (e.imported v))) := by
  unfold importNoconfig Export.imported
  cases e.library with
  | none =>
    show Except.ok reg = _
    rw [← h, Function.update_eq_self]
  | some library =>
    simp only
    rw [changeTarget_of_some h]
    show changeTarget _ _ _ = _
    rw [changeTarget_of_some (Function.update_self ..), Function.update_idem]

/-- The targets of the import files of a core. -/
def exportSet (c : Core) (v : Vars) : ExportSet Str Imported where
  entries := (exports c v).map fun e => (e.target, e.imported v)
  nodup := by
    rw [List.map_map]
    show ((exports c v).map Export.target).Nodup
    rw [exports_target]
    exact expectedTargets_nodup c
  nonempty := by cases c <;> exact List.cons_ne_nil _ _

theorem exportSet_names (c : Core) (v : Vars) : (exportSet c v).names = expectedTargets c := by
  show ((exports c v).map fun e => (e.target, e.imported v)).map Prod.fst = _
  rw [List.map_map]
  exact exports_target c v

/-- **The import files are all or nothing.** With some of the names known and
some not, CMake stops and lists them; with all of them known, nothing happens;
otherwise the targets of the core are added, complete, if their files exist. No
other command of the files fails. -/
theorem xenomaiTargets_eq {env : Consumer} (henv : ¬ beforeCmake25 env.version) (c : Core)
    (v : Vars) (listFile : Str) (reg : Targets) :
    xenomaiTargets env c v listFile reg =
      match presence reg (expectedTargets c) with
      | .complete => .ok reg
      | .partly defined notDefined =>
        .error (.someDefined (joinList defined) (joinList notDefined))
      | .absent =>
        if versionLess env.version [3, 0, 0] then .error .consumerTooOld
        else match missing? env (importChecks c v) with
          | some (target, file) => .error (.missingFile target file listFile)
          | none => .ok ((exportSet c v).overlay reg) := by
  have hplain := plain_expectedTargets c
  have hfilter : ∀ q : Str → Bool, ∀ n ∈ (expectedTargets c).filter q, Plain n :=
    fun q n hn => hplain n (List.mem_filter.mp hn).1
  have hall : joinList ((expectedTargets c).filter fun n => Defined reg n) =
      joinList (expectedTargets c) ↔ ∀ n ∈ expectedTargets c, Defined reg n := by
    rw [joinList_inj (hfilter _) hplain, List.filter_eq_self]
    simp only [decide_eq_true_eq]
  unfold xenomaiTargets
  rw [if_neg henv, protection_eq reg hplain]
  simp only
  rw [if_congr hall rfl rfl]
  rcases presence_cases reg (expectedTargets c) with hcomplete | hnone | ⟨a, ha, b, hb, hab⟩
  · rw [if_pos hcomplete, presence_complete hcomplete]
  · -- no name is known, and the commands find what they need
    have hne := (exportSet c v).names_ne_nil
    rw [exportSet_names] at hne
    obtain ⟨n, hn⟩ := List.exists_mem_of_ne_nil _ hne
    have hempty : ((expectedTargets c).filter fun n => Defined reg n) = [] := by
      rw [List.filter_eq_nil_iff]
      intro m hm
      rw [decide_eq_true_eq, not_defined_iff]
      exact hnone m hm
    rw [if_neg fun h => not_defined_iff.mpr (hnone n hn) (h n hn), presence_absent hne hnone,
      hempty, joinList_nil, if_neg fun h => h rfl]
    have hnodup : ((exports c v).map Export.target).Nodup := by
      rw [exports_target]
      exact expectedTargets_nodup c
    have hfresh : ∀ e ∈ exports c v, reg e.target = none := by
      intro e he
      refine hnone _ ?_
      rw [← exports_target c v]
      exact List.mem_map_of_mem he
    have hkeys : ((exports c v).map fun e => (e.target, e.imported v)).map Prod.fst =
        ((exports c v).map fun e => (e.target, e.created)).map Prod.fst := by
      rw [List.map_map, List.map_map]
      rfl
    have himport : (exports c v).foldlM (importNoconfig v)
        (overlay ((exports c v).map fun e => (e.target, e.created)) reg) =
          .ok ((exportSet c v).overlay reg) := by
      rw [foldlM_overlay (fun _ _ => importNoconfig_eq v) hnodup
        fun e he => overlay_map hnodup Export.created reg he, overlay_overlay hkeys]
      rfl
    rw [foldlM_overlay (fun _ _ => create_eq) hnodup hfresh]
    show loadConfigurations env c v listFile _ = _
    unfold loadConfigurations
    rw [himport]
    rfl
  · rw [if_neg fun h => not_defined_iff.mpr hab.2 (h b hb),
      presence_partly ha hab.1 hb hab.2]
    have hne : joinList ((expectedTargets c).filter fun n => Defined reg n) ≠ [] := by
      rw [ne_eq, ← joinList_nil, joinList_inj (hfilter _) (List.forall_mem_nil _)]
      exact List.ne_nil_of_mem (List.mem_filter.mpr ⟨ha, decide_eq_true hab.1⟩)
    rw [if_pos hne]

end CmakeXenomai.Package
