import CmakeXenomai.Lib.Cmake

/-!
# `xenomai_target_bootstrap`

The function of `xenomai-macros.cmake.in` that attaches the bootstrap code to a
target: it reads its options, checks them, replaces what CMake before 3.1
cannot do, and then adds sources, definitions and libraries. Arguments and
variables go through CMake's list expansion wherever the source leaves an
expansion unquoted.

The checks of `MAIN` and `MAIN_WRAP` begin with `if(XBS_MAIN` and
`if(XBS_MAIN_WRAP`: a false constant is not checked but taken for an option
that is absent (`rejects_iff`).
-/

namespace CmakeXenomai.Macros

open Lib.Cmake

inductive TargetType where
  | executable
  | staticLibrary
  | sharedLibrary
  | moduleLibrary
  | objectLibrary
deriving DecidableEq

structure Target where
  name : Str
  type : TargetType
  sources : List Str
  compileDefinitions : List Str
  linkLibraries : List Str
deriving DecidableEq

def Target.targetSources (target : Target) (items : List Str) : Target :=
  { target with sources := target.sources ++ items }

def Target.targetCompileDefinitions (target : Target) (items : List Str) : Target :=
  { target with compileDefinitions := target.compileDefinitions ++ items }

def Target.targetLinkLibraries (target : Target) (items : List Str) : Target :=
  { target with linkLibraries := target.linkLibraries ++ items }

inductive Message where
  | warning (text : Str)
  | sendError (text : Str)
deriving DecidableEq

def Message.isError : Message → Bool
  | warning _ => false
  | sendError _ => true

/-! ## Options -/

/-- The variables `XBS_…`, by their names without the prefix. -/
structure Xbs where
  main : Option Str
  mainWrap : Option Str
  noFallback : Bool
  modechk : Bool
  skins : List Str
deriving DecidableEq

def keywords : Keywords where
  options := ["NO_FALLBACK".toList, "MODECHK".toList]
  oneValue := ["MAIN".toList, "MAIN_WRAP".toList]
  multiValue := ["SKINS".toList]

def Xbs.ofParsed (p : Parsed) : Xbs where
  main := p.oneValue "MAIN".toList
  mainWrap := p.oneValue "MAIN_WRAP".toList
  noFallback := p.options "NO_FALLBACK".toList
  modechk := p.options "MODECHK".toList
  skins := p.multiValue "SKINS".toList

/-- `cmake_parse_arguments(XBS … ${ARGN})` -/
def readOptions (argn : List Str) : Xbs :=
  .ofParsed (parseArguments keywords (expandList (joinList argn)))

/-! ## Validation -/

def mainValues : List Str := ["NONE".toList, "SOURCE".toList, "PRECOMPILED".toList]

def mainWrapValues : List Str := ["NONE".toList, "MACRO".toList, "LINKER".toList]

/-- `if(name AND NOT name STREQUAL … AND NOT …) set(_errors ${_errors} "error")` -/
def checkValue (name : Str) (value : Option Str) (values : List Str) (error : Str) : List Str :=
  if truthy value && values.all fun v => !strEqual name value v then [error] else []

def mainError : Str := "MAIN only support the values NONE, SOURCE and PRECOMPILED".toList

def mainWrapError : Str := "XBS_MAIN_WRAP only support the values NONE, MACRO and LINKER".toList

def needsError : Str := "MAIN NONE and MAIN SOURCE need atleast CMake 3.1".toList

def checkMain (xbs : Xbs) : List Str :=
  checkValue "XBS_MAIN".toList xbs.main mainValues mainError

def checkMainWrap (xbs : Xbs) : List Str :=
  checkValue "XBS_MAIN_WRAP".toList xbs.mainWrap mainWrapValues mainWrapError

/-! ## Fallback -/

/-- `CMAKE_VERSION VERSION_LESS 3.1` -/
def isOld (version : List Nat) : Bool := versionLess version [3, 1]

/-- `NOT XBS_MAIN OR XBS_MAIN STREQUAL "NONE" OR XBS_MAIN STREQUAL "SOURCE"` -/
def needsSources (xbs : Xbs) : Bool :=
  !truthy xbs.main || strEqual "XBS_MAIN".toList xbs.main "NONE".toList ||
    strEqual "XBS_MAIN".toList xbs.main "SOURCE".toList

/-- `NOT XBS_MAIN_WRAP OR XBS_MAIN_WRAP STREQUAL "NONE" OR XBS_MAIN_WRAP STREQUAL "MACRO"` -/
def needsWrap (xbs : Xbs) : Bool :=
  !truthy xbs.mainWrap || strEqual "XBS_MAIN_WRAP".toList xbs.mainWrap "NONE".toList ||
    strEqual "XBS_MAIN_WRAP".toList xbs.mainWrap "MACRO".toList

/-- `if(ttype STREQUAL EXECUTABLE) message(WARNING …)` -/
def warnSetting (target : Target) (setting : Str) : List Message :=
  if target.type = .executable then
    [.warning ("xenomai_target_bootstrap: setting ".toList ++ setting ++ " for ".toList ++
      target.name ++ " (CMake Version less than 3.1)".toList)]
  else []

/-- The options, errors and messages after the fallback. -/
structure Settings where
  xbs : Xbs
  errors : List Str
  messages : List Message

def setPrecompiled (target : Target) (s : Settings) : Settings :=
  { s with
    xbs := { s.xbs with main := some "PRECOMPILED".toList }
    messages := s.messages ++ warnSetting target "MAIN PRECOMPILED".toList }

def setLinker (target : Target) (s : Settings) : Settings :=
  if needsWrap s.xbs then
    { s with
      xbs := { s.xbs with mainWrap := some "LINKER".toList }
      messages := s.messages ++ warnSetting target "XBS_MAIN_WRAP LINKER".toList }
  else s

@[simp] theorem setLinker_main (target : Target) (s : Settings) :
    (setLinker target s).xbs.main = s.xbs.main := by
  rw [setLinker]
  split_ifs <;> rfl

@[simp] theorem setLinker_skins (target : Target) (s : Settings) :
    (setLinker target s).xbs.skins = s.xbs.skins := by
  rw [setLinker]
  split_ifs <;> rfl

@[simp] theorem setLinker_errors (target : Target) (s : Settings) :
    (setLinker target s).errors = s.errors := by
  rw [setLinker]
  split_ifs <;> rfl

def fallback (version : List Nat) (target : Target) (s : Settings) : Settings :=
  if isOld version && needsSources s.xbs then
    if s.xbs.noFallback then { s with errors := s.errors ++ [needsError] }
    else setLinker target (setPrecompiled target s)
  else s

def settle (version : List Nat) (target : Target) (xbs : Xbs) : Settings :=
  fallback version target ⟨xbs, checkMain xbs ++ checkMainWrap xbs, []⟩

/-! ## Attachment -/

/-- `$<$<STREQUAL:$<TARGET_PROPERTY:TYPE>,type>:item>` -/
def ifType (type item : Str) : Str :=
  "$<$<STREQUAL:$<TARGET_PROPERTY:TYPE>,".toList ++ type ++ ">:".toList ++ item ++ ">".toList

/-- The generated sources, by the suffix of the one for executables. -/
def generated (filePrefix suffix : Str) : List Str :=
  [ifType "SHARED_LIBRARY".toList (filePrefix ++ "_shl.c".toList),
    ifType "EXECUTABLE".toList (filePrefix ++ suffix)]

def legacyBootstrap : Str := "Xenomai::legacy_bootstrap".toList

def legacyBootstrapWrap : Str := "Xenomai::legacy_bootstrap_wrap".toList

def modechkLibrary : Str := "Xenomai::modechk".toList

def attachMain (filePrefix : Str) (xbs : Xbs) (target : Target) : Target :=
  if strEqual "XBS_MAIN".toList xbs.main "SOURCE".toList then
    target.targetSources (generated filePrefix "_main.c".toList)
  else if strEqual "XBS_MAIN".toList xbs.main "PRECOMPILED".toList then
    target.targetLinkLibraries [legacyBootstrap]
  else
    target.targetSources (generated filePrefix ".c".toList)

def attachModechk (xbs : Xbs) (target : Target) : Target :=
  if xbs.modechk then target.targetLinkLibraries [modechkLibrary] else target

def attachMainWrap (xbs : Xbs) (target : Target) : Target :=
  if strEqual "XBS_MAIN_WRAP".toList xbs.mainWrap "MACRO".toList then
    target.targetCompileDefinitions [ifType "EXECUTABLE".toList "main=__real_main".toList]
  else if strEqual "XBS_MAIN_WRAP".toList xbs.mainWrap "LINKER".toList then
    target.targetLinkLibraries [legacyBootstrapWrap]
  else target

def exportNamespace : Str := "Xenomai::".toList

/-- `Xenomai::${_lbname}` -/
def skinTarget (skin : Str) : Str := exportNamespace ++ lower skin

/-- The body of `foreach(_skin ${XBS_SKINS})` on the value of `_skins`. Of more
than one word `string(TOLOWER)` takes the second for the variable to set, and
without a word CMake stops: neither is followed up. -/
def addSkin (skins skin : Str) : Option Str :=
  match expandList skin with
  | [word] => some (joinList (expandList skins ++ [skinTarget word]))
  | _ => none

def attachSkins (xbs : Xbs) (target : Target) : Option Target :=
  ((expandList (joinList xbs.skins)).foldlM addSkin []).map fun skins =>
    if truthy (some skins) then target.targetLinkLibraries (expandList skins) else target

def attach (filePrefix : Str) (xbs : Xbs) (target : Target) : Option Target :=
  attachSkins xbs (attachMainWrap xbs (attachModechk xbs (attachMain filePrefix xbs target)))

/-! ## The function -/

structure Outcome where
  target : Target
  messages : List Message

def Outcome.reportsError (o : Outcome) : Prop := ∃ m ∈ o.messages, m.isError

/-- From the options on. -/
def bootstrap (version : List Nat) (filePrefix : Str) (target : Target) (xbs : Xbs) :
    Option Outcome :=
  let s := settle version target xbs
  if truthy (some (joinList s.errors)) then
    let text := "xenomai_target_bootstrap: ".toList ++ joinList s.errors
    some ⟨target, s.messages ++ [.sendError text]⟩
  else
    (attach filePrefix s.xbs target).map fun target => ⟨target, s.messages⟩

/-- `xenomai_target_bootstrap(target argn…)`, run by a CMake version in a
directory with the binary directory given. -/
def xenomaiTargetBootstrap (version : List Nat) (binaryDir : Str) (target : Target)
    (argn : List Str) : Option Outcome :=
  bootstrap version (binaryDir ++ "/generated/xenomai_bootstrap".toList) target (readOptions argn)

/-! ## Errors -/

/-- What the checks and the fallback report. -/
def Rejects (version : List Nat) (xbs : Xbs) : Prop :=
  (∃ v, xbs.main = some v ∧ ¬ isOff v ∧ v ∉ mainValues) ∨
  (∃ v, xbs.mainWrap = some v ∧ ¬ isOff v ∧ v ∉ mainWrapValues) ∨
  isOld version ∧ xbs.noFallback ∧
    ∀ v, xbs.main = some v → isOff v ∨ v = "NONE".toList ∨ v = "SOURCE".toList

theorem checkValue_ne_nil {name : Str} {value : Option Str} {values : List Str} {error : Str} :
    checkValue name value values error ≠ [] ↔
      ∃ v, value = some v ∧ ¬ isOff v ∧ v ∉ values := by
  cases value with
  | none => simp [checkValue]
  | some v =>
    have hall : (values.all fun w => !strEqual name (some v) w) = true ↔ v ∉ values := by
      simp only [List.all_eq_true, Bool.not_eq_true', strEqual_some, decide_eq_false_iff_not]
      constructor
      · intro h hv
        exact h v hv rfl
      · rintro h w hw rfl
        exact h hw
    simp [checkValue, ← hall]

theorem checkMain_ne_nil (xbs : Xbs) :
    checkMain xbs ≠ [] ↔ ∃ v, xbs.main = some v ∧ ¬ isOff v ∧ v ∉ mainValues :=
  checkValue_ne_nil

theorem checkMainWrap_ne_nil (xbs : Xbs) :
    checkMainWrap xbs ≠ [] ↔ ∃ v, xbs.mainWrap = some v ∧ ¬ isOff v ∧ v ∉ mainWrapValues :=
  checkValue_ne_nil

theorem needsSources_iff (xbs : Xbs) :
    needsSources xbs ↔
      ∀ v, xbs.main = some v → isOff v ∨ v = "NONE".toList ∨ v = "SOURCE".toList := by
  cases h : xbs.main with
  | none => simp [needsSources, h]
  | some v => simp [needsSources, h, or_assoc]

/-- The errors are those of the checks, and the one of the fallback. -/
theorem settle_errors (version : List Nat) (target : Target) (xbs : Xbs) :
    (settle version target xbs).errors = checkMain xbs ++ checkMainWrap xbs ++
      if isOld version && needsSources xbs && xbs.noFallback then [needsError] else [] := by
  rw [settle, fallback]
  split_ifs <;> simp_all [setPrecompiled]

theorem settle_errors_ne_nil (version : List Nat) (target : Target) (xbs : Xbs) :
    (settle version target xbs).errors ≠ [] ↔ Rejects version xbs := by
  have hmain := checkMain_ne_nil xbs
  have hwrap := checkMainWrap_ne_nil xbs
  have hneeds := needsSources_iff xbs
  rw [settle_errors, Rejects, ← hmain, ← hwrap, ← hneeds]
  by_cases hold : isOld version <;> by_cases hsources : needsSources xbs <;>
    by_cases hno : xbs.noFallback <;> simp [hold, hsources, hno, or_iff_not_imp_left]

/-- The texts of the errors, as a list variable, are no false constant. -/
theorem truthy_errors (version : List Nat) (target : Target) (xbs : Xbs) :
    truthy (some (joinList (settle version target xbs).errors)) ↔ Rejects version xbs := by
  rw [← settle_errors_ne_nil version target, settle_errors]
  simp only [checkMain, checkMainWrap, checkValue]
  -- one closed text for each set of errors
  split_ifs <;> decide +kernel

def OnlyWarns (messages : List Message) : Prop := ∀ m ∈ messages, ¬ m.isError

theorem onlyWarns_nil : OnlyWarns [] := fun _ hm => absurd hm List.not_mem_nil

theorem OnlyWarns.append_warnSetting {messages : List Message} (h : OnlyWarns messages)
    (target : Target) (setting : Str) : OnlyWarns (messages ++ warnSetting target setting) := by
  intro m hm
  rcases List.mem_append.1 hm with hm | hm
  · exact h m hm
  · rw [warnSetting] at hm
    split_ifs at hm
    · rw [List.mem_singleton.1 hm]
      exact Bool.false_ne_true
    · exact absurd hm List.not_mem_nil

/-- Every message before the errors is a warning. -/
theorem settle_messages (version : List Nat) (target : Target) (xbs : Xbs) :
    OnlyWarns (settle version target xbs).messages := by
  have hprecompiled : ∀ s : Settings, OnlyWarns s.messages →
      OnlyWarns (setPrecompiled target s).messages :=
    fun _ hs => hs.append_warnSetting _ _
  have hlinker : ∀ s : Settings, OnlyWarns s.messages →
      OnlyWarns (setLinker target s).messages := by
    intro s hs
    rw [setLinker]
    split_ifs
    · exact hs.append_warnSetting _ _
    · exact hs
  rw [settle, fallback]
  split_ifs
  · exact onlyWarns_nil
  · exact hlinker _ (hprecompiled _ onlyWarns_nil)
  · exact onlyWarns_nil

/-- A call with errors reports them and leaves the target as it is. -/
theorem bootstrap_of_rejects {version : List Nat} {xbs : Xbs} (h : Rejects version xbs)
    (filePrefix : Str) (target : Target) :
    ∃ o, bootstrap version filePrefix target xbs = some o ∧ o.reportsError ∧
      o.target = target := by
  have htruthy := (truthy_errors version target xbs).2 h
  refine ⟨_, by rw [bootstrap, if_pos htruthy], ?_, rfl⟩
  exact ⟨_, List.mem_append_right _ (List.mem_singleton_self _), rfl⟩

/-- A call without errors attaches what the options say after the fallback. -/
theorem bootstrap_of_not_rejects {version : List Nat} {xbs : Xbs} (h : ¬ Rejects version xbs)
    (filePrefix : Str) (target : Target) :
    bootstrap version filePrefix target xbs =
      (attach filePrefix (settle version target xbs).xbs target).map fun target' =>
        ⟨target', (settle version target xbs).messages⟩ := by
  have htruthy := mt (truthy_errors version target xbs).1 h
  rw [bootstrap, if_neg htruthy]

theorem reportsError_iff {version : List Nat} {filePrefix : Str} {target : Target} {xbs : Xbs}
    {o : Outcome} (h : bootstrap version filePrefix target xbs = some o) :
    o.reportsError ↔ Rejects version xbs := by
  constructor
  · intro herror
    by_contra hnot
    rw [bootstrap_of_not_rejects hnot] at h
    obtain ⟨target', -, rfl⟩ := Option.map_eq_some_iff.1 h
    obtain ⟨m, hm, herr⟩ := herror
    exact settle_messages version target xbs m hm herr
  · intro hreject
    obtain ⟨o', ho', herror, -⟩ := bootstrap_of_rejects hreject filePrefix target
    rw [h] at ho'
    rwa [Option.some.inj ho']

/-! ## Attached -/

theorem strEqual_iff {name text : Str} (h : name ≠ text) (value : Option Str) :
    strEqual name value text ↔ value = some text := by
  cases value with
  | none => simp [strEqual, h]
  | some v => simp

/-- The provider is the library for `PRECOMPILED`, generated sources for the rest. -/
theorem attachMain_eq (filePrefix : Str) (xbs : Xbs) (target : Target) :
    attachMain filePrefix xbs target =
      if xbs.main = some "PRECOMPILED".toList then target.targetLinkLibraries [legacyBootstrap]
      else target.targetSources (generated filePrefix
        (if xbs.main = some "SOURCE".toList then "_main.c".toList else ".c".toList)) := by
  simp only [attachMain, strEqual_iff (show "XBS_MAIN".toList ≠ "SOURCE".toList by decide),
    strEqual_iff (show "XBS_MAIN".toList ≠ "PRECOMPILED".toList by decide)]
  by_cases hsource : xbs.main = some "SOURCE".toList
  · have hne : xbs.main ≠ some "PRECOMPILED".toList := by
      rw [hsource]
      decide
    simp only [if_pos hsource, if_neg hne]
  · simp only [if_neg hsource]

/-- `after` has these sources and libraries more than `before`. -/
structure Added (before after : Target) (sources libs : List Str) : Prop where
  sources_eq : after.sources = before.sources ++ sources
  linkLibraries_eq : after.linkLibraries = before.linkLibraries ++ libs

theorem Added.refl (target : Target) : Added target target [] [] :=
  ⟨(List.append_nil _).symm, (List.append_nil _).symm⟩

theorem Added.trans {a b c : Target} {sources sources' libs libs' : List Str}
    (h : Added a b sources libs) (h' : Added b c sources' libs') :
    Added a c (sources ++ sources') (libs ++ libs') := by
  constructor
  · rw [h'.sources_eq, h.sources_eq, List.append_assoc]
  · rw [h'.linkLibraries_eq, h.linkLibraries_eq, List.append_assoc]

theorem added_targetSources (target : Target) (items : List Str) :
    Added target (target.targetSources items) items [] :=
  ⟨rfl, (List.append_nil _).symm⟩

theorem added_targetLinkLibraries (target : Target) (items : List Str) :
    Added target (target.targetLinkLibraries items) [] items :=
  ⟨(List.append_nil _).symm, rfl⟩

theorem added_targetCompileDefinitions (target : Target) (items : List Str) :
    Added target (target.targetCompileDefinitions items) [] [] :=
  ⟨(List.append_nil _).symm, (List.append_nil _).symm⟩

/-- The generated sources, whichever of the two for executables. -/
def IsGenerated (filePrefix : Str) (sources : List Str) : Prop :=
  ∃ suffix ∈ ["_main.c".toList, ".c".toList], sources = generated filePrefix suffix

theorem attachMain_added (filePrefix : Str) (xbs : Xbs) (target : Target) :
    ∃ sources libs, Added target (attachMain filePrefix xbs target) sources libs ∧
      if xbs.main = some "PRECOMPILED".toList then sources = [] ∧ libs = [legacyBootstrap]
      else IsGenerated filePrefix sources ∧ libs = [] := by
  rw [attachMain_eq]
  by_cases hmain : xbs.main = some "PRECOMPILED".toList
  · simp only [if_pos hmain]
    exact ⟨_, _, added_targetLinkLibraries .., rfl, rfl⟩
  · simp only [if_neg hmain]
    refine ⟨_, _, added_targetSources .., ⟨_, ?_, rfl⟩, rfl⟩
    split_ifs <;> simp

theorem attachModechk_added (xbs : Xbs) (target : Target) :
    ∃ libs, libs.Sublist [modechkLibrary] ∧ Added target (attachModechk xbs target) [] libs := by
  rw [attachModechk]
  split_ifs
  · exact ⟨_, List.Sublist.refl _, added_targetLinkLibraries ..⟩
  · exact ⟨[], List.nil_sublist _, Added.refl _⟩

theorem attachMainWrap_added (xbs : Xbs) (target : Target) :
    ∃ libs, libs.Sublist [legacyBootstrapWrap] ∧
      Added target (attachMainWrap xbs target) [] libs := by
  rw [attachMainWrap]
  split_ifs
  · exact ⟨[], List.nil_sublist _, added_targetCompileDefinitions ..⟩
  · exact ⟨_, List.Sublist.refl _, added_targetLinkLibraries ..⟩
  · exact ⟨[], List.nil_sublist _, Added.refl _⟩

theorem plain_skinTarget {skin : Str} (h : Plain skin) : Plain (skinTarget skin) :=
  plain_append (by decide) (plain_lower h)

theorem plain_skinTargets {skins : List Str} (h : ∀ skin ∈ skins, Plain skin) :
    ∀ item ∈ skins.map skinTarget, Plain item := by
  intro item hitem
  obtain ⟨skin, hskin, rfl⟩ := List.mem_map.1 hitem
  exact plain_skinTarget (h skin hskin)

theorem foldlM_addSkin {skins : List Str} (hskins : ∀ skin ∈ skins, Plain skin) {items : List Str}
    (hitems : ∀ item ∈ items, Plain item) :
    skins.foldlM addSkin (joinList items) = some (joinList (items ++ skins.map skinTarget)) := by
  induction skins generalizing items with
  | nil => simp
  | cons skin skins ih =>
    have hskin := hskins skin (List.mem_cons_self ..)
    -- what is in the list so far expands to itself
    have hstep : addSkin (joinList items) skin = some (joinList (items ++ [skinTarget skin])) := by
      rw [addSkin, expandList_plain hskin, expandList_joinList hitems]
    have hitems' : ∀ item ∈ items ++ [skinTarget skin], Plain item := by
      intro item hitem
      rcases List.mem_append.1 hitem with hitem | hitem
      · exact hitems item hitem
      · rw [List.mem_singleton.1 hitem]
        exact plain_skinTarget hskin
    rw [List.foldlM_cons, hstep]
    show skins.foldlM addSkin _ = _
    rw [ih (fun s hs => hskins s (List.mem_cons_of_mem _ hs)) hitems']
    simp

/-- No list of skins is a false constant: lower-case names do not end in `D`. -/
theorem truthy_skins {skins : List Str} (hskins : ∀ skin ∈ skins, Plain skin) :
    truthy (some (joinList (skins.map skinTarget))) ↔ skins ≠ [] := by
  rcases List.eq_nil_or_concat' skins with rfl | ⟨before, skin, rfl⟩
  · simp [isOff, upper]
  · have hne := (hskins skin (List.mem_append_right _ (List.mem_singleton_self _))).1
    obtain ⟨name, c, rfl⟩ := (List.eq_nil_or_concat' skin).resolve_left hne
    have hitem : skinTarget (name ++ [c]) = (exportNamespace ++ lower name) ++ [c.toLower] := by
      rw [skinTarget, lower_concat, List.append_assoc]
    obtain ⟨t, ht⟩ : ∃ t, joinList ((before ++ [name ++ [c]]).map skinTarget) =
        (t ++ (exportNamespace ++ lower name)) ++ [c.toLower] := by
      rw [List.map_append, List.map_singleton, joinList_concat, hitem]
      by_cases hnil : before.map skinTarget = []
      · exact ⟨[], by rw [if_pos hnil, List.nil_append]⟩
      · refine ⟨joinList (before.map skinTarget) ++ [';'], ?_⟩
        rw [if_neg hnil, List.append_assoc, List.append_assoc, List.append_assoc]
        rfl
    have h9 : exportNamespace.length = 9 := by decide
    have hoff : isOff ((t ++ (exportNamespace ++ lower name)) ++ [c.toLower]) = false := by
      apply not_isOff_concat _ (toLower_ne_D c)
      rw [List.length_append, List.length_append, h9]
      omega
    rw [ht, truthy_some, hoff]
    simp

theorem attachSkins_added {xbs : Xbs} (hskins : ∀ skin ∈ xbs.skins, Plain skin)
    (target : Target) :
    ∃ target', attachSkins xbs target = some target' ∧
      Added target target' [] (xbs.skins.map skinTarget) := by
  have hnone : ∀ item ∈ ([] : List Str), Plain item := fun _ h => absurd h List.not_mem_nil
  have hfold := foldlM_addSkin hskins hnone
  rw [joinList_nil, List.nil_append] at hfold
  rw [attachSkins, expandList_joinList hskins, hfold, Option.map_some]
  refine ⟨_, rfl, ?_⟩
  by_cases hnil : xbs.skins = []
  · -- without skins the command is left out
    rw [if_neg (mt (truthy_skins hskins).1 (not_not.2 hnil)), hnil]
    exact Added.refl _
  · rw [if_pos ((truthy_skins hskins).2 hnil), expandList_joinList (plain_skinTargets hskins)]
    exact added_targetLinkLibraries ..

/-- The libraries that are no skins. -/
def helpers : List Str := [legacyBootstrap, modechkLibrary, legacyBootstrapWrap]

/-- What is attached before the skins. -/
theorem attachMainWrap_attachMain_added (filePrefix : Str) (xbs : Xbs) (target : Target) :
    ∃ sources libs,
      Added target (attachMainWrap xbs (attachModechk xbs (attachMain filePrefix xbs target)))
        sources libs ∧
      libs.Sublist helpers ∧
      if xbs.main = some "PRECOMPILED".toList then sources = [] ∧ legacyBootstrap ∈ libs
      else IsGenerated filePrefix sources ∧ legacyBootstrap ∉ libs := by
  obtain ⟨sources, provider, hprovider, hmain⟩ := attachMain_added filePrefix xbs target
  obtain ⟨modechk, hsub, hmodechk⟩ := attachModechk_added xbs (attachMain filePrefix xbs target)
  obtain ⟨wrap, hsub', hwrap⟩ :=
    attachMainWrap_added xbs (attachModechk xbs (attachMain filePrefix xbs target))
  have hall := hprovider.trans (hmodechk.trans hwrap)
  rw [List.append_nil, List.append_nil] at hall
  have hrest : (modechk ++ wrap).Sublist [modechkLibrary, legacyBootstrapWrap] :=
    hsub.append hsub'
  have hno : legacyBootstrap ∉ modechk ++ wrap := fun h => absurd (hrest.subset h) (by decide)
  refine ⟨sources, provider ++ (modechk ++ wrap), hall, ?_, ?_⟩
  · split_ifs at hmain
    · rw [hmain.2]
      exact hrest.cons_cons _
    · rw [hmain.2]
      exact hrest.cons _
  · split_ifs at hmain ⊢
    · rw [hmain.2]
      exact ⟨hmain.1, List.mem_cons_self ..⟩
    · rw [hmain.2]
      exact ⟨hmain.1, hno⟩

/-- What is attached: a provider, helpers and the skins in order. -/
theorem attach_added {xbs : Xbs} (hskins : ∀ skin ∈ xbs.skins, Plain skin) (filePrefix : Str)
    (target : Target) :
    ∃ target' sources libs, attach filePrefix xbs target = some target' ∧
      Added target target' sources (libs ++ xbs.skins.map skinTarget) ∧
      libs.Sublist helpers ∧
      if xbs.main = some "PRECOMPILED".toList then sources = [] ∧ legacyBootstrap ∈ libs
      else IsGenerated filePrefix sources ∧ legacyBootstrap ∉ libs := by
  obtain ⟨sources, libs, hadded, hlibs, hmain⟩ :=
    attachMainWrap_attachMain_added filePrefix xbs target
  obtain ⟨target', hattach, hadded'⟩ := attachSkins_added hskins
    (attachMainWrap xbs (attachModechk xbs (attachMain filePrefix xbs target)))
  have hall := hadded.trans hadded'
  rw [List.append_nil] at hall
  exact ⟨target', sources, libs, hattach, hall, hlibs, hmain⟩

-- `wrap_precompiled_exe` of test/CMakeLists.txt
example : (xenomaiTargetBootstrap [3, 20] "/build".toList
    ⟨"wrap_precompiled_exe".toList, .executable, ["normal.c".toList], [], []⟩
    ["MAIN".toList, "PRECOMPILED".toList, "MAIN_WRAP".toList, "LINKER".toList, "SKINS".toList,
      "posix".toList]).map (·.target.linkLibraries) =
    some [legacyBootstrap, legacyBootstrapWrap, "Xenomai::posix".toList] := by decide +kernel

/-- After the fallback the library is used where it was asked for and wherever
CMake has no `target_sources`. -/
theorem settle_main {version : List Nat} {xbs : Xbs} (h : ¬ Rejects version xbs)
    (target : Target) :
    (settle version target xbs).xbs.main = some "PRECOMPILED".toList ↔
      isOld version ∨ xbs.main = some "PRECOMPILED".toList := by
  have hmain : (settle version target xbs).xbs.main =
      if isOld version && needsSources xbs && !xbs.noFallback then some "PRECOMPILED".toList
      else xbs.main := by
    rw [settle, fallback]
    split_ifs <;> simp_all [setPrecompiled]
  rw [Rejects, ← needsSources_iff, not_or, not_or] at h
  obtain ⟨hvalue, -, hneeds⟩ := h
  by_cases hold : isOld version
  · simp only [hold, true_or, iff_true]
    by_cases hsources : needsSources xbs
    · have hno : ¬ xbs.noFallback := fun hno => hneeds ⟨hold, hno, hsources⟩
      rw [hmain, if_pos (by simp [hold, hsources, hno])]
    · -- the value passed its check and needs no sources, which leaves one
      rw [hmain, if_neg (by simp [hsources])]
      rw [needsSources_iff] at hsources
      push Not at hsources
      obtain ⟨v, hv, hoff, hnone, hsource⟩ := hsources
      have hmem : v ∈ mainValues := by
        by_contra hmem
        exact hvalue ⟨v, hv, hoff, hmem⟩
      simp only [mainValues, List.mem_cons, List.not_mem_nil, or_false] at hmem
      rw [hv, (hmem.resolve_left hnone).resolve_left hsource]
  · rw [hmain, if_neg (by simp [hold])]
    simp [hold]

theorem settle_skins (version : List Nat) (target : Target) (xbs : Xbs) :
    (settle version target xbs).xbs.skins = xbs.skins := by
  rw [settle, fallback]
  split_ifs <;> simp [setPrecompiled]

theorem attachSkins_sources {xbs : Xbs} {target target' : Target}
    (h : attachSkins xbs target = some target') : target'.sources = target.sources := by
  obtain ⟨skins, -, rfl⟩ := Option.map_eq_some_iff.1 h
  split_ifs <;> rfl

/-- Before CMake 3.1, which has no `target_sources`, no sources are attached. -/
theorem bootstrap_sources_of_old {version : List Nat} (hold : isOld version) {filePrefix : Str}
    {target : Target} {xbs : Xbs} {o : Outcome}
    (h : bootstrap version filePrefix target xbs = some o) :
    o.target.sources = target.sources := by
  by_cases hreject : Rejects version xbs
  · obtain ⟨o', ho', -, htarget⟩ := bootstrap_of_rejects hreject filePrefix target
    rw [h] at ho'
    rw [Option.some.inj ho', htarget]
  · rw [bootstrap_of_not_rejects hreject] at h
    obtain ⟨target', hattach, rfl⟩ := Option.map_eq_some_iff.1 h
    have hmain := (settle_main hreject target).2 (Or.inl hold)
    generalize (settle version target xbs).xbs = settled at hattach hmain
    obtain ⟨sources, libs, hadded, -, hprovider⟩ :=
      attachMainWrap_attachMain_added filePrefix settled target
    rw [if_pos hmain] at hprovider
    rw [attachSkins_sources hattach, hadded.sources_eq, hprovider.1, List.append_nil]

end CmakeXenomai.Macros
