import CmakeXenomai.Macros.Accepts
import CmakeXenomai.Package.Project

/-!
# What the targets link to

The link interfaces of an installation's targets among one another, through any
number of steps (`links_iff`): every skin brings its core and nothing else but
copperplate. For the calls of `xenomai_target_bootstrap` this means that what
they link is there unless they name an unknown skin, or ask for modechk without
cobalt (`bootstrap_links_iff`).
-/

namespace CmakeXenomai.Package

open Lib.Cmake Lib.Targets Macros Install

/-! ## Link interfaces -/

/-- The items of `INTERFACE_LINK_LIBRARIES`. -/
def linkItems (t : Imported) : List Str := expandList ((t.prop .interfaceLinkLibraries).getD [])

/-- `Xenomai::a` links to `Xenomai::b`. -/
def Links (reg : Targets) (a b : Str) : Prop :=
  ∃ t, reg (exportNamespace ++ a) = some t ∧ exportNamespace ++ b ∈ linkItems t

/-- The skins with a library. -/
def skins : List String := ["vxworks", "psos", "alchemy", "smokey"]

/-- The targets of the package that a target of it links to, without the
namespace. -/
def linked (c : Core) (short : Str) : List Str :=
  if short = "posix".toList ∨ short = "copperplate".toList then [c.name]
  else if skins.any fun name => name.toList == short then ["copperplate".toList]
  else []

/-- Items that are files or flags. -/
structure Foreign (items : List Str) : Prop where
  plain : ∀ x ∈ items, Plain x
  other : ∀ x ∈ items, ¬ exportNamespace <+: x

theorem Foreign.nil : Foreign [] := ⟨List.forall_mem_nil _, List.forall_mem_nil _⟩

theorem Foreign.cons {x : Str} {items : List Str} (h : Foreign items) (hx : Plain x)
    (hhead : x.head? ≠ some 'X') : Foreign (x :: items) := by
  refine ⟨List.forall_mem_cons.mpr ⟨hx, h.plain⟩, List.forall_mem_cons.mpr ⟨?_, h.other⟩⟩
  rintro ⟨rest, rfl⟩
  exact hhead rfl

variable {v : Vars}

theorem plain_lib (hlib : PathText v.lib) : Plain v.lib :=
  plain_of_pathText hlib (by simp [Vars.lib])

theorem plain_ifType {type item : Str} (htype : Plain type) (hitem : Plain item) :
    Plain (ifType type item) :=
  plain_append (plain_append (plain_append (plain_append (by decide) htype) (by decide)) hitem)
    (by decide)

theorem Foreign.cons_ifType {items : List Str} (h : Foreign items) {type item : Str}
    (htype : Plain type) (hitem : Plain item) : Foreign (ifType type item :: items) := by
  refine h.cons (plain_ifType htype hitem) ?_
  unfold ifType
  simp

theorem foreign_threads (hthreads : v.threadlib = threadsTarget) :
    Foreign [v.threadlib, "-lrt".toList] := by
  rw [hthreads]
  exact (Foreign.nil.cons (by decide) (by decide)).cons (by decide) (by decide)

theorem wrappers_eq (v : Vars) (name : String) : Export.wrappers v name =
    "-Wl,@\"".toList ++ v.lib ++ '/' :: (name.toList ++ ".wrappers\"".toList) := rfl

theorem Foreign.cons_wrappers {items : List Str} (h : Foreign items) (hlib : PathText v.lib)
    {name : String} (hname : Plain (name.toList ++ ".wrappers\"".toList)) :
    Foreign (Export.wrappers v name :: items) := by
  have hplain : Plain (Export.wrappers v name) := by
    have hrest : Plain ('/' :: (name.toList ++ ".wrappers\"".toList)) := by
      refine ⟨List.cons_ne_nil _ _, List.forall_mem_cons.mpr ⟨by decide, hname.2⟩⟩
    exact plain_append (plain_append (by decide) (plain_lib hlib)) hrest
  refine h.cons hplain ?_
  rw [wrappers_eq]
  simp

/-- The last property given is set to its value. -/
theorem prop_imported {e : Export} {value : Str} (props : List (Property × Str))
    (h : e.properties = props ++ [(.interfaceLinkLibraries, value)]) :
    (e.imported v).prop .interfaceLinkLibraries = some value := by
  have hcreated : e.created.prop .interfaceLinkLibraries = some value := by
    unfold Export.created Imported.setProperties
    rw [h, List.foldl_concat, prop_set, if_pos rfl]
  unfold Export.imported
  cases e.library with
  | none => exact hcreated
  | some library =>
    show (((e.created.append .importedConfigurations _).set .importedLocationNoconfig _).set
      .importedSonameNoconfig _).prop .interfaceLinkLibraries = _
    rw [prop_set, if_neg (by decide), prop_set, if_neg (by decide), Imported.append, prop_set,
      if_neg (by decide)]
    exact hcreated

/-- The link interface of an export: files and flags, then targets of the
package. -/
structure LinksTo (v : Vars) (e : Export) (shorts : List Str) : Prop where
  items : ∃ items, Foreign items ∧ (e.imported v).prop .interfaceLinkLibraries =
    some (joinList (items ++ shorts.map (exportNamespace ++ ·)))

theorem linksTo_skin (v : Vars) (name : String) :
    LinksTo v (Export.skin v name) ["copperplate".toList] :=
  ⟨[], .nil, (prop_imported [_] rfl).trans (congrArg some (joinList_singleton _).symm)⟩

theorem linksTo_legacyBootstrap (hlib : PathText v.lib) :
    LinksTo v (Export.legacyBootstrap v) [] := by
  have hplain := plain_lib hlib
  exact ⟨_, (Foreign.nil.cons_ifType (by decide) (plain_append hplain (by decide))).cons_ifType
    (by decide) (plain_append hplain (by decide)), prop_imported [] rfl⟩

theorem linksTo_legacyBootstrapWrap (hlib : PathText v.lib) :
    LinksTo v (Export.legacyBootstrapWrap v) [] := by
  have hflags : Plain ("-Wl,--wrap=main,--dynamic-list=".toList ++ v.lib) :=
    plain_append (by decide) (plain_lib hlib)
  exact ⟨[_], Foreign.nil.cons_ifType (by decide) (plain_append hflags (by decide)),
    (prop_imported [] rfl).trans (congrArg some (joinList_singleton _).symm)⟩

theorem linksTo_core (c : Core) (hthreads : v.threadlib = threadsTarget) :
    LinksTo v (Export.core v c) [] :=
  ⟨_, foreign_threads hthreads, prop_imported [_, _] rfl⟩

theorem linksTo_modechk (hlib : PathText v.lib) (hthreads : v.threadlib = threadsTarget) :
    LinksTo v (Export.modechk v) [] :=
  ⟨_, (foreign_threads hthreads).cons_wrappers hlib (by decide), prop_imported [] rfl⟩

theorem linksTo_posix (hlib : PathText v.lib) (c : Core) :
    LinksTo v (Export.posix v c) [c.name] := by
  cases c with
  | cobalt => exact ⟨[_], Foreign.nil.cons_wrappers hlib (by decide), prop_imported [_] rfl⟩
  | mercury =>
    exact ⟨[], .nil, (prop_imported [] rfl).trans (congrArg some (joinList_singleton _).symm)⟩

theorem linksTo_copperplate (c : Core) : LinksTo v (Export.copperplate c) [c.name] :=
  ⟨[], .nil, (prop_imported [] rfl).trans (congrArg some (joinList_singleton _).symm)⟩

theorem linksTo_exports (c : Core) (hlib : PathText v.lib)
    (hthreads : v.threadlib = threadsTarget) :
    ∀ e ∈ exports c v, LinksTo v e (linked c e.short) := by
  have hskin : ∀ name ∈ skins,
      LinksTo v (Export.skin v name) (linked c (Export.skin v name).short) := by
    intro name hname
    have hlinked : linked c name.toList = ["copperplate".toList] := by
      simp only [skins, List.mem_cons, List.not_mem_nil, or_false] at hname
      rcases hname with rfl | rfl | rfl | rfl <;> rfl
    show LinksTo v _ (linked c name.toList)
    rw [hlinked]
    exact linksTo_skin v name
  have hskins : LinksTo v (Export.skin v "vxworks") (linked c "vxworks".toList) ∧
      LinksTo v (Export.skin v "psos") (linked c "psos".toList) ∧
      LinksTo v (Export.skin v "alchemy") (linked c "alchemy".toList) ∧
      LinksTo v (Export.skin v "smokey") (linked c "smokey".toList) :=
    ⟨hskin _ (by decide), hskin _ (by decide), hskin _ (by decide), hskin _ (by decide)⟩
  obtain ⟨hvxworks, hpsos, halchemy, hsmokey⟩ := hskins
  have hcore : LinksTo v (Export.core v c) (linked c c.name) := by
    have hlinked : linked c c.name = [] := by cases c <;> rfl
    rw [hlinked]
    exact linksTo_core c hthreads
  have hposix : LinksTo v (Export.posix v c) (linked c (Export.posix v c).short) := by
    have hlinked : linked c (Export.posix v c).short = [c.name] := by cases c <;> rfl
    rw [hlinked]
    exact linksTo_posix hlib c
  have hothers : LinksTo v (Export.legacyBootstrap v) (linked c "legacy_bootstrap".toList) ∧
      LinksTo v (Export.legacyBootstrapWrap v) (linked c "legacy_bootstrap_wrap".toList) ∧
      LinksTo v (Export.copperplate c) (linked c "copperplate".toList) :=
    ⟨linksTo_legacyBootstrap hlib, linksTo_legacyBootstrapWrap hlib, linksTo_copperplate c⟩
  obtain ⟨hbootstrap, hwrap, hcopperplate⟩ := hothers
  cases c with
  | cobalt =>
    simp only [exports, List.forall_mem_cons, List.cons_append, List.nil_append]
    exact ⟨hcore, linksTo_modechk hlib hthreads, hbootstrap, hwrap, hposix, hcopperplate, hvxworks,
      hpsos, halchemy, hsmokey, List.forall_mem_nil _⟩
  | mercury =>
    simp only [exports, List.forall_mem_cons, List.cons_append, List.nil_append]
    exact ⟨hcore, hbootstrap, hwrap, hposix, hcopperplate, hvxworks,
      hpsos, halchemy, hsmokey, List.forall_mem_nil _⟩

/-! ## Loaded installations -/

/-- The names of a core's targets, without the namespace. -/
def shorts (c : Core) : List Str := (expectedShort c).map String.toList

theorem exports_short (c : Core) (v : Vars) : (exports c v).map Export.short = shorts c := by
  cases c <;> rfl

theorem mem_expectedTargets_iff (c : Core) (s : Str) :
    exportNamespace ++ s ∈ expectedTargets c ↔ s ∈ shorts c := by
  have hexpected : expectedTargets c = (shorts c).map (exportNamespace ++ ·) := by
    unfold shorts
    rw [List.map_map]
    rfl
  rw [hexpected]
  constructor
  · intro h
    obtain ⟨s', hs', heq⟩ := List.mem_map.mp h
    rwa [← List.append_cancel_left heq]
  · exact List.mem_map_of_mem

/-- What a loaded installation has under the name of an export. -/
theorem Loaded.reg_eq {reg : Targets} {env : Consumer} {pkg : Installed} (h : Loaded reg env pkg)
    {e : Export} (he : e ∈ exports pkg.core (pkg.vars env)) :
    reg e.target = some (e.imported (pkg.vars env)) := by
  have hnodup : ((exports pkg.core (pkg.vars env)).map Export.target).Nodup := by
    rw [exports_target]
    exact expectedTargets_nodup pkg.core
  have hmem : e.target ∈ expectedTargets pkg.core := by
    rw [← exports_target pkg.core (pkg.vars env)]
    exact List.mem_map_of_mem he
  rw [h.own _ hmem]
  exact lookup_map hnodup (Export.imported (pkg.vars env)) he

section Loaded

variable {reg : Targets} {env : Consumer} {pkg : Installed}

theorem Loaded.links_iff (h : Loaded reg env pkg) (hlib : PathText (pkg.vars env).lib)
    (hversion : ¬ versionLess env.version [3, 1]) {a : Str} (ha : a ∈ shorts pkg.core) (b : Str) :
    Links reg a b ↔ b ∈ linked pkg.core a := by
  have hthreads : (pkg.vars env).threadlib = threadsTarget := if_neg hversion
  rw [← exports_short pkg.core (pkg.vars env)] at ha
  obtain ⟨e, he, rfl⟩ := List.mem_map.mp ha
  obtain ⟨items, hitems, hprop⟩ := (linksTo_exports pkg.core hlib hthreads e he).items
  have hplain : ∀ x ∈ items ++ (linked pkg.core e.short).map (exportNamespace ++ ·), Plain x := by
    intro x hx
    rcases List.mem_append.mp hx with hx | hx
    · exact hitems.plain x hx
    · obtain ⟨s, hs, rfl⟩ := List.mem_map.mp hx
      have hall : (linked pkg.core e.short).all fun s => decide (Plain (exportNamespace ++ s)) := by
        unfold linked
        split_ifs <;> cases pkg.core <;> decide
      exact of_decide_eq_true (List.all_eq_true.mp hall s hs)
  have hlink : linkItems (e.imported (pkg.vars env)) =
      items ++ (linked pkg.core e.short).map (exportNamespace ++ ·) := by
    unfold linkItems
    rw [hprop]
    exact expandList_joinList hplain
  have hreg : reg (exportNamespace ++ e.short) = some (e.imported (pkg.vars env)) := h.reg_eq he
  constructor
  · rintro ⟨t, ht, hb⟩
    obtain rfl := Option.some.inj (ht.symm.trans hreg)
    rw [hlink, List.mem_append] at hb
    rcases hb with hb | hb
    · exact absurd (List.prefix_append ..) (hitems.other _ hb)
    · obtain ⟨s, hs, heq⟩ := List.mem_map.mp hb
      rwa [← List.append_cancel_left heq]
  · intro hb
    refine ⟨_, hreg, ?_⟩
    rw [hlink]
    exact List.mem_append_right _ (List.mem_map_of_mem hb)

/-- A target with all it links to. -/
def brings (c : Core) (s : Str) : List Str :=
  if s = "posix".toList ∨ s = "copperplate".toList then [s, c.name]
  else if skins.any fun name => name.toList == s then [s, "copperplate".toList, c.name]
  else [s]

/-- **Link closure.** Through any number of link interfaces, the skins and
copperplate bring their core, the skins bring copperplate, and nothing else is
brought; all of it is defined. -/
theorem Loaded.reflTransGen_links_iff (h : Loaded reg env pkg) (hlib : PathText (pkg.vars env).lib)
    (hversion : ¬ versionLess env.version [3, 1]) {a : Str} (ha : a ∈ shorts pkg.core) (b : Str) :
    (Relation.ReflTransGen (Links reg) a b ↔ b ∈ brings pkg.core a) ∧
      (b ∈ brings pkg.core a → Defined reg (exportNamespace ++ b)) := by
  obtain ⟨c, hc⟩ : ∃ c, c = pkg.core := ⟨_, rfl⟩
  rw [← hc] at ha ⊢
  have hclosed : ∀ a ∈ shorts c, ∀ b ∈ linked c a, b ∈ shorts c := by
    cases c <;> decide +kernel
  have hreach : ∀ a ∈ shorts c, reach (linked c) 2 a = brings c a ∧
      (∀ m ∈ reach (linked c) 2 a, ∀ b ∈ linked c m, b ∈ reach (linked c) 2 a) ∧
      ∀ m ∈ brings c a, m ∈ shorts c := by
    cases c <;> decide +kernel
  obtain ⟨hbrings, hdone, hshorts⟩ := hreach a ha
  constructor
  · rw [reflTransGen_iff (fun a ha b => h.links_iff hlib hversion (hc ▸ ha) b)
      (hc ▸ hclosed) (hc ▸ ha), ← hbrings, mem_reach_iff hdone, hc]
  · intro hb
    rw [h.defined_iff ((mem_expectedTargets_iff c b).mpr (hshorts b hb)), ← hc,
      mem_expectedTargets_iff]
    exact hshorts b hb

end Loaded

/-- Mercury's alchemy skin, in a project that has looked for it. -/
theorem reflTransGen_links_mercury :
    ∃ reg, Loaded reg stagedConsumer stagedMercury ∧
      Relation.ReflTransGen (Links reg) "alchemy".toList "mercury".toList ∧
      ¬ Relation.ReflTransGen (Links reg) "alchemy".toList "posix".toList := by
  obtain ⟨reg, -, hloaded⟩ := build_findMercury
  have hlib : PathText (stagedMercury.vars stagedConsumer).lib := .of_all (by decide +kernel)
  have halchemy : "alchemy".toList ∈ shorts stagedMercury.core := by decide +kernel
  refine ⟨reg, hloaded, ?_, ?_⟩
  · rw [(hloaded.reflTransGen_links_iff hlib (by decide) halchemy _).1]
    decide +kernel
  · rw [(hloaded.reflTransGen_links_iff hlib (by decide) halchemy _).1]
    decide +kernel

/-! ## Calls of `xenomai_target_bootstrap` -/

/-- The libraries a call without errors adds, by its options after the
fallback. -/
def addedLibraries (xbs : Xbs) : List Str :=
  (if xbs.main = some "PRECOMPILED".toList then [legacyBootstrap] else []) ++
    (if xbs.modechk then [modechkLibrary] else []) ++
    (if xbs.mainWrap = some "LINKER".toList then [legacyBootstrapWrap] else []) ++
    xbs.skins.map skinTarget

/-- With sources, definitions and libraries more. -/
def grown (target : Target) (sources definitions libs : List Str) : Target :=
  { target with
    sources := target.sources ++ sources
    compileDefinitions := target.compileDefinitions ++ definitions
    linkLibraries := target.linkLibraries ++ libs }

theorem grown_grown (target : Target)
    (sources sources' definitions definitions' libs libs' : List Str) :
    grown (grown target sources definitions libs) sources' definitions' libs' =
      grown target (sources ++ sources') (definitions ++ definitions') (libs ++ libs') := by
  simp only [grown, List.append_assoc]

theorem grown_nil (target : Target) : grown target [] [] [] = target := by
  simp only [grown, List.append_nil]

theorem targetSources_eq (target : Target) (items : List Str) :
    target.targetSources items = grown target items [] [] := by
  simp only [grown, Target.targetSources, List.append_nil]

theorem targetCompileDefinitions_eq (target : Target) (items : List Str) :
    target.targetCompileDefinitions items = grown target [] items [] := by
  simp only [grown, Target.targetCompileDefinitions, List.append_nil]

theorem targetLinkLibraries_eq (target : Target) (items : List Str) :
    target.targetLinkLibraries items = grown target [] [] items := by
  simp only [grown, Target.targetLinkLibraries, List.append_nil]

/-- What a call adds to the sources. -/
def addedSources (filePrefix : Str) (xbs : Xbs) : List Str :=
  if xbs.main = some "PRECOMPILED".toList then []
  else generated filePrefix (if xbs.main = some "SOURCE".toList then "_main.c".toList
    else ".c".toList)

/-- What it adds to the definitions. -/
def addedDefinitions (xbs : Xbs) : List Str :=
  if xbs.mainWrap = some "MACRO".toList then
    [ifType "EXECUTABLE".toList "main=__real_main".toList]
  else []

theorem attachMain_grown (filePrefix : Str) (xbs : Xbs) (target : Target) :
    attachMain filePrefix xbs target = grown target (addedSources filePrefix xbs) []
      (if xbs.main = some "PRECOMPILED".toList then [legacyBootstrap] else []) := by
  rw [attachMain_eq]
  unfold addedSources
  by_cases hmain : xbs.main = some "PRECOMPILED".toList
  · rw [if_pos hmain, if_pos hmain, if_pos hmain, targetLinkLibraries_eq]
  · rw [if_neg hmain, if_neg hmain, if_neg hmain, targetSources_eq]

theorem attachModechk_grown (xbs : Xbs) (target : Target) :
    attachModechk xbs target =
      grown target [] [] (if xbs.modechk then [modechkLibrary] else []) := by
  unfold attachModechk
  split_ifs
  · exact targetLinkLibraries_eq ..
  · exact (grown_nil target).symm

theorem attachMainWrap_grown (xbs : Xbs) (target : Target) :
    attachMainWrap xbs target = grown target [] (addedDefinitions xbs)
      (if xbs.mainWrap = some "LINKER".toList then [legacyBootstrapWrap] else []) := by
  have hmacro : strEqual "XBS_MAIN_WRAP".toList xbs.mainWrap "MACRO".toList ↔
      xbs.mainWrap = some "MACRO".toList := strEqual_iff (by decide) _
  have hlinker : strEqual "XBS_MAIN_WRAP".toList xbs.mainWrap "LINKER".toList ↔
      xbs.mainWrap = some "LINKER".toList := strEqual_iff (by decide) _
  unfold attachMainWrap addedDefinitions
  rw [if_congr hmacro rfl rfl, if_congr hlinker rfl rfl]
  by_cases h : xbs.mainWrap = some "MACRO".toList
  · have hne : xbs.mainWrap ≠ some "LINKER".toList := by
      rw [h]
      decide
    rw [if_pos h, if_pos h, if_neg hne, targetCompileDefinitions_eq]
  · rw [if_neg h, if_neg h]
    split_ifs
    · exact targetLinkLibraries_eq ..
    · exact (grown_nil target).symm

theorem attachSkins_grown {xbs : Xbs} (hskins : ∀ skin ∈ xbs.skins, Plain skin) (target : Target) :
    attachSkins xbs target = some (grown target [] [] (xbs.skins.map skinTarget)) := by
  obtain ⟨target', hattach, hadded⟩ := attachSkins_added hskins target
  have hlibs : ∃ libs, target' = target.targetLinkLibraries libs := by
    obtain ⟨skins, -, rfl⟩ := Option.map_eq_some_iff.1 hattach
    split_ifs
    · exact ⟨_, rfl⟩
    · exact ⟨[], by rw [targetLinkLibraries_eq, grown_nil]⟩
  obtain ⟨libs, rfl⟩ := hlibs
  have hsame : target.linkLibraries ++ libs =
      target.linkLibraries ++ xbs.skins.map skinTarget := hadded.linkLibraries_eq
  rw [hattach, List.append_cancel_left hsame, targetLinkLibraries_eq]

/-- The target after a call without errors. -/
theorem attach_eq {xbs : Xbs} (hskins : ∀ skin ∈ xbs.skins, Plain skin) (filePrefix : Str)
    (target : Target) : attach filePrefix xbs target =
      some (grown target (addedSources filePrefix xbs) (addedDefinitions xbs)
        (addedLibraries xbs)) := by
  unfold attach
  rw [attachSkins_grown hskins, attachMainWrap_grown, attachModechk_grown, attachMain_grown,
    grown_grown, grown_grown, grown_grown]
  simp only [addedLibraries, List.append_nil, List.nil_append, List.append_assoc]

theorem settle_modechk (version : List Nat) (target : Target) (xbs : Xbs) :
    (settle version target xbs).xbs.modechk = xbs.modechk := by
  rw [settle, fallback, setLinker]
  split_ifs <;> rfl

variable {c : Call}

theorem read_modechk (hplain : ∀ o ∈ c.opts, o.Plain) : c.read.modechk ↔ .modechk ∈ c.opts := by
  rw [read_eq hplain]
  rcases parsed_cases hplain "MODECHK".toList with ⟨o, ho, hkey, hat⟩ | ⟨hno, hat⟩
  · obtain rfl : o = .modechk := by
      cases o <;> simp [Opt.group, Group.key] at hkey ⊢
    have hset : c.parsed.options "MODECHK".toList = true :=
      congrArg (·.1) (hat.trans (at_apply_option ..))
    exact ⟨fun _ => ho, fun _ => hset⟩
  · have hunset : c.parsed.options "MODECHK".toList = false := congrArg (·.1) hat
    exact ⟨fun hset => absurd hset (Bool.eq_false_iff.1 hunset),
      fun hmem => absurd rfl (hno _ hmem)⟩

theorem plain_skinNames (c : Call) : ∀ skin ∈ c.skinNames, Plain skin := by
  intro skin hskin
  obtain ⟨o, -, hskin⟩ := List.mem_flatMap.1 hskin
  cases o with
  | skins names =>
    obtain ⟨name, -, rfl⟩ := List.mem_map.1 hskin
    exact name.plain
  | _ => exact absurd hskin List.not_mem_nil

/-- No target in the namespace but those of the two cores. -/
def NoStrangers (reg : Targets) : Prop :=
  ∀ s, (∀ c, s ∉ shorts c) → reg (exportNamespace ++ s) = none

theorem act_noStrangers {a : Action} {reg reg' : Targets} (hreg : NoStrangers reg)
    (h : act a reg = .ok reg') : NoStrangers reg' := by
  intro s hs
  have hnone := hreg s hs
  rcases act_cases h with ⟨env, threads, req, pkg, f, rfl, hconfig, rfl⟩ | ⟨name, target, -, -, rfl⟩
  · rcases xenomaiConfig_cases hconfig with hsame | ⟨middle, hthreads, hload⟩
    · rwa [hsame]
    · have hne : exportNamespace ++ s ≠ threadsTarget := fun heq => by
        have hhead : some 'X' = some 'T' := congrArg List.head? heq
        exact absurd hhead (by decide)
      have hmiddle : middle (exportNamespace ++ s) = none :=
        (findDependencyThreads_of_ne hthreads hne).trans hnone
      rcases load_cases hload with ⟨-, hsame⟩ | ⟨-, hoverlay⟩
      · rw [hsame, hmiddle]
      · have hout : exportNamespace ++ s ∉ (exportSet pkg.core (pkg.vars env)).names := by
          rw [exportSet_names, mem_expectedTargets_iff]
          exact hs pkg.core
        rw [hoverlay]
        exact ((exportSet pkg.core (pkg.vars env)).overlay_of_not_mem middle hout).trans hmiddle
  · rw [Function.update_of_ne, hnone]
    rintro heq
    exact name.other (heq ▸ List.prefix_append ..)

/-- **What a call links is there.** In any directory of a project that has loaded
an installation, of the calls valid by the grammar, which report no error, those
for modechk on mercury and those with a skin that the core does not have link to
a target that does not exist; all others link to targets of the installation
only. -/
theorem bootstrap_links_iff (ops : List (Op Action)) (top : Targets)
    (htop : ∀ s, top (exportNamespace ++ s) = none) (reg : Targets) (outer : Scopes Str Imported)
    (hbuild : build act ops [top] = .ok (reg :: outer)) (env : Consumer) (pkg : Installed)
    (hloaded : Loaded reg env pkg) (c : Call) (h : ¬ c.MustReject) :
    ∃ o libs, c.run = some o ∧ ¬ o.reportsError ∧
      o.target.linkLibraries = c.target.linkLibraries ++ libs ∧
      ((∀ lib ∈ libs, Defined reg lib) ↔
        (.modechk ∈ c.opts → pkg.core = .cobalt) ∧
          ∀ skin ∈ c.skinNames, lower skin ∈ shorts pkg.core) := by
  have hplain := plain_of_not_mustReject h
  have hreject := not_rejects_of_not_mustReject h
  obtain ⟨settled, hsettled⟩ :
      ∃ settled, settled = (settle c.version c.target c.read).xbs := ⟨_, rfl⟩
  have hskins : settled.skins = c.skinNames := by
    rw [hsettled]
    exact (settle_skins ..).trans (read_skins hplain)
  have hmodechk : settled.modechk ↔ .modechk ∈ c.opts := by
    rw [hsettled, settle_modechk]
    exact read_modechk hplain
  have hattach := attach_eq (hskins ▸ plain_skinNames c) c.filePrefix c.target
  have hrun : c.run = some ⟨grown c.target (addedSources c.filePrefix settled)
      (addedDefinitions settled) (addedLibraries settled),
      (settle c.version c.target c.read).messages⟩ := by
    have hbootstrap := bootstrap_of_not_rejects hreject c.filePrefix c.target
    rw [← hsettled, hattach] at hbootstrap
    exact hbootstrap
  refine ⟨_, addedLibraries settled, hrun, mt (reportsError_iff hrun).1 hreject, rfl, ?_⟩
  -- a target of the namespace is there if the core has it
  have hstrangers : NoStrangers reg := by
    refine build_forall (fun a _ reg reg' => act_noStrangers) ?_ hbuild reg List.mem_cons_self
    rw [List.forall_mem_singleton]
    exact fun s _ => htop s
  have hdefined : ∀ s, Defined reg (exportNamespace ++ s) ↔ s ∈ shorts pkg.core := by
    intro s
    by_cases hs : ∀ c, s ∉ shorts c
    · exact iff_of_false (not_defined_iff.mpr (hstrangers s hs)) (hs pkg.core)
    · simp only [not_forall, not_not] at hs
      obtain ⟨c, hc⟩ := hs
      rw [← mem_expectedTargets_iff]
      exact hloaded.defined_iff ((mem_expectedTargets_iff c s).mpr hc)
  have hhelpers : Defined reg legacyBootstrap ∧ Defined reg legacyBootstrapWrap ∧
      (Defined reg modechkLibrary ↔ pkg.core = .cobalt) := by
    have hbootstrap := hdefined "legacy_bootstrap".toList
    have hwrap := hdefined "legacy_bootstrap_wrap".toList
    have hcheck := hdefined "modechk".toList
    refine ⟨hbootstrap.mpr ?_, hwrap.mpr ?_, hcheck.trans ?_⟩
    all_goals cases pkg.core <;> decide +kernel
  obtain ⟨hbootstrap, hwrap, hcheck⟩ := hhelpers
  unfold addedLibraries
  simp only [List.forall_mem_append, hskins, List.forall_mem_map]
  constructor
  · rintro ⟨⟨⟨-, hall⟩, -⟩, hskin⟩
    refine ⟨fun hmem => ?_, fun skin hmem => (hdefined _).mp (hskin skin hmem)⟩
    rw [if_pos (hmodechk.mpr hmem)] at hall
    exact hcheck.mp (hall _ (List.mem_singleton_self _))
  · rintro ⟨hcobalt, hskin⟩
    refine ⟨⟨⟨?_, ?_⟩, ?_⟩, fun skin hmem => (hdefined _).mpr (hskin skin hmem)⟩
    · split_ifs <;> simp [hbootstrap]
    · split_ifs with hset
      · simp [hcheck.mpr (hcobalt (hmodechk.mp hset))]
      · exact List.forall_mem_nil _
    · split_ifs <;> simp [hwrap]

def posixSkin : SkinName := ⟨"posix".toList, by decide, by decide⟩

/-- A call with modechk, for the posix skin. -/
def modechkCall : Call where
  version := [3, 16, 3]
  binaryDir := "/build".toList
  target := ⟨"app".toList, .executable, ["app.c".toList], [], []⟩
  opts := [.modechk, .skins [posixSkin]]
  nodup := by decide +kernel

theorem bootstrap_links_mercury :
    ∃ reg o libs, build act [findMercury] [fun _ => none] = .ok [reg] ∧ modechkCall.run = some o ∧
      o.target.linkLibraries = modechkCall.target.linkLibraries ++ libs ∧
      ¬ ∀ lib ∈ libs, Defined reg lib := by
  obtain ⟨reg, hbuild, hloaded⟩ := build_findMercury
  have hvalid : ¬ modechkCall.MustReject := by
    simp [Call.MustReject, modechkCall]
  obtain ⟨o, libs, hrun, -, hlibs, hiff⟩ := bootstrap_links_iff [findMercury] (fun _ => none)
    (fun _ => rfl) reg [] hbuild stagedConsumer stagedMercury hloaded modechkCall hvalid
  refine ⟨reg, o, libs, hbuild, hrun, hlibs, fun hall => ?_⟩
  have hcobalt := (hiff.mp hall).1 List.mem_cons_self
  cases hcobalt

end CmakeXenomai.Package
