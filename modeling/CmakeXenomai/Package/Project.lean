import CmakeXenomai.Package.Config

/-!
# Projects that use the package

A project configures its directories one after the other; each of them starts
from the targets its parent knows, and may look for the package, any
installation of either core, or define targets of its own. Whatever the order
of steps, a directory knows either no target of the package or exactly those of
one installation (`build_oneCore`), and with one core known, looking for the
other one always ends the configuration (`build_findPackage`).
-/

namespace CmakeXenomai.Package

open Lib.Cmake Lib.Targets Macros

/-! ## Steps -/

/-- A name outside the package's namespace. -/
structure OtherName where
  name : Str
  other : ¬ exportNamespace <+: name

inductive Action where
  /-- `find_package(Xenomai)`, with the installation it finds. -/
  | findPackage (env : Consumer) (threads : Option Imported) (req : Request) (pkg : Installed)
  /-- A target of the project, or of another package. -/
  | addTarget (name : OtherName) (target : Imported)

def act : Action → Targets → Except Failure Targets
  | .findPackage env threads req pkg, reg => (xenomaiConfig env threads req pkg reg).map Found.reg
  | .addTarget name target, reg =>
    if Defined reg name.name then .error (.duplicate name.name)
    else .ok (Function.update reg name.name (some target))

/-! ## Directories -/

/-- No target of either core. -/
def Unused (reg : Targets) : Prop := ∀ c, ∀ n ∈ expectedTargets c, reg n = none

/-- The targets of an installation, as one `find_package` brought them, and no
other target of either core. -/
structure Loaded (reg : Targets) (env : Consumer) (pkg : Installed) : Prop where
  own : ∀ n ∈ expectedTargets pkg.core, reg n = (pkg.targets env).lookup n
  others : ∀ c, ∀ n ∈ expectedTargets c, n ∉ expectedTargets pkg.core → reg n = none

/-- The export sets of all installations. -/
def family : Set (ExportSet Str Imported) := {s | ∃ c v, s = exportSet c v}

/-- Those that a project looks for. -/
def lookedFor (ops : List (Op Action)) : Set (ExportSet Str Imported) :=
  {s | ∃ env threads req pkg, .act (.findPackage env threads req pkg) ∈ ops ∧ s = pkg.targets env}

theorem posix_mem (c : Core) : exportNamespace ++ "posix".toList ∈ expectedTargets c := by
  cases c <;> decide +kernel

theorem overlapping_family : Overlapping family := by
  rintro _ ⟨c, v, rfl⟩ _ ⟨c', v', rfl⟩
  refine ⟨exportNamespace ++ "posix".toList, ?_, ?_⟩
  · rw [exportSet_names]
    exact posix_mem c
  · rw [exportSet_names]
    exact posix_mem c'

theorem unused_iff (reg : Targets) : Unused reg ↔ Absent family reg := by
  constructor
  · rintro h _ ⟨c, v, rfl⟩ n hn
    rw [exportSet_names] at hn
    exact h c n hn
  · intro h c n hn
    refine h (exportSet c ⟨[], [], [], []⟩) ⟨c, _, rfl⟩ n ?_
    rwa [exportSet_names]

theorem Loaded.holds {reg : Targets} {env : Consumer} {pkg : Installed} (h : Loaded reg env pkg) :
    Holds family reg (pkg.targets env) where
  mem := ⟨pkg.core, pkg.vars env, rfl⟩
  own n hn := by
    have hn' : n ∈ (exportSet pkg.core (pkg.vars env)).names := hn
    rw [exportSet_names] at hn'
    exact h.own n hn'
  others := by
    rintro _ ⟨c, v, rfl⟩ n hn hout
    have hout' : n ∉ (exportSet pkg.core (pkg.vars env)).names := hout
    rw [exportSet_names] at hn hout'
    exact h.others c n hn hout'

theorem loaded_of_holds {reg : Targets} {env : Consumer} {pkg : Installed}
    (h : Holds family reg (pkg.targets env)) : Loaded reg env pkg where
  own n hn := by
    refine h.own n ?_
    show n ∈ (exportSet pkg.core (pkg.vars env)).names
    rwa [exportSet_names]
  others c n hn hout := by
    refine h.others (exportSet c ⟨[], [], [], []⟩) ⟨c, _, rfl⟩ n (by rwa [exportSet_names]) ?_
    show n ∉ (exportSet pkg.core (pkg.vars env)).names
    rwa [exportSet_names]

theorem oneOf_iff (ops : List (Op Action)) (reg : Targets) :
    OneOf family (lookedFor ops) reg ↔
      Unused reg ∨ ∃ env threads req pkg,
        .act (.findPackage env threads req pkg) ∈ ops ∧ Loaded reg env pkg := by
  rw [unused_iff]
  constructor
  · rintro (h | ⟨_, ⟨env, threads, req, pkg, hop, rfl⟩, h⟩)
    · exact .inl h
    · exact .inr ⟨env, threads, req, pkg, hop, loaded_of_holds h⟩
  · rintro (h | ⟨env, threads, req, pkg, hop, h⟩)
    · exact .inl h
    · exact .inr ⟨_, ⟨env, threads, req, pkg, hop, rfl⟩, h.holds⟩

theorem Loaded.congr {reg reg' : Targets} {env : Consumer} {pkg : Installed}
    (h : Loaded reg env pkg) (hsame : ∀ c, ∀ n ∈ expectedTargets c, reg' n = reg n) :
    Loaded reg' env pkg where
  own n hn := (hsame _ n hn).trans (h.own n hn)
  others c n hn hout := (hsame c n hn).trans (h.others c n hn hout)

theorem Loaded.defined_iff {reg : Targets} {env : Consumer} {pkg : Installed}
    (h : Loaded reg env pkg) {c : Core} {n : Str} (hn : n ∈ expectedTargets c) :
    Defined reg n ↔ n ∈ expectedTargets pkg.core := by
  constructor
  · intro hdefined
    by_contra hout
    exact not_defined_iff.mpr (h.others c n hn hout) hdefined
  · intro hmem
    refine h.holds.defined ?_
    show n ∈ (exportSet pkg.core (pkg.vars env)).names
    rwa [exportSet_names]

/-! ## What a step does -/

/-- Including the import files is importing their export set. -/
theorem xenomaiTargets_load {env : Consumer} {c : Core} {v : Vars} {listFile : Str}
    {reg reg' : Targets} (h : xenomaiTargets env c v listFile reg = .ok reg') :
    load reg (exportSet c v) = some reg' := by
  by_cases henv : beforeCmake25 env.version
  · unfold xenomaiTargets at h
    rw [if_pos henv] at h
    cases h
  · rw [xenomaiTargets_eq henv] at h
    unfold load
    rw [exportSet_names]
    cases hpresence : presence reg (expectedTargets c) with
    | complete =>
      rw [hpresence] at h
      exact congrArg some (Except.ok.inj h)
    | absent =>
      rw [hpresence] at h
      simp only at h
      split at h
      · cases h
      · split at h
        · cases h
        · exact congrArg some (Except.ok.inj h)
    | partly defined missing =>
      rw [hpresence] at h
      cases h

theorem xenomaiConfig_cases {env : Consumer} {threads : Option Imported} {req : Request}
    {pkg : Installed} {reg : Targets} {f : Found}
    (h : xenomaiConfig env threads req pkg reg = .ok f) :
    f.reg = reg ∨ ∃ reg', findDependencyThreads env threads reg = some reg' ∧
      load reg' (pkg.targets env) = some f.reg := by
  unfold xenomaiConfig at h
  cases hthreads : findDependencyThreads env threads reg with
  | none =>
    rw [hthreads] at h
    obtain rfl := Except.ok.inj h
    exact .inl rfl
  | some reg' =>
    rw [hthreads] at h
    cases htargets : xenomaiTargets env pkg.core (pkg.vars env) pkg.listFile reg' with
    | error e =>
      simp only [htargets] at h
      cases h
    | ok reg'' =>
      simp only [htargets] at h
      obtain rfl := Except.ok.inj h
      exact .inr ⟨reg', rfl, xenomaiTargets_load htargets⟩

theorem act_cases {a : Action} {reg reg' : Targets} (h : act a reg = .ok reg') :
    (∃ env threads req pkg f, a = .findPackage env threads req pkg ∧
      xenomaiConfig env threads req pkg reg = .ok f ∧ reg' = f.reg) ∨
    ∃ name target, a = .addTarget name target ∧ reg name.name = none ∧
      reg' = Function.update reg name.name (some target) := by
  cases a with
  | findPackage env threads req pkg =>
    have h' : (xenomaiConfig env threads req pkg reg).map Found.reg = .ok reg' := h
    cases hconfig : xenomaiConfig env threads req pkg reg with
    | error e =>
      rw [hconfig] at h'
      cases h'
    | ok f =>
      rw [hconfig] at h'
      exact .inl ⟨env, threads, req, pkg, f, rfl, hconfig, (Except.ok.inj h').symm⟩
  | addTarget name target =>
    have h' : (if Defined reg name.name then Except.error (Failure.duplicate name.name)
      else Except.ok (Function.update reg name.name (some target))) = Except.ok reg' := h
    split at h'
    · cases h'
    · rename_i hfree
      exact .inr ⟨name, target, rfl, not_defined_iff.mp hfree, (Except.ok.inj h').symm⟩

theorem act_extends (a : Action) (reg reg' : Targets) (h : act a reg = .ok reg') :
    Extends reg reg' := by
  rcases act_cases h with
    ⟨env, threads, req, pkg, f, -, hconfig, rfl⟩ | ⟨name, target, -, hfree, rfl⟩
  · rcases xenomaiConfig_cases hconfig with hsame | ⟨middle, hthreads, hload⟩
    · rw [hsame]
      exact .refl reg
    · exact (findDependencyThreads_extends hthreads).trans (load_extends hload)
  · intro n d hn
    rw [Function.update_of_ne, hn]
    rintro rfl
    rw [hfree] at hn
    cases hn

theorem exportNamespace_isPrefix {c : Core} {n : Str} (hn : n ∈ expectedTargets c) :
    exportNamespace <+: n := by
  obtain ⟨short, -, rfl⟩ := List.mem_map.mp hn
  exact List.prefix_append ..

theorem act_oneOf {ops : List (Op Action)} {a : Action} (ha : .act a ∈ ops) {reg reg' : Targets}
    (hreg : OneOf family (lookedFor ops) reg) (h : act a reg = .ok reg') :
    OneOf family (lookedFor ops) reg' := by
  rcases act_cases h with ⟨env, threads, req, pkg, f, rfl, hconfig, rfl⟩ | ⟨name, target, -, -, rfl⟩
  · rcases xenomaiConfig_cases hconfig with hsame | ⟨middle, hthreads, hload⟩
    · rwa [hsame]
    · have hmiddle : OneOf family (lookedFor ops) middle := by
        refine hreg.congr ?_
        rintro _ ⟨c, v, rfl⟩ n hn
        rw [exportSet_names] at hn
        exact findDependencyThreads_of_ne hthreads fun heq => threadsTarget_not_mem c (heq ▸ hn)
      exact hmiddle.load overlapping_family ⟨pkg.core, pkg.vars env, rfl⟩
        ⟨env, threads, req, pkg, ha, rfl⟩ hload
  · refine hreg.congr ?_
    rintro _ ⟨c, v, rfl⟩ n hn
    rw [exportSet_names] at hn
    refine Function.update_of_ne ?_ ..
    rintro rfl
    exact name.other (exportNamespace_isPrefix hn)

theorem build_oneOf {ops : List (Op Action)} {top : Targets} (htop : Unused top)
    {scopes : Scopes Str Imported} (hbuild : build act ops [top] = .ok scopes) :
    ∀ reg ∈ scopes, OneOf family (lookedFor ops) reg := by
  refine build_forall (fun a ha reg reg' => act_oneOf ha) ?_ hbuild
  rw [List.forall_mem_singleton]
  exact (oneOf_iff ops top).mpr (.inl htop)

/-- **One installation per directory.** At any point of configuring a project,
each directory on the way knows no target of the package, or exactly those of
one core, all from the same installation as one `find_package` of the project
brought them; and it knows everything its parents know. -/
theorem build_oneCore (ops : List (Op Action)) (top : Targets) (htop : Unused top)
    (scopes : Scopes Str Imported) (hbuild : build act ops [top] = .ok scopes) :
    (∀ reg ∈ scopes, Unused reg ∨ ∃ env threads req pkg,
      .act (.findPackage env threads req pkg) ∈ ops ∧ Loaded reg env pkg) ∧
    scopes.Pairwise fun inner outer => Extends outer inner := by
  constructor
  · intro reg hreg
    exact (oneOf_iff ops reg).mp (build_oneOf htop hbuild reg hreg)
  · exact build_nested act_extends (List.pairwise_singleton ..) hbuild

/-- With the same core known, from whatever installation, the targets of the
package stay. -/
theorem Loaded.xenomaiConfig_same {reg : Targets} {env₀ : Consumer} {pkg₀ : Installed}
    (h : Loaded reg env₀ pkg₀) {env : Consumer} (henv : ¬ beforeCmake25 env.version)
    {pkg : Installed} (hcore : pkg.core = pkg₀.core) (threads : Imported) (req : Request) :
    ∃ reg', xenomaiConfig env (some threads) req pkg reg =
      .ok ⟨reg', checkRequiredComponents req⟩ ∧ Loaded reg' env₀ pkg₀ := by
  obtain ⟨middle, hmiddle⟩ : ∃ middle,
      findDependencyThreads env (some threads) reg = some middle := ⟨_, rfl⟩
  have hloaded : Loaded middle env₀ pkg₀ := h.congr fun c n hn =>
    findDependencyThreads_of_ne hmiddle fun heq => threadsTarget_not_mem c (heq ▸ hn)
  have hall : ∀ n ∈ expectedTargets pkg.core, Defined middle n := fun n hn =>
    (hloaded.defined_iff hn).mpr (hcore ▸ hn)
  refine ⟨middle, ?_, hloaded⟩
  unfold xenomaiConfig
  rw [hmiddle]
  simp only
  rw [xenomaiTargets_eq henv, presence_complete hall]
  rfl

/-- The staged installation of mercury. -/
def stagedMercury : Installed where
  core := .mercury
  rel := ⟨"..".toList, "lib".toList, "include".toList⟩
  dir := "/home/staging/opt/lib/cmake/xenomai".toList

def noComponents : Request := ⟨[], fun _ => none, fun _ => none⟩

def findMercury : Op Action :=
  .act (.findPackage stagedConsumer (some (.new .interface)) noComponents stagedMercury)

/-- A project that looks for it has it. -/
theorem build_findMercury :
    ∃ reg, build act [findMercury] [fun _ => none] = .ok [reg] ∧
      Loaded reg stagedConsumer stagedMercury := by
  obtain ⟨middle, hmiddle⟩ : ∃ middle, findDependencyThreads stagedConsumer
      (some (.new .interface)) (fun _ => none) = some middle := ⟨_, rfl⟩
  have habsent : Absent family middle := by
    rw [← unused_iff]
    intro c n hn
    exact findDependencyThreads_of_ne hmiddle fun heq => threadsTarget_not_mem c (heq ▸ hn)
  have hmissing : missing? stagedConsumer
      (importChecks .mercury (stagedMercury.vars stagedConsumer)) = none := by
    decide +kernel
  have htargets : xenomaiTargets stagedConsumer .mercury (stagedMercury.vars stagedConsumer)
      stagedMercury.listFile middle =
        .ok ((stagedMercury.targets stagedConsumer).overlay middle) := by
    rw [xenomaiTargets_eq (by decide),
      presence_absent (List.ne_nil_of_mem (posix_mem .mercury)) ((unused_iff _).mpr habsent _)]
    simp only
    rw [if_neg (by decide), hmissing]
    rfl
  have hconfig : xenomaiConfig stagedConsumer (some (.new .interface)) noComponents stagedMercury
      (fun _ => none) = .ok ⟨(stagedMercury.targets stagedConsumer).overlay middle, true⟩ := by
    unfold xenomaiConfig
    rw [hmiddle]
    simp only
    rw [show stagedMercury.core = .mercury from rfl, htargets]
    rfl
  refine ⟨_, ?_, loaded_of_holds (habsent.holds_overlay ⟨_, _, rfl⟩)⟩
  show (((xenomaiConfig stagedConsumer (some (.new .interface)) noComponents stagedMercury
    fun _ => none).map Found.reg).map fun reg => [reg]) >>= _ = _
  rw [hconfig]
  rfl

/-- Another installation of mercury. -/
def usrMercury : Installed := { stagedMercury with dir := "/usr/lib/cmake/xenomai".toList }

/-- A subdirectory looks for it once more, and would take the other one. -/
def findTwice : List (Op Action) :=
  [findMercury, .enter,
    .act (.findPackage stagedConsumer (some (.new .interface)) noComponents usrMercury)]

theorem build_findTwice :
    ∃ inner outer, build act findTwice [fun _ => none] = .ok [inner, outer] ∧
      Loaded inner stagedConsumer stagedMercury := by
  obtain ⟨outer, hbuild, houter⟩ := build_findMercury
  have hversion : ¬ beforeCmake25 stagedConsumer.version := by decide
  have hsame : usrMercury.core = stagedMercury.core := rfl
  -- the subdirectory starts with mercury, so nothing is imported
  obtain ⟨inner, hconfig, hinner⟩ :=
    houter.xenomaiConfig_same hversion hsame (.new .interface) noComponents
  refine ⟨inner, outer, ?_, hinner⟩
  have hfind : step act findMercury [fun _ => none] = .ok [outer] := by
    rw [build_cons] at hbuild
    cases hstep : step act findMercury [fun _ => none] with
    | error e =>
      rw [hstep] at hbuild
      cases hbuild
    | ok scopes =>
      rw [hstep] at hbuild
      exact hbuild
  unfold findTwice
  rw [build_cons, hfind]
  show ((xenomaiConfig stagedConsumer (some (.new .interface)) noComponents usrMercury
    outer).map Found.reg).map (· :: [outer]) >>= _ = _
  rw [hconfig]
  rfl

/-- The subdirectory has one installation, and all its parent knows. -/
theorem build_oneCore_twice :
    ∃ inner outer, build act findTwice [fun _ => none] = .ok [inner, outer] ∧
      (∃ env threads req pkg,
        .act (.findPackage env threads req pkg) ∈ findTwice ∧ Loaded inner env pkg) ∧
      Extends outer inner := by
  obtain ⟨inner, outer, hbuild, hloaded⟩ := build_findTwice
  obtain ⟨hone, hnested⟩ := build_oneCore findTwice _ (fun _ _ _ => rfl) _ hbuild
  refine ⟨inner, outer, hbuild, ?_, (List.pairwise_cons.mp hnested).1 outer List.mem_cons_self⟩
  have hmercury : exportNamespace ++ "posix".toList ∈ expectedTargets .mercury := posix_mem _
  have hdefined := (hloaded.defined_iff hmercury).mpr hmercury
  rcases hone inner List.mem_cons_self with hunused | h
  · exact absurd hdefined (not_defined_iff.mpr (hunused .mercury _ hmercury))
  · exact h

/-! ## Looking for the package -/

/-- The targets both cores have, and those only one of them has. -/
def sharedTargets : List Str :=
  ["legacy_bootstrap", "legacy_bootstrap_wrap", "posix", "copperplate", "vxworks", "psos",
    "alchemy", "smokey"].map fun n => exportNamespace ++ n.toList

def ownTargets : Core → List Str
  | .cobalt => ["cobalt", "modechk"].map fun n => exportNamespace ++ n.toList
  | .mercury => ["mercury"].map fun n => exportNamespace ++ n.toList

theorem filter_mem_expectedTargets {c c' : Core} (h : c ≠ c') :
    (expectedTargets c).filter (· ∈ expectedTargets c') = sharedTargets ∧
      (expectedTargets c).filter (· ∉ expectedTargets c') = ownTargets c := by
  cases c <;> cases c' <;> first | exact absurd rfl h | decide +kernel

/-- The import files of the other core list what they miss. -/
theorem Loaded.xenomaiTargets_other {reg : Targets} {env₀ : Consumer} {pkg₀ : Installed}
    (h : Loaded reg env₀ pkg₀) {env : Consumer} (henv : ¬ beforeCmake25 env.version) {c : Core}
    (hc : c ≠ pkg₀.core) (v : Vars) (listFile : Str) :
    xenomaiTargets env c v listFile reg =
      .error (.someDefined (joinList sharedTargets) (joinList (ownTargets c))) := by
  obtain ⟨hshared, hown⟩ := filter_mem_expectedTargets hc
  have hdefined : (expectedTargets c).filter (fun n => Defined reg n) = sharedTargets := by
    rw [← hshared]
    refine List.filter_congr fun n hn => ?_
    rw [decide_eq_decide]
    exact h.defined_iff hn
  have hmissing : (expectedTargets c).filter (fun n => ¬ Defined reg n) = ownTargets c := by
    rw [← hown]
    refine List.filter_congr fun n hn => ?_
    rw [decide_eq_decide, h.defined_iff hn]
  have hposix : Defined reg (exportNamespace ++ "posix".toList) :=
    (h.defined_iff (posix_mem c)).mpr (posix_mem pkg₀.core)
  have hcore : exportNamespace ++ c.name ∈ expectedTargets c ∧
      exportNamespace ++ c.name ∉ expectedTargets pkg₀.core := by
    cases hcore : pkg₀.core <;> cases c <;> first
      | exact absurd hcore.symm hc
      | decide +kernel
  rw [xenomaiTargets_eq henv,
    presence_partly (posix_mem c) hposix hcore.1 (h.others c _ hcore.1 hcore.2), hdefined, hmissing]

/-- **Looking for the package from anywhere.** In a directory without targets of
the package they are imported, unless a library is missing; with the same core
known, from whatever installation, the targets stay as they are; with the other
core known, the configuration ends and the error lists the targets the cores
share and those that are missing. -/
theorem build_findPackage (ops : List (Op Action)) (top : Targets) (htop : Unused top)
    (reg : Targets) (outer : Scopes Str Imported)
    (hbuild : build act ops [top] = .ok (reg :: outer)) (env : Consumer)
    (hversion : ¬ versionLess env.version [3, 0, 0]) (threads : Imported) (req : Request)
    (pkg : Installed) :
    (Unused reg ∧ match missing? env (importChecks pkg.core (pkg.vars env)) with
      | some (target, file) => xenomaiConfig env (some threads) req pkg reg =
          .error (.missingFile target file pkg.listFile)
      | none => ∃ reg', xenomaiConfig env (some threads) req pkg reg =
          .ok ⟨reg', checkRequiredComponents req⟩ ∧ Loaded reg' env pkg) ∨
    ∃ env₀ pkg₀, Loaded reg env₀ pkg₀ ∧
      if pkg.core = pkg₀.core then
        ∃ reg', xenomaiConfig env (some threads) req pkg reg =
          .ok ⟨reg', checkRequiredComponents req⟩ ∧ Loaded reg' env₀ pkg₀
      else xenomaiConfig env (some threads) req pkg reg =
        .error (.someDefined (joinList sharedTargets) (joinList (ownTargets pkg.core))) := by
  have henv := not_beforeCmake25 hversion
  obtain ⟨middle, hmiddle⟩ : ∃ middle,
      findDependencyThreads env (some threads) reg = some middle := ⟨_, rfl⟩
  have hsame : ∀ c, ∀ n ∈ expectedTargets c, middle n = reg n := fun c n hn =>
    findDependencyThreads_of_ne hmiddle fun heq => threadsTarget_not_mem c (heq ▸ hn)
  have hconfig : xenomaiConfig env (some threads) req pkg reg =
      (xenomaiTargets env pkg.core (pkg.vars env) pkg.listFile middle).map fun reg =>
        ⟨reg, checkRequiredComponents req⟩ := by
    unfold xenomaiConfig
    rw [hmiddle]
  rcases (oneOf_iff ops reg).mp (build_oneOf htop hbuild reg List.mem_cons_self) with
    hunused | ⟨env₀, -, -, pkg₀, -, hloaded⟩
  · refine .inl ⟨hunused, ?_⟩
    have hunused' : Unused middle := fun c n hn => (hsame c n hn).trans (hunused c n hn)
    have hne : expectedTargets pkg.core ≠ [] := List.ne_nil_of_mem (posix_mem pkg.core)
    rw [xenomaiTargets_eq henv, presence_absent hne (hunused' pkg.core)] at hconfig
    simp only at hconfig
    rw [if_neg hversion] at hconfig
    cases hmissing : missing? env (importChecks pkg.core (pkg.vars env)) with
    | some file =>
      rw [hmissing] at hconfig
      exact hconfig
    | none =>
      rw [hmissing] at hconfig
      exact ⟨_, hconfig, loaded_of_holds
        (((unused_iff middle).mp hunused').holds_overlay ⟨pkg.core, pkg.vars env, rfl⟩)⟩
  · refine .inr ⟨env₀, pkg₀, hloaded, ?_⟩
    have hloaded' : Loaded middle env₀ pkg₀ := hloaded.congr hsame
    split_ifs with hcore
    · exact hloaded.xenomaiConfig_same henv hcore threads req
    · rw [hloaded'.xenomaiTargets_other henv hcore] at hconfig
      exact hconfig

/-- Cobalt of the same tree, once mercury is known. -/
theorem build_findPackage_cobalt :
    ∃ reg, build act [findMercury] [fun _ => none] = .ok [reg] ∧
      xenomaiConfig stagedConsumer (some (.new .interface)) noComponents
          { stagedMercury with core := .cobalt } reg =
        .error (.someDefined (joinList sharedTargets) (joinList (ownTargets .cobalt))) := by
  obtain ⟨reg, hbuild, hmercury⟩ := build_findMercury
  refine ⟨reg, hbuild, ?_⟩
  have hcore : exportNamespace ++ "mercury".toList ∈ expectedTargets .mercury := by
    decide +kernel
  have hdefined : Defined reg (exportNamespace ++ "mercury".toList) :=
    (hmercury.defined_iff hcore).mpr hcore
  rcases build_findPackage _ _ (fun _ _ _ => rfl) reg [] hbuild stagedConsumer (by decide)
    (.new .interface) noComponents { stagedMercury with core := .cobalt } with
    ⟨hunused, -⟩ | ⟨env₀, pkg₀, hloaded, h⟩
  · exact absurd hdefined (not_defined_iff.mpr (hunused .mercury _ hcore))
  · have hmem := (hloaded.defined_iff hcore).mp hdefined
    cases hpkg : pkg₀.core with
    | cobalt =>
      rw [hpkg] at hmem
      exact absurd hmem (by decide +kernel)
    | mercury =>
      rw [hpkg, if_neg (by decide)] at h
      exact h

end CmakeXenomai.Package
