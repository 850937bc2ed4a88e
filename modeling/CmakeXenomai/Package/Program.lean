import CmakeXenomai.Bootstrap.Startup
import CmakeXenomai.Package.LinkLine

/-!
# From a call to the program

What `xenomai_target_bootstrap` is for: an executable whose process initialises
Xenomai before `main`, and hands the reduced arguments to the application where
`main` is wrapped. The sources of the target are compiled and linked with what
the call attached; `MAIN` and `MAIN_WRAP`, and whether the application defines
`main` or `__real_main`, decide if there is a program and which function it
enters (`entered`, `bootstrap_program`).
-/

namespace CmakeXenomai.Package

open Lib.Cmake Lib.Targets Macros Install
open Lib.Linker (Table Object Link strongDefs weakDefs lookup wrapRef)
open Bootstrap (Build ArgVec Process xenomaiBootstrap xenomaiMain startup)

/-! ## Programs -/

/-- `-Dname=value` for a compile definition. -/
def definition (item : Str) : Str × Str :=
  match item.dropWhile (· ≠ '=') with
  | [] => (item, ['1'])
  | _ :: value => (item.takeWhile (· ≠ '='), value)

/-- The macros in force in the sources of a target. -/
def macros (tc : Toolchain) (target : Target) : Table :=
  ((evaluated target.type target.compileDefinitions).map definition).reverse ++ tc.predefined

structure Program where
  /-- The function behind a name that the program refers to. -/
  call : Str → Option Fn
  constructors : List Build

/-- The symbols of some units, linked under options that wrap names. -/
def linkOf (tc : Toolchain) (units : List CompiledUnit) (wrapped : List Str) : Link Fn where
  objects := units.map CompiledUnit.object
  wrapped := wrapped
  shared := tc.shared
  entry := mainName

def linkProgram (tc : Toolchain) (units : List CompiledUnit) (wrapped : List Str) :
    Option Program :=
  match (linkOf tc units wrapped).link with
  | .error _ => none
  | .ok image => some ⟨image, units.flatMap CompiledUnit.constructors⟩

/-- Compiled and linked, if that succeeds. -/
def buildProgram (tc : Toolchain) (reg : Targets) (depth : Nat) (filePrefix : Str)
    (tree : Str → Option SourceFile) (target : Target) : Option Program := do
  let compiled ← (evaluated target.type target.sources).mapM
    (compileSource tc.cc filePrefix tree (macros tc target))
  let line := target.linkLibraries.flatMap (linkLine reg target.type depth)
  let objects ← (line.filter isObject).mapM tc.objectFile
  linkProgram tc (compiled ++ objects) (line.flatMap (wraps tc))

/-- A process of the program, up to its `main`: the constructors run first. The
function of the application that is entered comes with it. -/
def Program.run (p : Program) (init : ArgVec → ArgVec) (main : Str → ArgVec → Int) (argv : ArgVec)
    (fetched : Option ArgVec) : Option (Str × Process) :=
  let s := p.constructors.foldl (fun s b => xenomaiBootstrap b init s argv fetched) .initial
  match p.call mainName with
  | some (.app f) => some (f, ⟨s.earlyArgs, s.events ++ [.main argv]⟩)
  | some (.xenomaiMain b wrapped) =>
    match p.call wrapped with
    | some (.app f) => some (f, (xenomaiMain b init (main f) s argv).1)
    | _ => none
  | _ => none

/-! ## What is entered -/

/-- With the arguments of the process, or through `xenomai_main`. -/
inductive Way where
  | direct
  | wrapped
deriving DecidableEq

def Way.process (b : Build) (init : ArgVec → ArgVec) (main : ArgVec → Int) (argv : ArgVec)
    (fetched : Option ArgVec) : Way → Process
  | direct =>
    let s := xenomaiBootstrap b init .initial argv fetched
    ⟨s.earlyArgs, s.events ++ [.main argv]⟩
  | wrapped => startup b init main argv fetched

/-- The function of the application that a program enters, by the values of
`MAIN` and `MAIN_WRAP` and the functions there are. -/
def entered (main wrap : Option Str) (fs : List Str) : Option (Str × Way) :=
  if wrap = some "LINKER".toList then
    if main = some "PRECOMPILED".toList ∧ fs.contains mainName then some (mainName, .wrapped)
    else none
  else if wrap = some "MACRO".toList then
    if main = some "SOURCE".toList then
      -- both would go by the name `__real_main`
      if fs.contains mainName ∧ fs.contains realMain then none
      else if fs.contains mainName then some (mainName, .wrapped)
      else if fs.contains realMain then some (realMain, .wrapped)
      else none
    else none
  else if main = some "SOURCE".toList then
    if fs.contains realMain then
      -- the `main` of the application is not the weak one
      if fs.contains mainName then some (mainName, .direct) else some (realMain, .wrapped)
    else none
  else if fs.contains mainName ∧ (main = some "PRECOMPILED".toList → fs.contains realMain) then
    some (mainName, .direct)
  else none

/-! ## The application -/

def functions (files : List SourceFile) : List Str := files.flatMap SourceFile.functions

def uses (files : List SourceFile) : List Str := files.flatMap SourceFile.uses

/-- Files that are complete but for `main`, and keep off the names of the
bootstrap code. -/
structure Closed (tc : Toolchain) (t : Table) (files : List SourceFile) : Prop where
  nodup : (functions files).Nodup
  unexpanded : ∀ n ∈ functions files ++ uses files, t.lookup n = none
  names : ∀ f ∈ functions files, f = mainName ∨ f = realMain ∨
    f ∉ reserved ∧ ¬ "__real_".toList <+: f
  uses : ∀ n ∈ uses files, n ≠ mainName ∧ n ≠ realMain ∧
    (n ∈ functions files ∨ n = getargvName ∨ tc.shared n)
  shared : ∀ n ∈ reserved, tc.shared n = false

/-- A name that may be wrapped: libraries have both it and its wrapper. -/
structure Foreigner (tc : Toolchain) (fs : List Str) (n : Str) : Prop where
  own : n ∉ fs
  reserved : n ∉ reserved
  shared : tc.shared n
  wrapper : tc.shared ("__wrap_".toList ++ n)

/-- The definitions of the application under some macros. -/
def appDefs (t : Table) (fs : List Str) : List (Str × Fn) := fs.map fun f => (t.expand f, .app f)

/-- A compiled header: it defines the getter, and what it refers to is in the
libraries but for `__real_main`. -/
structure Provider (tc : Toolchain) (u : CompiledUnit) : Prop where
  nodup : (u.object.strong.map Prod.fst).Nodup
  strong : ∀ n ∈ u.object.strong.map Prod.fst, n = getargvName ∨ n = xenomaiMainName
  getargv : (u.object.strong.lookup getargvName).isSome
  needs : ∀ n ∈ u.object.needs, tc.shared n ∨ n = realMain

section Link

variable {tc : Toolchain} {t t' : Table} {files : List SourceFile} {wrapped : List Str}

/-- The target renames `main`, or it does not. -/
def Renames (t t' : Table) : Prop := t' = t ∨ t' = renamed t

theorem expand_other (hclosed : Closed tc t files) (ht : Renames t t') {n : Str}
    (hn : n ∈ functions files ++ uses files) (hne : n ≠ mainName) : t'.expand n = n := by
  refine Table.expand_of_lookup_none ?_
  rcases ht with rfl | rfl
  · exact hclosed.unexpanded n hn
  · unfold renamed
    rw [List.lookup_cons, beq_false_of_ne hne]
    exact hclosed.unexpanded n hn

theorem expand_mainName (hquiet : Quiet t) : t.expand mainName = mainName :=
  Table.expand_of_lookup_none (hquiet _ (by decide))

theorem expand_renamed (hquiet : Quiet t) : (renamed t).expand mainName = realMain := by
  have hreal : (renamed t).lookup realMain = none := by
    unfold renamed
    rw [List.lookup_cons, beq_false_of_ne (by decide)]
    exact hquiet _ (by decide)
  exact Table.expand_of_lookup_some List.lookup_cons_self hreal

theorem expand_function (hquiet : Quiet t) (hclosed : Closed tc t files) (ht : Renames t t')
    {f : Str} (hf : f ∈ functions files) :
    t'.expand f = f ∨ f = mainName ∧ t'.expand f = realMain := by
  by_cases hmain : f = mainName
  · subst hmain
    rcases ht with rfl | rfl
    · exact .inl (expand_mainName hquiet)
    · exact .inr ⟨rfl, expand_renamed hquiet⟩
  · exact .inl (expand_other hclosed ht (List.mem_append_left _ hf) hmain)

theorem keys_appDefs (t : Table) (fs : List Str) :
    (appDefs t fs).map Prod.fst = fs.map t.expand := by
  unfold appDefs
  rw [List.map_map]
  rfl

theorem lookup_appDefs_some {fs : List Str} (hnodup : (fs.map t.expand).Nodup) {f n : Str}
    (hf : f ∈ fs) (hn : t.expand f = n) : (appDefs t fs).lookup n = some (.app f) := by
  rw [← keys_appDefs] at hnodup
  exact Lib.Linker.lookup_of_mem hnodup (List.mem_map.mpr ⟨f, hf, by rw [hn]⟩)

theorem lookup_appDefs_eq_none_iff {fs : List Str} {n : Str} :
    (appDefs t fs).lookup n = none ↔ ∀ f ∈ fs, t.expand f ≠ n := by
  unfold appDefs
  rw [List.lookup_eq_none_iff, List.forall_mem_map]
  simp only [bne_iff_ne, ne_comm]

variable (tc t' files wrapped) in
/-- The link of an application with a compiled header. -/
def appLink (u : CompiledUnit) : Link Fn := linkOf tc (files.map (compileApp t') ++ [u]) wrapped

variable {u : CompiledUnit}

theorem strongDefs_appLink :
    strongDefs (appLink tc t' files wrapped u).objects =
      appDefs t' (functions files) ++ u.object.strong := by
  unfold appLink linkOf strongDefs appDefs functions
  rw [List.map_append, List.flatMap_append, List.map_map, List.flatMap_map, List.map_flatMap]
  exact congrArg _ (List.append_nil _)

theorem weakDefs_appLink :
    weakDefs (appLink tc t' files wrapped u).objects = u.object.weak := by
  have happ : ((files.map (compileApp t')).map CompiledUnit.object).flatMap Object.weak = [] := by
    rw [List.map_map, List.flatMap_map, List.flatMap_eq_nil_iff]
    exact fun _ _ => rfl
  unfold appLink linkOf weakDefs
  rw [List.map_append, List.flatMap_append, happ]
  exact List.append_nil _

/-- What the link looks up: what the files use, and what the header needs. -/
theorem mem_needs_appLink {n : Str} (hn : n ∈ (appLink tc t' files wrapped u).needs) :
    n = mainName ∨ n ∈ (uses files).map t'.expand ∨ n ∈ u.object.needs := by
  unfold appLink linkOf Link.needs at hn
  rw [List.mem_cons, List.map_append, List.flatMap_append, List.mem_append] at hn
  rcases hn with hn | hn | hn
  · exact .inl hn
  · obtain ⟨object, hobject, hn⟩ := List.mem_flatMap.mp hn
    obtain ⟨unit, hunit, rfl⟩ := List.mem_map.mp hobject
    obtain ⟨file, hfile, rfl⟩ := List.mem_map.mp hunit
    obtain ⟨use, huse, rfl⟩ := List.mem_map.mp (List.mem_filter.mp hn).1
    exact .inr (.inl (List.mem_map_of_mem (List.mem_flatMap.mpr ⟨file, hfile, huse⟩)))
  · exact .inr (.inr (by simpa using hn))

theorem lookup_appLink (n : Str) :
    lookup (appLink tc t' files wrapped u).objects n =
      (((appDefs t' (functions files)).lookup n).or (u.object.strong.lookup n)).or
        (u.object.weak.lookup n) := by
  unfold lookup
  rw [strongDefs_appLink, weakDefs_appLink, List.lookup_append]

theorem lookup_strong (hprovider : Provider tc u) {n : Str}
    (hne : n ≠ getargvName ∧ n ≠ xenomaiMainName) : u.object.strong.lookup n = none := by
  rw [List.lookup_eq_none_iff]
  intro p hp
  have hkey := hprovider.strong p.1 (List.mem_map_of_mem hp)
  refine bne_iff_ne.mpr fun h => ?_
  rcases hkey with hkey | hkey
  · exact hne.1 (h.trans hkey)
  · exact hne.2 (h.trans hkey)

/-- References to what the libraries define are found, wrapped or not. -/
theorem resolves_shared (hclosed : Closed tc t files)
    (hwrapped : ∀ n ∈ wrapped, n = mainName ∨ Foreigner tc (functions files) n) {n : Str}
    (hn : tc.shared n) : (appLink tc t' files wrapped u).Resolves n := by
  have hreserved : ∀ m ∈ reserved, n ≠ m := by
    rintro m hm rfl
    exact absurd (hclosed.shared n hm) (by simp [hn])
  have hfound : tc.shared (wrapRef wrapped n) := by
    by_cases hmem : n ∈ wrapped
    · rw [Lib.Linker.wrapRef_of_mem hmem]
      exact ((hwrapped n hmem).resolve_left (hreserved _ (by decide))).wrapper
    · by_cases hreal : ∃ m, n = "__real_".toList ++ m ∧ m ∈ wrapped
      · obtain ⟨m, rfl, hm⟩ := hreal
        rw [Lib.Linker.wrapRef_real hm hmem]
        refine ((hwrapped m hm).resolve_left ?_).shared
        rintro rfl
        exact hreserved realMain (by decide) rfl
      · push Not at hreal
        rwa [Lib.Linker.wrapRef_of_not_mem hmem hreal]
  exact Bool.or_eq_true_iff.mpr (.inr hfound)

/-- References to functions of the application are found, but for `main` and
`__real_main`. -/
theorem resolves_own (hclosed : Closed tc t files) (ht : Renames t t')
    (hwrapped : ∀ n ∈ wrapped, n = mainName ∨ Foreigner tc (functions files) n) {n : Str}
    (hn : n ∈ functions files) (hne : n ≠ mainName ∧ n ≠ realMain) :
    (appLink tc t' files wrapped u).Resolves n := by
  have hplain : ¬ "__real_".toList <+: n :=
    (((hclosed.names n hn).resolve_left hne.1).resolve_left hne.2).2
  have href : wrapRef wrapped n = n := by
    refine Lib.Linker.wrapRef_of_not_mem ?_ ?_
    · intro hmem
      exact ((hwrapped n hmem).resolve_left hne.1).own hn
    · rintro m rfl
      exact absurd (List.prefix_append ..) hplain
  have hdefined : (appDefs t' (functions files)).lookup n ≠ none := by
    rw [Ne, lookup_appDefs_eq_none_iff]
    exact fun h => h n hn (expand_other hclosed ht (List.mem_append_left _ hn) hne.1)
  have hfound : ((appLink tc t' files wrapped u).image n).isSome := by
    show (lookup _ (wrapRef wrapped n)).isSome
    rw [href, lookup_appLink, Option.isSome_or, Option.isSome_or,
      Option.isSome_iff_ne_none.mpr hdefined]
    rfl
  exact Bool.or_eq_true_iff.mpr (.inl hfound)

theorem resolves_getargv (hprovider : Provider tc u)
    (hwrapped : ∀ n ∈ wrapped, n = mainName ∨ Foreigner tc (functions files) n) :
    (appLink tc t' files wrapped u).Resolves getargvName := by
  have href : wrapRef wrapped getargvName = getargvName := by
    refine Lib.Linker.wrapRef_of_not_mem ?_ ?_
    · intro hmem
      exact ((hwrapped _ hmem).resolve_left (by decide)).reserved (by decide)
    · intro m hm
      have hhead : some 'x' = some '_' := congrArg List.head? hm
      exact absurd hhead (by decide)
  have hfound : ((appLink tc t' files wrapped u).image getargvName).isSome := by
    show (lookup _ (wrapRef wrapped getargvName)).isSome
    rw [href, lookup_appLink, Option.isSome_or, Option.isSome_or, hprovider.getargv, Bool.or_true]
    rfl
  exact Bool.or_eq_true_iff.mpr (.inl hfound)

/-- The application does not define what the header defines. -/
theorem disjoint_appDefs (hquiet : Quiet t) (hclosed : Closed tc t files) (ht : Renames t t')
    (hprovider : Provider tc u) :
    ((functions files).map t'.expand).Disjoint (u.object.strong.map Prod.fst) := by
  rw [List.disjoint_left]
  intro n hn hstrong
  obtain ⟨f, hf, rfl⟩ := List.mem_map.mp hn
  have hheader := hprovider.strong _ hstrong
  rcases expand_function hquiet hclosed ht hf with hsame | ⟨-, hreal⟩
  · rw [hsame] at hheader
    rcases hclosed.names f hf with rfl | rfl | ⟨hout, -⟩
    · exact absurd hheader (by decide)
    · exact absurd hheader (by decide)
    · rcases hheader with rfl | rfl
      all_goals exact hout (by decide)
  · rw [hreal] at hheader
    exact absurd hheader (by decide)

/-- **When it links.** No function is there twice, and there is something for
`main` and for what the header calls. -/
theorem link_appLink_iff (hquiet : Quiet t) (hclosed : Closed tc t files) (ht : Renames t t')
    (hprovider : Provider tc u)
    (hwrapped : ∀ n ∈ wrapped, n = mainName ∨ Foreigner tc (functions files) n)
    (image : Str → Option Fn) :
    (appLink tc t' files wrapped u).link = .ok image ↔
      ((functions files).map t'.expand).Nodup ∧
        (appLink tc t' files wrapped u).Resolves mainName ∧
        (realMain ∈ u.object.needs → (appLink tc t' files wrapped u).Resolves realMain) ∧
        image = (appLink tc t' files wrapped u).image := by
  have hnodup : ((strongDefs (appLink tc t' files wrapped u).objects).map Prod.fst).Nodup ↔
      ((functions files).map t'.expand).Nodup := by
    rw [strongDefs_appLink, List.map_append, keys_appDefs]
    constructor
    · exact fun h => (List.nodup_append'.mp h).1
    · exact fun h => List.nodup_append'.mpr
        ⟨h, hprovider.nodup, disjoint_appDefs hquiet hclosed ht hprovider⟩
  have hneeds : (∀ n ∈ (appLink tc t' files wrapped u).needs,
        (appLink tc t' files wrapped u).Resolves n) ↔
      (appLink tc t' files wrapped u).Resolves mainName ∧
        (realMain ∈ u.object.needs → (appLink tc t' files wrapped u).Resolves realMain) := by
    constructor
    · intro h
      refine ⟨h _ List.mem_cons_self, fun hreal => h _ (List.mem_cons_of_mem _ ?_)⟩
      refine List.mem_flatMap.mpr ⟨u.object, ?_, hreal⟩
      exact List.mem_map_of_mem (List.mem_append_right _ List.mem_cons_self)
    · rintro ⟨hmain, hreal⟩ n hn
      rcases mem_needs_appLink hn with rfl | huse | hheader
      · exact hmain
      · obtain ⟨m, hm, rfl⟩ := List.mem_map.mp huse
        obtain ⟨hne, hne', hfound⟩ := hclosed.uses m hm
        rw [expand_other hclosed ht (List.mem_append_right _ hm) hne]
        rcases hfound with hown | rfl | hshared
        · exact resolves_own hclosed ht hwrapped hown ⟨hne, hne'⟩
        · exact resolves_getargv hprovider hwrapped
        · exact resolves_shared hclosed hwrapped hshared
      · rcases hprovider.needs n hheader with hshared | rfl
        · exact resolves_shared hclosed hwrapped hshared
        · exact hreal hheader
  rw [Link.link_ok_iff, hnodup, hneeds, and_assoc]

/-! ## The entry -/

def wrapMain : Str := "__wrap_main".toList

/-- What `main` is looked up by, and what `__real_main` is. -/
def entryRef (linker : Prop) [Decidable linker] : Str := if linker then wrapMain else mainName

def realRef (linker : Prop) [Decidable linker] : Str := if linker then mainName else realMain

variable (t' files u) in
/-- The definition of a name that the header gives a meaning to. -/
def found (n : Str) : Option Fn :=
  ((appDefs t' (functions files)).lookup n).or (u.object.weak.lookup n)

variable {linker : Prop} [Decidable linker]

theorem wrapRef_mainName (hlinker : mainName ∈ wrapped ↔ linker) :
    wrapRef wrapped mainName = entryRef linker := by
  unfold entryRef
  split_ifs with h
  · exact Lib.Linker.wrapRef_of_mem (hlinker.mpr h)
  · refine Lib.Linker.wrapRef_of_not_mem (mt hlinker.mp h) fun m hm => ?_
    have hhead : some 'm' = some '_' := congrArg List.head? hm
    exact absurd hhead (by decide)

theorem wrapRef_realMain (hlinker : mainName ∈ wrapped ↔ linker) (hreal : realMain ∉ wrapped) :
    wrapRef wrapped realMain = realRef linker := by
  have hparts : realMain = "__real_".toList ++ mainName := by decide
  unfold realRef
  split_ifs with h
  · rw [hparts] at hreal ⊢
    exact Lib.Linker.wrapRef_real (hlinker.mpr h) hreal
  · refine Lib.Linker.wrapRef_of_not_mem hreal fun m hm => ?_
    have hmain : m = mainName := List.append_cancel_left (hm.symm.trans hparts)
    rw [hmain]
    exact mt hlinker.mp h

theorem image_of_ref (hprovider : Provider tc u) {n ref : Str} (href : wrapRef wrapped n = ref)
    (hne : ref ≠ getargvName ∧ ref ≠ xenomaiMainName) :
    (appLink tc t' files wrapped u).image n = found t' files u ref := by
  show lookup _ (wrapRef wrapped n) = _
  rw [href, lookup_appLink, lookup_strong hprovider hne, Option.or_none]
  rfl

/-- No library has such a name. -/
theorem resolves_of_ref (hclosed : Closed tc t files) (hprovider : Provider tc u) {n ref : Str}
    (href : wrapRef wrapped n = ref) (hmem : ref ∈ reserved)
    (hne : ref ≠ getargvName ∧ ref ≠ xenomaiMainName) :
    (appLink tc t' files wrapped u).Resolves n ↔ (found t' files u ref).isSome := by
  have hshared : tc.shared (wrapRef wrapped n) = false := by
    rw [href]
    exact hclosed.shared ref hmem
  show (((appLink tc t' files wrapped u).image n).isSome || tc.shared (wrapRef wrapped n)) ↔ _
  rw [hshared, Bool.or_false, image_of_ref hprovider href hne]

variable (linker) in
theorem entryRef_spec : entryRef linker ∈ reserved ∧
    entryRef linker ≠ getargvName ∧ entryRef linker ≠ xenomaiMainName := by
  unfold entryRef
  split_ifs <;> decide

variable (linker) in
theorem realRef_spec : realRef linker ∈ reserved ∧
    realRef linker ≠ getargvName ∧ realRef linker ≠ xenomaiMainName := by
  unfold realRef
  split_ifs <;> decide

variable {init : ArgVec → ArgVec} {main : Str → ArgVec → Int} {argv : ArgVec}
  {fetched : Option ArgVec} {b : Build}

variable (t' files u init main argv fetched b) in
/-- A process, by the two definitions. -/
def process (entry real : Option Fn) : Option (Str × Process) :=
  match entry with
  | some (.app f) => some (f, Way.direct.process b init (main f) argv fetched)
  | some (.xenomaiMain _ _) =>
    match real with
    | some (.app f) => some (f, Way.wrapped.process b init (main f) argv fetched)
    | _ => none
  | _ => none

/-- The wrapper is found under a weak name only. -/
theorem found_xenomaiMain (hweak : ∀ p ∈ u.object.weak, p.2 = .xenomaiMain b realMain) {n : Str}
    {b' : Build} {callee : Str} (h : found t' files u n = some (.xenomaiMain b' callee)) :
    b' = b ∧ callee = realMain := by
  have hmem : ∀ {defs : List (Str × Fn)} {fn : Fn}, defs.lookup n = some fn →
      ∃ p ∈ defs, p.2 = fn := by
    intro defs fn hfn
    obtain ⟨l₁, l₂, rfl, -⟩ := List.lookup_eq_some_iff.mp hfn
    exact ⟨_, List.mem_append_right _ List.mem_cons_self, rfl⟩
  unfold found at h
  cases happ : (appDefs t' (functions files)).lookup n with
  | some fn =>
    rw [happ, Option.some_or] at h
    obtain ⟨p, hp, hfn⟩ := hmem happ
    obtain ⟨f, -, rfl⟩ := List.mem_map.mp hp
    rw [← hfn] at h
    cases h
  | none =>
    rw [happ, Option.none_or] at h
    obtain ⟨p, hp, hfn⟩ := hmem h
    rw [hweak p hp] at hfn
    cases hfn
    exact ⟨rfl, rfl⟩

/-- **A process of the program**, if it links. -/
theorem run_appLink (hquiet : Quiet t) (hclosed : Closed tc t files) (ht : Renames t t')
    (hprovider : Provider tc u) (hconstructors : u.constructors = [b])
    (hweak : ∀ p ∈ u.object.weak, p.2 = .xenomaiMain b realMain)
    (hwrapped : ∀ n ∈ wrapped, n = mainName ∨ Foreigner tc (functions files) n)
    (hlinker : mainName ∈ wrapped ↔ linker) :
    ((linkProgram tc (files.map (compileApp t') ++ [u]) wrapped).bind fun p =>
        p.run init main argv fetched) =
      if ((functions files).map t'.expand).Nodup ∧
          (found t' files u (entryRef linker)).isSome ∧
          (realMain ∈ u.object.needs → (found t' files u (realRef linker)).isSome) then
        process init main argv fetched b (found t' files u (entryRef linker))
          (found t' files u (realRef linker))
      else none := by
  have hreal : realMain ∉ wrapped := by
    intro hmem
    exact ((hwrapped _ hmem).resolve_left (by decide)).reserved (by decide)
  have hentryRef := wrapRef_mainName hlinker
  have hrealRef := wrapRef_realMain hlinker hreal
  obtain ⟨hentryMem, hentryNe⟩ := entryRef_spec linker
  obtain ⟨hrealMem, hrealNe⟩ := realRef_spec linker
  have hlink := link_appLink_iff hquiet hclosed ht hprovider hwrapped
  rw [resolves_of_ref hclosed hprovider hentryRef hentryMem hentryNe,
    resolves_of_ref hclosed hprovider hrealRef hrealMem hrealNe] at hlink
  split_ifs with hcond
  · have hok := (hlink _).mpr ⟨hcond.1, hcond.2.1, hcond.2.2, rfl⟩
    have hprogram : linkProgram tc (files.map (compileApp t') ++ [u]) wrapped =
        some ⟨(appLink tc t' files wrapped u).image, [b]⟩ := by
      have hall : (files.map (compileApp t') ++ [u]).flatMap CompiledUnit.constructors = [b] := by
        rw [List.flatMap_append, List.flatMap_singleton, hconstructors, List.flatMap_map]
        simp [compileApp]
      unfold linkProgram
      rw [show (linkOf tc (files.map (compileApp t') ++ [u]) wrapped).link = _ from hok, hall]
    rw [hprogram, Option.bind_some]
    unfold Program.run
    simp only [image_of_ref hprovider hentryRef hentryNe, List.foldl_cons, List.foldl_nil]
    cases hentry : found t' files u (entryRef linker) with
    | none => rfl
    | some fn =>
      cases fn with
      | app f => rfl
      | getargv => rfl
      | xenomaiMain b' callee =>
        obtain ⟨rfl, rfl⟩ := found_xenomaiMain hweak hentry
        simp only [image_of_ref hprovider hrealRef hrealNe]
        rfl
  · have herror : linkProgram tc (files.map (compileApp t') ++ [u]) wrapped = none := by
      unfold linkProgram
      cases himage : (linkOf tc (files.map (compileApp t') ++ [u]) wrapped).link with
      | error e => rfl
      | ok image =>
        have hall := (hlink image).mp himage
        exact absurd ⟨hall.1, hall.2.1, hall.2.2.1⟩ hcond
    rw [herror, Option.bind_none]

/-! ## The definitions by name -/

theorem map_expand (hclosed : Closed tc t files) :
    (functions files).map t.expand = functions files := by
  refine (List.map_congr_left fun f hf => ?_).trans (List.map_id _)
  exact Table.expand_of_lookup_none (hclosed.unexpanded f (List.mem_append_left _ hf))

/-- Without `MAIN_WRAP MACRO` functions go by their names. -/
theorem lookup_appDefs (hclosed : Closed tc t files) (n : Str) :
    (appDefs t (functions files)).lookup n =
      if n ∈ functions files then some (.app n) else none := by
  have hexpand := map_expand hclosed
  split_ifs with hn
  · refine lookup_appDefs_some (hexpand.symm ▸ hclosed.nodup) hn ?_
    exact Table.expand_of_lookup_none (hclosed.unexpanded n (List.mem_append_left _ hn))
  · rw [lookup_appDefs_eq_none_iff]
    rintro f hf rfl
    rw [Table.expand_of_lookup_none (hclosed.unexpanded f (List.mem_append_left _ hf))] at hn
    exact hn hf

theorem wrapMain_not_mem (hclosed : Closed tc t files) : wrapMain ∉ functions files := by
  intro hmem
  rcases hclosed.names _ hmem with h | h | ⟨hout, -⟩
  · exact absurd h (by decide)
  · exact absurd h (by decide)
  · exact hout (by decide)

theorem expand_renamed_of_ne (hclosed : Closed tc t files) {f : Str} (hf : f ∈ functions files)
    (hne : f ≠ mainName) : (renamed t).expand f = f :=
  expand_other hclosed (.inr rfl) (List.mem_append_left _ hf) hne

/-- With it `main` is `__real_main`, which may be there already. -/
theorem nodup_renamed_iff (hquiet : Quiet t) (hclosed : Closed tc t files) :
    ((functions files).map (renamed t).expand).Nodup ↔
      ¬ (mainName ∈ functions files ∧ realMain ∈ functions files) := by
  rw [List.nodup_map_iff_inj_on hclosed.nodup]
  have hmain := expand_renamed hquiet
  constructor
  · rintro h ⟨hmem, hmem'⟩
    have hreal := expand_renamed_of_ne hclosed hmem' (by decide)
    exact absurd (h _ hmem _ hmem' (hmain.trans hreal.symm)) (by decide)
  · intro h f hf g hg heq
    by_cases hf' : f = mainName
    · by_cases hg' : g = mainName
      · rw [hf', hg']
      · rw [hf', hmain, expand_renamed_of_ne hclosed hg hg'] at heq
        exact absurd ⟨hf' ▸ hf, heq ▸ hg⟩ h
    · by_cases hg' : g = mainName
      · rw [hg', hmain, expand_renamed_of_ne hclosed hf hf'] at heq
        exact absurd ⟨hg' ▸ hg, heq ▸ hf⟩ h
      · rwa [expand_renamed_of_ne hclosed hf hf', expand_renamed_of_ne hclosed hg hg'] at heq

theorem lookup_renamed_mainName (hquiet : Quiet t) (hclosed : Closed tc t files) :
    (appDefs (renamed t) (functions files)).lookup mainName = none := by
  rw [lookup_appDefs_eq_none_iff]
  intro f hf heq
  by_cases hne : f = mainName
  · rw [hne, expand_renamed hquiet] at heq
    exact absurd heq (by decide)
  · exact hne ((expand_renamed_of_ne hclosed hf hne).symm.trans heq)

theorem lookup_renamed_realMain (hquiet : Quiet t) (hclosed : Closed tc t files)
    (hnodup : ¬ (mainName ∈ functions files ∧ realMain ∈ functions files)) :
    (appDefs (renamed t) (functions files)).lookup realMain =
      if mainName ∈ functions files then some (.app mainName)
      else if realMain ∈ functions files then some (.app realMain)
      else none := by
  have hall := (nodup_renamed_iff hquiet hclosed).mpr hnodup
  split_ifs with hmain hreal
  · exact lookup_appDefs_some hall hmain (expand_renamed hquiet)
  · exact lookup_appDefs_some hall hreal (expand_renamed_of_ne hclosed hreal (by decide))
  · rw [lookup_appDefs_eq_none_iff]
    intro f hf heq
    have hne : f ≠ mainName := fun h => hmain (h ▸ hf)
    rw [expand_renamed_of_ne hclosed hf hne] at heq
    exact hreal (heq ▸ hf)

/-! ## The two kinds of header -/

theorem provider_plain {tu : Table}
    (hcalls : ∀ n ∈ (headerCalls tc.cc tu).map tu.expand, tc.shared n) :
    Provider tc (plainUnit tc.cc tu) where
  nodup := List.nodup_singleton _
  strong n hn := .inl (List.mem_singleton.mp hn)
  getargv := by
    show (List.lookup getargvName [(getargvName, Fn.getargv)]).isSome
    rw [List.lookup_cons_self]
    rfl
  needs n hn := .inl (hcalls n (List.mem_filter.mp hn).1)

theorem provider_wrapper {tu : Table} (weak : Str)
    (hcalls : ∀ n ∈ (headerCalls tc.cc tu).map tu.expand, tc.shared n) :
    Provider tc (wrapperUnit tc.cc tu weak) where
  nodup := by
    show [getargvName, xenomaiMainName].Nodup
    decide
  strong n hn := by
    have hn' : n ∈ [getargvName, xenomaiMainName] := hn
    simpa using hn'
  getargv := by
    show (List.lookup getargvName ((getargvName, Fn.getargv) :: _)).isSome
    rw [List.lookup_cons_self]
    rfl
  needs n hn := by
    rcases List.mem_append.mp (List.mem_filter.mp hn).1 with hcall | hreal
    · exact .inl (hcalls n hcall)
    · exact .inr (List.mem_singleton.mp hreal)

theorem realMain_mem_needs {tu : Table} {weak : Str} (hweak : weak ≠ realMain) :
    realMain ∈ (wrapperUnit tc.cc tu weak).object.needs := by
  refine List.mem_filter.mpr ⟨List.mem_append_right _ List.mem_cons_self, ?_⟩
  have hstrong : (getargvName == realMain) = false ∧ (xenomaiMainName == realMain) = false := by
    decide
  show (!(getargvName == realMain || (xenomaiMainName == realMain ||
    (weak == realMain || false)))) = true
  rw [hstrong.1, hstrong.2, beq_false_of_ne hweak]
  rfl

theorem realMain_not_mem_needs (hclosed : Closed tc t files) {tu : Table}
    (hcalls : ∀ n ∈ (headerCalls tc.cc tu).map tu.expand, tc.shared n) :
    realMain ∉ (plainUnit tc.cc tu).object.needs := by
  intro hmem
  have hshared := hcalls realMain (List.mem_filter.mp hmem).1
  rw [hclosed.shared realMain (by decide)] at hshared
  cases hshared

theorem found_wrapper {tu : Table} (weak n : Str) :
    found t' files (wrapperUnit tc.cc tu weak) n =
      ((appDefs t' (functions files)).lookup n).or
        (if n = weak then some (.xenomaiMain (headerBuild tc.cc tu) realMain) else none) := by
  unfold found
  show Option.or _ (List.lookup n [(weak, _)]) = _
  by_cases hn : n = weak
  · rw [if_pos hn, hn, List.lookup_cons_self]
  · rw [if_neg hn, List.lookup_cons, beq_false_of_ne hn]
    rfl

theorem found_plain {tu : Table} (n : Str) :
    found t' files (plainUnit tc.cc tu) n = (appDefs t' (functions files)).lookup n :=
  Option.or_none

theorem run_wrapper (hquiet : Quiet t) (hclosed : Closed tc t files) (ht : Renames t t')
    {tu : Table} (hcalls : ∀ n ∈ (headerCalls tc.cc tu).map tu.expand, tc.shared n)
    (hwrapped : ∀ n ∈ wrapped, n = mainName ∨ Foreigner tc (functions files) n)
    (hlinker : mainName ∈ wrapped ↔ linker) {weak : Str} (hweak : weak ≠ realMain)
    {entry real : Option Fn}
    (hentry : found t' files (wrapperUnit tc.cc tu weak) (entryRef linker) = entry)
    (hreal : found t' files (wrapperUnit tc.cc tu weak) (realRef linker) = real) :
    ((linkProgram tc (files.map (compileApp t') ++ [wrapperUnit tc.cc tu weak]) wrapped).bind
        fun p => p.run init main argv fetched) =
      if ((functions files).map t'.expand).Nodup ∧ entry.isSome ∧ real.isSome then
        process init main argv fetched (headerBuild tc.cc tu) entry real
      else none := by
  have hneeds : realMain ∈ (wrapperUnit tc.cc tu weak).object.needs := realMain_mem_needs hweak
  rw [run_appLink hquiet hclosed ht (provider_wrapper weak hcalls) rfl
    (List.forall_mem_singleton.mpr rfl) hwrapped hlinker, hentry, hreal]
  simp only [hneeds, true_imp_iff]

theorem run_plain (hquiet : Quiet t) (hclosed : Closed tc t files) (ht : Renames t t')
    {tu : Table} (hcalls : ∀ n ∈ (headerCalls tc.cc tu).map tu.expand, tc.shared n)
    (hwrapped : ∀ n ∈ wrapped, n = mainName ∨ Foreigner tc (functions files) n)
    (hlinker : mainName ∈ wrapped ↔ linker) {entry real : Option Fn}
    (hentry : found t' files (plainUnit tc.cc tu) (entryRef linker) = entry)
    (hreal : found t' files (plainUnit tc.cc tu) (realRef linker) = real) :
    ((linkProgram tc (files.map (compileApp t') ++ [plainUnit tc.cc tu]) wrapped).bind
        fun p => p.run init main argv fetched) =
      if ((functions files).map t'.expand).Nodup ∧ entry.isSome then
        process init main argv fetched (headerBuild tc.cc tu) entry real
      else none := by
  have hneeds := realMain_not_mem_needs hclosed hcalls
  rw [run_appLink hquiet hclosed ht (provider_plain hcalls) rfl (List.forall_mem_nil _) hwrapped
    hlinker, hentry, hreal]
  simp only [hneeds, false_imp_iff, and_true]

/-- The header of an executable, by the value of `MAIN`. -/
def headerUnit (cc : Compiler) (tu : Table) (mainValue : Option Str) : CompiledUnit :=
  if mainValue = some "PRECOMPILED".toList then wrapperUnit cc tu wrapMain
  else if mainValue = some "SOURCE".toList then wrapperUnit cc tu mainName
  else plainUnit cc tu

/-- The macros of its sources, by that of `MAIN_WRAP`. -/
def wrapTable (t : Table) (wrapValue : Option Str) : Table :=
  if wrapValue = some "MACRO".toList then renamed t else t

section Entered

variable (hquiet : Quiet t) (hclosed : Closed tc t files) {tu : Table}
  (hcalls : ∀ n ∈ (headerCalls tc.cc tu).map tu.expand, tc.shared n)
  (hwrapped : ∀ n ∈ wrapped, n = mainName ∨ Foreigner tc (functions files) n)

include hquiet hclosed hcalls hwrapped

/-- `--wrap=main`, which needs a `__wrap_main`. -/
theorem run_entered_linker (hmem : mainName ∈ wrapped) (mainValue : Option Str) :
    ((linkProgram tc (files.map (compileApp t) ++ [headerUnit tc.cc tu mainValue]) wrapped).bind
        fun p => p.run init main argv fetched) =
      (entered mainValue (some "LINKER".toList) (functions files)).map fun e =>
        (e.1, e.2.process (headerBuild tc.cc tu) init (main e.1) argv fetched) := by
  have hlinker : mainName ∈ wrapped ↔ True := iff_true_intro hmem
  have hno : (appDefs t (functions files)).lookup wrapMain = none := by
    rw [lookup_appDefs hclosed, if_neg (wrapMain_not_mem hclosed)]
  have hnodup : ((functions files).map t.expand).Nodup := (map_expand hclosed).symm ▸ hclosed.nodup
  have hmain := lookup_appDefs hclosed mainName
  unfold entered headerUnit
  simp only [List.contains_iff_mem]
  rw [if_pos trivial]
  by_cases hpre : mainValue = some "PRECOMPILED".toList
  · have hentry : found t files (wrapperUnit tc.cc tu wrapMain) (entryRef True) =
        some (.xenomaiMain (headerBuild tc.cc tu) realMain) := by
      rw [found_wrapper]
      show Option.or (List.lookup wrapMain _) _ = _
      rw [hno]
      rfl
    have hreal : found t files (wrapperUnit tc.cc tu wrapMain) (realRef True) =
        if mainName ∈ functions files then some (.app mainName) else none := by
      rw [found_wrapper]
      show Option.or (List.lookup mainName _) _ = _
      rw [hmain, if_neg (show realRef True ≠ wrapMain by decide), Option.or_none]
    rw [if_pos hpre, run_wrapper hquiet hclosed (.inl rfl) hcalls hwrapped hlinker (by decide)
      hentry hreal]
    by_cases hfs : mainName ∈ functions files
    · simp [hfs, hpre, hnodup, process]
    · simp [hfs]
  · have hnone : (if mainValue = some "PRECOMPILED".toList ∧ mainName ∈ functions files then
        some (mainName, Way.wrapped) else none) = none := if_neg fun h => hpre h.1
    rw [if_neg hpre, hnone, Option.map_none]
    by_cases hsource : mainValue = some "SOURCE".toList
    · have hentry : found t files (wrapperUnit tc.cc tu mainName) (entryRef True) = none := by
        rw [found_wrapper]
        show Option.or (List.lookup wrapMain _) _ = _
        rw [hno]
        rfl
      rw [if_pos hsource, run_wrapper hquiet hclosed (.inl rfl) hcalls hwrapped hlinker (by decide)
        hentry rfl]
      simp
    · have hentry : found t files (plainUnit tc.cc tu) (entryRef True) = none :=
        (found_plain _).trans hno
      rw [if_neg hsource, run_plain hquiet hclosed (.inl rfl) hcalls hwrapped hlinker hentry rfl]
      simp

/-- `main=__real_main`, which needs the weak `main` of the generated source. -/
theorem run_entered_macro (hmem : mainName ∉ wrapped) (mainValue : Option Str) :
    ((linkProgram tc (files.map (compileApp (renamed t)) ++ [headerUnit tc.cc tu mainValue])
        wrapped).bind fun p => p.run init main argv fetched) =
      (entered mainValue (some "MACRO".toList) (functions files)).map fun e =>
        (e.1, e.2.process (headerBuild tc.cc tu) init (main e.1) argv fetched) := by
  have hlinker : mainName ∈ wrapped ↔ False := iff_false_intro hmem
  have hno := lookup_renamed_mainName hquiet hclosed
  unfold entered headerUnit
  simp only [List.contains_iff_mem]
  rw [if_neg (show some "MACRO".toList ≠ some "LINKER".toList by decide), if_pos trivial]
  by_cases hpre : mainValue = some "PRECOMPILED".toList
  · have hentry : found (renamed t) files (wrapperUnit tc.cc tu wrapMain) (entryRef False) =
        none := by
      rw [found_wrapper]
      show Option.or (List.lookup mainName _) _ = _
      rw [hno]
      rfl
    have hsource : mainValue ≠ some "SOURCE".toList := by
      rw [hpre]
      decide
    rw [if_pos hpre, if_neg hsource, run_wrapper hquiet hclosed (.inr rfl) hcalls hwrapped hlinker
      (by decide) hentry rfl]
    simp
  · rw [if_neg hpre]
    by_cases hsource : mainValue = some "SOURCE".toList
    · have hentry : found (renamed t) files (wrapperUnit tc.cc tu mainName) (entryRef False) =
          some (.xenomaiMain (headerBuild tc.cc tu) realMain) := by
        rw [found_wrapper]
        show Option.or (List.lookup mainName _) _ = _
        rw [hno]
        rfl
      rw [if_pos hsource, if_pos hsource, run_wrapper hquiet hclosed (.inr rfl) hcalls hwrapped
        hlinker (by decide) hentry rfl]
      have hnodup := nodup_renamed_iff hquiet hclosed
      by_cases hboth : mainName ∈ functions files ∧ realMain ∈ functions files
      · rw [if_pos hboth, if_neg fun h => hnodup.mp h.1 hboth]
        rfl
      · have hreal : found (renamed t) files (wrapperUnit tc.cc tu mainName) (realRef False) =
            if mainName ∈ functions files then some (.app mainName)
            else if realMain ∈ functions files then some (.app realMain)
            else none := by
          rw [found_wrapper]
          show Option.or (List.lookup realMain _) _ = _
          rw [lookup_renamed_realMain hquiet hclosed hboth,
            if_neg (show realRef False ≠ mainName by decide), Option.or_none]
        have hall := hnodup.mpr hboth
        rw [if_neg hboth, hreal]
        by_cases hfs : mainName ∈ functions files
        · simp [hfs, hall, process]
        · by_cases hfs' : realMain ∈ functions files
          · simp [hfs, hfs', hall, process]
          · simp [hfs, hfs']
    · have hentry : found (renamed t) files (plainUnit tc.cc tu) (entryRef False) = none :=
        (found_plain _).trans hno
      rw [if_neg hsource, if_neg hsource,
        run_plain hquiet hclosed (.inr rfl) hcalls hwrapped hlinker hentry rfl]
      simp

/-- No wrapping: `main` is entered where it is defined. -/
theorem run_entered_none (hmem : mainName ∉ wrapped) (mainValue : Option Str)
    {wrapValue : Option Str} (hlinker : wrapValue ≠ some "LINKER".toList)
    (hrenamed : wrapValue ≠ some "MACRO".toList) :
    ((linkProgram tc (files.map (compileApp t) ++ [headerUnit tc.cc tu mainValue]) wrapped).bind
        fun p => p.run init main argv fetched) =
      (entered mainValue wrapValue (functions files)).map fun e =>
        (e.1, e.2.process (headerBuild tc.cc tu) init (main e.1) argv fetched) := by
  have hwrap : mainName ∈ wrapped ↔ False := iff_false_intro hmem
  have hnodup : ((functions files).map t.expand).Nodup := (map_expand hclosed).symm ▸ hclosed.nodup
  have hdefs := lookup_appDefs hclosed
  unfold entered headerUnit
  simp only [List.contains_iff_mem]
  rw [if_neg hlinker, if_neg hrenamed]
  by_cases hpre : mainValue = some "PRECOMPILED".toList
  · have hfound : ∀ n : Str, n ≠ wrapMain → found t files (wrapperUnit tc.cc tu wrapMain) n =
        if n ∈ functions files then some (.app n) else none := by
      intro n hn
      rw [found_wrapper, hdefs, if_neg hn, Option.or_none]
    have hsource : mainValue ≠ some "SOURCE".toList := by
      rw [hpre]
      decide
    rw [if_pos hpre, if_neg hsource, run_wrapper hquiet hclosed (.inl rfl) hcalls hwrapped hwrap
      (by decide) (hfound mainName (by decide)) (hfound realMain (by decide))]
    by_cases hfs : mainName ∈ functions files
    · by_cases hfs' : realMain ∈ functions files
      · simp [hfs, hfs', hpre, hnodup, process]
      · simp [hfs, hfs', hpre]
    · simp [hfs]
  · rw [if_neg hpre]
    by_cases hsource : mainValue = some "SOURCE".toList
    · have hentry : found t files (wrapperUnit tc.cc tu mainName) (entryRef False) =
          (if mainName ∈ functions files then some (.app mainName) else none).or
            (some (.xenomaiMain (headerBuild tc.cc tu) realMain)) := by
        rw [found_wrapper]
        show Option.or (List.lookup mainName _) _ = _
        rw [hdefs]
        rfl
      have hreal : found t files (wrapperUnit tc.cc tu mainName) (realRef False) =
          if realMain ∈ functions files then some (.app realMain) else none := by
        rw [found_wrapper]
        show Option.or (List.lookup realMain _) _ = _
        rw [hdefs, if_neg (show realRef False ≠ mainName by decide), Option.or_none]
      rw [if_pos hsource, if_pos hsource, run_wrapper hquiet hclosed (.inl rfl) hcalls hwrapped
        hwrap (by decide) hentry hreal]
      by_cases hfs' : realMain ∈ functions files
      · by_cases hfs : mainName ∈ functions files
        · simp [hfs, hfs', hnodup, process]
        · simp [hfs, hfs', hnodup, process]
      · simp [hfs']
    · have hentry : found t files (plainUnit tc.cc tu) (entryRef False) =
          if mainName ∈ functions files then some (.app mainName) else none :=
        (found_plain _).trans (hdefs mainName)
      obtain ⟨real, hreal⟩ : ∃ real,
        found t files (plainUnit tc.cc tu) (realRef False) = real := ⟨_, rfl⟩
      rw [if_neg hsource, if_neg hsource,
        run_plain hquiet hclosed (.inl rfl) hcalls hwrapped hwrap hentry hreal]
      by_cases hfs : mainName ∈ functions files
      · have hcond : mainName ∈ functions files ∧
            (mainValue = some "PRECOMPILED".toList → realMain ∈ functions files) :=
          ⟨hfs, fun h => absurd h hpre⟩
        rw [if_pos hcond, if_pos hfs, if_pos ⟨hnodup, rfl⟩]
        rfl
      · rw [if_neg hfs, if_neg fun h => Bool.false_ne_true h.2, if_neg fun h => hfs h.1]
        rfl

/-- **The entered function** is the one the options say. -/
theorem run_entered {mainValue wrapValue : Option Str}
    (hlinker : mainName ∈ wrapped ↔ wrapValue = some "LINKER".toList) :
    ((linkProgram tc (files.map (compileApp (wrapTable t wrapValue)) ++
        [headerUnit tc.cc tu mainValue]) wrapped).bind fun p => p.run init main argv fetched) =
      (entered mainValue wrapValue (functions files)).map fun e =>
        (e.1, e.2.process (headerBuild tc.cc tu) init (main e.1) argv fetched) := by
  unfold wrapTable
  by_cases hwrap : wrapValue = some "LINKER".toList
  · have hrenamed : wrapValue ≠ some "MACRO".toList := by
      rw [hwrap]
      decide
    rw [if_neg hrenamed, hwrap]
    exact run_entered_linker hquiet hclosed hcalls hwrapped (hlinker.mpr hwrap) mainValue
  · have hmem := mt hlinker.mp hwrap
    by_cases hrenamed : wrapValue = some "MACRO".toList
    · rw [if_pos hrenamed, hrenamed]
      exact run_entered_macro hquiet hclosed hcalls hwrapped hmem mainValue
    · rw [if_neg hrenamed]
      exact run_entered_none hquiet hclosed hcalls hwrapped hmem mainValue hwrap hrenamed

end Entered

end Link

end CmakeXenomai.Package
