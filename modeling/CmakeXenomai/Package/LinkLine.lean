import CmakeXenomai.Macros.Sources
import CmakeXenomai.Package.Links

/-!
# Link lines

What a target is linked with: generator expressions are evaluated for its type,
and the targets it links to are replaced by their libraries and their own link
interfaces. Of an installation's targets only `Xenomai::legacy_bootstrap` puts an
object file on the line of an executable, and only
`Xenomai::legacy_bootstrap_wrap` has `main` wrapped; the others leave the names
of the application alone (`Loaded.harmless`).
-/

namespace CmakeXenomai.Package

open Lib.Cmake Lib.Targets Macros Install
open Lib.Linker (Table dropPrefix?_append dropPrefix?_eq_none)

/-! ## Generator expressions -/

def typeName : TargetType → Str
  | .executable => "EXECUTABLE".toList
  | .staticLibrary => "STATIC_LIBRARY".toList
  | .sharedLibrary => "SHARED_LIBRARY".toList
  | .moduleLibrary => "MODULE_LIBRARY".toList
  | .objectLibrary => "OBJECT_LIBRARY".toList

def typeTest : Str := "$<$<STREQUAL:$<TARGET_PROPERTY:TYPE>,".toList

/-- The value of `$<$<STREQUAL:$<TARGET_PROPERTY:TYPE>,name>:content>` for a
target of some type. Other items stay as they are. -/
def genex (type : TargetType) (item : Str) : Str :=
  match item.dropPrefix? typeTest with
  | none => item
  | some test =>
    match test.dropWhile (· ≠ '>') with
    | '>' :: ':' :: content =>
      (if test.takeWhile (· ≠ '>') = typeName type then content.takeWhile (· ≠ '>') else []) ++
        (content.dropWhile (· ≠ '>')).tail
    | _ => item

/-- The items that are left of a list. -/
def evaluated (type : TargetType) (items : List Str) : List Str :=
  (items.map (genex type)).filter fun item => !item.isEmpty

theorem genex_ifType (type : TargetType) {name item : Str} (hname : '>' ∉ name)
    (hitem : '>' ∉ item) :
    genex type (ifType name item) = if name = typeName type then item else [] := by
  have hshape : ifType name item = typeTest ++ (name ++ '>' :: ':' :: (item ++ ['>'])) := by
    unfold ifType typeTest
    simp
  have hspan : ∀ (s rest : Str), '>' ∉ s →
      (s ++ '>' :: rest).takeWhile (· ≠ '>') = s ∧
        (s ++ '>' :: rest).dropWhile (· ≠ '>') = '>' :: rest := by
    intro s rest hs
    have hall : ∀ c ∈ s, decide (c ≠ '>') = true := fun c hc =>
      decide_eq_true fun h => hs (h ▸ hc)
    rw [List.takeWhile_append_of_pos hall, List.dropWhile_append_of_pos hall]
    exact ⟨List.append_nil s, rfl⟩
  obtain ⟨htake, hdrop⟩ := hspan name (':' :: (item ++ ['>'])) hname
  obtain ⟨htake', hdrop'⟩ := hspan item [] hitem
  unfold genex
  rw [hshape, dropPrefix?_append]
  simp only [htake, hdrop, htake', hdrop', List.tail_cons, List.append_nil]

theorem genex_executable {item : Str} (h : '>' ∉ item) :
    genex .executable (ifType "EXECUTABLE".toList item) = item :=
  (genex_ifType _ (by decide) h).trans (if_pos rfl)

theorem genex_sharedLibrary {item : Str} (h : '>' ∉ item) :
    genex .executable (ifType "SHARED_LIBRARY".toList item) = [] :=
  (genex_ifType _ (by decide) h).trans (if_neg (by decide))

theorem genex_of_not {item : Str} (h : ¬ typeTest <+: item) (type : TargetType) :
    genex type item = item := by
  unfold genex
  rw [dropPrefix?_eq_none h]

/-- Items without generator expressions stay. -/
theorem evaluated_eq {items : List Str} (h : ∀ x ∈ items, x ≠ [] ∧ ¬ typeTest <+: x)
    (type : TargetType) : evaluated type items = items := by
  have hmap : items.map (genex type) = items := by
    refine (List.map_congr_left fun x hx => ?_).trans (List.map_id items)
    exact genex_of_not (h x hx).2 type
  unfold evaluated
  rw [hmap, List.filter_eq_self]
  intro x hx
  simp [(h x hx).1]

theorem evaluated_append (type : TargetType) (items items' : List Str) :
    evaluated type (items ++ items') = evaluated type items ++ evaluated type items' := by
  unfold evaluated
  rw [List.map_append, List.filter_append]

/-! ## Lines -/

/-- What an item stands for on the link line of a target, targets followed to
some depth. -/
def linkLine (reg : Targets) (type : TargetType) : Nat → Str → List Str
  | 0, item => [item]
  | depth + 1, item =>
    match reg item with
    | none => [item]
    | some t =>
      (t.prop .importedLocationNoconfig).toList ++
        (evaluated type (linkItems t)).flatMap (linkLine reg type depth)

/-- The tools a program is built with, and what they find on the machine. -/
structure Toolchain where
  cc : Compiler
  /-- Macros of the compiler, of the C library and of the targets linked to. -/
  predefined : Table
  objectFile : Str → Option CompiledUnit
  /-- The macros that Xenomai compiled `bootstrap.o` under. -/
  installed : Table
  /-- The names that the options in a response file wrap. -/
  response : Str → List Str
  /-- The names that shared libraries define. -/
  shared : Str → Bool

def isObject (item : Str) : Bool := ['.', 'o'].isSuffixOf item

variable (tc : Toolchain)

/-- The names that one option of the linker wraps. -/
def wrapOption (option : Str) : List Str :=
  match option.dropPrefix? "--wrap=".toList with
  | some n => [n]
  | none =>
    match option with
    | '@' :: file => tc.response (file.filter fun c => c != '"')
    | _ => []

/-- The names that an item on the line has the linker wrap. -/
def wraps (item : Str) : List Str :=
  match item.dropPrefix? "-Wl,".toList with
  | some options => (options.splitOn ',').flatMap (wrapOption tc)
  | none => []

/-! ## Harmless items -/

/-- No object file, and nothing wrapped but such names. -/
structure Idle (ok : Str → Prop) (item : Str) : Prop where
  object : isObject item = false
  wraps : ∀ n ∈ wraps tc item, ok n

/-- On the line of an executable there is nothing else for it. -/
def Harmless (reg : Targets) (ok : Str → Prop) (item : Str) : Prop :=
  ∀ depth, ∀ x ∈ linkLine reg .executable depth item, Idle tc ok x

variable {tc} {reg : Targets} {ok : Str → Prop}

theorem wraps_of_no_comma {item : Str} (h : ',' ∉ item) : wraps tc item = [] := by
  unfold wraps
  rw [dropPrefix?_eq_none fun hpre => h (hpre.subset (by decide))]

theorem idle_of_no_comma {item : Str} (hobject : isObject item = false) (h : ',' ∉ item) :
    Idle tc ok item := by
  refine ⟨hobject, ?_⟩
  rw [wraps_of_no_comma h]
  exact List.forall_mem_nil _

theorem linkLine_of_none {item : Str} (hreg : reg item = none) (type : TargetType) (depth : Nat) :
    linkLine reg type depth item = [item] := by
  cases depth with
  | zero => rfl
  | succ depth => rw [linkLine, hreg]

theorem harmless_of_none {item : Str} (hreg : reg item = none) (hidle : Idle tc ok item) :
    Harmless tc reg ok item := by
  intro depth x hx
  rw [linkLine_of_none hreg, List.mem_singleton] at hx
  exact hx ▸ hidle

/-- A target is harmless if its library and all it links to are. -/
theorem harmless_of_some {item : Str} {t : Imported} (hreg : reg item = some t)
    (hidle : Idle tc ok item)
    (hlocation : ∀ file, t.prop .importedLocationNoconfig = some file → Idle tc ok file)
    (hitems : ∀ x ∈ evaluated .executable (linkItems t), Harmless tc reg ok x) :
    Harmless tc reg ok item := by
  intro depth x hx
  cases depth with
  | zero =>
    rw [linkLine, List.mem_singleton] at hx
    exact hx ▸ hidle
  | succ depth =>
    rw [linkLine, hreg] at hx
    rcases List.mem_append.mp hx with hx | hx
    · exact hlocation x (Option.mem_toList.mp hx)
    · obtain ⟨y, hy, hx⟩ := List.mem_flatMap.mp hx
      exact hitems y hy depth x hx

/-! ## The targets of an installation -/

variable {v : Vars}

theorem not_isObject_concat (s : Str) {c : Char} (hc : c ≠ 'o') : isObject (s ++ [c]) = false := by
  unfold isObject List.isSuffixOf
  rw [List.reverse_append]
  show (('o' == c) && _) = false
  rw [beq_false_of_ne hc.symm, Bool.false_and]

theorem PathText.not_mem {s : Str} (h : PathText s) {c : Char} (hc : ¬ pathChar c)
    (hslash : c ≠ '/') : c ∉ s := fun hmem => (h c hmem).elim hc hslash

theorem linkItems_imported {e : Export} {items : List Str} (props : List (Property × Str))
    (h : e.properties = props ++ [(.interfaceLinkLibraries, joinList items)])
    (hplain : ∀ x ∈ items, Plain x) : linkItems (e.imported v) = items := by
  unfold linkItems
  rw [prop_imported props h]
  exact expandList_joinList hplain

/-- The library of a target is its location. -/
theorem location_imported {e : Export} (h : ∀ q ∈ e.properties, q.1 ≠ .importedLocationNoconfig) :
    (e.imported v).prop .importedLocationNoconfig = e.library.map (location v) := by
  have hcreated : e.created.prop .importedLocationNoconfig = none :=
    setProperties_of_not_mem h (Imported.new e.kind)
  unfold Export.imported
  cases e.library with
  | none => exact hcreated
  | some library =>
    show (((e.created.append .importedConfigurations _).set .importedLocationNoconfig _).set
      .importedSonameNoconfig _).prop .importedLocationNoconfig = _
    rw [prop_set, if_neg (by decide), prop_set, if_pos rfl]
    rfl

theorem location_exports (c : Core) (v : Vars) : ∀ e ∈ exports c v,
    (e.imported v).prop .importedLocationNoconfig = e.library.map (location v) := by
  have hall : ((exports c v).all fun e =>
      e.properties.all fun q => q.1 != .importedLocationNoconfig) = true := by
    cases c <;> rfl
  intro e he
  refine location_imported fun q hq => ?_
  exact bne_iff_ne.mp (List.all_eq_true.mp (List.all_eq_true.mp hall e he) q hq)

theorem idle_location (hlib : PathText v.lib) (c : Core) {e : Export} (he : e ∈ exports c v) :
    ∀ file, (e.imported v).prop .importedLocationNoconfig = some file → Idle tc ok file := by
  intro file hfile
  rw [location_exports c v e he, Option.map_eq_some_iff] at hfile
  obtain ⟨library, hlibrary, rfl⟩ := hfile
  have hmem : library ∈ libraries c := by
    rw [← exports_library c v]
    exact List.mem_filterMap.mpr ⟨e, he, hlibrary⟩
  refine idle_of_no_comma ?_ ((pathText_location hlib hmem).not_mem (by decide) (by decide))
  have hends : (libraries c).all fun s => ".so".toList.isSuffixOf s := by
    cases c <;> decide +kernel
  obtain ⟨name, rfl⟩ := List.isSuffixOf_iff_suffix.mp (List.all_eq_true.mp hends library hmem)
  have hso : location v (name ++ ".so".toList) =
      (v.lib ++ '/' :: name ++ ".s".toList) ++ ['o'] := by simp [location]
  rw [hso]
  unfold isObject List.isSuffixOf
  rw [List.reverse_append, List.reverse_append]
  rfl

theorem not_typeTest {item : Str} (h : item.head? ≠ some '$') : ¬ typeTest <+: item := by
  rintro ⟨rest, rfl⟩
  exact h rfl

/-- The names of the package do not look like files or flags. -/
theorem idle_short {c : Core} {s : Str} (hs : s ∈ shorts c) :
    Idle tc ok (exportNamespace ++ s) := by
  have hall : (shorts c).all fun s =>
      !isObject (exportNamespace ++ s) && !(exportNamespace ++ s).contains ',' := by
    cases c <;> decide +kernel
  have hboth := List.all_eq_true.mp hall s hs
  simp only [Bool.and_eq_true, Bool.not_eq_true', List.contains_eq_mem, decide_eq_false_iff_not]
    at hboth
  exact idle_of_no_comma hboth.1 hboth.2

/-- An item of a link interface that is harmless. -/
structure HarmlessItem (tc : Toolchain) (reg : Targets) (ok : Str → Prop) (item : Str) : Prop where
  plain : Plain item
  head : item.head? ≠ some '$'
  harmless : Harmless tc reg ok item

/-- What is not a target, and what the wrapper files wrap, does not disturb. -/
structure HarmlessFlags (tc : Toolchain) (reg : Targets) (ok : Str → Prop) (threadlib : Str) :
    Prop where
  flags : ∀ n : Str, n.head? = some '-' → reg n = none
  response : ∀ file, ∀ n ∈ tc.response file, ok n
  threads : HarmlessItem tc reg ok threadlib

section Flags

variable {threadlib : Str} (hflags : HarmlessFlags tc reg ok threadlib)

include hflags

theorem harmlessItem_lrt : HarmlessItem tc reg ok "-lrt".toList where
  plain := by decide
  head := by decide
  harmless := harmless_of_none (hflags.flags _ rfl) (idle_of_no_comma rfl (by decide))

theorem harmlessItem_wrappers (hlib : PathText v.lib) {name : String}
    (hname : Plain (name.toList ++ ".wrappers\"".toList) ∧ ',' ∉ name.toList) :
    HarmlessItem tc reg ok (Export.wrappers v name) := by
  obtain ⟨file, hfile⟩ : ∃ file, file = v.lib ++ '/' :: (name.toList ++ ".wrappers".toList) :=
    ⟨_, rfl⟩
  have hoptions : Export.wrappers v name = "-Wl,".toList ++ ('@' :: '"' :: file ++ ['"']) := by
    rw [hfile, wrappers_eq]
    simp
  have hcomma : ',' ∉ '@' :: '"' :: file ++ ['"'] := by
    have hlib' : ',' ∉ v.lib := hlib.not_mem (by decide) (by decide)
    rw [hfile]
    simp [hlib', hname.2]
  have hsplit : ('@' :: '"' :: file ++ ['"']).splitOn ',' = ['@' :: '"' :: file ++ ['"']] := by
    have hone := List.splitOn_intercalate ',' (List.forall_mem_singleton.mpr hcomma)
      (List.cons_ne_nil _ _)
    rwa [List.intercalate_singleton] at hone
  have hwraps : wraps tc (Export.wrappers v name) =
      tc.response ((file ++ ['"']).filter (· != '"')) := by
    have hdrop : ('@' :: '"' :: file ++ ['"']).dropPrefix? "--wrap=".toList = none := rfl
    unfold wraps
    rw [hoptions, dropPrefix?_append]
    show (('@' :: '"' :: file ++ ['"']).splitOn ',').flatMap (wrapOption tc) = _
    rw [hsplit, List.flatMap_singleton]
    unfold wrapOption
    rw [hdrop]
    rfl
  have hhead : (Export.wrappers v name).head? = some '-' := by
    rw [hoptions]
    rfl
  refine ⟨(Foreign.nil.cons_wrappers hlib hname.1).plain _ List.mem_cons_self, ?_,
    harmless_of_none (hflags.flags _ hhead) ⟨?_, ?_⟩⟩
  · rw [hhead]
    decide
  · rw [hoptions, ← List.append_assoc]
    exact not_isObject_concat _ (by decide)
  · rw [hwraps]
    exact hflags.response _

end Flags

/-- The exports that both cores have, in the order of the files. -/
theorem mem_exports {c : Core} {e : Export}
    (h : e ∈ [Export.legacyBootstrap v, Export.legacyBootstrapWrap v, Export.posix v c,
      Export.copperplate c, Export.skin v "vxworks", Export.skin v "psos",
      Export.skin v "alchemy", Export.skin v "smokey"]) : e ∈ exports c v :=
  List.mem_append_right _ h

section Loaded

variable {env : Consumer} {pkg : Installed} (h : Loaded reg env pkg)
  (hlib : PathText (pkg.vars env).lib)

include h hlib

/-- A target of the installation, by its link interface. -/
theorem Loaded.harmlessItem {e : Export} (he : e ∈ exports pkg.core (pkg.vars env))
    (props : List (Property × Str)) (items : List Str)
    (hprops : e.properties = props ++ [(.interfaceLinkLibraries, joinList items)])
    (hitems : ∀ x ∈ items, HarmlessItem tc reg ok x) : HarmlessItem tc reg ok e.target := by
  have htarget : e.target ∈ expectedTargets pkg.core := by
    rw [← exports_target pkg.core (pkg.vars env)]
    exact List.mem_map_of_mem he
  have hlink : linkItems (e.imported (pkg.vars env)) = items :=
    linkItems_imported props hprops fun x hx => (hitems x hx).plain
  have hevaluated : evaluated .executable items = items :=
    evaluated_eq (fun x hx => ⟨(hitems x hx).plain.1, not_typeTest (hitems x hx).head⟩) _
  refine ⟨plain_expectedTargets pkg.core _ htarget, ?_, ?_⟩
  · show some 'X' ≠ some '$'
    decide
  · refine harmless_of_some (h.reg_eq he) (idle_short ((mem_expectedTargets_iff _ _).mp htarget))
      (idle_location hlib _ he) ?_
    rw [hlink, hevaluated]
    exact fun x hx => (hitems x hx).harmless

/-- A target that links to another one and nothing else. -/
theorem Loaded.harmlessItem_on {e : Export} (he : e ∈ exports pkg.core (pkg.vars env))
    (props : List (Property × Str)) {base : Str}
    (hprops : e.properties = props ++ [(.interfaceLinkLibraries, base)])
    (hbase : HarmlessItem tc reg ok base) : HarmlessItem tc reg ok e.target := by
  rw [← joinList_singleton base] at hprops
  exact h.harmlessItem hlib he props [base] hprops (List.forall_mem_singleton.mpr hbase)

variable (hflags : HarmlessFlags tc reg ok (pkg.vars env).threadlib)

include hflags

theorem Loaded.harmlessItem_core :
    HarmlessItem tc reg ok (Export.core (pkg.vars env) pkg.core).target := by
  refine h.harmlessItem hlib List.mem_cons_self [_, _] [_, _] rfl ?_
  simp only [List.forall_mem_cons]
  exact ⟨hflags.threads, harmlessItem_lrt hflags, List.forall_mem_nil _⟩

theorem Loaded.harmlessItem_copperplate :
    HarmlessItem tc reg ok (Export.copperplate pkg.core).target := by
  have hmem : Export.copperplate pkg.core ∈ exports pkg.core (pkg.vars env) :=
    mem_exports (.tail _ (.tail _ (.tail _ (.head _))))
  exact h.harmlessItem_on hlib hmem [] rfl (h.harmlessItem_core hlib hflags)

theorem Loaded.harmlessItem_skin {name : String} (hname : name ∈ skins) :
    HarmlessItem tc reg ok (Export.skin (pkg.vars env) name).target := by
  have hmem : Export.skin (pkg.vars env) name ∈ exports pkg.core (pkg.vars env) :=
    mem_exports (.tail _ (.tail _ (.tail _ (.tail _ (List.mem_map_of_mem hname)))))
  exact h.harmlessItem_on hlib hmem [_] rfl (h.harmlessItem_copperplate hlib hflags)

theorem Loaded.harmlessItem_posix :
    HarmlessItem tc reg ok (Export.posix (pkg.vars env) pkg.core).target := by
  obtain ⟨c, hc⟩ : ∃ c, pkg.core = c := ⟨_, rfl⟩
  have hmem : Export.posix (pkg.vars env) c ∈ exports pkg.core (pkg.vars env) := by
    rw [hc]
    exact mem_exports (.tail _ (.tail _ (.head _)))
  have hcore := h.harmlessItem_core hlib hflags
  rw [hc] at hcore ⊢
  cases c with
  | cobalt =>
    refine h.harmlessItem hlib hmem [_] [_, _] rfl ?_
    simp only [List.forall_mem_cons]
    exact ⟨harmlessItem_wrappers hflags hlib (by decide), hcore, List.forall_mem_nil _⟩
  | mercury => exact h.harmlessItem_on hlib hmem [] rfl hcore

theorem Loaded.harmlessItem_modechk (hc : pkg.core = .cobalt) :
    HarmlessItem tc reg ok (Export.modechk (pkg.vars env)).target := by
  have hmem : Export.modechk (pkg.vars env) ∈ exports pkg.core (pkg.vars env) := by
    rw [hc]
    exact .tail _ (.head _)
  refine h.harmlessItem hlib hmem [] [_, _, _] rfl ?_
  simp only [List.forall_mem_cons]
  exact ⟨harmlessItem_wrappers hflags hlib (by decide), hflags.threads, harmlessItem_lrt hflags,
    List.forall_mem_nil _⟩

/-- **Harmless targets.** All targets of an installation but the two for
bootstrapping leave object files and the names of the application alone. -/
theorem Loaded.harmless {s : Str} (hs : s ∈ shorts pkg.core)
    (hno : s ≠ "legacy_bootstrap".toList ∧ s ≠ "legacy_bootstrap_wrap".toList) :
    Harmless tc reg ok (exportNamespace ++ s) := by
  obtain ⟨c, hc⟩ : ∃ c, pkg.core = c := ⟨_, rfl⟩
  have hcore := (h.harmlessItem_core hlib hflags).harmless
  have hmodechk : c = .cobalt → Harmless tc reg ok (Export.modechk (pkg.vars env)).target :=
    fun hcobalt => (h.harmlessItem_modechk hlib hflags (hc.trans hcobalt)).harmless
  have hothers : Harmless tc reg ok (Export.posix (pkg.vars env) c).target ∧
      Harmless tc reg ok (Export.copperplate c).target :=
    ⟨hc ▸ (h.harmlessItem_posix hlib hflags).harmless,
      hc ▸ (h.harmlessItem_copperplate hlib hflags).harmless⟩
  have hskin : ∀ name ∈ skins, Harmless tc reg ok (exportNamespace ++ name.toList) :=
    fun name hname => (h.harmlessItem_skin hlib hflags hname).harmless
  rw [hc] at hs hcore
  obtain ⟨hposix, hcopperplate⟩ := hothers
  obtain ⟨hnobootstrap, hnowrap⟩ := hno
  cases c with
  | cobalt =>
    simp only [shorts, expectedShort, List.map_cons, List.map_nil, List.mem_cons,
      List.not_mem_nil, or_false] at hs
    rcases hs with rfl | rfl | rfl | rfl | rfl | rfl | rfl | rfl | rfl | rfl
    · exact hcore
    · exact hmodechk rfl
    · exact absurd rfl hnobootstrap
    · exact absurd rfl hnowrap
    · exact hposix
    · exact hcopperplate
    all_goals exact hskin _ (by decide)
  | mercury =>
    simp only [shorts, expectedShort, List.map_cons, List.map_nil, List.mem_cons,
      List.not_mem_nil, or_false] at hs
    rcases hs with rfl | rfl | rfl | rfl | rfl | rfl | rfl | rfl | rfl
    · exact hcore
    · exact absurd rfl hnobootstrap
    · exact absurd rfl hnowrap
    · exact hposix
    · exact hcopperplate
    all_goals exact hskin _ (by decide)

end Loaded

/-! ## The targets for bootstrapping -/

def bootstrapObject (v : Vars) : Str := v.lib ++ "/xenomai/bootstrap.o".toList

def wrapFlag (v : Vars) : Str :=
  "-Wl,--wrap=main,--dynamic-list=".toList ++ v.lib ++ "/dynlist.ld".toList

theorem isObject_bootstrapObject (v : Vars) : isObject (bootstrapObject v) = true := by
  have hends : bootstrapObject v = (v.lib ++ "/xenomai/bootstrap".toList) ++ ['.', 'o'] := by
    simp [bootstrapObject]
  unfold isObject
  rw [hends]
  exact List.isSuffixOf_iff_suffix.mpr (List.suffix_append _ _)

theorem wraps_bootstrapObject (hlib : PathText v.lib) : wraps tc (bootstrapObject v) = [] := by
  have hlib' : ',' ∉ v.lib := hlib.not_mem (by decide) (by decide)
  exact wraps_of_no_comma (by simp [bootstrapObject, hlib'])

theorem not_isObject_wrapFlag (v : Vars) : isObject (wrapFlag v) = false := by
  have hends : "/dynlist.ld".toList = "/dynlist.l".toList ++ ['d'] := by decide
  unfold wrapFlag
  rw [hends, ← List.append_assoc]
  exact not_isObject_concat _ (by decide)

/-- The linker wraps `main`; the list of dynamic symbols is another option. -/
theorem wraps_wrapFlag (hlib : PathText v.lib) : wraps tc (wrapFlag v) = [mainName] := by
  have hlib' : ',' ∉ v.lib := hlib.not_mem (by decide) (by decide)
  obtain ⟨dynamicList, hdynamic⟩ :
      ∃ s, s = "--dynamic-list=".toList ++ (v.lib ++ "/dynlist.ld".toList) := ⟨_, rfl⟩
  have hparts : "-Wl,--wrap=main,--dynamic-list=".toList =
      "-Wl,".toList ++ ("--wrap=main".toList ++ ([','] ++ "--dynamic-list=".toList)) := by decide
  have hoptions : wrapFlag v =
      "-Wl,".toList ++ [','].intercalate ["--wrap=main".toList, dynamicList] := by
    rw [hdynamic, List.intercalate_cons_cons, List.intercalate_singleton]
    calc wrapFlag v
        = ("-Wl,".toList ++ ("--wrap=main".toList ++ ([','] ++ "--dynamic-list=".toList))) ++
            v.lib ++ "/dynlist.ld".toList :=
          congrArg (· ++ v.lib ++ "/dynlist.ld".toList) hparts
      _ = _ := by simp only [List.append_assoc]
  have hcomma : ',' ∉ dynamicList := by
    rw [hdynamic]
    simp only [List.mem_append, not_or]
    exact ⟨by decide, hlib', by decide⟩
  have hsplit : ([','].intercalate ["--wrap=main".toList, dynamicList]).splitOn ',' =
      ["--wrap=main".toList, dynamicList] := by
    refine List.splitOn_intercalate ',' ?_ (List.cons_ne_nil _ _)
    simp only [List.forall_mem_cons]
    exact ⟨by decide, hcomma, List.forall_mem_nil _⟩
  have hno : wrapOption tc dynamicList = [] := by
    rw [hdynamic]
    unfold wrapOption
    rw [dropPrefix?_eq_none]
    · rfl
    · rintro ⟨rest, hrest⟩
      have hthird : some 'w' = some 'd' := congrArg (fun s : Str => s[2]?) hrest
      exact absurd hthird (by decide)
  have hwraps : wraps tc (wrapFlag v) =
      (([','].intercalate ["--wrap=main".toList, dynamicList]).splitOn ',').flatMap
        (wrapOption tc) := by
    unfold wraps
    rw [hoptions, dropPrefix?_append]
  rw [hwraps, hsplit, List.flatMap_cons, List.flatMap_cons, hno]
  rfl

/-- An interface of the package whose link interface leaves one item to an
executable. -/
theorem Loaded.linkLine_interface {env : Consumer} {pkg : Installed} (h : Loaded reg env pkg)
    {e : Export} (he : e ∈ exports pkg.core (pkg.vars env)) (hlibrary : e.library = none)
    {items : List Str} (hprops : e.properties = [(.interfaceLinkLibraries, joinList items)])
    (hplain : ∀ x ∈ items, Plain x) {item : Str} (hitem : evaluated .executable items = [item])
    (hnone : reg item = none) (depth : Nat) :
    linkLine reg .executable (depth + 1) e.target = [item] := by
  have hlocation : (e.imported (pkg.vars env)).prop .importedLocationNoconfig = none := by
    rw [location_exports _ _ e he, hlibrary]
    rfl
  rw [linkLine, h.reg_eq he]
  show (Option.toList _) ++ _ = _
  rw [hlocation, linkItems_imported [] hprops hplain, hitem, List.flatMap_singleton,
    linkLine_of_none hnone]
  rfl

section Bootstrap

variable {env : Consumer} {pkg : Installed} (h : Loaded reg env pkg)
  (hlib : PathText (pkg.vars env).lib)

include h hlib

/-- The line of an executable with `Xenomai::legacy_bootstrap`. -/
theorem Loaded.linkLine_legacyBootstrap (hnone : reg (bootstrapObject (pkg.vars env)) = none)
    (depth : Nat) :
    linkLine reg .executable (depth + 1) legacyBootstrap = [bootstrapObject (pkg.vars env)] := by
  have hangle : '>' ∉ (pkg.vars env).lib := hlib.not_mem (by decide) (by decide)
  have hpic : '>' ∉ (pkg.vars env).lib ++ "/xenomai/bootstrap-pic.o".toList := by simp [hangle]
  have hobject : '>' ∉ bootstrapObject (pkg.vars env) := by simp [bootstrapObject, hangle]
  have hplain : ∀ file : Str, Plain file → Plain ((pkg.vars env).lib ++ file) :=
    fun file hfile => plain_append (plain_lib hlib) hfile
  have hitem : evaluated .executable
      [ifType "SHARED_LIBRARY".toList ((pkg.vars env).lib ++ "/xenomai/bootstrap-pic.o".toList),
        ifType "EXECUTABLE".toList (bootstrapObject (pkg.vars env))] =
      [bootstrapObject (pkg.vars env)] := by
    have hne : bootstrapObject (pkg.vars env) ≠ [] := by simp [bootstrapObject]
    unfold evaluated
    rw [List.map_cons, List.map_singleton, genex_sharedLibrary hpic, genex_executable hobject]
    simp [hne]
  refine h.linkLine_interface (mem_exports (.head _)) rfl rfl ?_ hitem hnone depth
  simp only [List.forall_mem_cons]
  exact ⟨plain_ifType (by decide) (hplain _ (by decide)),
    plain_ifType (by decide) (hplain _ (by decide)), List.forall_mem_nil _⟩

/-- The line of an executable with `Xenomai::legacy_bootstrap_wrap`. -/
theorem Loaded.linkLine_legacyBootstrapWrap (hnone : reg (wrapFlag (pkg.vars env)) = none)
    (depth : Nat) :
    linkLine reg .executable (depth + 1) legacyBootstrapWrap = [wrapFlag (pkg.vars env)] := by
  have hangle : '>' ∉ (pkg.vars env).lib := hlib.not_mem (by decide) (by decide)
  have hflag : '>' ∉ wrapFlag (pkg.vars env) := by
    unfold wrapFlag
    simp only [List.mem_append, not_or]
    exact ⟨⟨by decide, hangle⟩, by decide⟩
  have hplain : Plain (wrapFlag (pkg.vars env)) :=
    plain_append (plain_append (by decide) (plain_lib hlib)) (by decide)
  have hitem : evaluated .executable [ifType "EXECUTABLE".toList (wrapFlag (pkg.vars env))] =
      [wrapFlag (pkg.vars env)] := by
    unfold evaluated
    rw [List.map_singleton, genex_executable hflag]
    simp [hplain.1]
  have hprops : (Export.legacyBootstrapWrap (pkg.vars env)).properties =
      [(.interfaceLinkLibraries,
        joinList [ifType "EXECUTABLE".toList (wrapFlag (pkg.vars env))])] := by
    rw [joinList_singleton]
    rfl
  exact h.linkLine_interface (mem_exports (.tail _ (.head _))) rfl hprops
    (List.forall_mem_singleton.mpr (plain_ifType (by decide) hplain)) hitem hnone depth

end Bootstrap

end CmakeXenomai.Package
