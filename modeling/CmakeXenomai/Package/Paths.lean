import CmakeXenomai.Install.Relocate
import CmakeXenomai.Package.Targets

/-!
# Paths in the targets' properties

The import files write paths below the libdir and the includedir into lists,
linker options and generator expressions. `pathsIn` takes them out of a text
again: its longest pieces of path characters that have a slash. In the
properties of a target every such piece is one of the package's own paths, or
belongs to the thread library (`properties_below`).
-/

namespace CmakeXenomai.Package

open Lib.Cmake Lib.Targets Install
open Macros (ifType exportNamespace)

/-! ## Path texts -/

/-- Characters of absolute installation paths. -/
def PathText (s : Str) : Prop := ∀ x ∈ s, pathChar x ∨ x = '/'

theorem PathText.append {s t : Str} (hs : PathText s) (ht : PathText t) : PathText (s ++ t) :=
  fun x hx => (List.mem_append.mp hx).elim (hs x) (ht x)

theorem PathText.of_all {s : Str} (h : s.all fun x => pathChar x || x = '/') : PathText s := by
  intro x hx
  simpa using List.all_eq_true.mp h x hx

theorem pathText_cons_slash {s : Str} (h : PathText s) : PathText ('/' :: s) :=
  List.forall_mem_cons.mpr ⟨.inr rfl, h⟩

theorem plain_of_pathText {s : Str} (h : PathText s) (hne : s ≠ []) : Plain s := by
  refine ⟨hne, fun x hx hspecial => ?_⟩
  simp only [List.mem_cons, List.not_mem_nil, or_false] at hspecial
  rcases h x hx with hx | rfl
  · rcases hspecial with rfl | rfl | rfl | rfl
    all_goals exact absurd hx (by decide)
  · exact absurd hspecial (by decide)

/-! ## The paths of a text -/

/-- Neither a path character nor a slash. -/
def betweenPaths (x : Char) : Bool := !(pathChar x || x == '/')

def pathsIn (s : Str) : List Str :=
  (s.splitOnP betweenPaths).filter fun piece => piece.contains '/'

theorem pathsIn_append_cons {x : Char} (hx : betweenPaths x) (a b : Str) :
    pathsIn (a ++ x :: b) = pathsIn a ++ pathsIn b := by
  unfold pathsIn
  rw [List.splitOnP_append_cons _ _ hx, List.filter_append]

example : pathsIn "-Wl,@\"/opt/lib/cobalt.wrappers\";Xenomai::cobalt;-lrt".toList =
    ["/opt/lib/cobalt.wrappers".toList] := by decide

theorem mem_of_mem_splitOnP {p : Char → Bool} {s piece : Str} (h : piece ∈ s.splitOnP p)
    {x : Char} (hx : x ∈ piece) : x ∈ s := by
  induction s generalizing piece with
  | nil =>
    rw [List.splitOnP_nil, List.mem_singleton] at h
    exact h ▸ hx
  | cons c s ih =>
    rw [List.splitOnP_cons_eq_if_modifyHead] at h
    split at h
    · rcases List.mem_cons.mp h with rfl | h
      · cases hx
      · exact List.mem_cons_of_mem _ (ih h hx)
    · cases hpieces : s.splitOnP p with
      | nil => exact absurd hpieces (List.splitOnP_ne_nil _ _)
      | cons first pieces =>
        rw [hpieces] at h ih
        rcases List.mem_cons.mp h with rfl | h
        · rcases List.mem_cons.mp hx with rfl | hx
          · exact List.mem_cons_self
          · exact List.mem_cons_of_mem _ (ih List.mem_cons_self hx)
        · exact List.mem_cons_of_mem _ (ih (List.mem_cons_of_mem _ h) hx)

theorem pathsIn_of_no_slash {s : Str} (h : '/' ∉ s) : pathsIn s = [] := by
  refine List.filter_eq_nil_iff.mpr fun piece hpiece => ?_
  rw [List.contains_iff_mem]
  exact fun hslash => h (mem_of_mem_splitOnP hpiece hslash)

theorem mem_pathsIn_pathText {s path : Str} (hs : PathText s) (h : path ∈ pathsIn s) :
    path = s := by
  have hone : s.splitOnP betweenPaths = [s] := by
    refine List.splitOnP_eq_singleton fun x hx => ?_
    rcases hs x hx with hx | rfl
    · simp [betweenPaths, hx]
    · rfl
  unfold pathsIn at h
  rw [hone] at h
  exact List.mem_singleton.mp (List.mem_filter.mp h).1

/-! ## The package's paths -/

/-- The libraries of `xenomai-targets-noconfig.cmake.in`. -/
def libraries : Core → List Str
  | .cobalt => ["libcobalt.so".toList, "libmodechk.so".toList, "libcopperplate.so".toList,
      "libvxworks.so".toList, "libpsos.so".toList, "libalchemy.so".toList, "libsmokey.so".toList]
  | .mercury => ["libmercury.so".toList, "libcopperplate.so".toList, "libvxworks.so".toList,
      "libpsos.so".toList, "libalchemy.so".toList, "libsmokey.so".toList]

theorem exports_library (c : Core) (v : Vars) :
    (exports c v).filterMap Export.library = libraries c := by
  cases c <;> rfl

/-- What the properties name in the libdir, beside the libraries. -/
def linkFiles : Core → List Str
  | .cobalt => ["modechk.wrappers".toList, "cobalt.wrappers".toList,
      "xenomai/bootstrap-pic.o".toList, "xenomai/bootstrap.o".toList, "dynlist.ld".toList]
  | .mercury => ["xenomai/bootstrap-pic.o".toList, "xenomai/bootstrap.o".toList,
      "dynlist.ld".toList]

/-- The directories of the includedir the properties name, beside itself. -/
def includeDirs (c : Core) : List Str :=
  [c.name, "vxworks".toList, "psos".toList, "alchemy".toList, "smokey".toList]

/-- A path of the package, or one of the thread library. -/
inductive OwnPath (c : Core) (v : Vars) : Str → Prop where
  | lib (below : Str) (h : below ∈ libraries c ++ linkFiles c) :
      OwnPath c v (v.lib ++ '/' :: below)
  | inc : OwnPath c v v.inc
  | incDir (below : Str) (h : below ∈ includeDirs c) : OwnPath c v (v.inc ++ '/' :: below)
  | thread (path : Str) (h : path ∈ pathsIn v.threadlib) : OwnPath c v path

/-- All paths in the text are such. -/
def OwnPaths (c : Core) (v : Vars) (s : Str) : Prop := ∀ path ∈ pathsIn s, OwnPath c v path

variable {c : Core} {v : Vars}

namespace OwnPaths

theorem of_no_slash {s : Str} (h : '/' ∉ s) : OwnPaths c v s := by
  intro path hpath
  rw [pathsIn_of_no_slash h] at hpath
  cases hpath

theorem of_pathText {s : Str} (hs : PathText s) (h : OwnPath c v s) : OwnPaths c v s :=
  fun _ hpath => mem_pathsIn_pathText hs hpath ▸ h

theorem append_cons {a b : Str} {x : Char} (ha : OwnPaths c v a) (hx : betweenPaths x)
    (hb : OwnPaths c v b) : OwnPaths c v (a ++ x :: b) := by
  intro path hpath
  rw [pathsIn_append_cons hx] at hpath
  exact (List.mem_append.mp hpath).elim (ha path) (hb path)

theorem joinList {xs : List Str} (h : ∀ x ∈ xs, OwnPaths c v x) :
    OwnPaths c v (Lib.Cmake.joinList xs) := by
  induction xs with
  | nil => exact .of_no_slash List.not_mem_nil
  | cons x xs ih =>
    rw [List.forall_mem_cons] at h
    cases xs with
    | nil =>
      rw [joinList_singleton]
      exact h.1
    | cons y xs =>
      rw [joinList_cons_cons]
      exact h.1.append_cons rfl (ih h.2)

theorem ifType {type item : Str} (htype : '/' ∉ type) (h : OwnPaths c v item) :
    OwnPaths c v (ifType type item) := by
  unfold Macros.ifType
  have hcond : '/' ∉ "$<$<STREQUAL:$<TARGET_PROPERTY:TYPE>,".toList := by decide
  generalize "$<$<STREQUAL:$<TARGET_PROPERTY:TYPE>,".toList = cond at hcond ⊢
  have hitem : OwnPaths c v (item ++ '>' :: []) :=
    h.append_cons rfl (.of_no_slash List.not_mem_nil)
  -- the item stands between a colon and a bracket, and no path is in front
  have hfront : '/' ∉ cond ++ (type ++ ['>']) := by simp [hcond, htype]
  have hsplit : cond ++ type ++ ">:".toList ++ item ++ ">".toList =
      (cond ++ (type ++ ['>'])) ++ ':' :: (item ++ '>' :: []) := by
    have hthen : ">:".toList = ['>', ':'] := by decide
    have hend : ">".toList = ['>'] := by decide
    simp only [hthen, hend, List.append_assoc, List.cons_append, List.nil_append]
  rw [hsplit]
  exact OwnPaths.append_cons (.of_no_slash hfront) rfl hitem

end OwnPaths

theorem pathText_files (c : Core) : ∀ below ∈ libraries c ++ linkFiles c, PathText below := by
  have hall : (libraries c ++ linkFiles c).all fun s => s.all fun x => pathChar x || x = '/' := by
    cases c <;> decide +kernel
  exact fun below h => .of_all (List.all_eq_true.mp hall below h)

theorem pathText_location (hlib : PathText v.lib) {library : Str} (h : library ∈ libraries c) :
    PathText (location v library) :=
  hlib.append (pathText_cons_slash (pathText_files c library (List.mem_append_left _ h)))

theorem pathText_includeDirs (c : Core) : ∀ below ∈ includeDirs c, PathText below := by
  have hall : (includeDirs c).all fun s => s.all fun x => pathChar x || x = '/' := by
    cases c <;> decide +kernel
  exact fun below h => .of_all (List.all_eq_true.mp hall below h)

/-! ## The values of the import files -/

section

variable (hlib : PathText v.lib) (hinc : PathText v.inc)

section

include hlib

theorem ownPaths_lib {below : Str} (h : below ∈ libraries c ++ linkFiles c) :
    OwnPaths c v (v.lib ++ '/' :: below) :=
  .of_pathText (hlib.append (pathText_cons_slash (pathText_files c below h))) (.lib below h)

theorem ownPaths_wrappers {name : String} (h : name.toList ++ ".wrappers".toList ∈ linkFiles c) :
    OwnPaths c v (Export.wrappers v name) := by
  have hquoted :
      OwnPaths c v ((v.lib ++ '/' :: (name.toList ++ ".wrappers".toList)) ++ '"' :: []) :=
    (ownPaths_lib hlib (List.mem_append_right (libraries c) h)).append_cons rfl
      (.of_no_slash List.not_mem_nil)
  have hoption : "-Wl,@\"".toList = "-Wl,@".toList ++ ['"'] := by decide
  have hend : ".wrappers\"".toList = ".wrappers".toList ++ ['"'] := by decide
  have hsplit : Export.wrappers v name = "-Wl,@".toList ++
      '"' :: ((v.lib ++ '/' :: (name.toList ++ ".wrappers".toList)) ++ '"' :: []) := by
    unfold Export.wrappers
    rw [hoption, hend]
    simp only [List.append_assoc, List.cons_append, List.nil_append]
  rw [hsplit]
  exact OwnPaths.append_cons (.of_no_slash (by decide)) rfl hquoted

theorem ownPaths_legacyBootstrap : ∀ q ∈ (Export.legacyBootstrap v).properties,
    OwnPaths c v q.2 := by
  refine List.forall_mem_singleton.mpr (.joinList (List.forall_mem_cons.mpr ⟨?_,
    List.forall_mem_singleton.mpr ?_⟩))
  · refine .ifType (by decide) (ownPaths_lib hlib (List.mem_append_right _ ?_))
    cases c <;> decide
  · refine .ifType (by decide) (ownPaths_lib hlib (List.mem_append_right _ ?_))
    cases c <;> decide

theorem ownPaths_legacyBootstrapWrap : ∀ q ∈ (Export.legacyBootstrapWrap v).properties,
    OwnPaths c v q.2 := by
  refine List.forall_mem_singleton.mpr (.ifType (by decide) ?_)
  have hfile : OwnPaths c v (v.lib ++ '/' :: "dynlist.ld".toList) :=
    ownPaths_lib hlib (List.mem_append_right _ (by cases c <;> decide))
  have hoption : "-Wl,--wrap=main,--dynamic-list=".toList =
      "-Wl,--wrap=main,--dynamic-list".toList ++ ['='] := by decide
  rw [hoption, List.append_assoc, List.append_assoc]
  exact OwnPaths.append_cons (.of_no_slash (by decide)) rfl hfile

theorem ownPaths_modechk : ∀ q ∈ (Export.modechk v).properties, OwnPaths .cobalt v q.2 := by
  refine List.forall_mem_singleton.mpr (.joinList ?_)
  simp only [List.forall_mem_cons]
  exact ⟨ownPaths_wrappers hlib (by decide), .thread, .of_no_slash (by decide),
    List.forall_mem_nil _⟩

theorem ownPaths_posix : ∀ q ∈ (Export.posix v c).properties, OwnPaths c v q.2 := by
  cases c with
  | cobalt =>
    refine List.forall_mem_cons.mpr ⟨.of_no_slash (by decide),
      List.forall_mem_singleton.mpr (.joinList ?_)⟩
    simp only [List.forall_mem_cons]
    exact ⟨ownPaths_wrappers hlib (by decide), .of_no_slash (by decide), List.forall_mem_nil _⟩
  | mercury => exact List.forall_mem_singleton.mpr (.of_no_slash (by decide))

end

section

include hinc

theorem ownPaths_inc {below : Str} (h : below ∈ includeDirs c) :
    OwnPaths c v (v.inc ++ '/' :: below) :=
  .of_pathText (hinc.append (pathText_cons_slash (pathText_includeDirs c below h)))
    (.incDir below h)

theorem ownPaths_core : ∀ q ∈ (Export.core v c).properties, OwnPaths c v q.2 := by
  have hincludes : OwnPaths c v (joinList [v.inc ++ '/' :: c.name, v.inc]) := by
    refine .joinList (List.forall_mem_cons.mpr ⟨?_, List.forall_mem_singleton.mpr ?_⟩)
    · exact ownPaths_inc hinc List.mem_cons_self
    · exact .of_pathText hinc .inc
  have hlinks : OwnPaths c v (joinList [v.threadlib, "-lrt".toList]) := by
    refine .joinList (List.forall_mem_cons.mpr ⟨.thread, List.forall_mem_singleton.mpr ?_⟩)
    exact .of_no_slash (by decide)
  unfold Export.core
  simp only [List.forall_mem_cons]
  exact ⟨.of_no_slash (by cases c <;> decide), hincludes, hlinks, List.forall_mem_nil _⟩

theorem ownPaths_skin {name : String} (h : name.toList ∈ includeDirs c) :
    ∀ q ∈ (Export.skin v name).properties, OwnPaths c v q.2 := by
  refine List.forall_mem_cons.mpr ⟨ownPaths_inc hinc h, List.forall_mem_singleton.mpr ?_⟩
  exact .of_no_slash (by decide)

end

include hlib hinc

theorem ownPaths_exports : ∀ e ∈ exports c v, ∀ q ∈ e.properties, OwnPaths c v q.2 := by
  have hcopperplate : ∀ q ∈ (Export.copperplate c).properties, OwnPaths c v q.2 :=
    List.forall_mem_singleton.mpr (.of_no_slash (by cases c <;> decide))
  have hskin : ∀ name ∈ ["vxworks", "psos", "alchemy", "smokey"],
      ∀ q ∈ (Export.skin v name).properties, OwnPaths c v q.2 := by
    intro name hname
    refine ownPaths_skin hinc (List.mem_cons_of_mem _ ?_)
    exact List.mem_map_of_mem (f := String.toList) hname
  simp only [List.forall_mem_cons] at hskin
  obtain ⟨hvxworks, hpsos, halchemy, hsmokey, -⟩ := hskin
  have hcommon : ∀ e ∈ [Export.legacyBootstrap v, Export.legacyBootstrapWrap v, Export.posix v c,
      Export.copperplate c, Export.skin v "vxworks", Export.skin v "psos",
      Export.skin v "alchemy", Export.skin v "smokey"], ∀ q ∈ e.properties, OwnPaths c v q.2 := by
    simp only [List.forall_mem_cons]
    exact ⟨ownPaths_legacyBootstrap hlib, ownPaths_legacyBootstrapWrap hlib, ownPaths_posix hlib,
      hcopperplate, hvxworks, hpsos, halchemy, hsmokey, List.forall_mem_nil _⟩
  intro e he
  rcases List.mem_cons.mp he with rfl | he
  · exact ownPaths_core hinc
  · cases c with
    | cobalt =>
      rcases List.mem_cons.mp he with rfl | he
      · exact ownPaths_modechk hlib
      · exact hcommon e he
    | mercury => exact hcommon e he

end

/-! ## The properties of a target -/

@[simp] theorem prop_set (t : Imported) (p q : Property) (value : Str) :
    (t.set p value).prop q = if q = p then some value else t.prop q :=
  Function.update_apply ..

theorem setProperties_of_not_mem {props : List (Property × Str)} {p : Property}
    (h : ∀ q ∈ props, q.1 ≠ p) (t : Imported) : (t.setProperties props).prop p = t.prop p := by
  unfold Imported.setProperties
  induction props generalizing t with
  | nil => rfl
  | cons q props ih =>
    rw [List.forall_mem_cons] at h
    rw [List.foldl_cons, ih h.2, prop_set, if_neg h.1.symm]

/-- A property has one of the values it is set to, or keeps what it had. -/
theorem prop_setProperties {t : Imported} {props : List (Property × Str)} {p : Property}
    {value : Str} (h : (t.setProperties props).prop p = some value) :
    t.prop p = some value ∨ ∃ q ∈ props, q.2 = value := by
  unfold Imported.setProperties at h
  induction props generalizing t with
  | nil => exact .inl h
  | cons q props ih =>
    rcases ih h with h | ⟨q', hq', hvalue⟩
    · rw [prop_set] at h
      split at h
      · exact .inr ⟨q, List.mem_cons_self, Option.some.inj h⟩
      · exact .inl h
    · exact .inr ⟨q', List.mem_cons_of_mem _ hq', hvalue⟩

/-- The values of an imported target: those of `xenomai-targets.cmake`, and those
of `xenomai-targets-noconfig.cmake`. -/
theorem prop_imported_cases {e : Export}
    (hfresh : ∀ q ∈ e.properties, q.1 ≠ .importedConfigurations) {p : Property} {value : Str}
    (h : (e.imported v).prop p = some value) :
    (∃ q ∈ e.properties, q.2 = value) ∨ ∃ library, e.library = some library ∧
      (value = "NOCONFIG".toList ∨ value = location v library ∨ value = library) := by
  have hcreated : e.created.prop p = some value → ∃ q ∈ e.properties, q.2 = value := by
    intro h
    rcases prop_setProperties h with h | h
    · cases h
    · exact h
  unfold Export.imported at h
  cases hlibrary : e.library with
  | none =>
    rw [hlibrary] at h
    exact .inl (hcreated h)
  | some library =>
    rw [hlibrary] at h
    rcases prop_setProperties h with h | ⟨q, hq, rfl⟩
    · -- the append starts a new list
      rw [Imported.append, prop_set] at h
      have hnone : e.created.prop .importedConfigurations = none :=
        setProperties_of_not_mem hfresh (Imported.new e.kind)
      rw [hnone] at h
      split at h
      · exact .inr ⟨library, rfl, .inl (Option.some.inj h).symm⟩
      · exact .inl (hcreated h)
    · rw [List.mem_cons, List.mem_singleton] at hq
      rcases hq with rfl | rfl
      · exact .inr ⟨library, rfl, .inr (.inl rfl)⟩
      · exact .inr ⟨library, rfl, .inr (.inr rfl)⟩

/-- **Every path in a property is known.** With path texts for the two
directories, what the properties of a target name is a library or another file
below the libdir, the includedir or a directory of it, or belongs to the thread
library. -/
theorem properties_below (hlib : PathText v.lib) (hinc : PathText v.inc) {e : Export}
    (he : e ∈ exports c v) {p : Property} {value : Str}
    (hvalue : (e.imported v).prop p = some value) : OwnPaths c v value := by
  have hfresh : ((exports c v).all fun e =>
      e.properties.all fun q => q.1 != .importedConfigurations) = true := by
    cases c <;> rfl
  have hfresh' : ∀ q ∈ e.properties, q.1 ≠ .importedConfigurations := fun q hq =>
    bne_iff_ne.mp (List.all_eq_true.mp (List.all_eq_true.mp hfresh e he) q hq)
  -- a value of the import file, or one that goes with the library
  rcases prop_imported_cases hfresh' hvalue with ⟨q, hq, rfl⟩ | ⟨library, hlibrary, hcases⟩
  · exact ownPaths_exports hlib hinc e he q hq
  · have hmem : library ∈ libraries c := by
      rw [← exports_library c v]
      exact List.mem_filterMap.mpr ⟨e, he, hlibrary⟩
    have hslash : ∀ library ∈ libraries c, '/' ∉ library := by
      have hall : ((libraries c).all fun s => !s.contains '/') = true := by
        cases c <;> decide +kernel
      intro library h
      simpa using List.all_eq_true.mp hall library h
    rcases hcases with rfl | rfl | rfl
    · exact .of_no_slash (by decide)
    · exact ownPaths_lib hlib (List.mem_append_left _ hmem)
    · exact .of_no_slash (hslash _ hmem)

end CmakeXenomai.Package
