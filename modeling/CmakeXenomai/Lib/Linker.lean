import Mathlib.Data.List.Nodup
import Mathlib.Tactic

/-!
# Preprocessing and linking

From translation units to a program, as far as names go. Macros rename what a
unit defines and uses; the linker binds names to definitions, a strong one
before a weak one, and `--wrap` has it look for other names than were asked
for. `Link.link_ok_iff` says when a link succeeds, and the `lookup` lemmas what
a name is bound to.
-/

namespace Lib.Linker

abbrev Str := List Char

/-! ## Macros -/

/-- Macros without parameters, by what they stand for. -/
abbrev Table := List (Str × Str)

namespace Table

def defined (t : Table) (n : Str) : Bool := (t.lookup n).isSome

def undef (t : Table) (n : Str) : Table := t.filter fun m => m.1 != n

def define (t : Table) (n value : Str) : Table := (n, value) :: t.undef n

/-- An identifier after all macros; none is expanded inside its own expansion. -/
def expandFrom : Nat → Table → Str → Str
  | 0, _, n => n
  | k + 1, t, n =>
    match t.lookup n with
    | none => n
    | some m => expandFrom k (t.undef n) m

def expand (t : Table) (n : Str) : Str := expandFrom t.length t n

theorem expandFrom_of_lookup_none {t : Table} {n : Str} (h : t.lookup n = none) (k : Nat) :
    expandFrom k t n = n := by
  cases k with
  | zero => rfl
  | succ k => rw [expandFrom, h]

theorem expand_of_lookup_none {t : Table} {n : Str} (h : t.lookup n = none) : t.expand n = n :=
  expandFrom_of_lookup_none h _

theorem lookup_undef_of_none {t : Table} {m : Str} (h : t.lookup m = none) (n : Str) :
    (t.undef n).lookup m = none := by
  rw [List.lookup_eq_none_iff] at h ⊢
  intro p hp
  exact h p (List.mem_filter.mp hp).1

/-- One step, to something that is no macro. -/
theorem expand_of_lookup_some {t : Table} {n m : Str} (h : t.lookup n = some m)
    (hm : t.lookup m = none) : t.expand n = m := by
  unfold expand
  cases t with
  | nil => cases h
  | cons p t =>
    show expandFrom (t.length + 1) (p :: t) n = m
    rw [expandFrom, h]
    exact expandFrom_of_lookup_none (lookup_undef_of_none hm n) _

theorem lookup_undef (t : Table) (n m : Str) :
    (t.undef n).lookup m = if m = n then none else t.lookup m := by
  unfold undef
  induction t with
  | nil => simp
  | cons p t ih =>
    obtain ⟨k, v⟩ := p
    by_cases hk : k = n
    · subst hk
      rw [List.filter_cons_of_neg (by simp), ih, List.lookup_cons]
      by_cases hm : m = k
      · rw [if_pos hm, if_pos hm]
      · rw [if_neg hm, if_neg hm, beq_false_of_ne hm]
    · rw [List.filter_cons_of_pos (by simpa using hk), List.lookup_cons, List.lookup_cons, ih]
      by_cases hm : m = k
      · subst hm
        simp [hk]
      · rw [beq_false_of_ne hm]

theorem lookup_define (t : Table) (n value m : Str) :
    (t.define n value).lookup m = if m = n then some value else t.lookup m := by
  unfold define
  rw [List.lookup_cons]
  by_cases hm : m = n
  · rw [if_pos hm, hm, beq_self_eq_true]
  · rw [if_neg hm, beq_false_of_ne hm]
    show (t.undef n).lookup m = _
    rw [lookup_undef, if_neg hm]

end Table

inductive Directive where
  | ifdef (n : Str)
  | endif
  | define (n value : Str)
  | undef (n : Str)
  | includes (file : Str)
deriving DecidableEq

def Directive.text : Directive → Str
  | ifdef n => "#ifdef ".toList ++ n ++ ['\n']
  | endif => "#endif\n".toList
  | define n [] => "#define ".toList ++ n ++ ['\n']
  | define n value => "#define ".toList ++ n ++ ' ' :: (value ++ ['\n'])
  | undef n => "#undef ".toList ++ n ++ ['\n']
  | includes file => "#include \"".toList ++ file ++ "\"\n".toList

/-- The macros behind the directives; `open` are the conditions they are in. -/
def preprocess : List Directive → List Bool → Table → Table
  | [], _, t => t
  | .ifdef n :: ds, conditions, t => preprocess ds (t.defined n :: conditions) t
  | .endif :: ds, conditions, t => preprocess ds conditions.tail t
  | .define n value :: ds, conditions, t =>
    preprocess ds conditions (if conditions.all id then t.define n value else t)
  | .undef n :: ds, conditions, t =>
    preprocess ds conditions (if conditions.all id then t.undef n else t)
  | .includes _ :: ds, conditions, t => preprocess ds conditions t

/-! ## Objects -/

variable {Body : Type}

/-- What an object defines, and what it refers to. -/
structure Object (Body : Type) where
  strong : List (Str × Body)
  weak : List (Str × Body)
  needs : List Str

/-- An object with the references that its own definitions leave open. -/
def Object.compile (strong weak : List (Str × Body)) (refs : List Str) : Object Body where
  strong := strong
  weak := weak
  needs := refs.filter fun n => !(strong ++ weak).any fun d => d.1 == n

def strongDefs (objs : List (Object Body)) : List (Str × Body) := objs.flatMap Object.strong

def weakDefs (objs : List (Object Body)) : List (Str × Body) := objs.flatMap Object.weak

/-- The definition of a name: the strong one, or the first weak one. -/
def lookup (objs : List (Object Body)) (n : Str) : Option Body :=
  ((strongDefs objs).lookup n).or ((weakDefs objs).lookup n)

/-- Names are defined once, so a definition is what its name is bound to. -/
theorem lookup_of_mem {defs : List (Str × Body)} (hnodup : (defs.map Prod.fst).Nodup) {n : Str}
    {b : Body} (h : (n, b) ∈ defs) : defs.lookup n = some b := by
  induction defs with
  | nil => cases h
  | cons p defs ih =>
    obtain ⟨m, c⟩ := p
    rw [List.map_cons, List.nodup_cons] at hnodup
    rcases List.mem_cons.mp h with h | h
    · cases h
      exact List.lookup_cons_self
    · have hne : n ≠ m := fun hn => hnodup.1 (List.mem_map.mpr ⟨(n, b), h, hn⟩)
      rw [List.lookup_cons, beq_false_of_ne hne]
      exact ih hnodup.2 h

/-! ## Links -/

theorem dropPrefix?_append (p s : Str) : (p ++ s).dropPrefix? p = some s :=
  List.dropPrefix?_eq_some_iff.mpr ⟨p, rfl, beq_self_eq_true p⟩

theorem dropPrefix?_eq_none {p s : Str} (h : ¬ p <+: s) : s.dropPrefix? p = none := by
  cases hs : s.dropPrefix? p with
  | none => rfl
  | some rest =>
    obtain ⟨p', rfl, hp⟩ := List.dropPrefix?_eq_some_iff.mp hs
    rw [eq_of_beq hp] at h
    exact absurd (List.prefix_append ..) h

/-- The name a reference is looked up by, under `--wrap` for some names. -/
def wrapRef (wrapped : List Str) (n : Str) : Str :=
  if wrapped.contains n then "__wrap_".toList ++ n
  else
    match n.dropPrefix? "__real_".toList with
    | some m => if wrapped.contains m then m else n
    | none => n

theorem wrapRef_of_mem {wrapped : List Str} {n : Str} (h : n ∈ wrapped) :
    wrapRef wrapped n = "__wrap_".toList ++ n :=
  if_pos (List.contains_iff_mem.mpr h)

/-- Names that are not wrapped are looked up as they are. -/
theorem wrapRef_of_not_mem {wrapped : List Str} {n : Str} (h : n ∉ wrapped)
    (hreal : ∀ m, n = "__real_".toList ++ m → m ∉ wrapped) : wrapRef wrapped n = n := by
  unfold wrapRef
  rw [if_neg (mt List.contains_iff_mem.mp h)]
  cases hdrop : n.dropPrefix? "__real_".toList with
  | none => rfl
  | some m =>
    obtain ⟨p, hn, hp⟩ := List.dropPrefix?_eq_some_iff.mp hdrop
    rw [eq_of_beq hp] at hn
    exact if_neg (mt List.contains_iff_mem.mp (hreal m hn))

/-- The other name of what is wrapped. -/
theorem wrapRef_real {wrapped : List Str} {n : Str} (h : n ∈ wrapped)
    (hreal : "__real_".toList ++ n ∉ wrapped) : wrapRef wrapped ("__real_".toList ++ n) = n := by
  unfold wrapRef
  rw [if_neg (mt List.contains_iff_mem.mp hreal), dropPrefix?_append]
  exact if_pos (List.contains_iff_mem.mpr h)

structure Link (Body : Type) where
  objects : List (Object Body)
  wrapped : List Str
  /-- What the shared libraries define. -/
  shared : Str → Bool
  entry : Str

inductive Problem where
  | multiple (n : Str)
  | undefined (n : Str)
deriving DecidableEq

def duplicate? : List Str → Option Str
  | [] => none
  | n :: ns => if ns.contains n then some n else duplicate? ns

theorem duplicate?_eq_none_iff (ns : List Str) : duplicate? ns = none ↔ ns.Nodup := by
  induction ns with
  | nil => simp [duplicate?]
  | cons n ns ih =>
    rw [duplicate?, List.nodup_cons, ← ih]
    by_cases hn : n ∈ ns
    · simp [hn]
    · simp [hn]

namespace Link

variable (l : Link Body)

/-- What a reference is bound to, shared libraries apart. -/
def image (n : Str) : Option Body := lookup l.objects (wrapRef l.wrapped n)

def Resolves (n : Str) : Bool := (l.image n).isSome || l.shared (wrapRef l.wrapped n)

def needs : List Str := l.entry :: l.objects.flatMap Object.needs

def link : Except Problem (Str → Option Body) :=
  match duplicate? ((strongDefs l.objects).map Prod.fst) with
  | some n => .error (.multiple n)
  | none =>
    match l.needs.find? fun n => !l.Resolves n with
    | some n => .error (.undefined n)
    | none => .ok l.image

/-- A link succeeds if no name is defined twice and every reference is found. -/
theorem link_ok_iff (image : Str → Option Body) :
    l.link = .ok image ↔ ((strongDefs l.objects).map Prod.fst).Nodup ∧
      (∀ n ∈ l.needs, l.Resolves n) ∧ image = l.image := by
  unfold link
  rw [← duplicate?_eq_none_iff]
  cases duplicate? ((strongDefs l.objects).map Prod.fst) with
  | some n => simp
  | none =>
    cases hfind : l.needs.find? fun n => !l.Resolves n with
    | some n =>
      have hn := List.find?_some hfind
      have hmem := List.mem_of_find?_eq_some hfind
      simp only [reduceCtorEq, true_and, false_iff, not_and]
      intro h
      rw [h n hmem] at hn
      cases hn
    | none =>
      have hall : ∀ n ∈ l.needs, l.Resolves n := by simpa using hfind
      simp only [true_and, Except.ok.injEq]
      exact ⟨fun h => ⟨hall, h.symm⟩, fun h => h.2.symm⟩

end Link

end Lib.Linker
