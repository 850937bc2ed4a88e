import Mathlib.Data.Set.Card
import Mathlib.Logic.Relation
import Mathlib.Tactic

/-!
# Templates

Texts with references to variables. `fill` is the simultaneous substitution;
`subst` puts templates in place of references, one level deep; `Expands` is
the complete recursive expansion. When no variable refers to itself through
others, repeating `subst` ends, and it ends on the complete expansion: each
level of it takes a template `Below` a smaller rank.
-/

namespace Lib.Templates

inductive Frag (α ν : Type) where
  | lit (a : α)
  | ref (x : ν)
deriving DecidableEq

abbrev Template (α ν : Type) := List (Frag α ν)

variable {α β ν : Type}

/-- A text without references. -/
def lits (s : List α) : Template α ν := s.map .lit

/-- Values for the references, `ch` for the characters between them. -/
def fillFrag (ch : α → β) (val : ν → List β) : Frag α ν → List β
  | .lit a => [ch a]
  | .ref x => val x

def fill (ch : α → β) (val : ν → List β) (t : Template α ν) : List β :=
  t.flatMap (fillFrag ch val)

/-- Templates for the references. -/
def substFrag (g : ν → Template α ν) : Frag α ν → Template α ν
  | .lit a => [.lit a]
  | .ref x => g x

def subst (g : ν → Template α ν) (t : Template α ν) : Template α ν :=
  t.flatMap (substFrag g)

@[simp] theorem fill_nil (ch : α → β) (val : ν → List β) : fill ch val [] = [] := rfl

@[simp] theorem fill_cons (ch : α → β) (val : ν → List β) (f : Frag α ν) (t : Template α ν) :
    fill ch val (f :: t) = fillFrag ch val f ++ fill ch val t := rfl

theorem fill_append (ch : α → β) (val : ν → List β) (t t' : Template α ν) :
    fill ch val (t ++ t') = fill ch val t ++ fill ch val t' :=
  List.flatMap_append

theorem fill_lits (ch : α → β) (val : ν → List β) (s : List α) :
    fill ch val (lits s) = s.map ch := by
  induction s with
  | nil => rfl
  | cons a s ih =>
    show fillFrag ch val (.lit a) ++ fill ch val (lits s) = _
    rw [ih]
    rfl

@[simp] theorem subst_nil (g : ν → Template α ν) : subst g [] = [] := rfl

@[simp] theorem subst_cons (g : ν → Template α ν) (f : Frag α ν) (t : Template α ν) :
    subst g (f :: t) = substFrag g f ++ subst g t := rfl

theorem subst_lits (g : ν → Template α ν) (s : List α) : subst g (lits s) = lits s := by
  induction s with
  | nil => rfl
  | cons a s ih =>
    show substFrag g (.lit a) ++ subst g (lits s) = _
    rw [ih]
    rfl

/-- Filling a substituted template is filling with filled templates. -/
theorem fill_subst (ch : α → β) (val : ν → List β) (g : ν → Template α ν) (t : Template α ν) :
    fill ch val (subst g t) = fill ch (fun x => fill ch val (g x)) t := by
  induction t with
  | nil => rfl
  | cons f t ih =>
    rw [subst_cons, fill_append, ih, fill_cons]
    cases f with
    | lit a => rfl
    | ref x => rfl

/-! ## Complete expansion -/

/-- The text of a template with every reference expanded, at every depth. -/
inductive Expands (g : ν → Template α ν) : Template α ν → List α → Prop where
  | nil : Expands g [] []
  | lit (a : α) {t : Template α ν} {s : List α} (h : Expands g t s) :
      Expands g (.lit a :: t) (a :: s)
  | ref (x : ν) {t : Template α ν} {s s' : List α} (hx : Expands g (g x) s) (h : Expands g t s') :
      Expands g (.ref x :: t) (s ++ s')

variable {g : ν → Template α ν}

theorem Expands.append {t t' : Template α ν} {s s' : List α} (h : Expands g t s)
    (h' : Expands g t' s') : Expands g (t ++ t') (s ++ s') := by
  induction h with
  | nil => exact h'
  | lit a _ ih => exact .lit a ih
  | ref x hx _ _ ih =>
    rw [List.append_assoc]
    exact .ref x hx ih

theorem expands_lits (s : List α) : Expands g (lits s) s := by
  induction s with
  | nil => exact .nil
  | cons a s ih => exact .lit a ih

/-- Expanding one level first changes nothing. -/
theorem Expands.subst {t : Template α ν} {s : List α} (h : Expands g t s) :
    Expands g (subst g t) s := by
  induction h with
  | nil => exact .nil
  | lit a _ ih => exact .lit a ih
  | ref x hx _ _ ih => exact hx.append ih

theorem Expands.unique {t : Template α ν} {s s' : List α} (h : Expands g t s)
    (h' : Expands g t s') : s = s' := by
  induction h generalizing s' with
  | nil => cases h'; rfl
  | lit a _ ih =>
    cases h' with
    | lit _ h' => rw [ih h']
  | ref x _ _ ihx ih =>
    cases h' with
    | ref _ hx' h' => rw [ihx hx', ih h']

/-- Variables may be replaced by their expansions beforehand. -/
theorem Expands.congr {g' : ν → Template α ν} {full : ν → List α} {t : Template α ν} {s : List α}
    (h : Expands g t s) (hfull : ∀ x, Expands g (g x) (full x))
    (hg' : ∀ x, g' x = g x ∨ g' x = lits (full x)) : Expands g' t s := by
  induction h with
  | nil => exact .nil
  | lit a _ ih => exact .lit a ih
  | ref x hx _ ihx ih =>
    refine .ref x ?_ ih
    rcases hg' x with h | h
    · rw [h]
      exact ihx
    · rw [h, (hfull x).unique hx]
      exact expands_lits _

/-! ## Acyclic references -/

/-- The text of `x` has a reference to `y`. -/
def Refers (g : ν → Template α ν) (x y : ν) : Prop := .ref y ∈ g x

/-- No variable refers to itself, through others or directly. -/
def Acyclic (g : ν → Template α ν) : Prop := ∀ x, ¬ Relation.TransGen (Refers g) x x

/-- An acyclic relation on finitely many things has a rank: how many of them
can be reached. -/
theorem exists_rank [Finite ν] {r : ν → ν → Prop} (h : ∀ x, ¬ Relation.TransGen r x x) :
    ∃ rank : ν → Nat, ∀ x y, r x y → rank y < rank x := by
  refine ⟨fun x => {y | Relation.TransGen r x y}.ncard, fun x y hxy => ?_⟩
  refine Set.ncard_lt_ncard ⟨fun z hz => ?_, fun hsub => ?_⟩ (Set.toFinite _)
  · exact .head hxy hz
  · exact h y (hsub (Relation.TransGen.single hxy))

/-- All references are to variables of rank less than `n`. -/
def Below (rank : ν → Nat) (n : Nat) (t : Template α ν) : Prop :=
  ∀ x, .ref x ∈ t → rank x < n

theorem exists_below [Finite ν] (rank : ν → Nat) : ∃ n, ∀ t : Template α ν, Below rank n t := by
  obtain ⟨n, hn⟩ := (Set.finite_range rank).bddAbove
  exact ⟨n + 1, fun t x _ => Nat.lt_succ_of_le (hn ⟨x, rfl⟩)⟩

variable {rank : ν → Nat} (hrank : ∀ x y, Refers g x y → rank y < rank x)
include hrank

theorem Below.subst {n : Nat} {t : Template α ν} (h : Below rank (n + 1) t) :
    Below rank n (subst g t) := by
  intro y hy
  obtain ⟨f, hf, hy⟩ := List.mem_flatMap.mp hy
  cases f with
  | lit a => simp [substFrag] at hy
  | ref x =>
    have hx := h x hf
    have hxy := hrank x y hy
    omega

omit hrank in
/-- Below rank zero there are no references. -/
theorem Below.eq_lits {t : Template α ν} (h : Below rank 0 t) : ∃ s, t = lits s := by
  induction t with
  | nil => exact ⟨[], rfl⟩
  | cons f t ih =>
    cases f with
    | lit a =>
      obtain ⟨s, rfl⟩ := ih fun x hx => h x (List.mem_cons_of_mem _ hx)
      exact ⟨a :: s, rfl⟩
    | ref x => exact absurd (h x List.mem_cons_self) (Nat.not_lt_zero _)

/-- A template that a level of expansion does not change has no references. -/
theorem eq_lits_of_subst_eq {t : Template α ν} {n : Nat} (h : Below rank n t)
    (hfix : subst g t = t) : ∃ s, t = lits s := by
  induction n with
  | zero => exact h.eq_lits
  | succ n ih => exact ih (hfix ▸ h.subst hrank)

omit hrank in
/-- Acyclic templates have complete expansions. -/
theorem exists_expands [Finite ν] (hacyclic : Acyclic g) (t : Template α ν) :
    ∃ s, Expands g t s := by
  obtain ⟨rank, hrank⟩ := exists_rank hacyclic
  have hbelow : ∀ n (t : Template α ν), Below rank n t → ∃ s, Expands g t s := by
    intro n
    induction n with
    | zero =>
      intro t ht
      obtain ⟨s, rfl⟩ := ht.eq_lits
      exact ⟨s, expands_lits s⟩
    | succ n ih =>
      intro t ht
      induction t with
      | nil => exact ⟨[], .nil⟩
      | cons f t iht =>
        obtain ⟨s, hs⟩ := iht fun x hx => ht x (List.mem_cons_of_mem _ hx)
        cases f with
        | lit a => exact ⟨a :: s, .lit a hs⟩
        | ref x =>
          have hx := ht x List.mem_cons_self
          obtain ⟨s', hs'⟩ := ih (g x) fun y hy => by
            have hlt := hrank x y hy
            omega
          exact ⟨s' ++ s, .ref x hs' hs⟩
  obtain ⟨n, hn⟩ := exists_below (α := α) rank
  exact hbelow n t (hn t)

/-- A rank that drops along references keeps them from closing a cycle. -/
theorem acyclic_of_rank : Acyclic g := by
  have hlt : ∀ x y, Relation.TransGen (Refers g) x y → rank y < rank x := by
    intro x y h
    induction h with
    | single h => exact hrank _ _ h
    | tail _ h ih => exact (hrank _ _ h).trans ih
  exact fun x hx => Nat.lt_irrefl _ (hlt x x hx)

omit hrank in
theorem Acyclic.congr {g' : ν → Template α ν} (hacyclic : Acyclic g)
    (h : ∀ x y, Refers g' x y → Refers g x y) : Acyclic g' :=
  fun x hx => hacyclic x (Relation.TransGen.mono h x x hx)

end Lib.Templates
