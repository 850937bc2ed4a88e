import Mathlib.Data.Nat.Find
import Mathlib.Tactic

/-!
# Unbounded loops

A loop body sends a state either round again or out with a result. `run` is
the executable reading with a turn budget; `Returns` and `Halts` forget the
budget. Everything a client needs is one of:

* the **invariant rule** (`run_inv`) — what each turn preserves, the result has;
* the **divergence rule** (`not_halts_of_inv`) — a set of states the body never
  leaves holds no halting state;
* the **orbit rules** (`run_of_orbit`, `halts_iff_orbit`) — for a body whose
  states are known in closed form.
-/

namespace Lib.Loop

/-- What one turn of a loop body does. -/
inductive Turn (σ ρ : Type) where
  | again (s : σ)
  | leave (r : ρ)

variable {σ ρ : Type} {body : σ → Turn σ ρ}

/-- At most `fuel` turns of the loop. -/
def run (body : σ → Turn σ ρ) : Nat → σ → Option ρ
  | 0, _ => none
  | fuel + 1, s =>
    match body s with
    | .again s' => run body fuel s'
    | .leave r => some r

/-- The loop leaves from `s` with `r`, given turns enough. -/
def Returns (body : σ → Turn σ ρ) (s : σ) (r : ρ) : Prop :=
  ∃ fuel, run body fuel s = some r

/-- The loop ends from `s`. -/
def Halts (body : σ → Turn σ ρ) (s : σ) : Prop :=
  ∃ r, Returns body s r

theorem run_again {s s' : σ} (h : body s = .again s') (fuel : Nat) :
    run body (fuel + 1) s = run body fuel s' := by
  simp only [run, h]

theorem run_leave {s : σ} {r : ρ} (h : body s = .leave r) (fuel : Nat) :
    run body (fuel + 1) s = some r := by
  simp only [run, h]

/-- More turns never change a result. -/
theorem run_mono {fuel more : Nat} {s : σ} {r : ρ} (h : run body fuel s = some r)
    (hle : fuel ≤ more) : run body more s = some r := by
  induction fuel generalizing s more with
  | zero => simp [run] at h
  | succ fuel ih =>
    obtain ⟨m, rfl⟩ : ∃ m, more = m + 1 := ⟨more - 1, by omega⟩
    cases hb : body s with
    | again s' =>
      rw [run_again hb] at h ⊢
      exact ih h (by omega)
    | leave r' =>
      rw [run_leave hb] at h ⊢
      exact h

theorem Returns.unique {s : σ} {r r' : ρ} (h : Returns body s r) (h' : Returns body s r') :
    r = r' := by
  obtain ⟨n, hn⟩ := h
  obtain ⟨m, hm⟩ := h'
  have hn' := run_mono hn (Nat.le_max_left n m)
  have hm' := run_mono hm (Nat.le_max_right n m)
  exact Option.some.inj (hn'.symm.trans hm')

theorem Returns.of_again {s s' : σ} {r : ρ} (hb : body s = .again s')
    (h : Returns body s' r) : Returns body s r := by
  obtain ⟨n, hn⟩ := h
  exact ⟨n + 1, by rw [run_again hb, hn]⟩

theorem Returns.of_leave {s : σ} {r : ρ} (hb : body s = .leave r) : Returns body s r :=
  ⟨1, run_leave hb 0⟩

/-- **Invariant rule.** What every turn preserves and every exit turns into
`Q` makes every result satisfy `Q`. -/
theorem run_inv {I : σ → Prop} {Q : ρ → Prop}
    (hagain : ∀ s s', I s → body s = .again s' → I s')
    (hleave : ∀ s r, I s → body s = .leave r → Q r) :
    ∀ (fuel : Nat) (s : σ) (r : ρ), I s → run body fuel s = some r → Q r := by
  intro fuel
  induction fuel with
  | zero => intro s r _ h; simp [run] at h
  | succ fuel ih =>
    intro s r hI h
    cases hb : body s with
    | again s' =>
      rw [run_again hb] at h
      exact ih s' r (hagain s s' hI hb) h
    | leave r' =>
      rw [run_leave hb] at h
      obtain rfl := Option.some.inj h
      exact hleave s r' hI hb

/-- **Divergence rule.** A loop that always goes round inside `I` never ends. -/
theorem not_halts_of_inv {I : σ → Prop}
    (hagain : ∀ s, I s → ∃ s', body s = .again s' ∧ I s') {s : σ} (hI : I s) :
    ¬ Halts body s := by
  intro h
  obtain ⟨r, fuel, h⟩ := h
  induction fuel generalizing s with
  | zero => simp [run] at h
  | succ fuel ih =>
    obtain ⟨s', hb, hI'⟩ := hagain s hI
    rw [run_again hb] at h
    exact ih hI' h

/-- A known orbit that leaves at its `i`-th state. -/
theorem run_of_orbit (x : Nat → σ) {i : Nat} {r : ρ}
    (hagain : ∀ j < i, body (x j) = .again (x (j + 1)))
    (hleave : body (x i) = .leave r) : run body (i + 1) (x 0) = some r := by
  induction i generalizing x with
  | zero => exact run_leave hleave 0
  | succ i ih =>
    rw [run_again (hagain 0 (by omega))]
    exact ih (fun j => x (j + 1)) (fun j hj => hagain (j + 1) (by omega)) hleave

/-- With no more turns than there are states going round there is no result. -/
theorem run_none_of_orbit (x : Nat → σ) {i : Nat}
    (hagain : ∀ j < i, body (x j) = .again (x (j + 1))) : run body i (x 0) = none := by
  induction i generalizing x with
  | zero => rfl
  | succ i ih =>
    rw [run_again (hagain 0 (by omega))]
    exact ih (fun j => x (j + 1)) fun j hj => hagain (j + 1) (by omega)

/-- A loop whose states follow the orbit `x` ends iff some state of the orbit
leaves. -/
theorem halts_iff_orbit (x : Nat → σ)
    (hbody : ∀ j, body (x j) = .again (x (j + 1)) ∨ ∃ r, body (x j) = .leave r) :
    Halts body (x 0) ↔ ∃ i r, body (x i) = .leave r := by
  constructor
  · intro hhalts
    by_contra hnone
    push Not at hnone
    refine not_halts_of_inv (I := fun s => ∃ j, s = x j) ?_ ⟨0, rfl⟩ hhalts
    rintro s ⟨j, rfl⟩
    rcases hbody j with hb | ⟨r, hb⟩
    · exact ⟨x (j + 1), hb, j + 1, rfl⟩
    · exact absurd hb (hnone j r)
  · intro h
    obtain ⟨i, r, hr⟩ := h
    -- the least leaving state: every earlier one goes round
    classical
    have hex : ∃ i, ∃ r, body (x i) = .leave r := ⟨i, r, hr⟩
    obtain ⟨r', hr'⟩ := Nat.find_spec hex
    refine ⟨r', _, run_of_orbit x (fun j hj => ?_) hr'⟩
    rcases hbody j with hb | hb
    · exact hb
    · exact absurd hb (Nat.find_min hex hj)

end Lib.Loop
