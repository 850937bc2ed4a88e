import Mathlib.Data.List.Basic
import Mathlib.Tactic

/-!
# Resource ledgers

A ledger is the log of acquisitions and releases a program makes. All that
ever happened to one resource is its `history`, the subsequence of entries
about it, so "acquired once and released once, in that order" is one equation
(`Settled`), and "acquired once and never released" another (`Held`).
Histories distribute over appending, which is what makes the rules compose.
-/

namespace Lib.Ledger

/-- One entry of a ledger over resources `ρ`. -/
inductive Entry (ρ : Type) where
  | acquire (r : ρ)
  | release (r : ρ)
deriving DecidableEq, Repr

variable {ρ : Type} [DecidableEq ρ]

/-- The resource an entry is about. -/
def Entry.resource : Entry ρ → ρ
  | .acquire r => r
  | .release r => r

/-- Everything that happened to `r`, in order. -/
def history (log : List (Entry ρ)) (r : ρ) : List (Entry ρ) :=
  log.filter fun e => e.resource = r

/-- Acquired exactly once and released exactly once, afterwards. -/
def Settled (log : List (Entry ρ)) (r : ρ) : Prop :=
  history log r = [.acquire r, .release r]

/-- Acquired exactly once and still held. -/
def Held (log : List (Entry ρ)) (r : ρ) : Prop :=
  history log r = [.acquire r]

/-- Never acquired and never released. -/
def Unused (log : List (Entry ρ)) (r : ρ) : Prop :=
  history log r = []

instance (log : List (Entry ρ)) (r : ρ) : Decidable (Settled log r) :=
  inferInstanceAs (Decidable (_ = _))

instance (log : List (Entry ρ)) (r : ρ) : Decidable (Held log r) :=
  inferInstanceAs (Decidable (_ = _))

@[simp] theorem history_nil (r : ρ) : history [] r = [] := rfl

@[simp] theorem history_append (log more : List (Entry ρ)) (r : ρ) :
    history (log ++ more) r = history log r ++ history more r :=
  List.filter_append ..

theorem unused_iff {log : List (Entry ρ)} {r : ρ} :
    Unused log r ↔ ∀ e ∈ log, e.resource ≠ r := by
  simp [Unused, history, List.filter_eq_nil_iff]

theorem unused_nil (r : ρ) : Unused [] r := rfl

/-- Entries about other resources leave the history alone. -/
theorem Unused.history_append_right {log more : List (Entry ρ)} {r : ρ}
    (h : Unused more r) : history (log ++ more) r = history log r := by
  rw [history_append, show history more r = [] from h, List.append_nil]

theorem Unused.history_append_left {log more : List (Entry ρ)} {r : ρ}
    (h : Unused log r) : history (log ++ more) r = history more r := by
  rw [history_append, show history log r = [] from h, List.nil_append]

theorem Unused.append {log more : List (Entry ρ)} {r : ρ} (h : Unused log r)
    (h' : Unused more r) : Unused (log ++ more) r :=
  h'.history_append_right.trans h

theorem Settled.append_right {log more : List (Entry ρ)} {r : ρ} (h : Settled log r)
    (h' : Unused more r) : Settled (log ++ more) r :=
  h'.history_append_right.trans h

theorem Settled.append_left {log more : List (Entry ρ)} {r : ρ} (h : Unused log r)
    (h' : Settled more r) : Settled (log ++ more) r :=
  h.history_append_left.trans h'

theorem Held.append_right {log more : List (Entry ρ)} {r : ρ} (h : Held log r)
    (h' : Unused more r) : Held (log ++ more) r :=
  h'.history_append_right.trans h

theorem Held.append_left {log more : List (Entry ρ)} {r : ρ} (h : Unused log r)
    (h' : Held more r) : Held (log ++ more) r :=
  h.history_append_left.trans h'

/-- Releasing what is held settles it. -/
theorem Held.settle {log : List (Entry ρ)} {r : ρ} (h : Held log r) :
    Settled (log ++ [.release r]) r := by
  unfold Settled
  rw [history_append, show history log r = [.acquire r] from h]
  simp [history, Entry.resource]

/-- Nothing a ledger mentions is left open. -/
def AllSettled (log : List (Entry ρ)) : Prop :=
  ∀ e ∈ log, Settled log e.resource

theorem allSettled_of_cases {log : List (Entry ρ)}
    (h : ∀ r, Unused log r ∨ Settled log r) : AllSettled log := by
  intro e he
  rcases h e.resource with hu | hs
  · exact absurd rfl (unused_iff.mp hu e he)
  · exact hs

end Lib.Ledger
