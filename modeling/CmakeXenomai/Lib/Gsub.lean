import Mathlib.Data.List.Infix
import Mathlib.Tactic

/-!
# Global substitution

`gsub pat repl s` puts `repl` in place of every occurrence of `pat` in `s`,
from left to right, going on after each occurrence; what was put in is not
looked at again. A separator — an element outside the pattern — keeps what is
left of it apart from what is right of it (`gsub_append_sep`), so a text can be
substituted piece by piece.
-/

namespace Lib.Gsub

variable {α : Type} [DecidableEq α] {pat repl : List α}

/-- `skip` elements are still part of the last occurrence. -/
def gsubFrom (pat repl : List α) : Nat → List α → List α
  | _, [] => []
  | skip + 1, _ :: s => gsubFrom pat repl skip s
  | 0, c :: s =>
    if pat <+: c :: s then repl ++ gsubFrom pat repl (pat.length - 1) s
    else c :: gsubFrom pat repl 0 s

def gsub (pat repl s : List α) : List α := gsubFrom pat repl 0 s

theorem gsubFrom_cons (c : α) (s : List α) :
    gsubFrom pat repl 0 (c :: s) =
      if pat <+: c :: s then repl ++ gsubFrom pat repl (pat.length - 1) s
      else c :: gsubFrom pat repl 0 s := by
  rw [gsubFrom]

@[simp] theorem gsub_nil : gsub pat repl [] = [] := rfl

theorem gsubFrom_append (a s : List α) :
    gsubFrom pat repl a.length (a ++ s) = gsub pat repl s := by
  induction a with
  | nil => rfl
  | cons c a ih => exact ih

/-- An occurrence at the front. -/
theorem gsub_append_left (hpat : pat ≠ []) (s : List α) :
    gsub pat repl (pat ++ s) = repl ++ gsub pat repl s := by
  obtain ⟨c, p, rfl⟩ := List.exists_cons_of_ne_nil hpat
  have hfront : c :: p <+: c :: (p ++ s) := ⟨s, rfl⟩
  show gsubFrom (c :: p) repl 0 (c :: (p ++ s)) = _
  rw [gsubFrom_cons, if_pos hfront, List.length_cons, Nat.add_sub_cancel, gsubFrom_append]

theorem gsub_of_not_isInfix {s : List α} (h : ¬ pat <:+: s) : gsub pat repl s = s := by
  induction s with
  | nil => rfl
  | cons c s ih =>
    rw [List.infix_cons_iff, not_or] at h
    show gsubFrom pat repl 0 (c :: s) = _
    rw [gsubFrom_cons, if_neg h.1]
    exact congrArg (c :: ·) (ih h.2)

omit [DecidableEq α] in
/-- An occurrence does not reach over a separator. -/
theorem isPrefix_append_sep {c : α} (hc : c ∉ pat) (a b : List α) :
    pat <+: a ++ c :: b ↔ pat <+: a := by
  constructor
  · intro h
    rcases List.prefix_or_prefix_of_prefix h (List.prefix_append a _) with h' | h'
    · exact h'
    · -- the pattern is at least as long as `a`, and has no room for `c`
      obtain ⟨p, rfl⟩ := h'
      rw [List.prefix_append_right_inj] at h
      cases p with
      | nil => simp
      | cons d p =>
        obtain ⟨rfl, -⟩ := List.cons_prefix_cons.mp h
        exact absurd (by simp) hc
  · exact fun h => h.trans (List.prefix_append a _)

omit [DecidableEq α] in
theorem isInfix_append_sep {c : α} (hc : c ∉ pat) {a b : List α} (h : pat <:+: a ++ c :: b) :
    pat <:+: a ∨ pat <:+: b := by
  induction a with
  | nil =>
    rcases List.infix_cons_iff.mp h with h | h
    · exact .inl ((isPrefix_append_sep hc [] b).mp h).isInfix
    · exact .inr h
  | cons x a ih =>
    rcases List.infix_cons_iff.mp h with h | h
    · exact .inl ((isPrefix_append_sep hc (x :: a) b).mp h).isInfix
    · exact (ih h).imp_left fun h => h.trans (List.suffix_cons x a).isInfix

theorem gsubFrom_append_sep (hpat : pat ≠ []) {c : α} (hc : c ∉ pat) (a b : List α) {skip : Nat}
    (hskip : skip ≤ a.length) :
    gsubFrom pat repl skip (a ++ c :: b) = gsubFrom pat repl skip a ++ c :: gsub pat repl b := by
  induction a generalizing skip with
  | nil =>
    obtain rfl : skip = 0 := Nat.le_zero.mp hskip
    have hno : ¬ pat <+: c :: b := by
      intro h
      have hnil := (isPrefix_append_sep hc [] b).mp h
      exact hpat (List.prefix_nil.mp hnil)
    show gsubFrom pat repl 0 (c :: b) = _
    rw [gsubFrom_cons, if_neg hno]
    rfl
  | cons d a ih =>
    cases skip with
    | succ skip => exact ih (Nat.le_of_succ_le_succ hskip)
    | zero =>
      show gsubFrom pat repl 0 (d :: (a ++ c :: b)) = gsubFrom pat repl 0 (d :: a) ++ _
      have hiff : pat <+: d :: (a ++ c :: b) ↔ pat <+: d :: a := isPrefix_append_sep hc (d :: a) b
      by_cases h : pat <+: d :: a
      · have hlen : pat.length - 1 ≤ a.length := by
          have hle := h.length_le
          simp at hle
          omega
        rw [gsubFrom_cons, if_pos (hiff.mpr h), gsubFrom_cons, if_pos h, ih hlen, List.append_assoc]
      · rw [gsubFrom_cons, if_neg (mt hiff.mp h), gsubFrom_cons, if_neg h, ih (Nat.zero_le _)]
        rfl

/-- The two sides of a separator are substituted apart. -/
theorem gsub_append_sep (hpat : pat ≠ []) {c : α} (hc : c ∉ pat) (a b : List α) :
    gsub pat repl (a ++ c :: b) = gsub pat repl a ++ c :: gsub pat repl b :=
  gsubFrom_append_sep hpat hc a b (Nat.zero_le _)

/-! ## One substitution after another -/

/-- Substitutions in sequence: each sees what the earlier ones put in. -/
def gsubs (cmds : List (List α × List α)) (s : List α) : List α :=
  cmds.foldl (fun s cmd => gsub cmd.1 cmd.2 s) s

theorem gsubs_append (cmds cmds' : List (List α × List α)) (s : List α) :
    gsubs (cmds ++ cmds') s = gsubs cmds' (gsubs cmds s) :=
  List.foldl_append

theorem gsubs_of_not_isInfix {cmds : List (List α × List α)} {s : List α}
    (h : ∀ cmd ∈ cmds, ¬ cmd.1 <:+: s) : gsubs cmds s = s := by
  induction cmds with
  | nil => rfl
  | cons cmd cmds ih =>
    show gsubs cmds (gsub cmd.1 cmd.2 s) = s
    rw [gsub_of_not_isInfix (h cmd List.mem_cons_self)]
    exact ih fun cmd' hcmd' => h cmd' (List.mem_cons_of_mem _ hcmd')

theorem gsubs_append_sep {cmds : List (List α × List α)} {c : α}
    (hpat : ∀ cmd ∈ cmds, cmd.1 ≠ []) (hc : ∀ cmd ∈ cmds, c ∉ cmd.1) (a b : List α) :
    gsubs cmds (a ++ c :: b) = gsubs cmds a ++ c :: gsubs cmds b := by
  induction cmds generalizing a b with
  | nil => rfl
  | cons cmd cmds ih =>
    show gsubs cmds (gsub cmd.1 cmd.2 (a ++ c :: b)) = _
    rw [gsub_append_sep (hpat cmd List.mem_cons_self) (hc cmd List.mem_cons_self)]
    exact ih (fun cmd' h => hpat cmd' (List.mem_cons_of_mem _ h))
      (fun cmd' h => hc cmd' (List.mem_cons_of_mem _ h)) _ _

end Lib.Gsub
