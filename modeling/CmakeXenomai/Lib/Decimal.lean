import Mathlib.Tactic

/-!
# Decimal numerals

`Nat.toDigits 10 n` is the numeral of `n`: no zero in front, except for 0
itself. `padded w n` is the same number written with `w` digits, which for
numbers that fit is the numeral behind zeros (`padded_eq`).
-/

namespace Lib.Decimal

/-- The last `w` digits of a number. -/
def padded : Nat → Nat → List Char
  | 0, _ => []
  | w + 1, n => padded w (n / 10) ++ [(n % 10).digitChar]

theorem padded_zero (w : Nat) : padded w 0 = .replicate w '0' := by
  induction w with
  | zero => rfl
  | succ w ih =>
    show padded w 0 ++ ['0'] = _
    rw [ih, ← List.replicate_succ']

theorem padded_eq {w n : Nat} (hw : 0 < w) (hn : n < 10 ^ w) :
    padded w n = .replicate (w - (Nat.toDigits 10 n).length) '0' ++ Nat.toDigits 10 n := by
  induction w generalizing n with
  | zero => cases hw
  | succ w ih =>
    show padded w (n / 10) ++ [(n % 10).digitChar] = _
    by_cases hlt : n < 10
    · rw [Nat.div_eq_of_lt hlt, Nat.mod_eq_of_lt hlt, padded_zero, Nat.toDigits_of_lt_base hlt]
      rfl
    · have hpos : 0 < w := by
        rcases Nat.eq_zero_or_pos w with rfl | h
        · omega
        · exact h
      have hdiv : n / 10 < 10 ^ w := by
        rw [Nat.pow_succ] at hn
        omega
      rw [ih hpos hdiv, Nat.toDigits_of_base_le (n := n) (by decide) (by omega),
        List.append_assoc, List.length_append, List.length_singleton, Nat.add_sub_add_right]

theorem isDigit_of_mem_toDigits {n : Nat} {c : Char} (h : c ∈ Nat.toDigits 10 n) : c.isDigit :=
  Nat.isDigit_of_mem_toDigits (by decide) (by decide) h

/-- The numeral of a positive number starts with a digit other than 0. -/
theorem exists_toDigits_eq_cons {n : Nat} (hn : 0 < n) :
    ∃ d u, Nat.toDigits 10 n = d :: u ∧ d ≠ '0' := by
  induction n using Nat.strong_induction_on with
  | _ n ih =>
    by_cases hlt : n < 10
    · refine ⟨n.digitChar, [], Nat.toDigits_of_lt_base hlt, ?_⟩
      rw [ne_eq, Nat.digitChar_eq_zero]
      omega
    · obtain ⟨d, u, hd, hne⟩ := ih (n / 10) (by omega) (by omega)
      refine ⟨d, u ++ [(n % 10).digitChar], ?_, hne⟩
      rw [Nat.toDigits_of_base_le (by decide) (by omega), hd]
      rfl

end Lib.Decimal
