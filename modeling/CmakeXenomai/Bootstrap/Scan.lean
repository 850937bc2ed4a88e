import CmakeXenomai.Bootstrap.FetchArgv

/-!
# The two passes over the buffer

Both passes of `_xenomai_init_fetchargv` walk the same bytes with the same
`strlen` steps. On a buffer that starts with an encoded list of strings, with
`argend` behind the last terminator, each ends at `argend` exactly
(`countArgs_encode`, `storeArgs_encode`); the invariant is that what is left
of the buffer at the cursor is the encoding of the strings not yet seen. On an
unterminated rest the first pass leaves `argend` behind (`countArgs_overrun`).
-/

namespace CmakeXenomai.Bootstrap

open Lib.CString

/-! ## Unfolding one iteration -/

theorem countArgs_done (t : Target) (arglist : List UInt8) {argend p : Nat} (n : Nat)
    (h : argend ≤ p) : countArgs t arglist argend p n = .ok ⟨p, n⟩ := by
  rw [countArgs, if_neg (by omega)]

theorem countArgs_step {t : Target} {arglist : List UInt8} {argend p n k : Nat}
    (hp : p < argend) (hn : holds t.intMax (n + 1) = true)
    (hk : strlen (arglist.drop p) = some k) :
    countArgs t arglist argend p n = countArgs t arglist argend (p + k + 1) (n + 1) := by
  rw [countArgs, if_pos hp, if_pos hn, hk]

theorem countArgs_wrap {t : Target} {arglist : List UInt8} {argend p n : Nat}
    (hp : p < argend) (hn : holds t.intMax (n + 1) = false) :
    countArgs t arglist argend p n = .error .wrap := by
  rw [countArgs, if_pos hp, if_neg (by simp [hn])]

theorem storeArgs_done (t : Target) (arglist : List UInt8) {argend p : Nat} (v : List Slot)
    (n : Nat) (h : argend ≤ p) : storeArgs t arglist argend v p n = .ok (v, ⟨p, n⟩) := by
  rw [storeArgs, if_neg (by omega)]

theorem store_ok {v : List Slot} {n : Nat} (slot : Slot) (h : n < v.length) :
    store v n slot = .ok (v.set n slot) :=
  if_pos h

theorem storeArgs_step {t : Target} {arglist : List UInt8} {argend p n k : Nat} {v : List Slot}
    (hp : p < argend) (hv : n < v.length) (hn : holds t.intMax (n + 1) = true)
    (hk : strlen (arglist.drop p) = some k) :
    storeArgs t arglist argend v p n =
      storeArgs t arglist argend (v.set n (.ptr p)) (p + k + 1) (n + 1) := by
  rw [storeArgs, if_pos hp, store_ok _ hv]
  simp only [if_pos hn, hk]

/-! ## Buffers that start with an encoding -/

/-- What is left of the buffer after one string. -/
theorem drop_next {arglist tail : List UInt8} {s : CStr UInt8} {strings : List (CStr UInt8)}
    {p : Nat} (h : arglist.drop p = encode (s :: strings) ++ tail) :
    arglist.drop (p + s.chars.length + 1) = encode strings ++ tail := by
  rw [Nat.add_assoc, ← List.drop_drop, h]
  simp [List.drop_append]

theorem strlen_next {arglist tail : List UInt8} {s : CStr UInt8} {strings : List (CStr UInt8)}
    {p : Nat} (h : arglist.drop p = encode (s :: strings) ++ tail) :
    strlen (arglist.drop p) = some s.chars.length := by
  rw [h, encode_cons, List.append_assoc, List.cons_append]
  exact strlen_terminated s _

/-- The first pass counts the strings and stops on `argend`, or wraps `n`. -/
theorem countArgs_encode (t : Target) (arglist tail : List UInt8) :
    ∀ (strings : List (CStr UInt8)) (p n : Nat),
      arglist.drop p = encode strings ++ tail → holds t.intMax n = true →
      countArgs t arglist (p + (encode strings).length) p n =
        if holds t.intMax (n + strings.length) then
          .ok ⟨p + (encode strings).length, n + strings.length⟩
        else .error .wrap := by
  intro strings
  induction strings with
  | nil =>
    intro p n _ hn
    rw [countArgs_done t arglist n (by simp)]
    simp [hn]
  | cons s strings ih =>
    intro p n hdrop _
    have hlen : p + (encode (s :: strings)).length =
        p + s.chars.length + 1 + (encode strings).length := by
      simp only [encode_cons, List.length_append, List.length_cons]
      omega
    have hcount : n + (s :: strings).length = n + 1 + strings.length := by
      simp only [List.length_cons]
      omega
    rw [hlen, hcount]
    cases hn : holds t.intMax (n + 1) with
    | true =>
      rw [countArgs_step (by omega) hn (strlen_next hdrop)]
      exact ih _ _ (drop_next hdrop) hn
    | false =>
      rw [countArgs_wrap (by omega) hn]
      have hwrap : holds t.intMax (n + 1 + strings.length) ≠ true := fun h => by
        have := holds_mono h (show n + 1 ≤ n + 1 + strings.length by omega)
        simp [hn] at this
      rw [if_neg hwrap]

/-- Addresses of the strings of an encoding that starts at `p`. -/
def starts : Nat → List (CStr UInt8) → List Nat
  | _, [] => []
  | p, s :: strings => p :: starts (p + s.chars.length + 1) strings

@[simp] theorem length_starts (p : Nat) (strings : List (CStr UInt8)) :
    (starts p strings).length = strings.length := by
  induction strings generalizing p with
  | nil => rfl
  | cons s strings ih => simp [starts, ih]

/-- At each address stands its string. -/
theorem map_cstr_starts (arglist tail : List UInt8) :
    ∀ (strings : List (CStr UInt8)) (p : Nat), arglist.drop p = encode strings ++ tail →
      (starts p strings).map (fun offset => cstr (arglist.drop offset)) = strings := by
  intro strings
  induction strings with
  | nil => intro p _; rfl
  | cons s strings ih =>
    intro p hdrop
    have hhead : cstr (arglist.drop p) = s := by
      rw [hdrop, encode_cons, List.append_assoc, List.cons_append]
      exact cstr_terminated s _
    simp only [starts, List.map_cons, hhead, ih _ (drop_next hdrop)]

/-- Every address lies inside the encoding. -/
theorem starts_lt {strings : List (CStr UInt8)} {p offset : Nat}
    (h : offset ∈ starts p strings) : offset < p + (encode strings).length := by
  induction strings generalizing p with
  | nil => simp [starts] at h
  | cons s strings ih =>
    simp only [encode_cons, List.length_append, List.length_cons]
    rcases List.mem_cons.mp h with rfl | h
    · omega
    · have := ih h
      omega

/-- The second pass: the slots from `n` on get the addresses in order, every
store inside the array, and the cursor stops on `argend`. -/
theorem storeArgs_encode (t : Target) (arglist tail : List UInt8) :
    ∀ (strings : List (CStr UInt8)) (p : Nat) (done rest : List Slot),
      arglist.drop p = encode strings ++ tail →
      holds t.intMax (done.length + strings.length) = true → strings.length ≤ rest.length →
      storeArgs t arglist (p + (encode strings).length) (done ++ rest) p done.length =
        .ok (done ++ (starts p strings).map .ptr ++ rest.drop strings.length,
          ⟨p + (encode strings).length, done.length + strings.length⟩) := by
  intro strings
  induction strings with
  | nil =>
    intro p done rest _ _ _
    rw [storeArgs_done _ _ _ _ (by simp)]
    simp [starts]
  | cons s strings ih =>
    intro p done rest hdrop hn hrest
    obtain ⟨slot, rest, rfl⟩ : ∃ slot rest', rest = slot :: rest' :=
      List.exists_cons_of_ne_nil (by rintro rfl; simp at hrest)
    have hlen : p + (encode (s :: strings)).length =
        p + s.chars.length + 1 + (encode strings).length := by
      simp only [encode_cons, List.length_append, List.length_cons]
      omega
    have hn' : holds t.intMax ((done ++ [Slot.ptr p]).length + strings.length) = true := by
      refine holds_mono hn (le_of_eq ?_)
      simp only [List.length_append, List.length_cons, List.length_nil]
      omega
    have hnext := ih (p + s.chars.length + 1) (done ++ [.ptr p]) rest (drop_next hdrop) hn'
      (by simpa using hrest)
    have hset : (done ++ slot :: rest).set done.length (.ptr p) = (done ++ [.ptr p]) ++ rest := by
      simp
    rw [hlen, storeArgs_step (by omega) (by simp) (holds_mono hn (by simp)) (strlen_next hdrop),
      hset]
    rw [List.length_append, List.length_singleton] at hnext
    rw [hnext]
    simp only [starts, List.map_cons, List.append_assoc, List.cons_append, List.drop_succ_cons,
      List.length_cons]
    congr 3
    omega

/-! ## Buffers that end in an unterminated rest -/

/-- With an unterminated rest before `argend` the first pass does not stop on
`argend`: `strlen` runs on into whatever follows. -/
theorem countArgs_overrun (t : Target) (arglist tail : List UInt8) {rest : CStr UInt8}
    (hrest : rest.chars ≠ []) :
    ∀ (strings : List (CStr UInt8)) (p n : Nat) (scan : Scan),
      arglist.drop p = encode strings ++ (rest.chars ++ tail) →
      countArgs t arglist (p + (encode strings).length + rest.chars.length) p n = .ok scan →
      p + (encode strings).length + rest.chars.length < scan.p := by
  have hpos : 0 < rest.chars.length := List.length_pos_of_ne_nil hrest
  intro strings
  induction strings with
  | nil =>
    intro p n scan hdrop hcount
    simp only [encode_nil, List.length_nil, List.nil_append, Nat.add_zero] at hdrop hcount ⊢
    rw [countArgs, if_pos (by omega)] at hcount
    split at hcount
    · split at hcount
      · cases hcount
      · rename_i k hk
        rw [hdrop] at hk
        have hle := length_le_strlen hk
        rw [countArgs_done _ _ _ (by omega)] at hcount
        obtain rfl := Except.ok.inj hcount
        show p + rest.chars.length < p + k + 1
        omega
    · cases hcount
  | cons s strings ih =>
    intro p n scan hdrop hcount
    have hlen : p + (encode (s :: strings)).length + rest.chars.length =
        p + s.chars.length + 1 + (encode strings).length + rest.chars.length := by
      simp only [encode_cons, List.length_append, List.length_cons]
      omega
    rw [hlen] at hcount ⊢
    cases hn : holds t.intMax (n + 1) with
    | true =>
      rw [countArgs_step (by omega) hn (strlen_next hdrop)] at hcount
      exact ih _ _ _ (drop_next hdrop) hcount
    | false =>
      rw [countArgs_wrap (by omega) hn] at hcount
      cases hcount

end CmakeXenomai.Bootstrap
