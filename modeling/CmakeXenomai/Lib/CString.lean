import Mathlib.Data.List.TakeWhile
import Mathlib.Tactic

/-!
# Zero-terminated strings in a block of memory

Over any element type with a zero. `strlen` walks a block from its start and
answers `none` when it runs off the end; `encode` lays strings out one after
the other, each with its terminator; `fields` cuts any contents at its zeros,
keeping an unterminated rest as the last field. The lemmas say where `strlen`
stops on an encoded block, which is all a scanner needs.
-/

namespace Lib.CString

variable {α : Type} [Zero α]

/-- A string that can be terminated: none of its elements is the terminator. -/
structure CStr (α : Type) [Zero α] where
  chars : List α
  nonzero : 0 ∉ chars

@[ext] theorem CStr.ext {s t : CStr α} (h : s.chars = t.chars) : s = t := by
  cases s
  cases t
  cases h
  rfl

/-- The empty string. -/
def CStr.empty : CStr α := ⟨[], by simp⟩

/-- Strings laid out one after the other, each with its terminator. -/
def encode (strings : List (CStr α)) : List α :=
  strings.flatMap fun s => s.chars ++ [0]

@[simp] theorem encode_nil : encode ([] : List (CStr α)) = [] := rfl

@[simp] theorem encode_cons (s : CStr α) (strings : List (CStr α)) :
    encode (s :: strings) = s.chars ++ 0 :: encode strings := by
  simp [encode]

/-- A nonempty encoding ends in a terminator. -/
theorem encode_eq_nil_or_getLast (strings : List (CStr α)) :
    encode strings = [] ∨ (encode strings).getLast? = some 0 := by
  rcases List.eq_nil_or_concat strings with rfl | ⟨strings, s, rfl⟩
  · exact .inl rfl
  · right
    simp [encode]

variable [DecidableEq α]

instance : DecidableEq (CStr α) := fun s t =>
  decidable_of_iff (s.chars = t.chars) ⟨CStr.ext, fun h => h ▸ rfl⟩

/-- Steps from the start of the block to its first terminator. -/
def strlen : List α → Option Nat
  | [] => none
  | c :: block => if c = 0 then some 0 else (strlen block).map (· + 1)

/-- The string a block starts with. -/
def cstr (block : List α) : CStr α where
  chars := block.takeWhile (· ≠ 0)
  nonzero := by
    intro h
    simpa using List.mem_takeWhile_imp h

theorem strlen_terminated (s : CStr α) (rest : List α) :
    strlen (s.chars ++ 0 :: rest) = some s.chars.length := by
  obtain ⟨chars, nonzero⟩ := s
  induction chars with
  | nil => simp [strlen]
  | cons c chars ih =>
    have hc : c ≠ 0 := fun h => nonzero (by simp [h])
    have hchars : 0 ∉ chars := fun h => nonzero (List.mem_cons_of_mem _ h)
    simp only [List.cons_append, strlen, if_neg hc, ih hchars, Option.map_some, List.length_cons]

theorem cstr_terminated (s : CStr α) (rest : List α) : cstr (s.chars ++ 0 :: rest) = s := by
  apply CStr.ext
  show (s.chars ++ 0 :: rest).takeWhile _ = s.chars
  rw [List.takeWhile_append_of_pos]
  · simp
  · intro c hc
    simpa using fun h : c = 0 => s.nonzero (h ▸ hc)

/-- Over a prefix without terminator the walk goes on behind it. -/
theorem length_le_strlen {s : CStr α} {rest : List α} {k : Nat}
    (h : strlen (s.chars ++ rest) = some k) : s.chars.length ≤ k := by
  obtain ⟨chars, nonzero⟩ := s
  induction chars generalizing k with
  | nil => simp
  | cons c chars ih =>
    have hc : c ≠ 0 := fun h => nonzero (by simp [h])
    simp only [List.cons_append, strlen, if_neg hc, Option.map_eq_some_iff] at h
    obtain ⟨j, hj, rfl⟩ := h
    have := ih (fun h => nonzero (List.mem_cons_of_mem _ h)) hj
    simp only [List.length_cons] at this ⊢
    omega

/-! ## Cutting arbitrary contents -/

/-- Any contents is a list of terminated strings and an unterminated rest. -/
theorem exists_encode_append (contents : List α) :
    ∃ (strings : List (CStr α)) (rest : CStr α), contents = encode strings ++ rest.chars := by
  induction contents with
  | nil => exact ⟨[], .empty, rfl⟩
  | cons c contents ih =>
    obtain ⟨strings, rest, rfl⟩ := ih
    by_cases hc : c = 0
    · exact ⟨.empty :: strings, rest, by simp [hc, CStr.empty]⟩
    · cases strings with
      | nil => exact ⟨[], ⟨c :: rest.chars, by simp [rest.nonzero, Ne.symm hc]⟩, by simp⟩
      | cons s strings =>
        exact ⟨⟨c :: s.chars, by simp [s.nonzero, Ne.symm hc]⟩ :: strings, rest, by simp⟩

/-- Contents cut at its terminators; a nonempty unterminated rest is the last
field. -/
def fields : List α → List (CStr α)
  | [] => []
  | c :: contents =>
    if h : c = 0 then .empty :: fields contents
    else
      match fields contents with
      | [] => [⟨[c], by simpa using Ne.symm h⟩]
      | f :: fs => ⟨c :: f.chars, by simp [f.nonzero, Ne.symm h]⟩ :: fs

/-- Every field takes an element at least. -/
theorem length_fields_le (contents : List α) : (fields contents).length ≤ contents.length := by
  induction contents with
  | nil => simp [fields]
  | cons c contents ih =>
    unfold fields
    split
    · simpa using ih
    · split
      · simp
      · rename_i f fs hfields
        rw [hfields] at ih
        simp only [List.length_cons] at ih ⊢
        omega

theorem fields_encode (strings : List (CStr α)) : fields (encode strings) = strings := by
  induction strings with
  | nil => rfl
  | cons s strings ih =>
    obtain ⟨chars, nonzero⟩ := s
    rw [encode_cons]
    induction chars with
    | nil => simp [fields, ih, CStr.empty]
    | cons c chars ihc =>
      have hc : c ≠ 0 := fun h => nonzero (by simp [h])
      have hchars : 0 ∉ chars := fun h => nonzero (List.mem_cons_of_mem _ h)
      simp only [List.cons_append, fields, dif_neg hc]
      rw [ihc hchars]

/-- Contents is empty or terminated iff it is an encoding. -/
theorem terminated_iff_encode (contents : List α) :
    (contents = [] ∨ contents.getLast? = some 0) ↔ ∃ strings, contents = encode strings := by
  constructor
  · intro h
    obtain ⟨strings, rest, rfl⟩ := exists_encode_append contents
    cases hrest : rest.chars using List.reverseRecOn with
    | nil => exact ⟨strings, by simp⟩
    | append_singleton chars c =>
      -- an unterminated rest ends in its own last element, which is no terminator
      have hc : c ≠ 0 := fun h => rest.nonzero (by simp [hrest, h])
      rw [hrest] at h
      simp [← List.append_assoc, hc] at h
  · intro h
    obtain ⟨strings, rfl⟩ := h
    exact encode_eq_nil_or_getLast strings

end Lib.CString
