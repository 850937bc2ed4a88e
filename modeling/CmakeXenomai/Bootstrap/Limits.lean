import CmakeXenomai.Bootstrap.Cmdline

/-!
# How long a command line may be

`len`, `n` and the size of the pointer array grow at different rates, and which
of them leaves its type first depends on the target: where everything has 32
bits it is the array's size, four times the count, where only `int` has it is
the count. `SharpLimit` says what a limit on the size of the file means;
`fetchargv_limits` gives it for both kinds of target.

The worst contents are NULs only (`fetchargv_nuls_wrap`): every byte is an
argument of its own.
-/

namespace CmakeXenomai.Bootstrap

open Lib Lib.Loop Lib.CString

/-! ## Limits -/

/-- Every terminated file of at most `limit` bytes is fetched without an
integer computation that wraps, in one round more than the least number of
doublings that leaves room for it; with one byte more there is a file where
one wraps. -/
structure SharpLimit (t : Target) (limit : Nat) : Prop where
  returns : ∀ contents : List UInt8, contents = [] ∨ contents.getLast? = some 0 →
    contents.length ≤ limit → ∀ fresh argcp argvp, ∃ k r,
      IsLeast (roomAfter contents.length) k ∧
        ∀ fuel, fetchargv t (.serving contents fresh) fuel argcp argvp =
          if k < fuel then some (.ok r) else none
  wraps : ∃ contents : List UInt8, contents.getLast? = some 0 ∧ contents.length = limit + 1 ∧
    ∀ fresh argcp argvp, ∃ fuel,
      fetchargv t (.serving contents fresh) fuel argcp argvp = some (.error .wrap)

/-- What fits is fetched. -/
theorem fetchargv_of_fits {t : Target} {contents : List UInt8}
    (hend : contents = [] ∨ contents.getLast? = some 0) (hfit : t.Fits contents.length)
    (fresh : Nat → Nat → UInt8) (argcp : Int) (argvp : Argv) :
    ∃ k r, IsLeast (roomAfter contents.length) k ∧
      ∀ fuel, fetchargv t (.serving contents fresh) fuel argcp argvp =
        if k < fuel then some (.ok r) else none := by
  obtain ⟨strings, rfl⟩ := (terminated_iff_encode contents).mp hend
  obtain ⟨hdoubles, hint, hsize⟩ := Target.Fits.computes hfit
  rw [fields_encode] at hint hsize
  obtain ⟨k, hk⟩ := exists_least_roomAfter (encode strings).length
  obtain ⟨tail, trace, hrun⟩ := fetchargv_rounds fresh hk hdoubles argcp argvp
  refine ⟨k, fetched k strings tail trace, hk, fun fuel => ?_⟩
  rw [hrun fuel, buildVector_encode, hint, hsize]
  rfl

/-- `size` empty arguments. -/
def nuls (size : Nat) : ArgVec := .replicate size .empty

theorem length_encode_nuls (size : Nat) : (encode (nuls size)).length = size := by
  induction size with
  | zero => rfl
  | succ size ih =>
    have hcons : nuls (size + 1) = .empty :: nuls size := rfl
    rw [hcons, encode_cons, List.length_append, List.length_cons, ih, Nat.add_comm]
    rfl

/-- A file of NULs, read without a wrap, where the count or the array's size
leaves its type. -/
theorem fetchargv_nuls_wrap {t : Target} {size : Nat}
    (hlen : holds t.ssizeMax (2 * size) = true)
    (hwrap : (holds t.intMax (size + 1) && holds t.sizeMax ((size + 1) * t.sizeofPtr)) = false)
    (fresh : Nat → Nat → UInt8) (argcp : Int) (argvp : Argv) :
    ∃ fuel, fetchargv t (.serving (encode (nuls size)) fresh) fuel argcp argvp =
      some (.error .wrap) := by
  rw [← length_encode_nuls size] at hlen
  obtain ⟨k, hk⟩ := exists_least_roomAfter (encode (nuls size)).length
  obtain ⟨tail, trace, hrun⟩ := fetchargv_rounds fresh hk (Target.doubles_of_holds hlen) argcp argvp
  refine ⟨k + 1, ?_⟩
  have hcount : (nuls size).length = size := List.length_replicate
  rw [hrun, if_pos (Nat.lt_succ_self k), buildVector_encode, hcount, hwrap]
  rfl

/-- The limit of a target: everything fits up to it, and behind it the count or
the array's size leaves its type before `len` does. -/
theorem sharpLimit_of_fits {t : Target} {limit : Nat} (hfits : ∀ size ≤ limit, t.Fits size)
    (hlen : holds t.ssizeMax (2 * (limit + 1)) = true)
    (hwrap : (holds t.intMax (limit + 1 + 1) &&
      holds t.sizeMax ((limit + 1 + 1) * t.sizeofPtr)) = false) : SharpLimit t limit := by
  refine ⟨?_, ?_⟩
  · intro contents hend hle
    exact fetchargv_of_fits hend (hfits _ hle)
  · have hlength := length_encode_nuls (limit + 1)
    have hend := encode_eq_nil_or_getLast (nuls (limit + 1))
    refine ⟨encode (nuls (limit + 1)), hend.resolve_left ?_, hlength, ?_⟩
    · intro hnil
      rw [hnil] at hlength
      cases hlength
    · exact fetchargv_nuls_wrap hlen hwrap

/-- **The limits of both kinds of target**: with 32 bits for everything the
array's size wraps first, with 64 bits for all but `int` the count. -/
theorem fetchargv_limits :
    SharpLimit .ilp32 (2 ^ 30 - 2) ∧ SharpLimit .lp64 (2 ^ 31 - 2) := by
  constructor
  · -- (n + 1) * sizeof(char *) reaches 2^32 for one byte more
    refine sharpLimit_of_fits (fun size hsize => ?_) (by decide) (by decide)
    refine ⟨holds_some.mpr ?_, holds_some.mpr ?_, holds_some.mpr ?_⟩
    · omega
    · omega
    · show (size + 1) * 4 ≤ 2 ^ 32 - 1
      omega
  · -- n is an int there too, and reaches 2^31
    refine sharpLimit_of_fits (fun size hsize => ?_) (by decide) (by decide)
    refine ⟨holds_some.mpr ?_, holds_some.mpr ?_, holds_some.mpr ?_⟩
    · omega
    · omega
    · show (size + 1) * 8 ≤ 2 ^ 64 - 1
      omega

end CmakeXenomai.Bootstrap
