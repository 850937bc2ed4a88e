import Mathlib.Data.UInt
import CmakeXenomai.Lib.Loop
import CmakeXenomai.Lib.Ledger
import CmakeXenomai.Lib.CString

/-!
# `_xenomai_init_fetchargv`

The function of `bootstrap-template.h` that rebuilds the argument vector from
`/proc/self/cmdline` where the C library does not hand it to constructors. A
re-read loop doubles the buffer until `read` leaves room in it; a first pass
counts the strings in the buffer, a second one stores their addresses.

The environment (`Env`) decides what `open`, `malloc` and `read` answer, round
by round, and what a fresh block holds. What C leaves undefined is a `Fault`
here: an integer computation that leaves its type, a load or store outside a
block. Every `open`, `close`, `malloc` and `free` is logged in a ledger.
-/

namespace CmakeXenomai.Bootstrap

open Lib Lib.Loop Lib.Ledger Lib.CString

/-- An argument vector, without the terminating `NULL`. Its `argc` is the
length. -/
abbrev ArgVec := List (CStr UInt8)

/-! ## The target's integers -/

/-- The largest values of the C types of a build; `none` where nothing is
assumed to be out of reach. -/
structure Target where
  ssizeMax : Option Nat
  intMax : Option Nat
  sizeMax : Option Nat
  sizeofPtr : Nat
deriving DecidableEq, Repr

namespace Target

/-- Exact integers. -/
def unbounded : Target := ⟨none, none, none, 8⟩

/-- 64-bit `ssize_t`, `size_t` and pointers, 32-bit `int`. -/
def lp64 : Target := ⟨some (2 ^ 63 - 1), some (2 ^ 31 - 1), some (2 ^ 64 - 1), 8⟩

/-- 32-bit `ssize_t`, `size_t`, pointers and `int`. -/
def ilp32 : Target := ⟨some (2 ^ 31 - 1), some (2 ^ 31 - 1), some (2 ^ 32 - 1), 4⟩

end Target

/-- `x` is a value of the type whose largest value is `max`. -/
def holds (max : Option Nat) (x : Nat) : Bool :=
  max.all fun m => x ≤ m

@[simp] theorem holds_none (x : Nat) : holds none x = true := rfl

theorem holds_some {m x : Nat} : holds (some m) x = true ↔ x ≤ m := by
  simp [holds]

@[simp] theorem holds_zero (max : Option Nat) : holds max 0 = true := by
  cases max <;> simp [holds]

theorem holds_mono {max : Option Nat} {x y : Nat} (h : holds max x = true) (hle : y ≤ x) :
    holds max y = true := by
  cases max with
  | none => rfl
  | some m =>
    simp only [holds, Option.all_some, decide_eq_true_eq] at h ⊢
    omega

/-- A command line of `size` bytes is far enough below the target's limits for
no computation of the function to wrap. -/
def Target.Fits (t : Target) (size : Nat) : Prop :=
  holds t.ssizeMax (2 * size) = true ∧ holds t.intMax (size + 1) = true ∧
    holds t.sizeMax ((size + 1) * t.sizeofPtr) = true

instance (t : Target) (size : Nat) : Decidable (t.Fits size) :=
  inferInstanceAs (Decidable (_ ∧ _ ∧ _))

theorem Target.unbounded_fits (size : Nat) : Target.unbounded.Fits size :=
  ⟨rfl, rfl, rfl⟩

inductive Fault where
  | wrap
  | outOfBounds
deriving DecidableEq, Repr

/-! ## The environment -/

/-- Answers of the environment in one turn of the re-read loop. -/
structure Round where
  /-- `open` gives a descriptor. -/
  opens : Bool
  /-- What the block from `malloc` holds; `none` for `NULL`. -/
  fresh : Option (Nat → UInt8)
  /-- The bytes `read` stores when asked for `len`; `none` for an error. -/
  read : Nat → Option (List UInt8)
  read_le : ∀ len bytes, read len = some bytes → bytes.length ≤ len

/-- A turn whose `read` fails, if it gets there. -/
def Round.failing (opens : Bool) (fresh : Option (Nat → UInt8)) : Round :=
  ⟨opens, fresh, fun _ => none, nofun⟩

structure Env where
  round : Nat → Round
  /-- The `malloc` of the pointer array succeeds. -/
  vectorOk : Bool

/-- `/proc/self/cmdline` holds `contents` and every call succeeds; `fresh` is
what the buffer of each round holds beforehand. -/
def Env.serving (contents : List UInt8) (fresh : Nat → Nat → UInt8) : Env where
  round k :=
    { opens := true
      fresh := some (fresh k)
      read := fun len => some (contents.take len)
      read_le := by
        intro len bytes h
        obtain rfl := Option.some.inj h
        exact List.length_take_le .. }
  vectorOk := true

/-- What the function acquires: the descriptor and the buffer of each round,
and the pointer array. -/
inductive Resource where
  | fd (round : Nat)
  | arglist (round : Nat)
  | argv
deriving DecidableEq, Repr

abbrev Trace := List (Entry Resource)

/-! ## The re-read loop -/

/-- The buffer after `read`: the bytes read, then what `malloc` left there. -/
def buffer (fresh : Nat → UInt8) (bytes : List UInt8) (len : Nat) : List UInt8 :=
  bytes ++ (List.range' bytes.length (len - bytes.length)).map fresh

structure Reread where
  round : Nat
  len : Nat
  trace : Trace

inductive ReadEnd where
  /-- `return -1` -/
  | failed (trace : Trace)
  /-- `break`, with `arglist` holding `ret` bytes of the file -/
  | filled (round : Nat) (arglist : List UInt8) (ret : Nat) (trace : Trace)

/-- One turn of `for (;;)`. -/
def readRound (t : Target) (env : Env) (s : Reread) : Turn Reread (Except Fault ReadEnd) :=
  let r := env.round s.round
  if r.opens then
    match r.fresh with
    | none =>
      .leave (.ok (.failed (s.trace ++ [.acquire (.fd s.round), .release (.fd s.round)])))
    | some fresh =>
      let trace := s.trace ++
        [.acquire (.fd s.round), .acquire (.arglist s.round), .release (.fd s.round)]
      match r.read s.len with
      | none => .leave (.ok (.failed (trace ++ [.release (.arglist s.round)])))
      | some bytes =>
        if bytes.length < s.len then
          .leave (.ok (.filled s.round (buffer fresh bytes s.len) bytes.length trace))
        else if holds t.ssizeMax (2 * s.len) then
          -- free(arglist); len <<= 1
          .again ⟨s.round + 1, 2 * s.len, trace ++ [.release (.arglist s.round)]⟩
        else .leave (.error .wrap)
  else .leave (.ok (.failed s.trace))

/-- `len = 1024`, nothing acquired yet. -/
def Reread.start : Reread := ⟨0, 1024, []⟩

/-! ## The two passes -/

/-- Where a pass stands: the cursor `p`, as an offset into the buffer, and the
counter `n`. `strlen` looks at the bytes from the old cursor to the terminator
and the cursor moves behind it, so the bytes before `p` are exactly those the
pass has examined. -/
structure Scan where
  p : Nat
  n : Nat
deriving DecidableEq, Repr

/-- First pass: `while (p < argend) { n++; p += strlen(p) + 1; }`. -/
def countArgs (t : Target) (arglist : List UInt8) (argend p n : Nat) : Except Fault Scan :=
  if p < argend then
    if holds t.intMax (n + 1) then
      match strlen (arglist.drop p) with
      | none => .error .outOfBounds
      | some k => countArgs t arglist argend (p + k + 1) (n + 1)
    else .error .wrap
  else .ok ⟨p, n⟩
termination_by argend - p

inductive Slot where
  | uninit
  | null
  | ptr (offset : Nat)
deriving DecidableEq, Repr

/-- `v[n] = slot`. -/
def store (v : List Slot) (n : Nat) (slot : Slot) : Except Fault (List Slot) :=
  if n < v.length then .ok (v.set n slot) else .error .outOfBounds

/-- Second pass: `while (p < argend) { v[n++] = p; p += strlen(p) + 1; }`. -/
def storeArgs (t : Target) (arglist : List UInt8) (argend : Nat) (v : List Slot) (p n : Nat) :
    Except Fault (List Slot × Scan) :=
  if p < argend then
    match store v n (.ptr p) with
    | .error fault => .error fault
    | .ok v' =>
      if holds t.intMax (n + 1) then
        match strlen (arglist.drop p) with
        | none => .error .outOfBounds
        | some k => storeArgs t arglist argend v' (p + k + 1) (n + 1)
      else .error .wrap
  else .ok (v, ⟨p, n⟩)
termination_by argend - p

/-! ## The function -/

/-- A pointer array together with the buffer its entries point into. -/
structure Argv where
  slots : List Slot
  block : Resource
  arglist : List UInt8
deriving DecidableEq, Repr

/-- The string an entry points to. -/
def Argv.deref (v : Argv) : Slot → Option (CStr UInt8)
  | .ptr offset => some (cstr (v.arglist.drop offset))
  | _ => none

/-- The string `v[i]` points to. -/
def Argv.string? (v : Argv) (i : Nat) : Option (CStr UInt8) :=
  v.slots[i]?.bind v.deref

/-- The first `argc` entries, as an argument vector. -/
def Argv.vector (v : Argv) (argc : Nat) : ArgVec :=
  (v.slots.take argc).filterMap v.deref

/-- What the caller sees, and the ledger; `scans` is where the passes over the
buffer ended. -/
structure Result where
  ret : Int
  argcp : Int
  argvp : Argv
  trace : Trace
  scans : List Scan

/-- From `argend = arglist + ret` to the end, with the loop left by `break`. -/
def buildVector (t : Target) (env : Env) (argcp : Int) (argvp : Argv)
    (round : Nat) (arglist : List UInt8) (argend : Nat) (trace : Trace) :
    Except Fault Result :=
  match countArgs t arglist argend 0 0 with
  | .error fault => .error fault
  | .ok counted =>
    if holds t.intMax (counted.n + 1) && holds t.sizeMax ((counted.n + 1) * t.sizeofPtr) then
      if env.vectorOk then
        match storeArgs t arglist argend (.replicate (counted.n + 1) .uninit) 0 0 with
        | .error fault => .error fault
        | .ok (v, stored) =>
          match store v stored.n .null with
          | .error fault => .error fault
          | .ok v' =>
            .ok { ret := 0
                  argcp := stored.n
                  argvp := ⟨v', .arglist round, arglist⟩
                  trace := trace ++ [.acquire .argv]
                  scans := [counted, stored] }
      else
        .ok { ret := -1
              argcp := argcp
              argvp := argvp
              trace := trace ++ [.release (.arglist round)]
              scans := [counted] }
    else .error .wrap

/-- What follows the loop, however it was left. -/
def afterRead (t : Target) (env : Env) (argcp : Int) (argvp : Argv) :
    ReadEnd → Except Fault Result
  | .failed trace => .ok ⟨-1, argcp, argvp, trace, []⟩
  | .filled round arglist ret trace =>
    buildVector t env argcp argvp round arglist ret trace

/-- `_xenomai_init_fetchargv(argcp, argvp)` within `fuel` rounds of reading;
`argcp` and `argvp` are what the caller's variables hold beforehand. -/
def fetchargv (t : Target) (env : Env) (fuel : Nat) (argcp : Int) (argvp : Argv) :
    Option (Except Fault Result) :=
  match Loop.run (readRound t env) fuel .start with
  | none => none
  | some (.error fault) => some (.error fault)
  | some (.ok readEnd) => some (afterRead t env argcp argvp readEnd)

/-- The call returns `r`. -/
def Fetches (t : Target) (env : Env) (argcp : Int) (argvp : Argv) (r : Result) : Prop :=
  ∃ fuel, fetchargv t env fuel argcp argvp = some (.ok r)

theorem fetches_iff {t : Target} {env : Env} {argcp : Int} {argvp : Argv} {r : Result} :
    Fetches t env argcp argvp r ↔
      ∃ readEnd, Returns (readRound t env) .start (.ok readEnd) ∧
        afterRead t env argcp argvp readEnd = .ok r := by
  constructor
  · intro h
    obtain ⟨fuel, h⟩ := h
    unfold fetchargv at h
    split at h
    · cases h
    · cases h
    · rename_i readEnd hrun
      exact ⟨readEnd, ⟨fuel, hrun⟩, Option.some.inj h⟩
  · intro h
    obtain ⟨readEnd, ⟨fuel, hrun⟩, hafter⟩ := h
    exact ⟨fuel, by unfold fetchargv; rw [hrun]; simp only [hafter]⟩

/-- The environment determines what the call returns. -/
theorem Fetches.unique {t : Target} {env : Env} {argcp : Int} {argvp : Argv} {r r' : Result}
    (h : Fetches t env argcp argvp r) (h' : Fetches t env argcp argvp r') : r = r' := by
  obtain ⟨e, he, hr⟩ := fetches_iff.mp h
  obtain ⟨e', he', hr'⟩ := fetches_iff.mp h'
  obtain rfl : e = e' := by simpa using he.unique he'
  simpa using hr.symm.trans hr'

end CmakeXenomai.Bootstrap
