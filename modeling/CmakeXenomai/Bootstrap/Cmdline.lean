import Mathlib.Order.Bounds.Basic
import CmakeXenomai.Bootstrap.Scan

/-!
# From `/proc/self/cmdline` to an argument vector

What `_xenomai_init_fetchargv` returns when every call of the environment
succeeds and the file holds `contents`.

* The re-read loop ends with all of `contents` in a buffer that has room left
  (`readLoop_rounds`), unless a doubled length leaves its type
  (`readLoop_wraps`): the `k`-th round has a buffer of `1024 * 2 ^ k` bytes.
* On an encoded list of strings the rest of the function is an equation
  (`buildVector_encode`), and the vector it builds denotes the list.
* Contents without a final terminator take the first pass past the bytes read.
-/

namespace CmakeXenomai.Bootstrap

open Lib Lib.Loop Lib.CString

/-! ## The rounds of the re-read loop -/

/-- What the first `k` rounds acquired and released. -/
def rereadTrace : Nat → Trace
  | 0 => []
  | k + 1 => rereadTrace k ++
      [.acquire (.fd k), .acquire (.arglist k), .release (.fd k)] ++ [.release (.arglist k)]

/-- The `k`-th state of the loop. -/
def reread (k : Nat) : Reread := ⟨k, 1024 * 2 ^ k, rereadTrace k⟩

/-- Doublings after which `size` bytes leave room in the buffer. -/
def roomAfter (size : Nat) : Set Nat := {k | size < 1024 * 2 ^ k}

theorem exists_least_roomAfter (size : Nat) : ∃ k, IsLeast (roomAfter size) k := by
  have hex : ∃ k, size < 1024 * 2 ^ k := by
    have hlt : size < 2 ^ size := Nat.lt_two_pow_self
    exact ⟨size, by omega⟩
  exact ⟨Nat.find hex, Nat.find_spec hex, fun k hk => Nat.find_min' hex hk⟩

theorem buffer_eq_append (fresh : Nat → UInt8) (bytes : List UInt8) (len : Nat) :
    ∃ tail, buffer fresh bytes len = bytes ++ tail :=
  ⟨_, rfl⟩

/-- A buffer with room left ends the loop. -/
theorem readRound_filled (t : Target) (contents : List UInt8) (fresh : Nat → Nat → UInt8)
    (s : Reread) (h : contents.length < s.len) :
    readRound t (.serving contents fresh) s =
      .leave (.ok (.filled s.round (buffer (fresh s.round) contents s.len) contents.length
        (s.trace ++ [.acquire (.fd s.round), .acquire (.arglist s.round),
          .release (.fd s.round)]))) := by
  simp only [readRound, Env.serving, if_true, List.take_of_length_le (Nat.le_of_lt h), if_pos h]

/-- A full one is doubled, unless its length wraps. -/
theorem readRound_full {t : Target} {env : Env} {s : Reread} {fresh : Nat → UInt8}
    {bytes : List UInt8} (hopen : (env.round s.round).opens = true)
    (hfresh : (env.round s.round).fresh = some fresh)
    (hread : (env.round s.round).read s.len = some bytes) (hlen : bytes.length = s.len) :
    readRound t env s =
      if holds t.ssizeMax (2 * s.len) then
        .again ⟨s.round + 1, 2 * s.len,
          s.trace ++ [.acquire (.fd s.round), .acquire (.arglist s.round),
            .release (.fd s.round)] ++ [.release (.arglist s.round)]⟩
      else .leave (.error .wrap) := by
  simp only [readRound, if_pos hopen, hfresh, hread, hlen, lt_self_iff_false, if_false]

theorem readRound_reread (t : Target) {contents : List UInt8} (fresh : Nat → Nat → UInt8) {j : Nat}
    (hj : j ∉ roomAfter contents.length) :
    readRound t (.serving contents fresh) (reread j) =
      if holds t.ssizeMax (1024 * 2 ^ (j + 1)) then .again (reread (j + 1))
      else .leave (.error .wrap) := by
  have hlen : (contents.take (reread j).len).length = (reread j).len :=
    List.length_take_of_le (Nat.le_of_not_lt hj)
  have hdouble : 2 * (reread j).len = 1024 * 2 ^ (j + 1) := by
    show 2 * (1024 * 2 ^ j) = 1024 * 2 ^ (j + 1)
    ring
  rw [readRound_full rfl rfl rfl hlen, hdouble]
  rfl

/-- Every length the loop doubles to, with `size` bytes to read, is an
`ssize_t`. -/
def Target.Doubles (t : Target) (size : Nat) : Prop :=
  ∀ j, 1024 * 2 ^ j ≤ size → holds t.ssizeMax (1024 * 2 ^ (j + 1)) = true

theorem Target.doubles_of_holds {t : Target} {size : Nat}
    (h : holds t.ssizeMax (2 * size) = true) : t.Doubles size := by
  intro j hj
  refine holds_mono h ?_
  rw [pow_succ]
  omega

/-- The loop takes exactly `k` doublings, the least number that leaves room. -/
theorem readLoop_rounds {t : Target} {contents : List UInt8} (fresh : Nat → Nat → UInt8) {k : Nat}
    (hk : IsLeast (roomAfter contents.length) k) (hdoubles : t.Doubles contents.length) :
    ∃ tail trace, ∀ fuel, Loop.run (readRound t (.serving contents fresh)) fuel .start =
      if k < fuel then some (.ok (.filled k (contents ++ tail) contents.length trace))
      else none := by
  have hagain : ∀ j < k,
      readRound t (.serving contents fresh) (reread j) = .again (reread (j + 1)) := by
    intro j hj
    have hfull : j ∉ roomAfter contents.length := fun hmem => by
      have hle : k ≤ j := hk.2 hmem
      omega
    rw [readRound_reread t fresh hfull, if_pos (hdoubles j (Nat.le_of_not_lt hfull))]
  obtain ⟨tail, htail⟩ := buffer_eq_append (fresh k) contents (reread k).len
  have hleave := readRound_filled t contents fresh (reread k) hk.1
  have hbuffer : buffer (fresh (reread k).round) contents (reread k).len = contents ++ tail := htail
  rw [hbuffer] at hleave
  refine ⟨tail, (reread k).trace ++ [.acquire (.fd k), .acquire (.arglist k), .release (.fd k)],
    fun fuel => ?_⟩
  by_cases hfuel : k < fuel
  · rw [if_pos hfuel]
    exact run_mono (run_of_orbit reread hagain hleave) hfuel
  · rw [if_neg hfuel]
    exact run_none_of_orbit reread fun j hj => hagain j (by omega)

/-- A length that wraps ends the loop without a result. -/
theorem readLoop_wraps {t : Target} {contents : List UInt8} (fresh : Nat → Nat → UInt8)
    (h : ¬ t.Doubles contents.length) :
    Returns (readRound t (.serving contents fresh)) .start (.error .wrap) := by
  have hex : ∃ j, 1024 * 2 ^ j ≤ contents.length ∧
      holds t.ssizeMax (1024 * 2 ^ (j + 1)) = false := by
    unfold Target.Doubles at h
    push Not at h
    simpa using h
  -- the first length that wraps: up to there every round doubles
  obtain ⟨hle, hwrap⟩ := Nat.find_spec hex
  have hfull : ∀ j ≤ Nat.find hex, j ∉ roomAfter contents.length := by
    intro j hj hmem
    have hroom : contents.length < 1024 * 2 ^ j := hmem
    have hpow : 2 ^ j ≤ 2 ^ Nat.find hex := Nat.pow_le_pow_right (by omega) hj
    omega
  refine ⟨_, run_of_orbit reread (fun j (hj : j < Nat.find hex) => ?_) ?_⟩
  · have hmin := Nat.find_min hex hj
    have hholds : holds t.ssizeMax (1024 * 2 ^ (j + 1)) = true := by
      simpa [Nat.le_of_not_lt (hfull j hj.le)] using hmin
    rw [readRound_reread t fresh (hfull j hj.le), if_pos hholds]
  · rw [readRound_reread t fresh (hfull _ le_rfl), hwrap]
    rfl

/-- The call needs one round more than it doubles, and then returns what
`buildVector` makes of the contents. -/
theorem fetchargv_rounds {t : Target} {contents : List UInt8} (fresh : Nat → Nat → UInt8) {k : Nat}
    (hk : IsLeast (roomAfter contents.length) k) (hdoubles : t.Doubles contents.length)
    (argcp : Int) (argvp : Argv) :
    ∃ tail trace, ∀ fuel, fetchargv t (.serving contents fresh) fuel argcp argvp =
      if k < fuel then
        some (buildVector t (.serving contents fresh) argcp argvp k (contents ++ tail)
          contents.length trace)
      else none := by
  obtain ⟨tail, trace, hrun⟩ := readLoop_rounds fresh hk hdoubles
  refine ⟨tail, trace, fun fuel => ?_⟩
  unfold fetchargv
  rw [hrun fuel]
  by_cases hfuel : k < fuel
  · simp only [if_pos hfuel]
    rfl
  · simp only [if_neg hfuel]

/-- Once the file is read, the call returns what `buildVector` makes of it. -/
theorem fetches_serving {t : Target} {contents : List UInt8} (fresh : Nat → Nat → UInt8)
    (hdoubles : t.Doubles contents.length) (argcp : Int) (argvp : Argv) :
    ∃ round tail trace, ∀ r, Fetches t (.serving contents fresh) argcp argvp r ↔
      buildVector t (.serving contents fresh) argcp argvp round (contents ++ tail)
        contents.length trace = .ok r := by
  obtain ⟨k, hk⟩ := exists_least_roomAfter contents.length
  obtain ⟨tail, trace, hrun⟩ := fetchargv_rounds fresh hk hdoubles argcp argvp
  refine ⟨k, tail, trace, fun r => ⟨?_, fun h => ⟨k + 1, ?_⟩⟩⟩
  · intro h
    obtain ⟨fuel, h⟩ := h
    rw [hrun fuel] at h
    split at h
    · exact Option.some.inj h
    · cases h
  · rw [hrun, if_pos (Nat.lt_succ_self k), h]

/-- A call that returns has wrapped no length. -/
theorem Fetches.doubles {t : Target} {contents : List UInt8} {fresh : Nat → Nat → UInt8}
    {argcp : Int} {argvp : Argv} {r : Result}
    (h : Fetches t (.serving contents fresh) argcp argvp r) : t.Doubles contents.length := by
  by_contra hwraps
  obtain ⟨readEnd, hret, _⟩ := fetches_iff.mp h
  cases hret.unique (readLoop_wraps fresh hwraps)

/-! ## The vector of an encoded list -/

/-- The pointer array for `strings`, over a buffer that starts with their
encoding. -/
def argvOf (round : Nat) (strings : ArgVec) (tail : List UInt8) : Argv :=
  { slots := (starts 0 strings).map .ptr ++ [.null]
    block := .arglist round
    arglist := encode strings ++ tail }

theorem argvOf_string? (round : Nat) (strings : ArgVec) (tail : List UInt8) (i : Nat) :
    (argvOf round strings tail).string? i = strings[i]? := by
  have hmap := map_cstr_starts (encode strings ++ tail) tail strings 0 rfl
  have hget := congrArg (·[i]?) hmap
  simp only [List.getElem?_map] at hget
  rw [← hget]
  unfold Argv.string?
  show ((starts 0 strings).map Slot.ptr ++ [Slot.null])[i]?.bind _ = _
  rcases Nat.lt_trichotomy i (starts 0 strings).length with h | h | h
  · rw [List.getElem?_append_left (by simpa using h), List.getElem?_map]
    cases (starts 0 strings)[i]? <;> rfl
  · subst h
    simp [Argv.deref]
  · have hlen : strings.length < i := by simpa using h
    rw [List.getElem?_eq_none (by simp; omega), List.getElem?_eq_none (by simp; omega)]
    rfl

theorem argvOf_vector (round : Nat) (strings : ArgVec) (tail : List UInt8) :
    (argvOf round strings tail).vector strings.length = strings := by
  have hmap := map_cstr_starts (encode strings ++ tail) tail strings 0 rfl
  have htake : (argvOf round strings tail).slots.take strings.length =
      (starts 0 strings).map Slot.ptr := by
    show ((starts 0 strings).map Slot.ptr ++ [Slot.null]).take strings.length = _
    rw [List.take_append_of_le_length (by simp), List.take_of_length_le (by simp)]
  unfold Argv.vector
  rw [htake, List.filterMap_map]
  exact (List.filterMap_eq_map.trans rfl).symm ▸ hmap

/-- What the call returns for `strings`: both passes stop on `argend`. -/
def fetched (round : Nat) (strings : ArgVec) (tail : List UInt8) (trace : Trace) : Result :=
  { ret := 0
    argcp := strings.length
    argvp := argvOf round strings tail
    trace := trace ++ [.acquire .argv]
    scans := [⟨(encode strings).length, strings.length⟩,
      ⟨(encode strings).length, strings.length⟩] }

/-- From `argend` on, with an encoded list in the buffer: counted, allocated,
stored — or an integer wraps, or the allocation fails. -/
theorem buildVector_encode (t : Target) (env : Env) (argcp : Int) (argvp : Argv) (round : Nat)
    (strings : ArgVec) (tail : List UInt8) (trace : Trace) :
    buildVector t env argcp argvp round (encode strings ++ tail) (encode strings).length trace =
      if holds t.intMax (strings.length + 1) &&
          holds t.sizeMax ((strings.length + 1) * t.sizeofPtr) then
        if env.vectorOk then
          .ok (fetched round strings tail trace)
        else
          .ok ⟨-1, argcp, argvp, trace ++ [.release (.arglist round)],
            [⟨(encode strings).length, strings.length⟩]⟩
      else .error .wrap := by
  have hcount := countArgs_encode t (encode strings ++ tail) tail
    strings 0 0 rfl (holds_zero _)
  simp only [Nat.zero_add] at hcount
  unfold buildVector
  rw [hcount]
  by_cases hn : holds t.intMax (strings.length + 1) = true
  · have hn' : holds t.intMax strings.length = true := holds_mono hn (by omega)
    have hstore := storeArgs_encode t (encode strings ++ tail) tail
      strings 0 [] (.replicate (strings.length + 1) .uninit) rfl (by simpa using hn') (by simp)
    simp only [List.nil_append, List.length_nil, Nat.zero_add, List.drop_replicate,
      Nat.add_sub_cancel_left, List.replicate_one] at hstore
    -- the array has one slot left, and `NULL` goes there
    have hnull : store ((starts 0 strings).map Slot.ptr ++ [.uninit]) strings.length .null =
        .ok ((starts 0 strings).map Slot.ptr ++ [.null]) := by
      rw [store_ok _ (by simp), List.set_append_right _ _ (by simp)]
      simp
    simp only [if_pos hn', hn, Bool.true_and, hstore, hnull]
    rfl
  · have hfalse : holds t.intMax (strings.length + 1) = false := by simpa using hn
    by_cases hn' : holds t.intMax strings.length = true
    · simp [hn', hfalse]
    · simp [hn', hfalse]

/-- No computation of the function leaves its type on `contents`: each doubled
length, the count with the slot for `NULL`, and the size of the array. -/
structure Target.Computes (t : Target) (contents : List UInt8) : Prop where
  doubles : t.Doubles contents.length
  count : holds t.intMax ((fields contents).length + 1) = true
  size : holds t.sizeMax (((fields contents).length + 1) * t.sizeofPtr) = true

/-- Every argument takes a byte at least. -/
theorem Target.Fits.computes {t : Target} {contents : List UInt8}
    (h : t.Fits contents.length) : t.Computes contents := by
  obtain ⟨hlen, hint, hsize⟩ := h
  have hle : (fields contents).length + 1 ≤ contents.length + 1 :=
    Nat.succ_le_succ (length_fields_le contents)
  exact ⟨Target.doubles_of_holds hlen, holds_mono hint hle,
    holds_mono hsize (Nat.mul_le_mul_right _ hle)⟩

/-- On an encoded list the call returns iff nothing wraps, and then the vector
of the list. -/
theorem fetches_encode_iff {t : Target} {strings : ArgVec} (fresh : Nat → Nat → UInt8)
    (argcp : Int) (argvp : Argv) (hdoubles : t.Doubles (encode strings).length) :
    ∃ round tail trace, ∀ r, Fetches t (.serving (encode strings) fresh) argcp argvp r ↔
      t.Computes (encode strings) ∧ r = fetched round strings tail trace := by
  obtain ⟨round, tail, trace, hiff⟩ := fetches_serving fresh hdoubles argcp argvp
  refine ⟨round, tail, trace, fun r => (hiff r).trans ?_⟩
  rw [buildVector_encode]
  constructor
  · intro h
    split at h
    · rename_i hfits
      obtain ⟨hint, hsize⟩ := Bool.and_eq_true_iff.mp hfits
      refine ⟨⟨hdoubles, ?_, ?_⟩, (Except.ok.inj h).symm⟩
      · rwa [fields_encode]
      · rwa [fields_encode]
    · cases h
  · intro h
    obtain ⟨⟨_, hint, hsize⟩, rfl⟩ := h
    rw [fields_encode] at hint hsize
    rw [hint, hsize]
    rfl

/-- The whole call on an encoded list. -/
theorem fetches_encode {t : Target} {strings : ArgVec} (h : t.Computes (encode strings))
    (fresh : Nat → Nat → UInt8) (argcp : Int) (argvp : Argv) :
    ∃ round tail trace, Fetches t (.serving (encode strings) fresh) argcp argvp
      (fetched round strings tail trace) := by
  obtain ⟨round, tail, trace, hiff⟩ := fetches_encode_iff fresh argcp argvp h.doubles
  exact ⟨round, tail, trace, (hiff _).mpr ⟨h, rfl⟩⟩

/-- **The decoder undoes the kernel's encoding.** On a command line small
enough for the target's integers the call succeeds and yields the strings, the
array `NULL`-terminated and filled to its last allocated slot. -/
theorem fetchargv_decodes (t : Target) (strings : ArgVec) (fresh : Nat → Nat → UInt8)
    (argcp : Int) (argvp : Argv) (hfit : t.Fits (encode strings).length) :
    ∃ r, Fetches t (.serving (encode strings) fresh) argcp argvp r ∧ r.ret = 0 ∧
      r.argcp = strings.length ∧
      (∀ i s, strings[i]? = some s → r.argvp.string? i = some s) ∧
      r.argvp.slots[strings.length]? = some .null ∧
      ∃ counted stored, r.scans = [counted, stored] ∧ r.argvp.slots.length = counted.n + 1 := by
  obtain ⟨round, tail, trace, hr⟩ := fetches_encode hfit.computes fresh argcp argvp
  refine ⟨_, hr, rfl, rfl, ?_, ?_, _, _, rfl, ?_⟩
  · intro i s hs
    show (argvOf round strings tail).string? i = some s
    rw [argvOf_string?, hs]
  · show ((starts 0 strings).map Slot.ptr ++ [Slot.null])[strings.length]? = _
    simp
  · show ((starts 0 strings).map Slot.ptr ++ [Slot.null]).length = strings.length + 1
    simp

/-- Three arguments, the middle one empty, on a 64-bit target. -/
theorem fetchargv_decodes_three :
    Target.lp64.Fits 6 ∧ ∃ r, Fetches .lp64
      (.serving (encode [⟨[97], by decide⟩, .empty, ⟨[98], by decide⟩]) fun _ _ => 255) 0
        ⟨[], .argv, []⟩ r ∧ r.ret = 0 ∧ r.argcp = 3 := by
  refine ⟨by decide, ?_⟩
  obtain ⟨r, hr, hret, hargc, _⟩ := fetchargv_decodes .lp64
    [⟨[97], by decide⟩, .empty, ⟨[98], by decide⟩] (fun _ _ => 255) 0 ⟨[], .argv, []⟩ (by decide)
  exact ⟨r, hr, hret, hargc⟩

/-! ## What the result depends on -/

/-- Argument count and strings are those of the contents cut at its NULs,
whatever the fresh buffers held, and no pass examines a byte behind them. -/
structure DependsOnContents (t : Target) (contents : List UInt8) : Prop where
  returns : ∀ fresh argcp argvp, ∃ r, Fetches t (.serving contents fresh) argcp argvp r ∧
    r.ret = 0 ∧ r.argcp = (fields contents).length ∧
    r.argvp.vector r.argcp.toNat = fields contents ∧ ∀ scan ∈ r.scans, scan.p ≤ contents.length
  same : ∀ fresh fresh' argcp argvp r r', Fetches t (.serving contents fresh) argcp argvp r →
    Fetches t (.serving contents fresh') argcp argvp r' →
    r.argcp = r'.argcp ∧ r.argvp.vector r.argcp.toNat = r'.argvp.vector r'.argcp.toNat

theorem dependsOnContents_encode {t : Target} {strings : ArgVec}
    (h : t.Computes (encode strings)) : DependsOnContents t (encode strings) := by
  refine ⟨?_, ?_⟩
  · intro fresh argcp argvp
    obtain ⟨round, tail, trace, hr⟩ := fetches_encode h fresh argcp argvp
    rw [fields_encode]
    refine ⟨_, hr, rfl, rfl, argvOf_vector round strings tail, ?_⟩
    simp [fetched]
  · intro fresh fresh' argcp argvp r r' hr hr'
    obtain ⟨round, tail, trace, hq⟩ := fetches_encode h fresh argcp argvp
    obtain ⟨round', tail', trace', hq'⟩ := fetches_encode h fresh' argcp argvp
    obtain rfl := hr.unique hq
    obtain rfl := hr'.unique hq'
    refine ⟨rfl, ?_⟩
    exact (argvOf_vector round strings tail).trans (argvOf_vector round' strings tail').symm

/-- A call on an encoded list returns only if nothing wraps. -/
theorem DependsOnContents.computes {t : Target} {strings : ArgVec}
    (h : DependsOnContents t (encode strings)) : t.Computes (encode strings) := by
  obtain ⟨r, hr, _⟩ := h.returns (fun _ _ => 0) 0 ⟨[], .argv, []⟩
  obtain ⟨_, _, _, hiff⟩ := fetches_encode_iff (fun _ _ => 0) 0 ⟨[], .argv, []⟩ hr.doubles
  exact ((hiff r).mp hr).1

/-- A call that gets as far as the vector has counted. -/
theorem buildVector_counted {t : Target} {env : Env} {argcp : Int} {argvp : Argv} {round : Nat}
    {arglist : List UInt8} {argend : Nat} {trace : Trace} {r : Result}
    (h : buildVector t env argcp argvp round arglist argend trace = .ok r) :
    ∃ counted ∈ r.scans, countArgs t arglist argend 0 0 = .ok counted := by
  unfold buildVector at h
  split at h
  · cases h
  · rename_i counted hcount
    refine ⟨counted, ?_, hcount⟩
    split at h
    · split at h
      · split at h
        · cases h
        · split at h
          · cases h
          · obtain rfl := Except.ok.inj h
            simp
      · obtain rfl := Except.ok.inj h
        simp
    · cases h

theorem not_dependsOnContents_unterminated {t : Target} (strings : ArgVec) (rest : CStr UInt8)
    (hrest : rest.chars ≠ []) : ¬ DependsOnContents t (encode strings ++ rest.chars) := by
  intro hdep
  obtain ⟨r, hr, _, _, _, hscans⟩ := hdep.returns (fun _ _ => 0) 0 ⟨[], .argv, []⟩
  obtain ⟨round, tail, trace, hiff⟩ := fetches_serving
    (fun _ _ => 0) hr.doubles 0 ⟨[], .argv, []⟩
  obtain ⟨counted, hmem, hcount⟩ := buildVector_counted ((hiff r).mp hr)
  have hover := countArgs_overrun t (encode strings ++ rest.chars ++ tail) tail hrest strings
    0 0 counted (by simp)
    (by simpa [Nat.add_assoc] using hcount)
  have hle := hscans counted hmem
  rw [List.length_append] at hle
  omega

/-- A rewritten process title `A`, without terminator. -/
theorem not_dependsOnContents_title : ¬ DependsOnContents .lp64 [65] :=
  not_dependsOnContents_unterminated [] ⟨[65], by decide⟩ (by decide)

/-- **What is fetched depends on what was read, iff that is terminated** and
small enough for the target's integers. -/
theorem dependsOnContents_iff (t : Target) (contents : List UInt8) :
    DependsOnContents t contents ↔
      (contents = [] ∨ contents.getLast? = some 0) ∧ t.Computes contents := by
  rw [terminated_iff_encode]
  constructor
  · intro hdep
    obtain ⟨strings, rest, rfl⟩ := exists_encode_append contents
    by_cases hrest : rest.chars = []
    · rw [hrest, List.append_nil] at hdep ⊢
      exact ⟨⟨strings, rfl⟩, hdep.computes⟩
    · exact absurd hdep (not_dependsOnContents_unterminated strings rest hrest)
  · intro h
    obtain ⟨⟨strings, rfl⟩, hcomputes⟩ := h
    exact dependsOnContents_encode hcomputes

/-- `ab`, an empty argument and `c` on a 64-bit target. -/
theorem dependsOnContents_iff_three : DependsOnContents .lp64 [97, 98, 0, 0, 99, 0] :=
  (dependsOnContents_iff .lp64 [97, 98, 0, 0, 99, 0]).mpr
    ⟨.inr rfl, Target.Fits.computes (by decide)⟩

end CmakeXenomai.Bootstrap
