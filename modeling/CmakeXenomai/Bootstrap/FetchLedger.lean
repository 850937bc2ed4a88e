import CmakeXenomai.Bootstrap.Cmdline
import CmakeXenomai.Bootstrap.Process

/-!
# What the fetch holds when it returns

`_xenomai_init_fetchargv` has four exits, each after any number of re-read
rounds. The loop invariant is that the ledger is `Clean`: everything of the
rounds before is settled, nothing of this round or a later one has been
touched. One turn either keeps it clean, or fails with its own resources
settled, or breaks out holding the buffer (`readRound_cases`).
-/

namespace CmakeXenomai.Bootstrap

open Lib.Loop Lib.Ledger Lib.CString

/-- What a turn does up to and with `close`. -/
def opened (k : Nat) : Trace :=
  [.acquire (.fd k), .acquire (.arglist k), .release (.fd k)]

/-- Everything one turn of the loop can do. -/
theorem readRound_cases (t : Target) (env : Env) (s : Reread) :
    (∃ bytes, (env.round s.round).read s.len = some bytes ∧ bytes.length = s.len ∧
      readRound t env s = .again ⟨s.round + 1, 2 * s.len,
        s.trace ++ opened s.round ++ [.release (.arglist s.round)]⟩) ∨
    (∃ more, more ∈ [[], [.acquire (.fd s.round), .release (.fd s.round)],
        opened s.round ++ [.release (.arglist s.round)]] ∧
      readRound t env s = .leave (.ok (.failed (s.trace ++ more)))) ∨
    (∃ fresh bytes, (env.round s.round).read s.len = some bytes ∧ bytes.length < s.len ∧
      readRound t env s = .leave (.ok (.filled s.round (buffer fresh bytes s.len) bytes.length
        (s.trace ++ opened s.round)))) ∨
    readRound t env s = .leave (.error .wrap) := by
  unfold readRound
  by_cases hopen : (env.round s.round).opens = true
  · cases hfresh : (env.round s.round).fresh with
    | none => exact .inr (.inl ⟨[.acquire (.fd s.round), .release (.fd s.round)], by simp,
        by simp only [if_pos hopen, hfresh]⟩)
    | some fresh =>
      cases hread : (env.round s.round).read s.len with
      | none => exact .inr (.inl ⟨opened s.round ++ [.release (.arglist s.round)], by simp,
          by simp only [if_pos hopen, hfresh, hread, opened, List.append_assoc]⟩)
      | some bytes =>
        by_cases hlen : bytes.length < s.len
        · exact .inr (.inr (.inl ⟨fresh, bytes, rfl, hlen,
            by simp only [if_pos hopen, hfresh, hread, if_pos hlen, opened]⟩))
        · have hfull : bytes.length = s.len :=
            Nat.le_antisymm ((env.round s.round).read_le _ _ hread) (by omega)
          by_cases hdouble : holds t.ssizeMax (2 * s.len) = true
          · exact .inl ⟨bytes, rfl, hfull,
              by simp only [if_pos hopen, hfresh, hread, if_neg hlen, if_pos hdouble, opened]⟩
          · exact .inr (.inr (.inr (by
              simp only [if_pos hopen, hfresh, hread, if_neg hlen, if_neg hdouble])))
  · exact .inr (.inl ⟨[], by simp, by simp only [if_neg hopen, List.append_nil]⟩)

/-! ## The ledger of the loop -/

/-- Belongs to a round before `k`. -/
def Resource.before (k : Nat) : Resource → Prop
  | .fd j => j < k
  | .arglist j => j < k
  | .argv => False

/-- Between rounds: what is past is settled, what is to come untouched. -/
structure Clean (trace : Trace) (k : Nat) : Prop where
  past : ∀ r : Resource, r.before k → Settled trace r
  future : ∀ r : Resource, ¬ r.before k → Unused trace r

theorem clean_nil : Clean [] 0 := by
  refine ⟨?_, fun r _ => unused_nil r⟩
  intro r hr
  cases r <;> simp [Resource.before] at hr

theorem not_before_fd (k : Nat) : ¬ (Resource.fd k).before k := Nat.lt_irrefl k

theorem not_before_arglist (k : Nat) : ¬ (Resource.arglist k).before k := Nat.lt_irrefl k

/-- A round's own ledger is about its descriptor and its buffer. -/
theorem unused_of_ne {k : Nat} {more : Trace} {r : Resource}
    (hmore : ∀ e ∈ more, e.resource = .fd k ∨ e.resource = .arglist k)
    (hfd : r ≠ .fd k) (harg : r ≠ .arglist k) : Unused more r := by
  rw [unused_iff]
  intro e he hr
  rcases hmore e he with h | h
  · exact hfd (hr.symm.trans h)
  · exact harg (hr.symm.trans h)

theorem opened_resource (k : Nat) :
    ∀ e ∈ opened k, e.resource = .fd k ∨ e.resource = .arglist k := by
  simp [opened, Entry.resource]

theorem opened_settled_fd (k : Nat) : Settled (opened k) (.fd k) := by
  simp [Settled, history, opened, Entry.resource]

theorem opened_held_arglist (k : Nat) : Held (opened k) (.arglist k) := by
  simp [Held, history, opened, Entry.resource]

/-- After `close` only the buffer is held. -/
theorem Clean.opened {trace : Trace} {k : Nat} (h : Clean trace k) :
    Held (trace ++ opened k) (.arglist k) ∧
      (∀ r : Resource, r ≠ .arglist k → r.before (k + 1) → Settled (trace ++ opened k) r) ∧
      (∀ r : Resource, ¬ r.before (k + 1) → Unused (trace ++ opened k) r) := by
  refine ⟨.append_left (h.future _ (not_before_arglist k)) (opened_held_arglist k), ?_, ?_⟩
  · intro r hne hr
    by_cases hfd : r = .fd k
    · subst hfd
      exact .append_left (h.future _ (not_before_fd k)) (opened_settled_fd k)
    · refine .append_right (h.past r ?_) (unused_of_ne (opened_resource k) hfd hne)
      cases r with
      | fd j => exact lt_of_le_of_ne (Nat.lt_succ_iff.mp hr) (by simpa using hfd)
      | arglist j => exact lt_of_le_of_ne (Nat.lt_succ_iff.mp hr) (by simpa using hne)
      | argv => exact hr
  · intro r hr
    have hr' : ¬ r.before k := by
      cases r with
      | fd j => exact fun hlt => hr (Nat.lt_succ_of_lt hlt)
      | arglist j => exact fun hlt => hr (Nat.lt_succ_of_lt hlt)
      | argv => exact hr
    refine (h.future r hr').append (unused_of_ne (opened_resource k) ?_ ?_)
    · rintro rfl
      exact hr (Nat.lt_succ_self k)
    · rintro rfl
      exact hr (Nat.lt_succ_self k)

/-- `free(arglist)` closes the round. -/
theorem Clean.freed {trace : Trace} {k : Nat} (h : Clean trace k) :
    Clean (trace ++ Bootstrap.opened k ++ [.release (.arglist k)]) (k + 1) := by
  obtain ⟨hheld, hsettled, hunused⟩ := h.opened
  have hother : ∀ r : Resource, r ≠ .arglist k → Unused [.release (.arglist k)] r := by
    intro r hne
    rw [unused_iff]
    intro e he heq
    rw [List.mem_singleton.mp he] at heq
    exact hne heq.symm
  refine ⟨?_, ?_⟩
  · intro r hr
    by_cases hne : r = .arglist k
    · subst hne
      exact hheld.settle
    · exact (hsettled r hne hr).append_right (hother r hne)
  · intro r hr
    refine (hunused r hr).append (hother r ?_)
    rintro rfl
    exact hr (Nat.lt_succ_self k)

theorem Clean.allSettled {trace : Trace} {k : Nat} (h : Clean trace k) : AllSettled trace := by
  refine allSettled_of_cases fun r => ?_
  by_cases hr : r.before k
  · exact .inr (h.past r hr)
  · exact .inl (h.future r hr)

/-- A failing turn leaves nothing open. -/
theorem Clean.failed {trace more : Trace} {k : Nat} (h : Clean trace k)
    (hmore : more ∈ [[], [.acquire (.fd k), .release (.fd k)],
      Bootstrap.opened k ++ [.release (.arglist k)]]) : AllSettled (trace ++ more) := by
  simp only [List.mem_cons, List.not_mem_nil, or_false] at hmore
  rcases hmore with rfl | rfl | rfl
  · rw [List.append_nil]
    exact h.allSettled
  · -- `malloc` failed: the descriptor alone was opened, and is closed
    refine allSettled_of_cases fun r => ?_
    by_cases hfd : r = .fd k
    · subst hfd
      refine .inr (.append_left (h.future _ (not_before_fd k)) ?_)
      simp [Settled, history, Entry.resource]
    · have hun : Unused [.acquire (.fd k), .release (.fd k)] r := by
        rw [unused_iff]
        simpa [Entry.resource] using Ne.symm hfd
      by_cases hr : r.before k
      · exact .inr ((h.past r hr).append_right hun)
      · exact .inl ((h.future r hr).append hun)
  · rw [← List.append_assoc]
    exact h.freed.allSettled

/-! ## The loop -/

/-- Where the loop stands at the start of a round. -/
structure RereadInv (env : Env) (s : Reread) : Prop where
  clean : Clean s.trace s.round
  len : s.len = 1024 * 2 ^ s.round
  full : ∀ j < s.round, ∃ bytes, (env.round j).read (1024 * 2 ^ j) = some bytes ∧
    bytes.length = 1024 * 2 ^ j

/-- Round `k` is the last one and reads `bytes`. -/
structure LastRead (env : Env) (k : Nat) (bytes : List UInt8) : Prop where
  read : (env.round k).read (1024 * 2 ^ k) = some bytes
  short : bytes.length < 1024 * 2 ^ k
  full : ∀ j < k, ∃ bytes, (env.round j).read (1024 * 2 ^ j) = some bytes ∧
    bytes.length = 1024 * 2 ^ j

theorem rereadInv_start (env : Env) : RereadInv env .start :=
  ⟨clean_nil, by decide, by simp [Reread.start]⟩

theorem RereadInv.again {t : Target} {env : Env} {s s' : Reread} (h : RereadInv env s)
    (hb : readRound t env s = .again s') : RereadInv env s' := by
  rcases readRound_cases t env s with ⟨bytes, hread, hlen, heq⟩ | ⟨_, _, heq⟩ | ⟨_, _, _, _, heq⟩ |
    heq <;> rw [heq] at hb <;> cases hb
  refine ⟨h.clean.freed, ?_, ?_⟩
  · show 2 * s.len = 1024 * 2 ^ (s.round + 1)
    rw [h.len, pow_succ]
    omega
  · intro j hj
    rcases Nat.lt_succ_iff_lt_or_eq.mp hj with hj | rfl
    · exact h.full j hj
    · rw [h.len] at hread hlen
      exact ⟨bytes, hread, hlen⟩

/-- How the loop can be left. -/
def ReadEnd.Leaves (env : Env) : ReadEnd → Prop
  | .failed trace => AllSettled trace
  | .filled k arglist ret trace =>
    ∃ fresh bytes before, LastRead env k bytes ∧ Clean before k ∧ trace = before ++ opened k ∧
      arglist = buffer fresh bytes (1024 * 2 ^ k) ∧ ret = bytes.length

theorem RereadInv.leave {t : Target} {env : Env} {s : Reread} {e : Except Fault ReadEnd}
    (h : RereadInv env s) (hb : readRound t env s = .leave e) :
    ∀ readEnd, e = .ok readEnd → readEnd.Leaves env := by
  intro readEnd he
  rcases readRound_cases t env s with ⟨_, _, _, heq⟩ | ⟨more, hmore, heq⟩ |
    ⟨fresh, bytes, hread, hlen, heq⟩ | heq <;> rw [heq] at hb <;> cases hb <;> cases he
  · exact h.clean.failed hmore
  · rw [h.len] at hread hlen
    exact ⟨fresh, bytes, s.trace, ⟨hread, hlen, h.full⟩, h.clean, rfl, by rw [h.len], rfl⟩

theorem readLoop_leaves {t : Target} {env : Env} {readEnd : ReadEnd}
    (h : Returns (readRound t env) .start (.ok readEnd)) : readEnd.Leaves env := by
  obtain ⟨fuel, hrun⟩ := h
  exact run_inv (I := RereadInv env) (Q := fun e => ∀ readEnd, e = .ok readEnd →
    readEnd.Leaves env) (fun _ _ hI hb => hI.again hb) (fun _ _ hI hb => hI.leave hb) fuel .start
    (.ok readEnd) (rereadInv_start env) hrun readEnd rfl

/-! ## The call -/

/-- When the loop stops on the bytes of a read, they are empty or end in NUL. -/
def Env.StopsTerminated (env : Env) : Prop :=
  ∀ k bytes, (env.round k).read (1024 * 2 ^ k) = some bytes → bytes.length < 1024 * 2 ^ k →
    bytes = [] ∨ bytes.getLast? = some 0

theorem stopsTerminated_serving (strings : ArgVec) (fresh : Nat → Nat → UInt8) :
    (Env.serving (encode strings) fresh).StopsTerminated := by
  intro k bytes hread hshort
  have htake : (encode strings).take (1024 * 2 ^ k) = bytes := Option.some.inj hread
  have hle : (encode strings).length ≤ 1024 * 2 ^ k := by
    rw [← htake, List.length_take] at hshort
    omega
  rw [List.take_of_length_le hle] at htake
  rw [← htake]
  exact encode_eq_nil_or_getLast strings

/-- The vector holds on to its two blocks only, and everything in it comes
from the last read. -/
structure HoldsVector (env : Env) (r : Result) (k : Nat) (bytes : List UInt8) : Prop where
  lastRead : LastRead env k bytes
  argv : Held r.trace .argv
  arglist : Held r.trace (.arglist k)
  settled : ∀ e ∈ r.trace, e.resource ≠ .argv → e.resource ≠ .arglist k →
    Settled r.trace e.resource
  argc : r.argcp = (fields bytes).length
  vector : r.argvp.vector r.argcp.toNat = fields bytes
  block : r.argvp.block = .arglist k
  inside : ∀ i < (fields bytes).length, ∃ offset < bytes.length,
    r.argvp.slots[i]? = some (.ptr offset)

theorem holdsVector_fetched {env : Env} {k : Nat} {strings : ArgVec} {tail : List UInt8}
    {before : Trace} (hread : LastRead env k (encode strings)) (hclean : Clean before k) :
    HoldsVector env (fetched k strings tail (before ++ opened k)) k (encode strings) := by
  obtain ⟨hheld, hsettled, hunused⟩ := hclean.opened
  have hother : ∀ r : Resource, r ≠ .argv → Unused [.acquire .argv] r := by
    intro r hne
    rw [unused_iff]
    simpa [Entry.resource] using Ne.symm hne
  refine ⟨hread, ?_, hheld.append_right (hother _ (by simp)), ?_, ?_, ?_, rfl, ?_⟩
  · refine .append_left (hunused .argv (by simp [Resource.before])) ?_
    simp [Held, history, Entry.resource]
  · intro e he hargv harg
    refine (hsettled e.resource harg ?_).append_right (hother _ hargv)
    by_contra hbefore
    rcases List.mem_append.mp he with he | he
    · exact unused_iff.mp (hunused _ hbefore) e he rfl
    · rw [List.mem_singleton.mp he] at hargv
      exact hargv rfl
  · rw [fields_encode]
    rfl
  · rw [fields_encode]
    exact argvOf_vector k strings tail
  · rw [fields_encode]
    intro i hi
    have hlt : i < (starts 0 strings).length := by simpa using hi
    refine ⟨(starts 0 strings)[i], ?_, ?_⟩
    · simpa using starts_lt (List.getElem_mem hlt)
    · show ((starts 0 strings).map Slot.ptr ++ [Slot.null])[i]? = _
      rw [List.getElem?_append_left (by simpa using hi), List.getElem?_map,
        List.getElem?_eq_getElem hlt]
      rfl

/-- **Failure leaves everything as it was, and nothing leaks.** However the
calls of the environment turn out, a failing fetch has released all it
acquired, written nothing and keeps the constructor from doing anything; a
successful one holds the pointer array and the last buffer. -/
theorem fetchargv_never_leaks (t : Target) (env : Env) (hstop : env.StopsTerminated)
    (argcp : Int) (argvp : Argv) (r : Result) (h : Fetches t env argcp argvp r) :
    (r.ret = -1 ∧ r.argcp = argcp ∧ r.argvp = argvp ∧ AllSettled r.trace ∧
      ∀ (b : Build) init p argv, b.ctorGetsArgv = false →
        xenomaiBootstrap b init p argv r.outcome = p) ∨
    (r.ret = 0 ∧ ∃ k bytes, HoldsVector env r k bytes) := by
  have hctor : ∀ r : Result, r.ret = -1 → ∀ (b : Build) init p argv, b.ctorGetsArgv = false →
      xenomaiBootstrap b init p argv r.outcome = p := by
    intro r hret b init p argv hb
    simp [xenomaiBootstrap, Result.outcome, hret, hb]
  obtain ⟨readEnd, hret, hafter⟩ := fetches_iff.mp h
  have hleaves := readLoop_leaves hret
  cases readEnd with
  | failed trace =>
    obtain rfl := Except.ok.inj hafter
    exact .inl ⟨rfl, rfl, rfl, hleaves, hctor _ rfl⟩
  | filled k arglist ret trace =>
    obtain ⟨fresh, bytes, before, hread, hclean, rfl, rfl, rfl⟩ := hleaves
    obtain ⟨strings, rfl⟩ :=
      (terminated_iff_encode bytes).mp (hstop k bytes hread.read hread.short)
    obtain ⟨tail, htail⟩ := buffer_eq_append fresh (encode strings) (1024 * 2 ^ k)
    simp only [afterRead, htail, buildVector_encode] at hafter
    split at hafter
    · split at hafter
      · obtain rfl := Except.ok.inj hafter
        exact .inr ⟨rfl, k, _, holdsVector_fetched hread hclean⟩
      · obtain rfl := Except.ok.inj hafter
        exact .inl ⟨rfl, rfl, rfl, hclean.freed.allSettled, hctor _ rfl⟩
    · cases hafter

/-- The first read fills its buffer, the second one fails. -/
def secondReadFails : Env where
  round
    | 0 => ⟨true, some fun _ => 255, fun len => some (.replicate len 97), by
        intro len bytes h
        obtain rfl := Option.some.inj h
        exact List.length_replicate.le⟩
    | _ => .failing true (some fun _ => 255)
  vectorOk := true

theorem secondReadFails_stopsTerminated : secondReadFails.StopsTerminated := by
  intro k bytes hread hshort
  cases k with
  | zero =>
    obtain rfl := Option.some.inj hread
    rw [List.length_replicate] at hshort
    exact absurd hshort (Nat.lt_irrefl _)
  | succ k => cases hread

theorem secondReadFails_fetches :
    Fetches .lp64 secondReadFails 0 ⟨[], .argv, []⟩ ⟨-1, 0, ⟨[], .argv, []⟩,
      rereadTrace 1 ++ (opened 1 ++ [.release (.arglist 1)]), []⟩ := by
  have hfirst : readRound .lp64 secondReadFails (reread 0) = .again (reread 1) := by
    rw [readRound_full rfl rfl rfl List.length_replicate]
    rfl
  refine fetches_iff.mpr ⟨_, .of_again hfirst (.of_leave rfl), rfl⟩

/-- A file that outgrows the first buffer and cannot be read again, and one of
three arguments that can. -/
theorem fetchargv_never_leaks_second :
    (∃ r, Fetches .lp64 secondReadFails 0 ⟨[], .argv, []⟩ r ∧ r.ret = -1 ∧
      r.trace.length = 8 ∧ AllSettled r.trace) ∧
    ∃ r env, Fetches .lp64 env 0 ⟨[], .argv, []⟩ r ∧ r.ret = 0 ∧ r.argcp = 3 ∧
      ∃ k bytes, HoldsVector env r k bytes := by
  constructor
  · refine ⟨_, secondReadFails_fetches, rfl, rfl, ?_⟩
    rcases fetchargv_never_leaks .lp64 _ secondReadFails_stopsTerminated 0 ⟨[], .argv, []⟩ _
      secondReadFails_fetches with ⟨_, _, _, hsettled, _⟩ | ⟨hret, _⟩
    · exact hsettled
    · cases hret
  · have hcomputes : Target.lp64.Computes
        (encode [⟨[97], by decide⟩, .empty, ⟨[98], by decide⟩]) :=
      Target.Fits.computes (by decide)
    obtain ⟨round, tail, trace, hr⟩ :=
      fetches_encode hcomputes (fun _ _ => 255) 0 ⟨[], .argv, []⟩
    refine ⟨_, _, hr, rfl, rfl, ?_⟩
    rcases fetchargv_never_leaks .lp64 _ (stopsTerminated_serving _ _) 0 ⟨[], .argv, []⟩ _ hr with
      ⟨hfail, _⟩ | ⟨_, hholds⟩
    · cases hfail
    · exact hholds

end CmakeXenomai.Bootstrap
