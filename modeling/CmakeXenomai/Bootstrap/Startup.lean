import CmakeXenomai.Bootstrap.FetchLedger

/-!
# From the start of a process to its `main`

`early_args.argc` doubles as the flag "already initialised", so a start is
regular exactly as long as the constructor's initialisation leaves a nonempty
vector (`initsOnceBeforeMain_iff`). On such starts all ways through the
bootstrap code — argv from the C library, argv rebuilt from
`/proc/self/cmdline`, no argv before `xenomai_main` — hand the same reduced
vector to the application and to every later `xenomai_bootstrap_getargv`
(`startup_delivers`).
-/

namespace CmakeXenomai.Bootstrap

open Lib.CString

/-! ## The pieces -/

/-- The vector the constructor initialises Xenomai with, if it does. -/
def constructorArgv (b : Build) (argv : ArgVec) (fetched : Option ArgVec) : Option ArgVec :=
  if b.ctorGetsArgv then some argv else fetched

theorem xenomaiBootstrap_eq (b : Build) (init : ArgVec → ArgVec) (p : Process) (argv : ArgVec)
    (fetched : Option ArgVec) :
    xenomaiBootstrap b init p argv fetched =
      match constructorArgv b argv fetched with
      | none => p
      | some argv => (callXenomaiInit b init p argv).1 := by
  unfold xenomaiBootstrap constructorArgv
  cases b.ctorGetsArgv <;> rfl

theorem getargv_setargv {v : ArgVec} (hv : v ≠ []) (events : List Event) (argv : ArgVec) :
    Process.getargv ⟨setargv v, events⟩ argv = (1, v) := by
  have hlen : v.length ≠ 0 := by simpa using hv
  exact if_pos hlen

theorem getargv_setargv_nil (events : List Event) (argv : ArgVec) :
    Process.getargv ⟨setargv [], events⟩ argv = (0, argv) := rfl

/-- Without the constructor's initialisation the wrapper does it. -/
theorem startup_of_none {b : Build} {init : ArgVec → ArgVec} {main : ArgVec → Int}
    {argv : ArgVec} {fetched : Option ArgVec} (h : constructorArgv b argv fetched = none) :
    startup b init main argv fetched =
      ⟨setargv (init argv), [.init b.initCall argv, .main (init argv)]⟩ := by
  unfold startup
  rw [xenomaiBootstrap_eq, h]
  rfl

/-- With it, and something left of the vector, the wrapper passes that on. -/
theorem startup_of_some {b : Build} {init : ArgVec → ArgVec} {main : ArgVec → Int}
    {argv v : ArgVec} {fetched : Option ArgVec} (h : constructorArgv b argv fetched = some v)
    (hv : init v ≠ []) :
    startup b init main argv fetched =
      ⟨setargv (init v), [.init b.initCall v, .main (init v)]⟩ := by
  unfold startup
  rw [xenomaiBootstrap_eq, h]
  simp only [callXenomaiInit, xenomaiMain, getargv_setargv hv]
  rfl

/-- With nothing left of it the wrapper initialises a second time. -/
theorem startup_of_nil {b : Build} {init : ArgVec → ArgVec} {main : ArgVec → Int}
    {argv v : ArgVec} {fetched : Option ArgVec} (h : constructorArgv b argv fetched = some v)
    (hv : init v = []) :
    startup b init main argv fetched =
      ⟨setargv (init argv),
        [.init b.initCall v, .init b.initCall argv, .main (init argv)]⟩ := by
  unfold startup
  rw [xenomaiBootstrap_eq, h]
  simp only [callXenomaiInit, hv, xenomaiMain, getargv_setargv_nil]
  rfl

/-! ## One initialisation -/

def Event.isInit : Event → Bool
  | .init .. => true
  | .main .. => false

/-- Xenomai's init code is entered exactly once, and before every call of the
wrapped `main`. -/
def InitsOnceBeforeMain (events : List Event) : Prop :=
  events.countP Event.isInit = 1 ∧
    ∀ before argv after, events = before ++ .main argv :: after →
      before.countP Event.isInit = 1

theorem initsOnceBeforeMain_pair (call : InitCall) (v w : ArgVec) :
    InitsOnceBeforeMain [.init call v, .main w] := by
  refine ⟨rfl, ?_⟩
  intro before argv after h
  cases before with
  | nil => cases h
  | cons e before =>
    obtain ⟨rfl, h⟩ := List.cons.inj h
    cases before with
    | nil => rfl
    | cons e before =>
      obtain ⟨_, h⟩ := List.cons.inj h
      simp at h

theorem not_initsOnceBeforeMain_startup {b : Build} {init : ArgVec → ArgVec}
    {main : ArgVec → Int} {argv v : ArgVec} {fetched : Option ArgVec}
    (h : constructorArgv b argv fetched = some v) (hv : init v = []) :
    ¬ InitsOnceBeforeMain (startup b init main argv fetched).events := by
  intro h
  obtain ⟨hcount, _⟩ := h
  rw [startup_of_nil h hv] at hcount
  cases hcount

/-- A process started with the empty vector initialises Xenomai twice. -/
theorem not_initsOnceBeforeMain_empty :
    ¬ InitsOnceBeforeMain
      (startup ⟨some true, true, true, false, false, none, none⟩ id (fun _ => 0) [] none).events :=
  not_initsOnceBeforeMain_startup rfl rfl

/-- **One initialisation, before `main`** — in every executable with the main
wrapper, iff the constructor's own initialisation, where it takes place, does
not leave an empty vector. -/
theorem initsOnceBeforeMain_iff (b : MainBuild) (init : ArgVec → ArgVec) (main : ArgVec → Int)
    (argv : ArgVec) (fetched : Option ArgVec) :
    InitsOnceBeforeMain (startup b.toBuild init main argv fetched).events ↔
      ∀ v, constructorArgv b.toBuild argv fetched = some v → init v ≠ [] := by
  constructor
  · intro honce v hv hnil
    exact not_initsOnceBeforeMain_startup hv hnil honce
  · intro hne
    cases hc : constructorArgv b.toBuild argv fetched with
    | none =>
      rw [startup_of_none hc]
      exact initsOnceBeforeMain_pair _ _ _
    | some v =>
      rw [startup_of_some hc (hne v hc)]
      exact initsOnceBeforeMain_pair _ _ _

/-! ## One reduced vector -/

def Event.main? : Event → Option ArgVec
  | .init .. => none
  | .main argv => some argv

/-- The wrapped `main` is called once, with `v`, and every later getter call
returns 1 and stores `v`, whatever its caller's variables held. -/
def Delivers (p : Process) (v : ArgVec) : Prop :=
  p.events.filterMap Event.main? = [v] ∧
    ∀ callers : List ArgVec, callers.map p.getargv = callers.map fun _ => (1, v)

theorem delivers_setargv {v : ArgVec} (hv : v ≠ []) (call : InitCall) (w : ArgVec) :
    Delivers ⟨setargv v, [.init call w, .main v]⟩ v := by
  refine ⟨rfl, fun callers => List.map_congr_left fun argv _ => ?_⟩
  exact getargv_setargv hv _ argv

theorem fetched_outcome (round : Nat) (strings : ArgVec) (tail : List UInt8) (trace : Trace) :
    (fetched round strings tail trace).outcome = some strings := by
  show (if (0 : Int) ≠ 0 then none
    else some ((argvOf round strings tail).vector strings.length)) = _
  rw [argvOf_vector]
  rfl

/-- **Every way through the bootstrap code delivers the same reduced vector**:
a constructor that gets argv, one that fetches it from `/proc/self/cmdline` —
where the fetch returns it succeeds, and it returns unless an integer wraps —
and one whose fetch fails. -/
theorem startup_delivers (b : MainBuild) (init : ArgVec → ArgVec) (main : ArgVec → Int)
    (args : ArgVec) (hreduced : init args ≠ []) :
    (b.ctorGetsArgv = true → ∀ fetched,
      Delivers (startup b.toBuild init main args fetched) (init args)) ∧
    (b.ctorGetsArgv = false → ∀ (t : Target) (fresh : Nat → Nat → UInt8) argcp argvp,
      (∀ r, Fetches t (.serving (encode args) fresh) argcp argvp r →
        r.ret = 0 ∧ r.outcome = some args ∧
          Delivers (startup b.toBuild init main args r.outcome) (init args)) ∧
      (t.Computes (encode args) →
        ∃ r, Fetches t (.serving (encode args) fresh) argcp argvp r)) ∧
    (b.ctorGetsArgv = false → ∀ (t : Target) (env : Env) argcp argvp r,
      Fetches t env argcp argvp r → r.ret = -1 →
      Delivers (startup b.toBuild init main args r.outcome) (init args)) := by
  refine ⟨?_, ?_, ?_⟩
  · intro hctor fetched
    have hc : constructorArgv b.toBuild args fetched = some args := if_pos hctor
    rw [startup_of_some hc hreduced]
    exact delivers_setargv hreduced _ _
  · intro hctor t fresh argcp argvp
    refine ⟨fun r hr => ?_, fun hcomputes => ?_⟩
    · obtain ⟨round, tail, trace, hiff⟩ := fetches_encode_iff fresh argcp argvp hr.doubles
      obtain ⟨_, rfl⟩ := (hiff r).mp hr
      have houtcome := fetched_outcome round args tail trace
      have hc : constructorArgv b.toBuild args (some args) = some args := by
        simp [constructorArgv]
      refine ⟨rfl, houtcome, ?_⟩
      rw [houtcome, startup_of_some hc hreduced]
      exact delivers_setargv hreduced _ _
    · obtain ⟨round, tail, trace, hr⟩ := fetches_encode hcomputes fresh argcp argvp
      exact ⟨_, hr⟩
  · intro hctor t env argcp argvp r _ hret
    have houtcome : r.outcome = none := by simp [Result.outcome, hret]
    have hc : constructorArgv b.toBuild args none = none := by
      simp [constructorArgv, hctor]
    rw [houtcome, startup_of_none hc]
    exact delivers_setargv hreduced _ _

/-- No call for `/proc/self/cmdline` succeeds. -/
def noProc : Env := ⟨fun _ => .failing false none, true⟩

/-- Two arguments of which the first stays: passed to the constructor, fetched
by it, and neither. -/
theorem startup_delivers_pair :
    Delivers (startup ⟨some true, true, true, false, false, none, none⟩ (List.take 1)
        (fun _ => 0) [⟨[97], by decide⟩, ⟨[98], by decide⟩] none) [⟨[97], by decide⟩] ∧
      (∃ r, Fetches .lp64 (.serving [97, 0, 98, 0] fun _ _ => 0) 0 ⟨[], .argv, []⟩ r ∧
        r.ret = 0 ∧
        Delivers (startup ⟨some false, false, false, false, false, none, none⟩ (List.take 1)
          (fun _ => 0) [⟨[97], by decide⟩, ⟨[98], by decide⟩] r.outcome) [⟨[97], by decide⟩]) ∧
      Delivers (startup ⟨some false, false, false, false, false, none, none⟩ (List.take 1)
        (fun _ => 0) [⟨[97], by decide⟩, ⟨[98], by decide⟩] none) [⟨[97], by decide⟩] := by
  have hfetched := startup_delivers
    ⟨⟨some false, false, false, false, false, none, none⟩, rfl⟩ (List.take 1) (fun _ => 0)
    [⟨[97], by decide⟩, ⟨[98], by decide⟩] (by decide)
  refine ⟨?_, ?_, ?_⟩
  · exact (startup_delivers ⟨⟨some true, true, true, false, false, none, none⟩, rfl⟩
      (List.take 1) (fun _ => 0) [⟨[97], by decide⟩, ⟨[98], by decide⟩] (by decide)).1 rfl none
  · obtain ⟨hall, hsome⟩ := hfetched.2.1 rfl .lp64 (fun _ _ => 0) 0 ⟨[], .argv, []⟩
    obtain ⟨r, hr⟩ := hsome (Target.Fits.computes (by decide))
    obtain ⟨hret, _, hdelivers⟩ := hall r hr
    exact ⟨r, hr, hret, hdelivers⟩
  · exact hfetched.2.2 rfl
      .lp64 noProc 0 ⟨[], .argv, []⟩ ⟨-1, 0, ⟨[], .argv, []⟩, [], []⟩ ⟨1, rfl⟩ rfl

end CmakeXenomai.Bootstrap
