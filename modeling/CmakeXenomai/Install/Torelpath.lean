import CmakeXenomai.Lib.Loop
import CmakeXenomai.Lib.Path
import CmakeXenomai.Lib.Pattern

/-!
# torelpath

The function of `install_cmakeconfig.sh` that makes one path relative to
another, and when its loop ends. The loop climbs from `$1` with `dirname` until
`$2` starts with what is left, as a shell pattern. Where `dirname` takes `$1`
for an option it fails, and the function with it; otherwise it never does
(`not_isOption_up_iter`), the directories passed are known beforehand
(`up^[i] start`), and the loop is decided by one question: does one of them
strip something off the target (`climb_halts_iff_strips`).
-/

namespace CmakeXenomai.Install

open Lib.Loop Lib.Path
open Lib.Pattern (Matcher ordinary ordinary_singleton)

/-! ## The function -/

/-- `$(…)`: what a command printed, less the newlines at its end. -/
def cmdSubst (printed : Str) : Str :=
  printed.rdropWhile (· = '\n')

/-- A utility called without `--` takes the operand for options. -/
def isOption (operand : Str) : Bool :=
  operand.head? = some '-' ∧ operand ≠ ['-']

/-- `dirname "$common_part"`: the status it fails with, POSIX's `dirname`
having no options, or what it prints. -/
def dirnameCommand (commonPart : Str) : Except Nat Str :=
  if isOption commonPart then .error 1 else .ok (dirname commonPart)

/-- The directory above, as the variable holds it where `dirname` succeeds. -/
def up (commonPart : Str) : Str :=
  cmdSubst (dirname commonPart)

/-- The variables the loop changes. -/
structure Climb where
  commonPart : Str
  result : Str
deriving DecidableEq

/-- `while test "x${target#$common_part}" = "x${target}"`: the function ends
with the status of a `dirname` that fails (`set -e`). -/
def climb (m : Matcher) (target : Str) (s : Climb) : Turn Climb (Except Nat Climb) :=
  if m.dropPrefix s.commonPart target = target then
    match dirnameCommand s.commonPart with
    -- without `set -e` the loop would go on with an empty path
    | .error status => .leave (.error status)
    | .ok printed => .again ⟨cmdSubst printed, ['.', '.', '/'] ++ s.result⟩
  else .leave (.ok s)

/-- `torelpath`, after its loop. -/
def finish (m : Matcher) (target : Str) (s : Climb) : Str :=
  let forwardPart := m.dropPrefix s.commonPart target
  let forwardPart := m.dropPrefix ['/'] forwardPart
  m.dropSuffix ['/'] (s.result ++ forwardPart)

/-- `torelpath "$start" "$target"` with a turn budget for its loop: the status
it fails with, or what it prints. -/
def torelpath (m : Matcher) (fuel : Nat) (start target : Str) : Option (Except Nat Str) :=
  if start ≠ [] ∧ target ≠ [] then
    (run (climb m target) fuel ⟨start, []⟩).map (Except.map (finish m target))
  else some (.error 1)

/-- `torelpath` ends and prints `r`. -/
def Prints (m : Matcher) (start target r : Str) : Prop :=
  ∃ fuel, torelpath m fuel start target = some (.ok r)

theorem prints_iff {m : Matcher} {start target : Str} (hstart : start ≠ []) (htarget : target ≠ [])
    (r : Str) :
    Prints m start target r ↔
      ∃ s, Returns (climb m target) ⟨start, []⟩ (.ok s) ∧ finish m target s = r := by
  unfold Prints torelpath Returns
  simp only [ne_eq, hstart, htarget, not_false_eq_true, and_self, if_true,
    Option.map_eq_some_iff]
  constructor
  · intro h
    obtain ⟨fuel, e, he, hr⟩ := h
    cases e with
    | error status => cases hr
    | ok s => exact ⟨s, ⟨fuel, he⟩, Except.ok.inj hr⟩
  · intro h
    obtain ⟨s, ⟨fuel, hs⟩, rfl⟩ := h
    exact ⟨fuel, .ok s, hs, rfl⟩

theorem Prints.unique {m : Matcher} {start target r r' : Str} (h : Prints m start target r)
    (h' : Prints m start target r') : r = r' := by
  by_cases hne : start ≠ [] ∧ target ≠ []
  · obtain ⟨s, hs, hr⟩ := (prints_iff hne.1 hne.2 r).mp h
    obtain ⟨s', hs', hr'⟩ := (prints_iff hne.1 hne.2 r').mp h'
    rw [← hr, ← hr', Except.ok.inj (hs.unique hs')]
  · obtain ⟨fuel, hfuel⟩ := h
    simp [torelpath, hne] at hfuel

/-! ## The directories it passes -/

theorem cmdSubst_isPrefix (s : Str) : cmdSubst s <+: s :=
  List.rdropWhile_prefix _ s

theorem rooted_cmdSubst (s : Str) : Rooted (cmdSubst s) ↔ Rooted s := by
  by_cases hnil : cmdSubst s = []
  · -- only newlines were printed
    have hall := List.rdropWhile_eq_nil_iff.mp hnil
    refine iff_of_false (by simp [hnil, Rooted]) ?_
    intro h
    obtain ⟨s', rfl⟩ := rooted_iff.mp h
    simpa using hall '/' (by simp)
  · exact rooted_of_isPrefix (cmdSubst_isPrefix s) hnil

theorem rooted_up (s : Str) : Rooted (up s) ↔ Rooted s :=
  (rooted_cmdSubst _).trans (rooted_dirname s)

theorem rooted_up_iter (i : Nat) (s : Str) : Rooted (up^[i] s) ↔ Rooted s := by
  induction i generalizing s with
  | zero => rfl
  | succ i ih =>
    rw [Function.iterate_succ_apply]
    exact (ih (up s)).trans (rooted_up s)

/-- A directory up is one of the fixed points, or shorter. -/
theorem up_cases (s : Str) : up s = ['/'] ∨ up s = ['.'] ∨ (up s).length < s.length := by
  obtain ⟨h, -⟩ | ⟨h, -⟩ | ⟨-, -, hlt⟩ := dirname_cases s
  · exact .inl (by simp [up, h, cmdSubst])
  · exact .inr (.inl (by simp [up, h, cmdSubst]))
  · exact .inr (.inr (lt_of_le_of_lt (cmdSubst_isPrefix _).length_le hlt))

/-- From a rooted string the climb comes to the root. -/
theorem exists_up_iter_eq_root (s : Str) (hs : Rooted s) : ∃ i, up^[i] s = ['/'] := by
  induction hn : s.length using Nat.strong_induction_on generalizing s with
  | _ n ih =>
    have hup := (rooted_up s).mpr hs
    obtain h | h | hlt := up_cases s
    · exact ⟨1, h⟩
    · rw [h] at hup
      simp [Rooted] at hup
    · obtain ⟨i, hi⟩ := ih (up s).length (hn ▸ hlt) (up s) hup rfl
      exact ⟨i + 1, hi⟩

/-- From any other string it comes to the current directory, and every
directory before that is shorter than the one below it. -/
theorem up_iter_of_not_rooted {s : Str} (hs : ¬ Rooted s) (i : Nat) :
    up^[i] s = ['.'] ∨ (up^[i] s).length + i ≤ s.length := by
  induction i with
  | zero => exact .inr (by simp)
  | succ i ih =>
    rw [Function.iterate_succ_apply']
    have hup : ¬ Rooted (up (up^[i] s)) := by
      rw [rooted_up, rooted_up_iter]
      exact hs
    rcases ih with h | h
    · exact .inl (by rw [h]; rfl)
    · obtain hroot | hdot | hlt := up_cases (up^[i] s)
      · rw [hroot] at hup
        simp [Rooted] at hup
      · exact .inl hdot
      · exact .inr (by omega)

theorem isOption_iff {s : Str} : isOption s ↔ ∃ c t, s = '-' :: c :: t := by
  unfold isOption
  cases s with
  | nil => simp
  | cons c s => cases s <;> simp

theorem isOption_of_isPrefix {s s' : Str} (h : s' <+: s) (hs' : isOption s') : isOption s := by
  obtain ⟨t, rfl⟩ := h
  obtain ⟨c, s', rfl⟩ := isOption_iff.mp hs'
  exact isOption_iff.mpr ⟨c, s' ++ t, rfl⟩

theorem not_isOption_up {s : Str} (h : ¬ isOption s) : ¬ isOption (up s) := by
  obtain ⟨hs, -⟩ | ⟨hs, -⟩ | ⟨-, hpre, -⟩ := dirname_cases s
  · simp [up, hs, isOption, show cmdSubst ['/'] = ['/'] from rfl]
  · simp [up, hs, isOption, show cmdSubst ['.'] = ['.'] from rfl]
  · exact fun hup => h (isOption_of_isPrefix ((cmdSubst_isPrefix _).trans hpre) hup)

theorem not_isOption_up_iter {s : Str} (h : ¬ isOption s) (i : Nat) : ¬ isOption (up^[i] s) := by
  induction i generalizing s with
  | zero => exact h
  | succ i ih =>
    rw [Function.iterate_succ_apply]
    exact ih (not_isOption_up h)

theorem not_isOption_of_rooted {s : Str} (h : Rooted s) : ¬ isOption s := by
  obtain ⟨s, rfl⟩ := rooted_iff.mp h
  simp [isOption]

/-! ## When the loop ends -/

/-- One turn: up, out, or out with the status of `dirname`. -/
theorem climb_cases (m : Matcher) (target : Str) (s : Climb) :
    climb m target s = .again ⟨up s.commonPart, ['.', '.', '/'] ++ s.result⟩ ∨
      climb m target s = .leave (.ok s) ∨ climb m target s = .leave (.error 1) := by
  unfold climb dirnameCommand
  by_cases h : m.dropPrefix s.commonPart target = target
  · rw [if_pos h]
    by_cases hopt : isOption s.commonPart = true
    · exact .inr (.inr (by rw [if_pos hopt]))
    · exact .inl (by rw [if_neg hopt]; rfl)
  · exact .inr (.inl (if_neg h))

/-- The `i`-th state of the loop. -/
def climbed (start : Str) (i : Nat) : Climb :=
  ⟨up^[i] start, (List.replicate i ['.', '.', '/']).flatten⟩

theorem climb_leaves {m : Matcher} {start target : Str} {i : Nat}
    (h : m.Strips (up^[i] start) target) :
    climb m target (climbed start i) = .leave (.ok (climbed start i)) :=
  if_neg h

theorem climb_again {m : Matcher} {start target : Str} {i : Nat} (hopt : ¬ isOption start)
    (h : ¬ m.Strips (up^[i] start) target) :
    climb m target (climbed start i) = .again (climbed start (i + 1)) := by
  have hsame : m.dropPrefix (up^[i] start) target = target := not_not.mp h
  have hprinted : dirnameCommand (up^[i] start) = .ok (dirname (up^[i] start)) :=
    if_neg (not_isOption_up_iter hopt i)
  have hstep : climb m target (climbed start i) =
      .again ⟨up (up^[i] start), ['.', '.', '/'] ++ (climbed start i).result⟩ := by
    show (if m.dropPrefix (up^[i] start) target = target then _ else _) = _
    rw [if_pos hsame]
    show (match dirnameCommand (up^[i] start) with
      | .error status => _
      | .ok printed => _) = _
    rw [hprinted]
    rfl
  rw [hstep, ← Function.iterate_succ_apply' up]
  rfl

/-- Where `dirname` takes the start for an option the loop does not get round. -/
theorem climb_halts_of_isOption (m : Matcher) {start : Str} (target : Str)
    (h : isOption start = true) : Halts (climb m target) ⟨start, []⟩ := by
  by_cases hstrips : m.dropPrefix start target = target
  · refine ⟨.error 1, .of_leave ?_⟩
    unfold climb dirnameCommand
    rw [if_pos hstrips, if_pos h]
  · exact ⟨.ok ⟨start, []⟩, .of_leave (if_neg hstrips)⟩

/-- Otherwise it ends iff one of the directories it passes strips the target. -/
theorem climb_halts_iff_strips (m : Matcher) {start : Str} (target : Str)
    (hopt : ¬ isOption start) :
    Halts (climb m target) ⟨start, []⟩ ↔ ∃ i, m.Strips (up^[i] start) target := by
  refine (halts_iff_orbit (climbed start) fun j => ?_).trans ⟨?_, ?_⟩
  · by_cases h : m.Strips (up^[j] start) target
    · exact .inr ⟨_, climb_leaves h⟩
    · exact .inl (climb_again hopt h)
  · intro h
    obtain ⟨i, r, hr⟩ := h
    refine ⟨i, ?_⟩
    by_contra h
    simp [climb_again hopt h] at hr
  · intro h
    obtain ⟨i, h⟩ := h
    exact ⟨i, _, climb_leaves h⟩

/-- It then ends at the first of them. -/
theorem climb_returns {m : Matcher} {start target : Str} {i : Nat} (hopt : ¬ isOption start)
    (hfirst : ∀ j < i, ¬ m.Strips (up^[j] start) target) (h : m.Strips (up^[i] start) target) :
    Returns (climb m target) ⟨start, []⟩ (.ok (climbed start i)) :=
  ⟨i + 1, run_of_orbit (climbed start) (fun j hj => climb_again hopt (hfirst j hj))
    (climb_leaves h)⟩

theorem ordinary_slash : ∀ c ∈ ['/'], ordinary c := ordinary_singleton rfl

/-- The root strips exactly the rooted targets. -/
theorem strips_root_iff (m : Matcher) (target : Str) : m.Strips ['/'] target ↔ Rooted target := by
  rw [Matcher.strips_plain_iff ordinary_slash, rooted_iff]
  simp [List.cons_prefix_iff]

/-- The current directory strips exactly the targets that start with a dot. -/
theorem strips_dot_iff (m : Matcher) (target : Str) :
    m.Strips ['.'] target ↔ target.head? = some '.' := by
  rw [Matcher.strips_plain_iff (ordinary_singleton rfl)]
  cases target with
  | nil => simp
  | cons c s => simp [eq_comm]

/-- A rooted directory strips rooted targets only. -/
theorem rooted_of_strips {m : Matcher} {dir target : Str} (hdir : Rooted dir)
    (h : m.Strips dir target) : Rooted target := by
  obtain ⟨s, rfl⟩ := rooted_iff.mp hdir
  exact Matcher.head_of_strips rfl h

theorem exists_strips_of_rooted (m : Matcher) {start target : Str} (hstart : Rooted start) :
    (∃ i, m.Strips (up^[i] start) target) ↔ Rooted target := by
  constructor
  · intro h
    obtain ⟨i, h⟩ := h
    exact rooted_of_strips ((rooted_up_iter i start).mpr hstart) h
  · intro htarget
    obtain ⟨i, hi⟩ := exists_up_iter_eq_root start hstart
    exact ⟨i, by rw [hi, strips_root_iff]; exact htarget⟩

theorem exists_strips_of_not_rooted (m : Matcher) {start target : Str} (hstart : ¬ Rooted start) :
    (∃ i, m.Strips (up^[i] start) target) ↔
      target.head? = some '.' ∨
        ∃ i ≤ start.length, up^[i] start ≠ ['.'] ∧ m.Strips (up^[i] start) target := by
  constructor
  · intro h
    obtain ⟨i, h⟩ := h
    by_cases hdot : up^[i] start = ['.']
    · rw [hdot, strips_dot_iff] at h
      exact .inl h
    · have hlen := (up_iter_of_not_rooted hstart i).resolve_left hdot
      exact .inr ⟨i, by omega, hdot, h⟩
  · intro h
    rcases h with hdot | ⟨i, -, -, h⟩
    · -- more turns than the start has characters
      obtain h | h := up_iter_of_not_rooted hstart (start.length + 1)
      · exact ⟨start.length + 1, by rw [h, strips_dot_iff]; exact hdot⟩
      · omega
    · exact ⟨i, h⟩

/-- The loop of `torelpath` ends exactly if `dirname` takes the start for an
option, or both paths are rooted, or the start is not and the target begins
with a dot or is stripped by one of the start's directories. -/
theorem climb_halts_iff (m : Matcher) (start target : Str) :
    Halts (climb m target) ⟨start, []⟩ ↔
      isOption start ∨ (Rooted start ∧ Rooted target) ∨
        (¬ Rooted start ∧
          (target.head? = some '.' ∨
            ∃ i ≤ start.length, up^[i] start ≠ ['.'] ∧ m.Strips (up^[i] start) target)) := by
  by_cases hopt : isOption start = true
  · exact iff_of_true (climb_halts_of_isOption m target hopt) (.inl hopt)
  rw [climb_halts_iff_strips m target hopt]
  by_cases hstart : Rooted start
  · rw [exists_strips_of_rooted m hstart]
    simp [hopt, hstart]
  · rw [exists_strips_of_not_rooted m hstart]
    simp [hopt, hstart]

/-- `--prefix=usr --libdir=/usr/lib`: the first use of `torelpath` climbs to
the root and stays there. -/
theorem climb_not_halts_relative_prefix :
    ¬ Halts (climb Lib.Pattern.posix "usr".toList) ⟨"/usr/lib".toList, []⟩ := by
  rw [climb_halts_iff_strips _ _ (by decide)]
  intro h
  obtain ⟨i, h⟩ := h
  have hrooted : Rooted (up^[i] "/usr/lib".toList) := (rooted_up_iter i _).mpr (by decide)
  exact absurd (rooted_of_strips hrooted h) (by decide)

end CmakeXenomai.Install
