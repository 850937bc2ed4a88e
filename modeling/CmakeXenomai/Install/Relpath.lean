import CmakeXenomai.Install.Torelpath

/-!
# What torelpath prints

For normalised absolute paths the loop of `torelpath` always ends, and what is
printed resolves to: climb `i` directories from the start, then append what the
pattern of the loop left of the target (`walk_finish`). The two belong together
only when the stripped part of the target is the directory the climb stands
in, which string prefixes and patterns do not promise. `Lands` says exactly when they do.
-/

namespace CmakeXenomai.Install

open Lib.Loop Lib.Path
open Lib.Pattern (Matcher ordinary)

/-! ## Resolving what is printed -/

theorem walk_dropPrefix_slash (m : Matcher) (stack : List Str) (s : Str) :
    walk stack (m.dropPrefix ['/'] s) = walk stack s := by
  by_cases h : ['/'] <+: s
  · obtain ⟨s, rfl⟩ := h
    rw [Matcher.dropPrefix_plain ordinary_slash]
    exact (walk_slash stack s).symm
  · rw [Matcher.dropPrefix_of_not_isPrefix ordinary_slash h]

theorem walk_dropSuffix_slash (m : Matcher) (stack : List Str) (s : Str) :
    walk stack (m.dropSuffix ['/'] s) = walk stack s := by
  by_cases h : ['/'] <:+ s
  · obtain ⟨s, rfl⟩ := h
    rw [Matcher.dropSuffix_char rfl]
    exact (walk_append_slash stack s).symm
  · rw [Matcher.dropSuffix_char_of_not rfl h]

theorem walk_dotdots (stack : List Str) (i : Nat) (s : Str) :
    walk stack ((List.replicate i ['.', '.', '/']).flatten ++ s) = walk (stack.drop i) s := by
  induction i generalizing stack with
  | zero => rfl
  | succ i ih =>
    have hsplit : (List.replicate (i + 1) ['.', '.', '/']).flatten ++ s =
        ['.', '.'] ++ '/' :: ((List.replicate i ['.', '.', '/']).flatten ++ s) := by
      simp [List.replicate_succ]
    have hup : walk stack ['.', '.'] = stack.tail := by
      rw [walk_of_no_slash stack (by decide), push_dotdot]
    rw [hsplit, walk_join, hup, ih, List.drop_tail]

/-- The printed path, after `i` turns of the loop: `i` directories up, then
what the pattern left of the target. -/
theorem walk_finish {m : Matcher} {start pre rest : Str} {i : Nat}
    (h : m.shortest (up^[i] start) (pre ++ rest) = some pre) (stack : List Str) :
    walk stack (finish m (pre ++ rest) (climbed start i)) = walk (stack.drop i) rest := by
  unfold finish climbed
  simp only
  rw [walk_dropSuffix_slash, walk_dotdots, walk_dropPrefix_slash, Matcher.dropPrefix_of_shortest h]

/-- `torelpath` stops after `i` turns, having found `pre` at the front of the
target. -/
structure StopsAt (m : Matcher) (start target : Str) (i : Nat) (pre : Str) : Prop where
  first : ∀ j < i, ¬ m.Strips (up^[j] start) target
  shortest : m.shortest (up^[i] start) target = some pre
  ne_nil : pre ≠ []

theorem StopsAt.strips {m : Matcher} {start target pre : Str} {i : Nat}
    (h : StopsAt m start target i pre) : m.Strips (up^[i] start) target := by
  obtain ⟨-, rest, hrest⟩ := Matcher.shortest_spec h.shortest
  exact Matcher.strips_iff.mpr ⟨pre, rest, h.ne_nil, hrest.symm, h.shortest⟩

theorem exists_stopsAt {m : Matcher} {start target : Str}
    (h : ∃ i, m.Strips (up^[i] start) target) : ∃ i pre, StopsAt m start target i pre := by
  classical
  obtain ⟨pre, -, hne, -, hpre⟩ := Matcher.strips_iff.mp (Nat.find_spec h)
  exact ⟨Nat.find h, pre, fun j hj => Nat.find_min h hj, hpre, hne⟩

theorem StopsAt.prints_iff {m : Matcher} {start target pre : Str} {i : Nat}
    (h : StopsAt m start target i pre) (hstart : Rooted start) (htarget : target ≠ []) (r : Str) :
    Prints m start target r ↔ finish m target (climbed start i) = r := by
  have hne : start ≠ [] := by
    rintro rfl
    cases hstart
  rw [Install.prints_iff hne htarget]
  have hret := climb_returns (not_isOption_of_rooted hstart) h.first h.strips
  refine ⟨?_, ?_⟩
  · intro hprints
    obtain ⟨s, hs, hr⟩ := hprints
    rw [Except.ok.inj (hret.unique hs)]
    exact hr
  · exact fun hr => ⟨_, hret, hr⟩

/-- Rooted paths always have a place where the loop stops. -/
theorem exists_stopsAt_of_rooted (m : Matcher) {start target : Str} (hstart : Rooted start)
    (htarget : Rooted target) : ∃ i pre, StopsAt m start target i pre := by
  exact exists_stopsAt ((exists_strips_of_rooted m hstart).mpr htarget)

/-- The loop builds its result of dots and slashes. -/
def DotsOnly (s : Climb) : Prop :=
  ∀ x ∈ s.result, x = '.' ∨ x = '/'

/-- What is printed consists of dots, slashes and characters of the target. -/
theorem Prints.mem {m : Matcher} {start target r : Str} (h : Prints m start target r) {x : Char}
    (hx : x ∈ r) : x = '.' ∨ x = '/' ∨ x ∈ target := by
  by_cases hne : start ≠ [] ∧ target ≠ []
  · obtain ⟨s, ⟨fuel, hrun⟩, rfl⟩ := (Install.prints_iff hne.1 hne.2 r).mp h
    have hresult : DotsOnly s := by
      refine run_inv (I := DotsOnly) (Q := fun e : Except Nat Climb => ∀ s, e = .ok s → DotsOnly s)
        ?_ ?_ fuel ⟨start, []⟩ (.ok s) ?_ hrun s rfl
      · intro s s' hs hbody
        rcases climb_cases m target s with h | h | h
        · obtain rfl := Turn.again.inj (h.symm.trans hbody)
          intro y hy
          rcases List.mem_append.mp hy with hy | hy
          · simpa [or_comm] using hy
          · exact hs y hy
        · cases h.symm.trans hbody
        · cases h.symm.trans hbody
      · rintro s _ hs hbody s' rfl
        rcases climb_cases m target s with h | h | h
        · cases h.symm.trans hbody
        · obtain rfl := Except.ok.inj (Turn.leave.inj (h.symm.trans hbody))
          exact hs
        · cases h.symm.trans hbody
      · intro y hy
        cases hy
    have hmem := (Matcher.dropSuffix_isPrefix m _ _).subset hx
    rcases List.mem_append.mp hmem with hmem | hmem
    · rcases hresult x hmem with hx | hx
      · exact .inl hx
      · exact .inr (.inl hx)
    · exact .inr (.inr ((Matcher.dropPrefix_isSuffix m _ _).subset
        ((Matcher.dropPrefix_isSuffix m _ _).subset hmem)))
  · obtain ⟨fuel, hfuel⟩ := h
    simp [torelpath, hne] at hfuel

/-! ## The printed path is relative -/

theorem not_rooted_dropPrefix_slash (m : Matcher) {s : Str} (h : ¬ ['/', '/'] <+: s) :
    ¬ Rooted (m.dropPrefix ['/'] s) := by
  by_cases hs : ['/'] <+: s
  · obtain ⟨s, rfl⟩ := hs
    rw [Matcher.dropPrefix_plain ordinary_slash, rooted_iff]
    intro h
    obtain ⟨s', rfl⟩ := h
    exact h ⟨s', rfl⟩
  · rw [Matcher.dropPrefix_of_not_isPrefix ordinary_slash hs, rooted_iff]
    intro h
    obtain ⟨s', rfl⟩ := h
    exact hs ⟨s', rfl⟩

theorem not_rooted_finish {m : Matcher} {start pre rest : Str} {i : Nat}
    (h : m.shortest (up^[i] start) (pre ++ rest) = some pre) (hrest : ¬ ['/', '/'] <+: rest) :
    ¬ Rooted (finish m (pre ++ rest) (climbed start i)) := by
  intro hrooted
  have hne : finish m (pre ++ rest) (climbed start i) ≠ [] := by
    intro hnil
    simp [hnil, Rooted] at hrooted
  have hbefore := (rooted_of_isPrefix (Matcher.dropSuffix_isPrefix m _ _) hne).mp hrooted
  have hforward : m.dropPrefix (climbed start i).commonPart (pre ++ rest) = rest :=
    Matcher.dropPrefix_of_shortest h
  rw [hforward] at hbefore
  cases i with
  | zero => exact not_rooted_dropPrefix_slash m hrest hbefore
  | succ i => simp [climbed, List.replicate_succ, Rooted] at hbefore

/-- A normalised path has no two slashes in a row. -/
theorem not_double_slash {target : AbsPath} {pre rest : Str} (h : target.str = pre ++ rest)
    (hpre : pre ≠ []) : ¬ ['/', '/'] <+: rest := by
  intro h
  obtain ⟨s, rfl⟩ := h
  unfold AbsPath.str absStr at h
  by_cases hroot : target.comps = []
  · rw [if_pos hroot] at h
    have hlen := congrArg List.length h
    simp at hlen
    omega
  · rw [if_neg hroot] at h
    obtain ⟨l, u, w, r, hcomps, -, hrest⟩ := body_cut h.symm hpre
    have hw : '/' ∉ u ++ w := target.no_slash _ (by simp [hcomps])
    cases w with
    | cons c w =>
      obtain ⟨rfl, -⟩ := List.cons.inj hrest
      exact hw (by simp)
    | nil =>
      cases r with
      | nil => simp at hrest
      | cons c r =>
        have hc := target.names c (by simp [hcomps])
        obtain ⟨y, c, rfl⟩ := List.exists_cons_of_ne_nil hc.ne_nil
        simp only [List.nil_append, body_cons, List.cons_append, List.cons.injEq, true_and] at hrest
        exact hc.no_slash (by simp [← hrest.1])

/-! ## Where it leads -/

/-- The stripped part `pre` of the target is the directory `dir` the climb
stands in, as far as resolving the rest can tell: the rest begins after `dir`,
or with a `.` that a pattern left behind, or with such a `..` when the target
is beside `dir`. -/
inductive Lands (dir : AbsPath) (pre : Str) (target : AbsPath) : Prop where
  | inside (h : dir.comps <+: target.comps)
      (hpre : pre = dir.str ∨ pre = dir.str ++ ['/'] ∨ pre ++ ['.'] = dir.str)
  | beside (parent : List Str) (c : Str) (hdir : dir.comps = parent ++ [c])
      (h : parent <+: target.comps) (hpre : pre ++ ['.', '.'] = body parent)

/-- Where the front `pre` of a target ends: in the component `u ++ w`, after
its part `u`. -/
structure Cut (target : AbsPath) (pre : Str) (l : List Str) (u w : Str) (r : List Str) : Prop where
  comps : target.comps = l ++ (u ++ w) :: r
  front : pre = body (l ++ [u])

namespace Cut

variable {target dir : AbsPath} {pre u w : Str} {l r : List Str} (hcut : Cut target pre l u w r)
include hcut

theorem isName : IsName (u ++ w) :=
  target.names (u ++ w) (by simp [hcut.comps])

theorem no_slash : '/' ∉ u :=
  fun h => hcut.isName.no_slash (List.mem_append_left w h)

theorem no_slash_snoc {x : Str} (hx : '/' ∉ x) : ∀ c ∈ l ++ [x], '/' ∉ c := by
  intro c hc
  rcases List.mem_append.mp hc with hc | hc
  · exact target.no_slash c (by simp [hcut.comps, hc])
  · rw [List.mem_singleton.mp hc]
    exact hx

theorem body_snoc (x : Str) : body (l ++ [u ++ x]) = pre ++ x := by
  rw [hcut.front]
  simp [body_append]

/-- A directory of the target that is cut where the target is cut ends in the
cut component. -/
theorem last {x : Str} (h : l ++ [u ++ x] <+: target.comps) : x = w := by
  rw [hcut.comps, List.prefix_append_right_inj, List.cons_prefix_cons] at h
  exact List.append_cancel_left h.1

/-- The cut before a whole component. -/
theorem push_whole (hu : u = []) (hdir : dir.comps = l) :
    push dir.comps.reverse w = (u ++ w) :: l.reverse := by
  have hw : IsName w := by simpa [hu] using hcut.isName
  rw [push_name _ hw, hdir, hu, List.nil_append]

theorem push_dir (h : dir.comps <+: target.comps) (hpre : pre = dir.str) :
    push dir.comps.reverse w = (u ++ w) :: l.reverse := by
  have hstr : dir.str = body (l ++ [u]) := hpre.symm.trans hcut.front
  rcases AbsPath.comps_of_str_eq (hcut.no_slash_snoc hcut.no_slash) hstr with hdir | ⟨hdir, rfl, hu⟩
  · rw [hdir] at h
    obtain rfl : [] = w := hcut.last (by simpa using h)
    simp [hdir, push]
  · exact hcut.push_whole hu hdir

theorem push_dir_slash (hpre : pre = dir.str ++ ['/']) :
    push dir.comps.reverse w = (u ++ w) :: l.reverse := by
  have hslash := hcut.no_slash_snoc hcut.no_slash
  have hbody : body (l ++ [u]) = dir.str ++ ['/'] := hcut.front.symm.trans hpre
  by_cases hdir : dir.comps = []
  · -- two slashes in a row would make an empty component
    have hroot : l ++ [u] = [[], []] := by
      apply body_inj hslash (by simp)
      rw [hbody, AbsPath.str_of_nil hdir]
      rfl
    cases l with
    | nil => simp at hroot
    | cons c l =>
      obtain ⟨rfl, -⟩ := List.cons.inj hroot
      exact absurd rfl (target.names [] (by simp [hcut.comps])).ne_nil
  · have hcomps : l ++ [u] = dir.comps ++ [[]] := by
      apply body_inj hslash
      · intro c hc
        rcases List.mem_append.mp hc with hc | hc
        · exact dir.no_slash c hc
        · simp [List.mem_singleton.mp hc]
      · rw [hbody, AbsPath.str_of_ne_nil hdir, body_append]
        rfl
    obtain ⟨hl, hu⟩ := List.append_inj' hcomps rfl
    exact hcut.push_whole (by simpa using hu) hl.symm

theorem push_dir_dot (h : dir.comps <+: target.comps) (hpre : pre ++ ['.'] = dir.str) :
    push dir.comps.reverse w = (u ++ w) :: l.reverse := by
  have hstr : dir.str = body (l ++ [u ++ ['.']]) := by rw [hcut.body_snoc, hpre]
  have hslash : '/' ∉ u ++ ['.'] := by simp [hcut.no_slash]
  rcases AbsPath.comps_of_str_eq (hcut.no_slash_snoc hslash) hstr with hdir | ⟨-, -, hx⟩
  · rw [hdir] at h
    obtain rfl := hcut.last h
    simp [hdir, push]
  · simp at hx

theorem push_beside {parent : List Str} {c : Str} (hdir : dir.comps = parent ++ [c])
    (h : parent <+: target.comps) (hpre : pre ++ ['.', '.'] = body parent) :
    push dir.comps.reverse w = (u ++ w) :: l.reverse := by
  have hslash : '/' ∉ u ++ ['.', '.'] := by simp [hcut.no_slash]
  have hcomps : l ++ [u ++ ['.', '.']] = parent := by
    apply body_inj (hcut.no_slash_snoc hslash)
    · exact fun c' hc' => dir.no_slash c' (by simp [hdir, hc'])
    · rw [hcut.body_snoc, hpre]
  subst hcomps
  obtain rfl := hcut.last h
  simp [push_dotdot, hdir]

theorem push_of_lands (hlands : Lands dir pre target) :
    push dir.comps.reverse w = (u ++ w) :: l.reverse := by
  cases hlands with
  | inside h hpre =>
    rcases hpre with hpre | hpre | hpre
    · exact hcut.push_dir h hpre
    · exact hcut.push_dir_slash hpre
    · exact hcut.push_dir_dot h hpre
  | beside parent c hdir h hpre => exact hcut.push_beside hdir h hpre

/-- A directory that ends in the cut component. -/
theorem dir_of_reverse (h : dir.comps.reverse = (u ++ w) :: l.reverse) :
    dir.comps <+: target.comps ∧ dir.str = pre ++ w := by
  have hdir : dir.comps = l ++ [u ++ w] := by simpa using congrArg List.reverse h
  rw [AbsPath.str_of_ne_nil (by simp [hdir]), hdir, hcut.body_snoc, hcut.comps]
  exact ⟨⟨r, by simp⟩, rfl⟩

theorem lands_of_push (h : push dir.comps.reverse w = (u ++ w) :: l.reverse) :
    Lands dir pre target := by
  by_cases hnil : w = []
  · obtain ⟨habove, hdir⟩ := hcut.dir_of_reverse (by simpa [push, hnil] using h)
    exact .inside habove (.inl (by simp [hdir, hnil]))
  by_cases hdot : w = ['.']
  · obtain ⟨habove, hdir⟩ := hcut.dir_of_reverse (by simpa [push, hdot] using h)
    exact .inside habove (.inr (.inr (by rw [hdir, hdot])))
  by_cases hdd : w = ['.', '.']
  · rw [hdd, push_dotdot] at h
    cases hrev : dir.comps.reverse with
    | nil => simp [hrev] at h
    | cons c parent =>
      rw [hrev, List.tail_cons] at h
      have hdir : dir.comps = (l ++ [u ++ ['.', '.']]) ++ [c] := by
        have hback := congrArg List.reverse hrev
        simpa [h] using hback
      refine .beside _ c hdir ⟨r, ?_⟩ (hcut.body_snoc _).symm
      rw [hcut.comps, hdd]
      simp
  · -- a component of its own, pushed onto `dir`
    have hpush : push dir.comps.reverse w = w :: dir.comps.reverse := by
      simp [push, hnil, hdot, hdd]
    rw [hpush, List.cons.injEq] at h
    obtain ⟨hw, hdir⟩ := h
    have hu : u = [] := List.self_eq_append_left.mp hw
    have hdir : dir.comps = l := List.reverse_injective hdir
    refine .inside ⟨(u ++ w) :: r, by rw [hdir, hcut.comps]⟩ ?_
    by_cases hl : l = []
    · apply Or.inl
      rw [AbsPath.str_of_nil (hdir.trans hl), hcut.front, hu, hl]
      rfl
    · apply Or.inr (Or.inl _)
      rw [AbsPath.str_of_ne_nil (hdir ▸ hl), hcut.front, hu, hdir, body_append]
      rfl

end Cut

/-- Going on from `dir` with the rest of the target ends on the target iff the
part before the rest lands on `dir`. -/
theorem walk_rest_iff (dir target : AbsPath) {pre rest : Str} (h : target.str = pre ++ rest)
    (hpre : pre ≠ []) :
    walk dir.comps.reverse rest = target.comps.reverse ↔ Lands dir pre target := by
  by_cases hroot : target.comps = []
  · obtain ⟨rfl, rfl⟩ : pre = ['/'] ∧ rest = [] := by
      have hsingle : ['/'] = pre ++ rest := (target.str_of_nil hroot).symm.trans h
      simpa [hpre, List.singleton_eq_append_iff] using hsingle
    rw [walk_nil, hroot, List.reverse_nil, List.reverse_eq_nil_iff]
    refine ⟨?_, ?_⟩
    · intro hdir
      exact .inside (by simp [hdir]) (.inl (dir.str_of_nil hdir).symm)
    · intro hlands
      cases hlands with
      | inside h _ => simpa [hroot] using h
      | beside parent c _ h hpre' =>
        rw [hroot, List.prefix_nil] at h
        simp [h] at hpre'
  · have hbody : pre ++ rest = body target.comps := by
      rw [← h]
      simp [AbsPath.str, absStr, hroot]
    obtain ⟨l, u, w, r, hcomps, hfront, rfl⟩ := body_cut hbody hpre
    have hcut : Cut target pre l u w r := ⟨hcomps, hfront⟩
    have hw : '/' ∉ w := fun hmem => hcut.isName.no_slash (List.mem_append_right u hmem)
    have hr : ∀ c ∈ r, IsName c := fun c hc => target.names c (by simp [hcomps, hc])
    have hrev : (l ++ (u ++ w) :: r).reverse = r.reverse ++ (u ++ w) :: l.reverse := by simp
    rw [walk_append_body _ hw hr, hcomps, hrev, List.append_right_inj]
    exact ⟨hcut.lands_of_push, hcut.push_of_lands⟩

/-! ## Correctness -/

theorem StopsAt.correct_iff {m : Matcher} {start target : AbsPath} {i : Nat} {pre : Str}
    (h : StopsAt m start.str target.str i pre) :
    (∃ r, Prints m start.str target.str r ∧ ¬ Rooted r ∧
        normalize (start.str ++ '/' :: r) = target.str) ↔ Lands (start.up i) pre target := by
  obtain ⟨-, rest, hrest⟩ := Matcher.shortest_spec h.shortest
  have hstr : target.str = pre ++ rest := hrest.symm
  have hshort := h.shortest
  rw [hstr] at hshort
  have hwalk : walk [] (start.str ++ '/' :: finish m target.str (climbed start.str i)) =
      walk (start.up i).comps.reverse rest := by
    rw [walk_join, start.walk_str, List.append_nil, hstr, walk_finish hshort,
      start.up_comps_reverse]
  have hdenotes : normalize (start.str ++ '/' :: finish m target.str (climbed start.str i)) =
      target.str ↔ Lands (start.up i) pre target := by
    rw [normalize_eq_str_iff, hwalk]
    exact walk_rest_iff _ target hstr h.ne_nil
  refine ⟨?_, ?_⟩
  · intro hcorrect
    obtain ⟨r, hr, -, hnorm⟩ := hcorrect
    rw [← (h.prints_iff start.rooted_str target.str_ne_nil r).mp hr] at hnorm
    exact hdenotes.mp hnorm
  · intro hlands
    refine ⟨_, (h.prints_iff start.rooted_str target.str_ne_nil _).mpr rfl, ?_, hdenotes.mpr hlands⟩
    rw [hstr]
    exact not_rooted_finish hshort (not_double_slash hstr h.ne_nil)

/-- `torelpath` prints a relative path that leads from `start` to `target`
exactly when the front of the target that stopped its loop lands on the
directory the loop had climbed to. -/
theorem torelpath_correct_iff (m : Matcher) (start target : AbsPath) :
    (∃ r, Prints m start.str target.str r ∧ ¬ Rooted r ∧
        normalize (start.str ++ '/' :: r) = target.str) ↔
      ∃ i pre, StopsAt m start.str target.str i pre ∧ Lands (start.up i) pre target := by
  refine ⟨?_, ?_⟩
  · intro h
    obtain ⟨i, pre, hstops⟩ := exists_stopsAt_of_rooted m start.rooted_str target.rooted_str
    exact ⟨i, pre, hstops, hstops.correct_iff.mp h⟩
  · intro h
    obtain ⟨i, pre, hstops, hlands⟩ := h
    exact hstops.correct_iff.mpr hlands

/-- `/opt/xeno` -/
def optXeno : AbsPath := ⟨["opt".toList, "xeno".toList], by decide⟩

/-- `/opt/xenomai/include` -/
def optXenomaiInclude : AbsPath := ⟨["opt".toList, "xenomai".toList, "include".toList], by decide⟩

/-- From `/opt/xeno` to `/opt/xenomai/include` the path printed is
`mai/include`. -/
theorem torelpath_not_correct_xeno :
    ¬ ∃ r, Prints Lib.Pattern.posix optXeno.str optXenomaiInclude.str r ∧ ¬ Rooted r ∧
      normalize (optXeno.str ++ '/' :: r) = optXenomaiInclude.str := by
  intro h
  obtain ⟨r, hr, -, hnorm⟩ := h
  have hprinted : Prints Lib.Pattern.posix optXeno.str optXenomaiInclude.str
      "mai/include".toList := ⟨1, by decide⟩
  rw [hr.unique hprinted] at hnorm
  exact absurd hnorm (by decide)

/-! ## Paths without pattern characters -/

/-- No character of the path means anything to the shell's patterns or to a
command substitution. -/
def Plain (p : AbsPath) : Prop :=
  ∀ c ∈ p.comps, ∀ x ∈ c, ordinary x ∧ x ≠ '\n'

theorem Plain.up {p : AbsPath} (h : Plain p) (i : Nat) : Plain (p.up i) :=
  fun c hc => h c (List.mem_of_mem_take hc)

theorem Plain.mem_str {p : AbsPath} (h : Plain p) {x : Char} (hx : x ∈ p.str) :
    ordinary x ∧ x ≠ '\n' := by
  rcases AbsPath.mem_str hx with rfl | ⟨c, hc, hx⟩
  · decide
  · exact h c hc x hx

theorem Plain.up_str {p : AbsPath} (h : Plain p) : Install.up p.str = (p.up 1).str := by
  unfold Install.up cmdSubst
  rw [p.dirname_str, List.rdropWhile_eq_self_iff]
  intro hne
  simpa using ((h.up 1).mem_str (List.getLast_mem hne)).2

theorem Plain.up_iter_str {p : AbsPath} (h : Plain p) (i : Nat) :
    Install.up^[i] p.str = (p.up i).str := by
  induction i with
  | zero => simp [AbsPath.up, AbsPath.take]
  | succ i ih => rw [Function.iterate_succ_apply', ih, (h.up i).up_str, p.up_up]

theorem Plain.strips_iff {m : Matcher} {p : AbsPath} (h : Plain p) (i : Nat) (target : Str) :
    m.Strips (Install.up^[i] p.str) target ↔ (p.up i).str <+: target := by
  rw [h.up_iter_str, Matcher.strips_plain_iff fun c hc => ((h.up i).mem_str hc).1]
  exact and_iff_right (p.up i).str_ne_nil

theorem Plain.stopsAt {m : Matcher} {start : AbsPath} {target pre : Str} {i : Nat}
    (h : Plain start) (hstops : StopsAt m start.str target i pre) : pre = (start.up i).str := by
  have hacc := (Matcher.shortest_spec hstops.shortest).1
  rw [h.up_iter_str] at hacc
  exact (Matcher.accepts_plain (fun c hc => ((h.up i).mem_str hc).1) pre).mp hacc

/-- Without pattern characters, `torelpath` is correct exactly when the
directories of `start` that the target begins with as a string are
directories of the target. -/
theorem torelpath_correct_plain_iff (m : Matcher) {start : AbsPath} (target : AbsPath)
    (hplain : Plain start) :
    (∃ r, Prints m start.str target.str r ∧ ¬ Rooted r ∧
        normalize (start.str ++ '/' :: r) = target.str) ↔
      ∀ i, (start.up i).str <+: target.str → (start.up i).comps <+: target.comps := by
  obtain ⟨i, pre, hstops⟩ := exists_stopsAt_of_rooted m start.rooted_str target.rooted_str
  have hpre := hplain.stopsAt hstops
  rw [hstops.correct_iff]
  refine ⟨?_, ?_⟩
  · intro hlands j hj
    have hdir : (start.up i).comps <+: target.comps := by
      cases hlands with
      | inside h _ => exact h
      | beside parent c hdir _ hbeside =>
        have hlen := congrArg List.length hbeside
        rw [hpre, AbsPath.str_of_ne_nil (by simp [hdir]), hdir, body_append] at hlen
        simp at hlen
    have hij : i ≤ j := by
      by_contra hlt
      exact hstops.first j (by omega) ((hplain.strips_iff j _).mpr hj)
    have hup := start.up_up i (j - i)
    rw [Nat.add_sub_cancel' hij] at hup
    rw [← hup]
    exact (List.take_prefix _ _).trans hdir
  · intro h
    exact .inside (h i ((hplain.strips_iff i _).mp hstops.strips)) (.inl hpre)

/-- What is printed then climbs some directories up and goes down from there,
wherever it is appended. -/
theorem prints_of_plain (m : Matcher) {start target : AbsPath} (hplain : Plain start)
    (h : ∀ i, (start.up i).str <+: target.str → (start.up i).comps <+: target.comps) :
    ∃ r i more, Prints m start.str target.str r ∧ i ≤ start.comps.length ∧
      target.comps = (start.up i).comps ++ more ∧
      ∀ stack, walk stack r = more.reverse ++ stack.drop i := by
  obtain ⟨i, pre, hstops⟩ := exists_stopsAt_of_rooted m start.rooted_str target.rooted_str
  obtain rfl := hplain.stopsAt hstops
  obtain ⟨rest, hrest⟩ := (Matcher.shortest_spec hstops.shortest).2
  obtain ⟨more, hmore⟩ := h i ⟨rest, hrest⟩
  refine ⟨_, i, more, (hstops.prints_iff start.rooted_str target.str_ne_nil _).mpr rfl, ?_,
    hmore.symm, fun stack => ?_⟩
  · by_contra hlt
    -- the root comes after as many turns as there are components
    have hroot : (start.up start.comps.length).str = ['/'] :=
      AbsPath.str_of_nil (by simp [AbsPath.up, AbsPath.take])
    refine hstops.first start.comps.length (by omega) ((hplain.strips_iff _ _).mpr ?_)
    obtain ⟨s, hs⟩ := target.str_eq_cons
    rw [hroot, hs]
    exact ⟨s, rfl⟩
  · have hshort := hstops.shortest
    rw [← hrest] at hshort ⊢
    rw [walk_finish hshort, AbsPath.walk_rest hmore.symm hrest.symm]

end CmakeXenomai.Install
