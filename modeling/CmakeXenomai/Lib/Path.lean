import Mathlib.Data.List.DropRight
import Mathlib.Tactic

/-!
# Lexical paths

Path strings, what they denote when `.`, `..` and repeated slashes are
resolved lexically, and the POSIX utility `dirname`. Resolution is a stack
walk: `walk` pushes the components of a string onto a stack of directory
names, so joining two strings with a slash is walking one after the other
(`walk_join`), and that is the only fact about string concatenation a client
needs. `AbsPath` is a normalised absolute path by construction.
-/

namespace Lib.Path

abbrev Str := List Char

/-! ## Resolving strings -/

/-- One component, onto a stack of names whose top is the last directory. -/
def push (stack : List Str) (comp : Str) : List Str :=
  if comp = [] ∨ comp = ['.'] then stack
  else if comp = ['.', '.'] then stack.tail
  else comp :: stack

/-- All components of a string, onto the stack. -/
def walk (stack : List Str) (s : Str) : List Str :=
  (s.splitOn '/').foldl push stack

/-- Components, each with its slash in front. -/
def body (comps : List Str) : Str :=
  comps.flatMap ('/' :: ·)

/-- Absolute path string of a list of components. -/
def absStr (comps : List Str) : Str :=
  if comps = [] then ['/'] else body comps

/-- Lexical normalisation of an absolute path string. -/
def normalize (s : Str) : Str :=
  absStr (walk [] s).reverse

@[simp] theorem walk_nil (stack : List Str) : walk stack [] = stack := rfl

/-- Joining with a slash is walking on. -/
theorem walk_join (stack : List Str) (a b : Str) :
    walk stack (a ++ '/' :: b) = walk (walk stack a) b := by
  unfold walk
  rw [List.splitOn_append_cons_self, List.foldl_append]

theorem walk_slash (stack : List Str) (b : Str) : walk stack ('/' :: b) = walk stack b :=
  walk_join stack [] b

theorem walk_append_slash (stack : List Str) (a : Str) : walk stack (a ++ ['/']) = walk stack a :=
  walk_join stack a []

theorem walk_of_no_slash (stack : List Str) {c : Str} (hc : '/' ∉ c) :
    walk stack c = push stack c := by
  simp [walk, List.splitOn_eq_singleton hc]

@[simp] theorem body_nil : body [] = [] := rfl

@[simp] theorem body_cons (c : Str) (comps : List Str) :
    body (c :: comps) = '/' :: (c ++ body comps) := rfl

theorem body_append (comps more : List Str) : body (comps ++ more) = body comps ++ body more :=
  List.flatMap_append

/-- Components without slashes can be read back off their string. -/
theorem splitOn_body {comps : List Str} (h : ∀ c ∈ comps, '/' ∉ c) :
    (body comps).splitOn '/' = [] :: comps := by
  induction comps using List.reverseRecOn with
  | nil => rfl
  | append_singleton comps c ih =>
    have hc := h c (by simp)
    have ih := ih fun c' hc' => h c' (List.mem_append_left _ hc')
    rw [body_append, body_cons, body_nil, List.append_nil, List.splitOn_append_cons_self, ih,
      List.splitOn_eq_singleton hc, List.cons_append]

theorem body_inj {comps comps' : List Str} (h : ∀ c ∈ comps, '/' ∉ c)
    (h' : ∀ c ∈ comps', '/' ∉ c) (heq : body comps = body comps') : comps = comps' := by
  have hsplit := splitOn_body h
  rw [heq, splitOn_body h'] at hsplit
  exact (List.cons.inj hsplit).2.symm

/-- Where a string of components is cut: inside one of them, or at its end. -/
theorem body_cut {comps : List Str} {pre rest : Str} (h : pre ++ rest = body comps)
    (hpre : pre ≠ []) :
    ∃ l u w r, comps = l ++ (u ++ w) :: r ∧ pre = body (l ++ [u]) ∧ rest = w ++ body r := by
  induction comps generalizing pre with
  | nil => simp [hpre] at h
  | cons c comps ih =>
    obtain ⟨x, pre, rfl⟩ := List.exists_cons_of_ne_nil hpre
    rw [body_cons, List.cons_append, List.cons.injEq] at h
    obtain ⟨rfl, h⟩ := h
    rcases List.append_eq_append_iff.mp h with ⟨w, rfl, rfl⟩ | ⟨pre', rfl, hrest⟩
    · exact ⟨[], pre, w, comps, by simp, by simp, rfl⟩
    · by_cases hpre' : pre' = []
      · subst hpre'
        exact ⟨[], c, [], comps, by simp, by simp, by simpa using hrest.symm⟩
      · obtain ⟨l, u, w, r, rfl, rfl, rfl⟩ := ih hrest.symm hpre'
        exact ⟨c :: l, u, w, r, by simp, by simp, rfl⟩

/-! ## Normalised absolute paths -/

/-- A directory name: a component that resolution keeps. -/
structure IsName (c : Str) : Prop where
  ne_nil : c ≠ []
  no_slash : '/' ∉ c
  ne_dot : c ≠ ['.']
  ne_dotdot : c ≠ ['.', '.']

instance (c : Str) : Decidable (IsName c) :=
  decidable_of_iff (c ≠ [] ∧ '/' ∉ c ∧ c ≠ ['.'] ∧ c ≠ ['.', '.'])
    ⟨fun h => ⟨h.1, h.2.1, h.2.2.1, h.2.2.2⟩,
      fun h => ⟨h.ne_nil, h.no_slash, h.ne_dot, h.ne_dotdot⟩⟩

theorem push_name (stack : List Str) {c : Str} (hc : IsName c) : push stack c = c :: stack := by
  unfold push
  rw [if_neg (by simp [hc.ne_nil, hc.ne_dot]), if_neg hc.ne_dotdot]

theorem push_dotdot (stack : List Str) : push stack ['.', '.'] = stack.tail := by
  simp [push]

theorem foldl_push_names (stack : List Str) {comps : List Str} (h : ∀ c ∈ comps, IsName c) :
    comps.foldl push stack = comps.reverse ++ stack := by
  induction comps generalizing stack with
  | nil => rfl
  | cons c comps ih =>
    rw [List.foldl_cons, push_name stack (h c List.mem_cons_self),
      ih _ fun c' hc' => h c' (List.mem_cons_of_mem _ hc')]
    simp

/-- Names are walked one after the other. -/
theorem walk_body (stack : List Str) {comps : List Str} (h : ∀ c ∈ comps, IsName c) :
    walk stack (body comps) = comps.reverse ++ stack := by
  unfold walk
  rw [splitOn_body fun c hc => (h c hc).no_slash, List.foldl_cons]
  exact foldl_push_names stack h

/-- A walk leaves names on the stack, whatever the string. -/
theorem walk_names (s : Str) {stack : List Str} (hstack : ∀ c ∈ stack, IsName c) :
    ∀ c ∈ walk stack s, IsName c := by
  have hpush : ∀ (stack : List Str) (comp : Str), (∀ c ∈ stack, IsName c) → '/' ∉ comp →
      ∀ c ∈ push stack comp, IsName c := by
    intro stack comp hstack hcomp c hc
    unfold push at hc
    split at hc
    · exact hstack c hc
    · rename_i hne
      split at hc
      · exact hstack c (List.mem_of_mem_tail hc)
      · rename_i hdd
        rcases List.mem_cons.mp hc with rfl | hc
        · exact ⟨fun h => hne (.inl h), hcomp, fun h => hne (.inr h), hdd⟩
        · exact hstack c hc
  induction hn : s.length using Nat.strong_induction_on generalizing s stack with
  | _ n ih =>
    by_cases hs : '/' ∈ s
    · obtain ⟨a, b, rfl, ha⟩ := List.eq_append_cons_of_mem hs
      rw [walk_join, walk_of_no_slash stack ha]
      exact ih b.length (by simp at hn; omega) b (hpush stack a hstack ha) rfl
    · rw [walk_of_no_slash stack hs]
      exact hpush stack s hstack hs

/-- What is new on the stack is part of the string. -/
theorem mem_walk {stack : List Str} {s c : Str} (h : c ∈ walk stack s) :
    c ∈ stack ∨ ∀ x ∈ c, x ∈ s := by
  have hpush : ∀ {stack : List Str} {comp c : Str}, c ∈ push stack comp → c ∈ stack ∨ c = comp := by
    intro stack comp c hc
    unfold push at hc
    split at hc
    · exact .inl hc
    · split at hc
      · exact .inl (List.mem_of_mem_tail hc)
      · exact (List.mem_cons.mp hc).symm
  induction hn : s.length using Nat.strong_induction_on generalizing s stack with
  | _ n ih =>
    by_cases hs : '/' ∈ s
    · obtain ⟨a, b, rfl, ha⟩ := List.eq_append_cons_of_mem hs
      rw [walk_join, walk_of_no_slash stack ha] at h
      rcases ih b.length (by simp at hn; omega) h rfl with hc | hc
      · rcases hpush hc with hc | rfl
        · exact .inl hc
        · exact .inr fun x hx => List.mem_append_left _ hx
      · exact .inr fun x hx => List.mem_append_right _ (List.mem_cons_of_mem _ (hc x hx))
    · rw [walk_of_no_slash stack hs] at h
      rcases hpush h with hc | rfl
      · exact .inl hc
      · exact .inr fun _ hx => hx

/-- A first component that need not be a name, then names. -/
theorem walk_append_body (stack : List Str) {w : Str} {comps : List Str} (hw : '/' ∉ w)
    (h : ∀ c ∈ comps, IsName c) :
    walk stack (w ++ body comps) = comps.reverse ++ push stack w := by
  cases comps with
  | nil => simp [walk_of_no_slash stack hw]
  | cons c comps =>
    rw [body_cons, walk_join, walk_of_no_slash stack hw, ← walk_slash, ← body_cons, walk_body _ h]

/-- A normalised absolute path: names only, from the root down. -/
structure AbsPath where
  comps : List Str
  names : ∀ c ∈ comps, IsName c

namespace AbsPath

/-- The path as a string; no slash at the end unless it is the root's. -/
def str (p : AbsPath) : Str := absStr p.comps

/-- The first `n` components. -/
def take (p : AbsPath) (n : Nat) : AbsPath :=
  ⟨p.comps.take n, fun c hc => p.names c (List.mem_of_mem_take hc)⟩

/-- `i` directories up; the root is its own parent. -/
def up (p : AbsPath) (i : Nat) : AbsPath := p.take (p.comps.length - i)

theorem up_comps_reverse (p : AbsPath) (i : Nat) :
    (p.up i).comps.reverse = p.comps.reverse.drop i :=
  List.drop_reverse.symm

theorem up_up (p : AbsPath) (i j : Nat) : (p.up i).up j = p.up (i + j) := by
  have h : min (p.comps.length - i) p.comps.length = p.comps.length - i := by omega
  simp only [up, take, List.length_take, h, List.take_take, mk.injEq]
  congr 1
  omega

theorem no_slash (p : AbsPath) : ∀ c ∈ p.comps, '/' ∉ c :=
  fun c hc => (p.names c hc).no_slash

theorem str_of_nil {p : AbsPath} (h : p.comps = []) : p.str = ['/'] := by
  simp [str, absStr, h]

theorem str_of_ne_nil {p : AbsPath} (h : p.comps ≠ []) : p.str = body p.comps := by
  simp [str, absStr, h]

theorem walk_str (p : AbsPath) (stack : List Str) :
    walk stack p.str = p.comps.reverse ++ stack := by
  by_cases h : p.comps = []
  · rw [str_of_nil h, h]
    exact walk_slash stack []
  · rw [str_of_ne_nil h]
    exact walk_body stack p.names

theorem str_inj {p q : AbsPath} (h : p.str = q.str) : p.comps = q.comps := by
  have hwalk := p.walk_str []
  rw [h, walk_str] at hwalk
  simpa using hwalk.symm

/-- Every path string starts with the slash. -/
theorem str_eq_cons (p : AbsPath) : ∃ s, p.str = '/' :: s := by
  unfold str absStr
  cases p.comps with
  | nil => exact ⟨[], rfl⟩
  | cons c comps => exact ⟨_, rfl⟩

theorem mem_str {p : AbsPath} {x : Char} (h : x ∈ p.str) : x = '/' ∨ ∃ c ∈ p.comps, x ∈ c := by
  by_cases hp : p.comps = []
  · rw [str_of_nil hp] at h
    exact .inl (List.mem_singleton.mp h)
  · rw [str_of_ne_nil hp] at h
    obtain ⟨c, hc, hx⟩ := List.mem_flatMap.mp h
    rcases List.mem_cons.mp hx with rfl | hx
    · exact .inl rfl
    · exact .inr ⟨c, hc, hx⟩

theorem str_isPrefix {p q : AbsPath} (h : p.comps <+: q.comps) : p.str <+: q.str := by
  by_cases hp : p.comps = []
  · obtain ⟨s, hs⟩ := q.str_eq_cons
    rw [str_of_nil hp, hs]
    exact ⟨s, rfl⟩
  · obtain ⟨more, hmore⟩ := h
    have hq : q.comps ≠ [] := by simp [← hmore, hp]
    rw [str_of_ne_nil hp, str_of_ne_nil hq, ← hmore, body_append]
    exact List.prefix_append _ _

/-- Walking a string that ends in a path is walking the path last. -/
theorem walk_append_str (p : AbsPath) (stack : List Str) (s : Str) :
    walk stack (s ++ p.str) = p.comps.reverse ++ walk stack s := by
  obtain ⟨s', hs'⟩ := p.str_eq_cons
  rw [← p.walk_str, hs', walk_join, walk_slash]

/-- The components can be read back off the string, but for the root's. -/
theorem comps_of_str_eq {p : AbsPath} {l : List Str} {x : Str} (hslash : ∀ c ∈ l ++ [x], '/' ∉ c)
    (h : p.str = body (l ++ [x])) : p.comps = l ++ [x] ∨ p.comps = [] ∧ l = [] ∧ x = [] := by
  by_cases hp : p.comps = []
  · have hroot : [[]] = l ++ [x] := by
      apply body_inj (by simp) hslash
      rw [← h, str_of_nil hp]
      rfl
    cases l with
    | nil => exact .inr ⟨hp, rfl, by simpa using hroot.symm⟩
    | cons c l => simp at hroot
  · rw [str_of_ne_nil hp] at h
    exact .inl (body_inj p.no_slash hslash h)

/-- Below `p`, what a path has after `p` in its string are the components it
has after those of `p`. -/
theorem walk_rest {p q : AbsPath} {more : List Str} {rest : Str}
    (hcomps : q.comps = p.comps ++ more) (hstr : q.str = p.str ++ rest) (stack : List Str) :
    walk stack rest = more.reverse ++ stack := by
  have hmore : ∀ c ∈ more, IsName c := fun c hc => q.names c (by simp [hcomps, hc])
  by_cases hp : p.comps = []
  · rw [hp, List.nil_append] at hcomps
    rw [str_of_nil hp] at hstr
    by_cases hm : more = []
    · rw [str_of_nil (hcomps.trans hm)] at hstr
      obtain rfl : rest = [] := by simpa using hstr
      simp [hm]
    · have hbody : body more = '/' :: rest := by
        rw [← hcomps, ← str_of_ne_nil (hcomps ▸ hm), hstr]
        rfl
      rw [← walk_slash, ← hbody, walk_body stack hmore]
  · have hq : q.comps ≠ [] := by simp [hcomps, hp]
    have hrest : rest = body more := by
      rw [str_of_ne_nil hq, str_of_ne_nil hp, hcomps, body_append] at hstr
      exact (List.append_cancel_left hstr).symm
    rw [hrest, walk_body stack hmore]

theorem str_ne_nil (p : AbsPath) : p.str ≠ [] := by
  obtain ⟨s, hs⟩ := p.str_eq_cons
  simp [hs]

end AbsPath

/-- The path a string denotes. -/
def resolve (s : Str) : AbsPath :=
  ⟨(walk [] s).reverse, fun c hc => walk_names s (by simp) c (List.mem_reverse.mp hc)⟩

theorem normalize_eq_str (s : Str) : normalize s = (resolve s).str := rfl

theorem walk_normalize (s : Str) : walk [] (normalize s) = walk [] s := by
  rw [normalize_eq_str, AbsPath.walk_str]
  simp [resolve]

/-- A string normalises to a path iff the walk ends on its components. -/
theorem normalize_eq_str_iff (s : Str) (p : AbsPath) :
    normalize s = p.str ↔ walk [] s = p.comps.reverse := by
  rw [normalize_eq_str]
  constructor
  · intro h
    have hcomps : (walk [] s).reverse = p.comps := AbsPath.str_inj h
    rw [← hcomps, List.reverse_reverse]
  · intro h
    unfold AbsPath.str resolve
    simp only [h, List.reverse_reverse]

/-- Strings normalise alike iff their walks agree. -/
theorem normalize_eq_iff (s s' : Str) : normalize s = normalize s' ↔ walk [] s = walk [] s' := by
  rw [normalize_eq_str s', normalize_eq_str_iff]
  simp [resolve]

/-! ## The utility dirname -/

/-- `dirname` of its operand, step by step as POSIX has it: strings of slashes
only, the trailing slashes, the last component, the slashes before it. -/
def dirname (s : Str) : Str :=
  if s ≠ [] ∧ s.all (· = '/') then ['/']
  else
    let s := s.rdropWhile (· = '/')
    if '/' ∉ s then ['.']
    else
      let s := (s.rdropWhile (· ≠ '/')).rdropWhile (· = '/')
      if s = [] then ['/'] else s

/-- The string starts at the root. -/
def Rooted (s : Str) : Prop := s.head? = some '/'

instance (s : Str) : Decidable (Rooted s) := inferInstanceAs (Decidable (s.head? = some '/'))

theorem rooted_iff {s : Str} : Rooted s ↔ ∃ s', s = '/' :: s' := by
  unfold Rooted
  cases s <;> simp

theorem AbsPath.rooted_str (p : AbsPath) : Rooted p.str :=
  rooted_iff.mpr p.str_eq_cons

/-- A nonempty leading part starts where the string starts. -/
theorem rooted_of_isPrefix {s s' : Str} (h : s' <+: s) (hne : s' ≠ []) : Rooted s' ↔ Rooted s := by
  obtain ⟨t, rfl⟩ := h
  obtain ⟨c, s', rfl⟩ := List.exists_cons_of_ne_nil hne
  simp [Rooted]

/-- Dropping from the end stops at the last character to keep. -/
theorem rdropWhile_append (p : Char → Bool) (a : Str) {x : Char} {b : Str} (hx : ¬ p x)
    (hb : ∀ y ∈ b, p y) : (a ++ x :: b).rdropWhile p = a ++ [x] := by
  induction b using List.reverseRecOn with
  | nil => exact List.rdropWhile_concat_neg p a x hx
  | append_singleton b y ih =>
    have hassoc : a ++ x :: (b ++ [y]) = (a ++ x :: b) ++ [y] := by simp
    rw [hassoc, List.rdropWhile_concat_pos p _ y (hb y (by simp))]
    exact ih fun y' hy' => hb y' (List.mem_append_left _ hy')

theorem rooted_of_slashes {s : Str} (hne : s ≠ []) (hs : ∀ c ∈ s, c = '/') : Rooted s := by
  obtain ⟨c, s, rfl⟩ := List.exists_cons_of_ne_nil hne
  have hc : c = '/' := hs c List.mem_cons_self
  simp [Rooted, hc]

/-- What is left without the last component and the slashes before it: less,
and nothing only below the root. -/
theorem without_last_cases {s : Str} (hslash : '/' ∈ s) :
    (s.rdropWhile (· ≠ '/')).rdropWhile (· = '/') <+: s ∧
      ((s.rdropWhile (· ≠ '/')).rdropWhile (· = '/')).length < s.length ∧
      ((s.rdropWhile (· ≠ '/')).rdropWhile (· = '/') = [] → Rooted s) := by
  obtain ⟨d, hd⟩ : ∃ d, d = s.rdropWhile (· ≠ '/') := ⟨_, rfl⟩
  have hpre : d <+: s := hd ▸ List.rdropWhile_prefix _ _
  have hne : d ≠ [] := by
    intro h
    rw [hd, List.rdropWhile_eq_nil_iff] at h
    simpa using h '/' hslash
  -- the character before the last component is a slash
  have hlast : d.getLast hne = '/' := by
    subst hd
    simpa using List.rdropWhile_last_not (fun c : Char => decide (c ≠ '/')) s hne
  have hdrop : d.rdropWhile (· = '/') = d.dropLast.rdropWhile (· = '/') := by
    conv_lhs => rw [← List.dropLast_append_getLast hne, hlast]
    exact List.rdropWhile_concat_pos _ _ _ (by simp)
  have hpre' : d.dropLast.rdropWhile (· = '/') <+: d.dropLast := List.rdropWhile_prefix _ _
  rw [← hd, hdrop]
  refine ⟨(hpre'.trans (List.dropLast_prefix d)).trans hpre, ?_, ?_⟩
  · have hle := hpre'.length_le
    have hle' := hpre.length_le
    have hpos := List.length_pos_iff.mpr hne
    rw [List.length_dropLast] at hle
    omega
  · intro hempty
    rw [List.rdropWhile_eq_nil_iff] at hempty
    have hslashes : ∀ c ∈ d, c = '/' := by
      intro c hc
      rw [← List.dropLast_append_getLast hne, hlast, List.mem_append] at hc
      rcases hc with hc | hc
      · simpa using hempty c hc
      · exact List.mem_singleton.mp hc
    exact (rooted_of_isPrefix hpre hne).mp (rooted_of_slashes hne hslashes)

/-- What `dirname` can print. -/
theorem dirname_cases (s : Str) :
    (dirname s = ['/'] ∧ Rooted s) ∨ (dirname s = ['.'] ∧ ¬ Rooted s) ∨
      (dirname s ≠ [] ∧ dirname s <+: s ∧ (dirname s).length < s.length) := by
  unfold dirname
  by_cases hall : s ≠ [] ∧ s.all (· = '/')
  · rw [if_pos hall]
    refine .inl ⟨rfl, rooted_of_slashes hall.1 fun c hc => ?_⟩
    simpa using List.all_eq_true.mp hall.2 c hc
  rw [if_neg hall]
  simp only
  -- `s'` is without its trailing slashes
  obtain ⟨s', hs'⟩ : ∃ s', s' = s.rdropWhile (· = '/') := ⟨_, rfl⟩
  have hpre : s' <+: s := hs' ▸ List.rdropWhile_prefix _ _
  rw [← hs']
  by_cases hslash : '/' ∈ s'
  · rw [if_neg (by simpa using hslash)]
    obtain ⟨hcut, hlt, hroot⟩ := without_last_cases hslash
    by_cases hempty : (s'.rdropWhile (· ≠ '/')).rdropWhile (· = '/') = []
    · rw [if_pos hempty]
      exact .inl ⟨rfl, (rooted_of_isPrefix hpre (List.ne_nil_of_mem hslash)).mp (hroot hempty)⟩
    · rw [if_neg hempty]
      exact .inr (.inr ⟨hempty, hcut.trans hpre, hlt.trans_le hpre.length_le⟩)
  · rw [if_pos hslash]
    refine .inr (.inl ⟨rfl, ?_⟩)
    intro hrooted
    by_cases hne : s' = []
    · -- a text of slashes only was the first case
      rw [hs', List.rdropWhile_eq_nil_iff] at hne
      have hs : s ≠ [] := by
        rintro rfl
        simp [Rooted] at hrooted
      exact hall ⟨hs, List.all_eq_true.mpr hne⟩
    · obtain ⟨t, ht⟩ := rooted_iff.mp ((rooted_of_isPrefix hpre hne).mpr hrooted)
      exact hslash (by simp [ht])

theorem rooted_dirname (s : Str) : Rooted (dirname s) ↔ Rooted s := by
  obtain ⟨h, hs⟩ | ⟨h, hs⟩ | ⟨hne, hpre, -⟩ := dirname_cases s
  · exact iff_of_true (by simp [h, Rooted]) hs
  · refine iff_of_false (by simp [h, Rooted]) hs
  · exact rooted_of_isPrefix hpre hne

/-- A string that ends in a name has no trailing slashes. -/
theorem rdropWhile_slash_append (a : Str) {b : Str} (hb : b ≠ []) (hslash : '/' ∉ b) :
    (a ++ b).rdropWhile (· = '/') = a ++ b := by
  obtain ⟨b, y, rfl⟩ := List.eq_nil_or_concat b |>.resolve_left hb
  have hy : y ≠ '/' := fun h => hslash (by simp [h])
  rw [List.concat_eq_append, ← List.append_assoc]
  exact List.rdropWhile_concat_neg _ _ _ (by simpa using hy)

/-- `dirname` takes off a last name and the slashes before it. -/
theorem dirname_append_name (a : Str) {c : Str} (hc : c ≠ []) (hslash : '/' ∉ c) :
    dirname (a ++ '/' :: c) =
      if a.rdropWhile (· = '/') = [] then ['/'] else a.rdropWhile (· = '/') := by
  have hchars : ∀ y ∈ c, decide (y ≠ '/') = true :=
    fun y hy => by simpa using fun h : y = '/' => hslash (h ▸ hy)
  have hnotall : ¬ (a ++ '/' :: c ≠ [] ∧ (a ++ '/' :: c).all (· = '/')) := by
    intro h
    obtain ⟨-, h⟩ := h
    obtain ⟨y, c', rfl⟩ := List.exists_cons_of_ne_nil hc
    have hy : y = '/' := by simpa using List.all_eq_true.mp h y (by simp)
    exact hslash (by simp [hy])
  have hdrop : (a ++ '/' :: c).rdropWhile (· = '/') = a ++ '/' :: c := by
    simpa using rdropWhile_slash_append (a ++ ['/']) hc hslash
  unfold dirname
  rw [if_neg hnotall]
  simp only
  rw [hdrop, if_neg (by simp), rdropWhile_append _ _ (by simp) hchars,
    List.rdropWhile_concat_pos _ _ _ (by simp)]

/-- `dirname` of a normalised path is its parent. -/
theorem AbsPath.dirname_str (p : AbsPath) : dirname p.str = (p.up 1).str := by
  obtain ⟨comps, names⟩ := p
  unfold str up take
  rcases List.eq_nil_or_concat comps with rfl | ⟨parents, c, rfl⟩
  · rfl
  · have hc := names c (by simp)
    have hstr : absStr (parents.concat c) = body parents ++ '/' :: c := by
      simp [absStr, body_append]
    have hparents : (parents.concat c).take ((parents.concat c).length - 1) = parents := by simp
    simp only [hparents]
    rw [hstr, dirname_append_name _ hc.ne_nil hc.no_slash]
    rcases List.eq_nil_or_concat parents with rfl | ⟨cs, d, rfl⟩
    · rfl
    · have hd := names d (by simp)
      have hbody : body (cs.concat d) = (body cs ++ ['/']) ++ d := by simp [body_append]
      rw [hbody, rdropWhile_slash_append _ hd.ne_nil hd.no_slash, if_neg (by simp), ← hbody]
      simp [absStr]

end Lib.Path
