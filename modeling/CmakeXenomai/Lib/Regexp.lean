import Mathlib.Tactic

/-!
# Regular expressions

Regular expressions of one branch: a sequence of pieces, each a class of
characters taken once or as often as it goes, or an assertion about the place.
One run of pieces is the group.

Matching takes what follows a piece as a function, so that a starred piece can
give characters back (`starThen`). Two ways of choosing among the matches are
built on that: the backtracking search takes the first it finds (`matchAt`),
POSIX the longest (`longestAt`), each starred piece from the left then as long
as that allows. `replaceAll` is the repeated search that starts afresh behind
each match.

What a starred piece takes is characterised by `starThen_eq_some_iff`; where
nothing needs to be given back, `starThen_run` says it directly.
-/

namespace Lib.Regexp

variable {α β : Type}

/-- An assertion looks at the characters on both sides of the place. -/
inductive Piece (α : Type) where
  | once (p : α → Bool)
  | star (p : α → Bool)
  | plus (p : α → Bool)
  | assert (f : Option α → Option α → Bool)

/-- What follows: from the character before the place and the text behind it. -/
abbrev Follow (α β : Type) := Option α → List α → Option β

/-- The character before the place that reading a text leads to. -/
def behind : Option α → List α → Option α
  | before, [] => before
  | _, c :: t => behind (some c) t

@[simp] theorem behind_nil (before : Option α) : behind before [] = before := rfl

@[simp] theorem behind_cons (before : Option α) (c : α) (t : List α) :
    behind before (c :: t) = behind (some c) t := rfl

theorem behind_append (before : Option α) (t t' : List α) :
    behind before (t ++ t') = behind (behind before t) t' := by
  induction t generalizing before with
  | nil => rfl
  | cons c t ih => exact ih (some c)

theorem exists_behind_eq_some (c : α) (t : List α) : ∃ c', behind (some c) t = some c' := by
  induction t generalizing c with
  | nil => exact ⟨c, rfl⟩
  | cons c' t ih => exact ih c'

/-! ## Matching -/

/-- As many characters of the class as what follows can do without. -/
def starThen (p : α → Bool) (k : Follow α β) : Option α → List α → Option (List α × β)
  | before, [] => (k before []).map ([], ·)
  | before, c :: s =>
    if p c then
      match starThen p k (some c) s with
      | some (t, b) => some (c :: t, b)
      | none => (k before (c :: s)).map ([], ·)
    else (k before (c :: s)).map ([], ·)

def Piece.run (k : Follow α β) : Piece α → Option α → List α → Option (List α × β)
  | once _, _, [] => none
  | once p, _, c :: s => if p c then (k (some c) s).map ([c], ·) else none
  | star p, before, s => starThen p k before s
  | plus _, _, [] => none
  | plus p, _, c :: s =>
    if p c then (starThen p k (some c) s).map fun (t, b) => (c :: t, b) else none
  | assert f, before, s => if f before s.head? then (k before s).map ([], ·) else none

/-- What a sequence of pieces takes, with what follows. -/
def runAll (k : Follow α β) : List (Piece α) → Option α → List α → Option (List α × β)
  | [], before, s => (k before s).map ([], ·)
  | x :: xs, before, s => (x.run (runAll k xs) before s).map fun (t, t', b) => (t ++ t', b)

structure Regex (α : Type) where
  lead : List (Piece α)
  group : List (Piece α)
  trail : List (Piece α)

/-- The texts of the three parts, and what is behind the match. -/
structure Match (α : Type) where
  lead : List α
  group : List α
  trail : List α
  rest : List α
deriving DecidableEq, Repr

def Match.text (m : Match α) : List α := m.lead ++ m.group ++ m.trail

namespace Regex

variable (r : Regex α)

/-- The first match at the place whose rest is accepted. -/
def matchTo (accept : List α → Bool) (before : Option α) (s : List α) : Option (Match α) :=
  (runAll (runAll (runAll (fun _ rest => if accept rest then some rest else none)
    r.trail) r.group) r.lead before s).map fun (a, b, c, rest) => ⟨a, b, c, rest⟩

/-- The first match at the place. -/
def matchAt : Option α → List α → Option (Match α) := r.matchTo fun _ => true

/-- The longest match at the place. -/
def longestAt (before : Option α) (s : List α) : Option (Match α) :=
  (List.range (s.length + 1)).findSome? fun left => r.matchTo (fun rest => rest.length == left)
    before s

end Regex

/-- The leftmost match, and the text skipped before it. -/
def find (at? : Option α → List α → Option (Match α)) :
    Option α → List α → Option (List α × Match α)
  | before, [] => (at? before []).map ([], ·)
  | before, c :: s =>
    match at? before (c :: s) with
    | some m => some ([], m)
    | none => (find at? (some c) s).map fun (skipped, m) => (c :: skipped, m)

/-! ## What is taken is there -/

theorem starThen_eq_append {p : α → Bool} {k : Follow α β} {before : Option α} {s t : List α}
    {b : β} (h : starThen p k before s = some (t, b)) :
    ∃ s', s = t ++ s' ∧ (∀ c ∈ t, p c) ∧ k (behind before t) s' = some b := by
  induction s generalizing before t with
  | nil =>
    obtain ⟨b', hk, hb⟩ := Option.map_eq_some_iff.mp h
    cases hb
    exact ⟨[], rfl, by simp, hk⟩
  | cons c s ih =>
    have hstop : (k before (c :: s)).map ([], ·) = some (t, b) →
        ∃ s', c :: s = t ++ s' ∧ (∀ c ∈ t, p c) ∧ k (behind before t) s' = some b := by
      intro h
      obtain ⟨b', hk, hb⟩ := Option.map_eq_some_iff.mp h
      cases hb
      exact ⟨c :: s, rfl, by simp, hk⟩
    unfold starThen at h
    split at h
    · rename_i hc
      split at h
      · rename_i t' b' hrec
        cases h
        obtain ⟨s', rfl, hall, hk⟩ := ih hrec
        exact ⟨s', rfl, by simpa [hc] using hall, hk⟩
      · exact hstop h
    · exact hstop h

theorem Piece.run_eq_append {k : Follow α β} {x : Piece α} {before : Option α} {s t : List α}
    {b : β} (h : x.run k before s = some (t, b)) :
    ∃ s', s = t ++ s' ∧ k (behind before t) s' = some b := by
  cases x with
  | once p =>
    cases s with
    | nil => cases h
    | cons c s =>
      simp only [Piece.run] at h
      split at h
      · obtain ⟨b', hk, hb⟩ := Option.map_eq_some_iff.mp h
        cases hb
        exact ⟨s, rfl, hk⟩
      · cases h
  | star p =>
    obtain ⟨s', hs, -, hk⟩ := starThen_eq_append h
    exact ⟨s', hs, hk⟩
  | plus p =>
    cases s with
    | nil => cases h
    | cons c s =>
      simp only [Piece.run] at h
      split at h
      · obtain ⟨⟨t', b'⟩, hrec, hb⟩ := Option.map_eq_some_iff.mp h
        cases hb
        obtain ⟨s', rfl, -, hk⟩ := starThen_eq_append hrec
        exact ⟨s', rfl, hk⟩
      · cases h
  | assert f =>
    simp only [Piece.run] at h
    split at h
    · obtain ⟨b', hk, hb⟩ := Option.map_eq_some_iff.mp h
      cases hb
      exact ⟨s, rfl, hk⟩
    · cases h

theorem runAll_eq_append {k : Follow α β} {xs : List (Piece α)} {before : Option α}
    {s t : List α} {b : β} (h : runAll k xs before s = some (t, b)) :
    ∃ s', s = t ++ s' ∧ k (behind before t) s' = some b := by
  induction xs generalizing before s t with
  | nil =>
    obtain ⟨b', hk, hb⟩ := Option.map_eq_some_iff.mp h
    cases hb
    exact ⟨s, rfl, hk⟩
  | cons x xs ih =>
    obtain ⟨⟨u, v, b'⟩, hx, hb⟩ := Option.map_eq_some_iff.mp h
    cases hb
    obtain ⟨s', rfl, hxs⟩ := Piece.run_eq_append hx
    obtain ⟨s'', rfl, hk⟩ := ih hxs
    exact ⟨s'', by simp, by rw [behind_append]; exact hk⟩

theorem Regex.matchTo_eq_append {r : Regex α} {accept : List α → Bool} {before : Option α}
    {s : List α} {m : Match α} (h : r.matchTo accept before s = some m) :
    s = m.text ++ m.rest ∧ accept m.rest = true := by
  obtain ⟨⟨a, b, c, rest⟩, hrun, hm⟩ := Option.map_eq_some_iff.mp h
  cases hm
  obtain ⟨s₁, rfl, h₁⟩ := runAll_eq_append hrun
  obtain ⟨s₂, rfl, h₂⟩ := runAll_eq_append h₁
  obtain ⟨s₃, rfl, h₃⟩ := runAll_eq_append h₂
  split at h₃
  · rename_i haccept
    cases h₃
    exact ⟨by simp [Match.text], haccept⟩
  · cases h₃

theorem Regex.matchAt_eq_append {r : Regex α} {before : Option α} {s : List α} {m : Match α}
    (h : r.matchAt before s = some m) : s = m.text ++ m.rest :=
  (matchTo_eq_append h).1

theorem find_eq_append {at? : Option α → List α → Option (Match α)}
    (hat : ∀ before s m, at? before s = some m → s = m.text ++ m.rest) {before : Option α}
    {s skipped : List α} {m : Match α} (h : find at? before s = some (skipped, m)) :
    s = skipped ++ (m.text ++ m.rest) := by
  induction s generalizing before skipped with
  | nil =>
    obtain ⟨m', hm, hb⟩ := Option.map_eq_some_iff.mp h
    cases hb
    exact hat _ _ _ hm
  | cons c s ih =>
    unfold find at h
    split at h
    · rename_i m' hm
      cases h
      exact hat _ _ _ hm
    · obtain ⟨⟨skipped', m'⟩, hrec, hb⟩ := Option.map_eq_some_iff.mp h
      cases hb
      rw [ih hrec]
      rfl

theorem find_of_match {at? : Option α → List α → Option (Match α)} {before : Option α}
    {s : List α} {m : Match α} (h : at? before s = some m) :
    find at? before s = some ([], m) := by
  cases s with
  | nil => simp only [find, h, Option.map_some]
  | cons c s => simp only [find, h]

/-- Nothing is found iff nothing matches at any place. -/
theorem find_eq_none_iff {at? : Option α → List α → Option (Match α)} {before : Option α}
    {s : List α} :
    find at? before s = none ↔ ∀ t s', s = t ++ s' → at? (behind before t) s' = none := by
  induction s generalizing before with
  | nil =>
    simp only [find, Option.map_eq_none_iff]
    constructor
    · intro h t s' hs
      obtain ⟨rfl, rfl⟩ := List.append_eq_nil_iff.mp hs.symm
      exact h
    · intro h
      exact h [] [] rfl
  | cons c s ih =>
    cases hat : at? before (c :: s) with
    | some m =>
      simp only [find, hat]
      refine iff_of_false (by simp) ?_
      intro h
      rw [show at? before (c :: s) = none from h [] (c :: s) rfl] at hat
      cases hat
    | none =>
      simp only [find, hat, Option.map_eq_none_iff, ih]
      constructor
      · intro h t s' hs
        -- at the place itself, or behind its first character
        cases t with
        | nil =>
          rw [List.nil_append] at hs
          rw [← hs]
          exact hat
        | cons c' t =>
          obtain ⟨rfl, rfl⟩ := List.cons.inj hs
          exact h t s' rfl
      · intro h t s' hs
        exact h (c :: t) s' (by rw [hs]; rfl)

/-! ## What a starred piece takes -/

/-- What follows, after as much of the class as `t`. -/
def Fits (p : α → Bool) (k : Follow α β) (before : Option α) (s t : List α) (b : β) : Prop :=
  ∃ s', s = t ++ s' ∧ (∀ c ∈ t, p c) ∧ k (behind before t) s' = some b

theorem starThen_eq_none_iff {p : α → Bool} {k : Follow α β} {before : Option α} {s : List α} :
    starThen p k before s = none ↔ ∀ t b, ¬ Fits p k before s t b := by
  constructor
  · intro h t b hfits
    obtain ⟨s', rfl, hall, hk⟩ := hfits
    induction t generalizing before with
    | nil =>
      cases s' with
      | nil => simp [starThen, show k before [] = some b from hk] at h
      | cons c s' =>
        have hk' : k before (c :: s') = some b := hk
        simp only [List.nil_append, starThen, hk', Option.map_some] at h
        split at h
        · split at h <;> cases h
        · cases h
    | cons c t ih =>
      have hc : p c = true := hall c List.mem_cons_self
      simp only [List.cons_append, starThen, if_pos hc] at h
      split at h
      · cases h
      · rename_i hrec
        exact ih hrec (fun c' hc' => hall c' (List.mem_cons_of_mem _ hc')) hk
  · intro h
    cases hstar : starThen p k before s with
    | none => rfl
    | some r =>
      obtain ⟨t, b⟩ := r
      exact absurd (starThen_eq_append hstar) (h t b)

/-- No more of the class could be taken. -/
theorem length_le_of_starThen {p : α → Bool} {k : Follow α β} {before : Option α} {s t : List α}
    {b : β} (h : starThen p k before s = some (t, b)) {t' : List α} {b' : β}
    (hfits : Fits p k before s t' b') : t'.length ≤ t.length := by
  induction s generalizing before t b t' with
  | nil =>
    obtain ⟨s', hs, -, -⟩ := hfits
    rw [(List.append_eq_nil_iff.mp hs.symm).1]
    exact Nat.zero_le _
  | cons c s ih =>
    cases t' with
    | nil => exact Nat.zero_le _
    | cons c' t' =>
      obtain ⟨s', hs, hall, hk⟩ := hfits
      obtain ⟨rfl, htail⟩ := List.cons.inj hs
      have hrest : Fits p k (some c) s t' b' :=
        ⟨s', htail, fun x hx => hall x (List.mem_cons_of_mem _ hx), hk⟩
      simp only [starThen, if_pos (hall c List.mem_cons_self)] at h
      split at h
      · rename_i u b'' hrec
        cases h
        exact Nat.succ_le_succ (ih hrec hrest)
      · rename_i hnone
        exact absurd hrest (starThen_eq_none_iff.mp hnone t' b')

/-- It takes the longest text that what follows can do without. -/
theorem starThen_eq_some_iff {p : α → Bool} {k : Follow α β} {before : Option α}
    {s t : List α} {b : β} :
    starThen p k before s = some (t, b) ↔
      Fits p k before s t b ∧ ∀ t' b', Fits p k before s t' b' → t'.length ≤ t.length := by
  constructor
  · intro h
    exact ⟨starThen_eq_append h, fun _ _ => length_le_of_starThen h⟩
  · intro h
    obtain ⟨hfits, hmax⟩ := h
    cases hstar : starThen p k before s with
    | none => exact absurd hfits (starThen_eq_none_iff.mp hstar t b)
    | some r =>
      obtain ⟨u, b'⟩ := r
      have hu := starThen_eq_append hstar
      have hlen : u.length = t.length :=
        Nat.le_antisymm (hmax u b' hu) (length_le_of_starThen hstar hfits)
      obtain ⟨s', hs, -, hk⟩ := hfits
      obtain ⟨s'', hs', -, hk'⟩ := hu
      obtain ⟨rfl, rfl⟩ := List.append_inj (hs'.symm.trans hs) hlen
      rw [hk] at hk'
      rw [Option.some.inj hk']

/-- Nothing is given back where what follows can start behind the whole run. -/
theorem starThen_run {p : α → Bool} {k : Follow α β} {before : Option α} {s t : List α} {b : β}
    (ht : ∀ c ∈ t, p c) (hs : s.head?.all fun c => !p c) (hk : k (behind before t) s = some b) :
    starThen p k before (t ++ s) = some (t, b) := by
  refine starThen_eq_some_iff.mpr ⟨⟨s, rfl, ht, hk⟩, ?_⟩
  intro t' b' hfits
  obtain ⟨s', heq, hall, -⟩ := hfits
  by_contra hlt
  rcases List.append_eq_append_iff.mp heq with ⟨u, hu, hu'⟩ | ⟨u, hu, -⟩
  · cases u with
    | nil => simp [hu] at hlt
    | cons c u =>
      have hc : p c = true := hall c (by simp [hu])
      rw [hu'] at hs
      simp [hc] at hs
  · simp [hu] at hlt

theorem runAll_star {p : α → Bool} {k : Follow α β} {before : Option α} {s t : List α} {b : β}
    (ht : ∀ c ∈ t, p c) (hs : s.head?.all fun c => !p c) (hk : k (behind before t) s = some b) :
    runAll k [.star p] before (t ++ s) = some (t, b) := by
  have hnext : runAll k [] (behind before t) s = some ([], b) := by
    show (k (behind before t) s).map ([], ·) = _
    rw [hk]
    rfl
  show (starThen p (runAll k []) before (t ++ s)).map _ = _
  rw [starThen_run ht hs hnext]
  simp

theorem runAll_star_takeWhile {p : α → Bool} {k : Follow α β} {before : Option α} {s : List α}
    {b : β} (hk : k (behind before (s.takeWhile p)) (s.dropWhile p) = some b) :
    runAll k [.star p] before s = some (s.takeWhile p, b) := by
  have hstop : (s.dropWhile p).head?.all fun c => !p c := by
    have hhead := List.head?_dropWhile_not p s
    cases hd : (s.dropWhile p).head? with
    | none => rfl
    | some c => simpa [hd] using hhead
  have htake : ∀ c ∈ s.takeWhile p, p c := List.all_eq_true.mp List.all_takeWhile
  have hrun := runAll_star htake hstop hk
  rw [List.takeWhile_append_dropWhile] at hrun
  exact hrun

/-! ## Words -/

section

variable [DecidableEq α]

/-- The pieces that spell a word. -/
def literal (w : List α) : List (Piece α) := w.map fun c => .once (· == c)

theorem runAll_literal (k : Follow α β) (w : List α) (before : Option α) (s : List α) :
    runAll k (literal w) before (w ++ s) = (k (behind before w) s).map (w, ·) := by
  induction w generalizing before with
  | nil => rfl
  | cons c w ih =>
    show ((Piece.once (· == c)).run (runAll k (literal w)) before (c :: (w ++ s))).map _ = _
    simp only [Piece.run, beq_self_eq_true, if_true, ih, behind_cons, Option.map_map]
    rfl

theorem isPrefix_of_runAll_literal {k : Follow α β} {w : List α} {before : Option α}
    {s t : List α} {b : β} (h : runAll k (literal w) before s = some (t, b)) :
    t = w ∧ w <+: s := by
  induction w generalizing before s t with
  | nil =>
    obtain ⟨b', -, hb⟩ := Option.map_eq_some_iff.mp h
    cases hb
    exact ⟨rfl, List.nil_prefix⟩
  | cons c w ih =>
    obtain ⟨⟨u, v, b'⟩, hx, hb⟩ := Option.map_eq_some_iff.mp h
    cases hb
    cases s with
    | nil => cases hx
    | cons c' s =>
      simp only [Piece.run] at hx
      split at hx
      · rename_i hc
        obtain rfl := eq_of_beq hc
        obtain ⟨r, hr, hb⟩ := Option.map_eq_some_iff.mp hx
        cases hb
        obtain ⟨rfl, hw⟩ := ih hr
        exact ⟨rfl, (List.prefix_cons_inj c').mpr hw⟩
      · cases hx

/-- What stands between two words, all of it in the class of the group, the
second word not. -/
theorem matchAt_delimited {p : α → Bool} {w w' body rest : List α} (before : Option α)
    (hbody : ∀ c ∈ body, p c) (hstop : (w' ++ rest).head?.all fun c => !p c) :
    (Regex.mk (literal w) [.star p] (literal w')).matchAt before (w ++ (body ++ (w' ++ rest))) =
      some ⟨w, body, w', rest⟩ := by
  let final : Follow α (List α) := fun _ rest => if (fun _ => true) rest then some rest else none
  have htrail : runAll final (literal w') (behind (behind before w) body) (w' ++ rest) =
      some (w', rest) := runAll_literal _ _ _ _
  have hgroup : runAll (runAll final (literal w')) [.star p] (behind before w)
      (body ++ (w' ++ rest)) = some (body, w', rest) :=
    runAll_star hbody hstop htrail
  have hlead := runAll_literal (runAll (runAll final (literal w')) [.star p]) w before
    (body ++ (w' ++ rest))
  rw [hgroup] at hlead
  show (runAll _ (literal w) before _).map _ = _
  rw [hlead]
  rfl

theorem matchAt_none_of_literal {w : List α} {group trail : List (Piece α)} {before : Option α}
    {s : List α} (h : ¬ w <+: s) :
    (Regex.mk (literal w) group trail).matchAt before s = none := by
  cases hm : (Regex.mk (literal w) group trail).matchAt before s with
  | none => rfl
  | some m =>
    obtain ⟨⟨t, b⟩, hrun, -⟩ := Option.map_eq_some_iff.mp hm
    exact absurd (isPrefix_of_runAll_literal hrun).2 h

end

/-! ## Composition -/

variable {γ : Type}

theorem starThen_map (p : α → Bool) (k : Follow α β) (g : β → γ) (before : Option α)
    (s : List α) :
    starThen p (fun b s => (k b s).map g) before s =
      (starThen p k before s).map fun (t, b) => (t, g b) := by
  induction s generalizing before with
  | nil =>
    simp only [starThen, Option.map_map]
    rfl
  | cons c s ih =>
    simp only [starThen, ih]
    cases starThen p k (some c) s <;> split <;> simp [Function.comp_def]

theorem Piece.run_map (k : Follow α β) (g : β → γ) (x : Piece α) (before : Option α)
    (s : List α) :
    x.run (fun b s => (k b s).map g) before s = (x.run k before s).map fun (t, b) => (t, g b) := by
  cases x with
  | once p =>
    cases s with
    | nil => rfl
    | cons c s =>
      simp only [Piece.run]
      split <;> simp [Function.comp_def]
  | star p => exact starThen_map p k g before s
  | plus p =>
    cases s with
    | nil => rfl
    | cons c s =>
      simp only [Piece.run, starThen_map]
      split <;> simp [Function.comp_def]
  | assert f =>
    simp only [Piece.run]
    split <;> simp [Function.comp_def]

theorem runAll_append (k : Follow α β) (xs ys : List (Piece α)) (before : Option α)
    (s : List α) :
    runAll k (xs ++ ys) before s =
      (runAll (runAll k ys) xs before s).map fun (t, t', b) => (t ++ t', b) := by
  induction xs generalizing before s with
  | nil => simp [runAll, Function.comp_def]
  | cons x xs ih =>
    have hk : runAll k (xs ++ ys) = fun b s =>
        (runAll (runAll k ys) xs b s).map fun (t, t', b) => (t ++ t', b) := by
      funext b s
      exact ih b s
    simp only [List.cons_append, runAll, hk, Piece.run_map, Option.map_map]
    congr 1
    funext ⟨t, t', t'', b⟩
    simp

/-! ## Pieces without assertions -/

def Piece.blind : Piece α → Bool
  | assert _ => false
  | _ => true

/-- The character before the place does not matter. -/
def Ignores (k : Follow α β) : Prop := ∀ before before' s, k before s = k before' s

theorem starThen_ignores (p : α → Bool) {k : Follow α β} (hk : Ignores k) :
    Ignores (starThen p k) := by
  intro before before' s
  cases s with
  | nil => simp only [starThen, hk before before']
  | cons c s => simp only [starThen, hk before before']

theorem Piece.run_ignores {x : Piece α} (hx : x.blind) {k : Follow α β} (hk : Ignores k) :
    Ignores (x.run k) := by
  intro before before' s
  cases x with
  | once p => cases s <;> rfl
  | star p => exact starThen_ignores p hk before before' s
  | plus p => cases s <;> rfl
  | assert f => cases hx

theorem runAll_ignores {xs : List (Piece α)} (hxs : xs.all Piece.blind) {k : Follow α β}
    (hk : Ignores k) : Ignores (runAll k xs) := by
  induction xs with
  | nil =>
    intro before before' s
    simp only [runAll, hk before before']
  | cons x xs ih =>
    rw [List.all_cons, Bool.and_eq_true] at hxs
    intro before before' s
    simp only [runAll, Piece.run_ignores hxs.1 (ih hxs.2) before before']

/-- No part of the expression has an assertion. -/
def Regex.blind (r : Regex α) : Bool :=
  r.lead.all Piece.blind && r.group.all Piece.blind && r.trail.all Piece.blind

theorem Regex.matchAt_ignores {r : Regex α} (hr : r.blind) : Ignores r.matchAt := by
  simp only [Regex.blind, Bool.and_eq_true] at hr
  obtain ⟨⟨hlead, hgroup⟩, htrail⟩ := hr
  intro before before' s
  have hall := runAll_ignores hlead (runAll_ignores hgroup (runAll_ignores htrail
    (k := fun _ rest => if (fun _ => true) rest then some rest else none) fun _ _ _ => rfl))
  unfold Regex.matchAt Regex.matchTo
  rw [hall before before']

theorem find_ignores {at? : Option α → List α → Option (Match α)} (hat : Ignores at?) :
    Ignores (find at?) := by
  intro before before' s
  cases s with
  | nil => simp only [find, hat before before']
  | cons c s => simp only [find, hat before before']

/-! ## Replacing -/

/-- Every match replaced, from left to right. Each search starts afresh behind
the match before it, where an assertion sees no character before the place. An
empty match is an error. -/
def replaceAll (r : Regex α) (repl : Match α → List α) (s : List α) : Option (List α) :=
  match _h : find r.matchAt none s with
  | none => some s
  | some (skipped, m) =>
    if _hm : m.text = [] then none
    else (replaceAll r repl m.rest).map fun out => skipped ++ repl m ++ out
termination_by s.length
decreasing_by
  have hs := congrArg List.length (find_eq_append (fun _ _ _ => Regex.matchAt_eq_append) _h)
  have hpos := List.length_pos_of_ne_nil _hm
  simp only [List.length_append] at hs
  omega

theorem replaceAll_of_none {r : Regex α} {s : List α} (repl : Match α → List α)
    (h : find r.matchAt none s = none) : replaceAll r repl s = some s := by
  unfold replaceAll
  split
  · rfl
  · rename_i hsome
    rw [h] at hsome
    cases hsome

theorem replaceAll_of_empty {r : Regex α} {s skipped : List α} {m : Match α}
    (repl : Match α → List α) (h : find r.matchAt none s = some (skipped, m))
    (hm : m.text = []) : replaceAll r repl s = none := by
  rw [replaceAll]
  split
  · rename_i hnone
    rw [h] at hnone
    cases hnone
  · rename_i hsome
    rw [h] at hsome
    cases hsome
    rw [dif_pos hm]

theorem replaceAll_of_some {r : Regex α} {s skipped : List α} {m : Match α}
    (repl : Match α → List α) (h : find r.matchAt none s = some (skipped, m))
    (hm : m.text ≠ []) :
    replaceAll r repl s = (replaceAll r repl m.rest).map fun out => skipped ++ repl m ++ out := by
  rw [replaceAll]
  split
  · rename_i hnone
    rw [h] at hnone
    cases hnone
  · rename_i hsome
    rw [h] at hsome
    cases hsome
    rw [dif_neg hm]

/-- Where no match starts, a character is passed over. -/
theorem replaceAll_cons {r : Regex α} (hr : r.blind) (repl : Match α → List α) {c : α}
    {s : List α} (hc : r.matchAt none (c :: s) = none) :
    replaceAll r repl (c :: s) = (replaceAll r repl s).map (c :: ·) := by
  have hfind : find r.matchAt none (c :: s) =
      (find r.matchAt none s).map fun (skipped, m) => (c :: skipped, m) := by
    simp only [find, hc]
    rw [find_ignores (Regex.matchAt_ignores hr) (some c) none]
  cases hs : find r.matchAt none s with
  | none =>
    rw [hs] at hfind
    rw [replaceAll_of_none repl hfind, replaceAll_of_none repl hs]
    rfl
  | some found =>
    obtain ⟨skipped, m⟩ := found
    rw [hs] at hfind
    by_cases hm : m.text = []
    · rw [replaceAll_of_empty repl hfind hm, replaceAll_of_empty repl hs hm]
      rfl
    · rw [replaceAll_of_some repl hfind hm, replaceAll_of_some repl hs hm, Option.map_map]
      rfl

end Lib.Regexp
