import Mathlib.Data.List.Infix
import Mathlib.Tactic

/-!
# Shell patterns

Prefix and suffix removal of the shell, `${s#pat}` and `${s%pat}`, over any
pattern matcher. Shells agree on ordinary characters and differ in the corners
of brackets and backslashes, so a `Matcher` promises only what all of them
keep: the empty pattern matches the empty string, and an ordinary character
matches itself. `posix` is one such matcher.
-/

namespace Lib.Pattern

abbrev Str := List Char

/-- Characters that stand for themselves at the start of any pattern. -/
def ordinary (c : Char) : Bool :=
  c ∉ ['*', '?', '[', '\\']

/-- A pattern matcher of a shell. -/
structure Matcher where
  accepts : Str → Str → Bool
  nil : ∀ s, accepts [] s ↔ s = []
  cons : ∀ c p s, ordinary c → (accepts (c :: p) s ↔ ∃ s', s = c :: s' ∧ accepts p s')

theorem ordinary_singleton {c : Char} (hc : ordinary c) : ∀ c' ∈ [c], ordinary c' := by
  simpa using hc

namespace Matcher

variable (m : Matcher)

/-- The shortest leading part the pattern matches. -/
def shortest (pat s : Str) : Option Str :=
  s.inits.find? (m.accepts pat)

/-- `${s#pat}` -/
def dropPrefix (pat s : Str) : Str :=
  match m.shortest pat s with
  | none => s
  | some pre => s.drop pre.length

/-- `${s%pat}` -/
def dropSuffix (pat s : Str) : Str :=
  match s.tails.reverse.find? (m.accepts pat) with
  | none => s
  | some suf => s.take (s.length - suf.length)

/-- The pattern takes something off the front of the string. -/
def Strips (pat s : Str) : Prop := m.dropPrefix pat s ≠ s

instance (pat s : Str) : Decidable (m.Strips pat s) :=
  inferInstanceAs (Decidable (_ ≠ _))

/-! ## What a match is -/

variable {m}

theorem shortest_spec {pat s pre : Str} (h : m.shortest pat s = some pre) :
    m.accepts pat pre ∧ pre <+: s :=
  ⟨List.find?_some h, (List.mem_inits pre s).mp (List.mem_of_find?_eq_some h)⟩

theorem dropPrefix_of_shortest {pat pre rest : Str}
    (h : m.shortest pat (pre ++ rest) = some pre) : m.dropPrefix pat (pre ++ rest) = rest := by
  simp [dropPrefix, h]

theorem dropPrefix_isSuffix (m : Matcher) (pat s : Str) : m.dropPrefix pat s <:+ s := by
  unfold dropPrefix
  cases m.shortest pat s with
  | none => exact List.suffix_refl s
  | some pre => exact List.drop_suffix _ s

theorem dropSuffix_isPrefix (m : Matcher) (pat s : Str) : m.dropSuffix pat s <+: s := by
  unfold dropSuffix
  cases s.tails.reverse.find? (m.accepts pat) with
  | none => exact List.prefix_refl s
  | some suf => exact List.take_prefix _ s

/-- A pattern strips exactly when its shortest match is not empty. -/
theorem strips_iff {pat s : Str} :
    m.Strips pat s ↔ ∃ pre rest, pre ≠ [] ∧ s = pre ++ rest ∧ m.shortest pat s = some pre := by
  unfold Strips
  constructor
  · intro h
    cases hs : m.shortest pat s with
    | none => simp [dropPrefix, hs] at h
    | some pre =>
      obtain ⟨rest, rfl⟩ := (shortest_spec hs).2
      refine ⟨pre, rest, ?_, rfl, rfl⟩
      rintro rfl
      exact h (dropPrefix_of_shortest hs)
  · rintro ⟨pre, rest, hne, rfl, hs⟩ h
    rw [dropPrefix_of_shortest hs] at h
    exact hne (List.self_eq_append_left.mp h)

/-- A pattern of ordinary characters matches itself only. -/
theorem accepts_plain {pat : Str} (hpat : ∀ c ∈ pat, ordinary c) (s : Str) :
    m.accepts pat s ↔ s = pat := by
  induction pat generalizing s with
  | nil => exact m.nil s
  | cons c pat ih =>
    rw [m.cons c pat s (hpat c List.mem_cons_self)]
    constructor
    · intro h
      obtain ⟨s', rfl, hs'⟩ := h
      rw [(ih (fun c' hc' => hpat c' (List.mem_cons_of_mem _ hc')) s').mp hs']
    · rintro rfl
      exact ⟨pat, rfl, (ih (fun c' hc' => hpat c' (List.mem_cons_of_mem _ hc')) pat).mpr rfl⟩

theorem shortest_plain {pat : Str} (hpat : ∀ c ∈ pat, ordinary c) (rest : Str) :
    m.shortest pat (pat ++ rest) = some pat := by
  have hself : m.accepts pat pat := (accepts_plain hpat pat).mpr rfl
  cases hs : m.shortest pat (pat ++ rest) with
  | none =>
    have hmem : pat ∈ (pat ++ rest).inits := (List.mem_inits _ _).mpr (List.prefix_append _ _)
    exact absurd hself (List.find?_eq_none.mp hs pat hmem)
  | some pre => rw [(accepts_plain hpat pre).mp (shortest_spec hs).1]

/-- A pattern of ordinary characters is taken off the strings that start with
it. -/
theorem dropPrefix_plain {pat : Str} (hpat : ∀ c ∈ pat, ordinary c) (rest : Str) :
    m.dropPrefix pat (pat ++ rest) = rest :=
  dropPrefix_of_shortest (shortest_plain hpat rest)

theorem dropPrefix_of_not_isPrefix {pat s : Str} (hpat : ∀ c ∈ pat, ordinary c)
    (h : ¬ pat <+: s) : m.dropPrefix pat s = s := by
  unfold dropPrefix
  cases hs : m.shortest pat s with
  | none => rfl
  | some pre =>
    obtain ⟨hacc, hpre⟩ := shortest_spec hs
    exact absurd ((accepts_plain hpat pre).mp hacc ▸ hpre) h

theorem strips_plain_iff {pat s : Str} (hpat : ∀ c ∈ pat, ordinary c) :
    m.Strips pat s ↔ pat ≠ [] ∧ pat <+: s := by
  unfold Strips
  by_cases h : pat <+: s
  · obtain ⟨rest, rfl⟩ := h
    rw [dropPrefix_plain hpat]
    simp
  · simp [dropPrefix_of_not_isPrefix hpat h, h]

/-- Whatever follows an ordinary first character, a match starts with it. -/
theorem head_of_strips {c : Char} {pat s : Str} (hc : ordinary c) (h : m.Strips (c :: pat) s) :
    s.head? = some c := by
  obtain ⟨pre, rest, -, rfl, hs⟩ := strips_iff.mp h
  obtain ⟨s', rfl, -⟩ := (m.cons c pat pre hc).mp (shortest_spec hs).1
  rfl

/-- A pattern of ordinary characters is taken off the strings that end with
it. -/
theorem dropSuffix_plain {pat : Str} (hpat : ∀ c ∈ pat, ordinary c) (s : Str) :
    m.dropSuffix pat (s ++ pat) = s := by
  unfold dropSuffix
  cases hs : (s ++ pat).tails.reverse.find? (m.accepts pat) with
  | none =>
    have hmem : pat ∈ (s ++ pat).tails.reverse := by
      rw [List.mem_reverse]
      exact (List.mem_tails _ _).mpr (List.suffix_append s pat)
    exact absurd ((accepts_plain hpat pat).mpr rfl) (List.find?_eq_none.mp hs pat hmem)
  | some suf =>
    rw [(accepts_plain hpat suf).mp (List.find?_some hs)]
    simp

theorem dropSuffix_of_not_isSuffix {pat s : Str} (hpat : ∀ c ∈ pat, ordinary c)
    (h : ¬ pat <:+ s) : m.dropSuffix pat s = s := by
  unfold dropSuffix
  cases hs : s.tails.reverse.find? (m.accepts pat) with
  | none => rfl
  | some suf =>
    have hmem := List.mem_reverse.mp (List.mem_of_find?_eq_some hs)
    rw [(accepts_plain hpat suf).mp (List.find?_some hs)] at hmem
    exact absurd ((List.mem_tails _ _).mp hmem) h

/-- A pattern of one ordinary character at the end of a string. -/
theorem dropSuffix_char {c : Char} (hc : ordinary c) (s : Str) :
    m.dropSuffix [c] (s ++ [c]) = s :=
  dropSuffix_plain (ordinary_singleton hc) s

theorem dropSuffix_char_of_not {c : Char} (hc : ordinary c) {s : Str} (h : ¬ [c] <:+ s) :
    m.dropSuffix [c] s = s :=
  dropSuffix_of_not_isSuffix (ordinary_singleton hc) h

end Matcher

/-! ## The matcher of POSIX -/

/-- Elements of the pattern matching notation. -/
inductive Token where
  | char (c : Char)
  | any
  | star
  /-- Bracket expression: ranges of characters, perhaps negated. -/
  | set (negated : Bool) (ranges : List (Char × Char))
deriving DecidableEq

/-- The inside of a bracket expression up to its `]`, which is an ordinary
member in first place, and the pattern after it. -/
def bracket (first : Bool) : Str → Option (List (Char × Char) × Str)
  | [] => none
  | ']' :: p => if first then (bracket false p).map fun (rs, p') => ((']', ']') :: rs, p')
      else some ([], p)
  | '\\' :: c :: p => (bracket false p).map fun (rs, p') => ((c, c) :: rs, p')
  | lo :: '-' :: hi :: p =>
    if hi = ']' then some ([(lo, lo), ('-', '-')], p)
    else (bracket false p).map fun (rs, p') => ((lo, hi) :: rs, p')
  | c :: p => (bracket false p).map fun (rs, p') => ((c, c) :: rs, p')

/-- The elements of a pattern. An unclosed bracket is an ordinary character;
a backslash quotes what follows. -/
def tokens : Nat → Str → List Token
  | 0, _ => []
  | _ + 1, [] => []
  | n + 1, '*' :: p => .star :: tokens n p
  | n + 1, '?' :: p => .any :: tokens n p
  | n + 1, '\\' :: c :: p => .char c :: tokens n p
  | n + 1, '[' :: '!' :: p =>
    match bracket true p with
    | some (ranges, p') => .set true ranges :: tokens n p'
    | none => .char '[' :: tokens n ('!' :: p)
  | n + 1, '[' :: p =>
    match bracket true p with
    | some (ranges, p') => .set false ranges :: tokens n p'
    | none => .char '[' :: tokens n p
  | n + 1, c :: p => .char c :: tokens n p

/-- The elements match the whole string. -/
def matchTokens : List Token → Str → Bool
  | [], s => s.isEmpty
  | .char c :: ts, s =>
    match s with
    | [] => false
    | c' :: s' => c' = c && matchTokens ts s'
  | .any :: ts, s =>
    match s with
    | [] => false
    | _ :: s' => matchTokens ts s'
  | .star :: ts, s => s.tails.any (matchTokens ts)
  | .set negated ranges :: ts, s =>
    match s with
    | [] => false
    | c :: s' => (ranges.any fun (lo, hi) => lo ≤ c && c ≤ hi) != negated && matchTokens ts s'

theorem tokens_ordinary (n : Nat) {c : Char} (p : Str) (hc : ordinary c) :
    tokens (n + 1) (c :: p) = .char c :: tokens n p := by
  simp only [ordinary, List.mem_cons, List.not_mem_nil, or_false, not_or, decide_eq_true_eq] at hc
  obtain ⟨hstar, hany, hset, hquote⟩ := hc
  rw [tokens]
  · exact hstar
  · exact hany
  · exact fun _ _ h _ => hquote h
  · exact fun _ h _ => hset h
  · exact hset

/-- Pattern matching notation, without the named character classes. -/
def posix : Matcher where
  accepts pat s := matchTokens (tokens pat.length pat) s
  nil s := by simp [tokens, matchTokens]
  cons c p s hc := by
    rw [List.length_cons, tokens_ordinary p.length p hc]
    cases s with
    | nil => simp [matchTokens]
    | cons c' s' =>
      simp only [matchTokens, Bool.and_eq_true, decide_eq_true_eq, List.cons.injEq]
      constructor
      · intro h
        obtain ⟨rfl, h⟩ := h
        exact ⟨s', ⟨rfl, rfl⟩, h⟩
      · intro h
        obtain ⟨_, ⟨rfl, rfl⟩, h⟩ := h
        exact ⟨rfl, h⟩

end Lib.Pattern
