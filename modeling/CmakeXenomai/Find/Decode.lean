import CmakeXenomai.Find.Version

/-!
# What the probe's decoder makes of the encoder's digits

Each dotted component comes out as its numeral (`stripDotted_dec`): behind the
dot a match takes all the padding, and no further match starts before the next
dot. The first component comes out so unless the search that resumes behind its
first digit finds padding again (`stripLeading_dec`).
-/

namespace CmakeXenomai.Find

open Lib.Regexp Lib.Decimal

/-! ## The replacements on texts -/

theorem stripLeading_of_not_padded {s : Str} (hs : ¬ Padded s) : stripLeading s = some s := by
  refine replaceAll_of_none _ (find_eq_none_iff.mpr ?_)
  intro t s' hsplit
  cases t with
  | nil =>
    rw [List.nil_append] at hsplit
    rw [← hsplit]
    exact leadingZeros_none hs
  | cons c t =>
    obtain ⟨c', hc'⟩ := exists_behind_eq_some c t
    rw [behind_cons, hc']
    rfl

theorem stripLeading_match {n : Nat} {d : Char} {s : Str} (hd : d.isDigit)
    (hstop : d ≠ '0' ∨ s.head?.all fun c => !c.isDigit) :
    stripLeading (.replicate (n + 1) '0' ++ d :: s) = (stripLeading s).map (d :: ·) := by
  have hmatch := leadingZeros_match (n := n) hd hstop
  have hfind : find leadingZeros.matchAt none (.replicate (n + 1) '0' ++ d :: s) =
      some ([], ⟨.replicate (n + 1) '0', [d], [], s⟩) := by
    rw [List.replicate_succ, List.cons_append, find, ← List.cons_append, ← List.replicate_succ,
      hmatch]
  unfold stripLeading
  rw [replaceAll_of_some _ hfind (by simp [Match.text])]
  rfl

theorem stripDotted_cons {c : Char} (s : Str) (hc : c ≠ '.') :
    stripDotted (c :: s) = (stripDotted s).map (c :: ·) :=
  replaceAll_cons rfl _ (dottedZeros_none_of_ne s hc)

theorem stripDotted_append {t : Str} (s : Str) (ht : '.' ∉ t) :
    stripDotted (t ++ s) = (stripDotted s).map (t ++ ·) := by
  induction t with
  | nil => simp
  | cons c t ih =>
    rw [List.mem_cons, not_or] at ht
    rw [List.cons_append, stripDotted_cons _ (Ne.symm ht.1), ih ht.2, Option.map_map]
    rfl

theorem stripDotted_of_not_padded {s : Str} (hs : ¬ Padded s) :
    stripDotted ('.' :: s) = (stripDotted s).map ('.' :: ·) :=
  replaceAll_cons rfl _ (dottedZeros_none hs)

theorem stripDotted_match {n : Nat} {d : Char} {s : Str} (hd : d.isDigit)
    (hstop : d ≠ '0' ∨ s.head?.all fun c => !c.isDigit) :
    stripDotted ('.' :: (.replicate (n + 1) '0' ++ d :: s)) =
      (stripDotted s).map fun out => '.' :: d :: out := by
  have hfind : find dottedZeros.matchAt none ('.' :: (.replicate (n + 1) '0' ++ d :: s)) =
      some ([], ⟨'.' :: .replicate (n + 1) '0', [d], [], s⟩) := by
    rw [find, dottedZeros_match hd hstop]
  unfold stripDotted
  rw [replaceAll_of_some _ hfind (by simp [Match.text])]
  rfl

/-! ## Numerals -/

/-- A number in decimal. -/
def numeral (n : Nat) : Str := Nat.toDigits 10 n

theorem digit_eq {d : Nat} (hd : d < 10) : digit d = d.digitChar := by
  interval_cases d <;> rfl

theorem dec_eq_padded (n : Nat) : dec n = padded 8 n := by
  have hmod : ∀ m, digit (m % 10) = (m % 10).digitChar :=
    fun m => digit_eq (Nat.mod_lt m (by decide))
  simp only [dec, padded, hmod, Nat.div_div_eq_div_mul, List.nil_append, List.cons_append]

theorem isDigit_of_mem_numeral {n : Nat} {c : Char} (h : c ∈ numeral n) : c.isDigit :=
  isDigit_of_mem_toDigits h

/-- The digits of the probe: the numeral, behind zeros where there is room. -/
theorem dec_cases {n : Nat} (hn : n < 10 ^ 8) :
    ∃ d u, numeral n = d :: u ∧
      ((10 ^ 7 ≤ n ∧ d ≠ '0' ∧ dec n = d :: u) ∨
        (n < 10 ^ 7 ∧ (d ≠ '0' ∨ u = []) ∧ ∃ k, dec n = .replicate (k + 1) '0' ++ d :: u)) := by
  have hdec : dec n = .replicate (8 - (numeral n).length) '0' ++ numeral n := by
    rw [dec_eq_padded]
    exact padded_eq (by decide) hn
  have hlen : (numeral n).length ≤ 7 ↔ n < 10 ^ 7 :=
    Nat.length_toDigits_le_iff (by decide) (by decide)
  have hlen' : (numeral n).length ≤ 8 ↔ n < 10 ^ 8 :=
    Nat.length_toDigits_le_iff (by decide) (by decide)
  have hhead : ∃ d u, numeral n = d :: u ∧ (d ≠ '0' ∨ u = []) := by
    rcases Nat.eq_zero_or_pos n with rfl | hpos
    · exact ⟨'0', [], rfl, .inr rfl⟩
    · obtain ⟨d, u, hd, hne⟩ := exists_toDigits_eq_cons hpos
      exact ⟨d, u, hd, .inl hne⟩
  obtain ⟨d, u, hd, hne⟩ := hhead
  refine ⟨d, u, hd, ?_⟩
  by_cases hsmall : n < 10 ^ 7
  · obtain ⟨k, hk⟩ : ∃ k, 8 - (numeral n).length = k + 1 :=
      ⟨7 - (numeral n).length, by have := hlen.mpr hsmall; omega⟩
    exact .inr ⟨hsmall, hne, k, by rw [hdec, hk, hd]⟩
  · have height : (numeral n).length = 8 := by
      have hle := hlen'.mpr hn
      have hgt := mt hlen.mp hsmall
      omega
    have hzero : d ≠ '0' := by
      apply hne.resolve_right
      rintro rfl
      rw [hd] at height
      cases height
    rw [height, hd] at hdec
    exact .inl ⟨by omega, hzero, hdec⟩

/-- The place behind a number: the end, or a dot. -/
def Ends (tail : Str) : Prop := tail = [] ∨ ∃ s, tail = '.' :: s

theorem Ends.head {tail : Str} (h : Ends tail) : tail.head?.all fun c => !c.isDigit := by
  rcases h with rfl | ⟨s, rfl⟩ <;> rfl

theorem dot_not_mem_of_digits {s : Str} (hs : ∀ c ∈ s, c.isDigit) : '.' ∉ s :=
  fun h => absurd (hs '.' h) (by decide)

/-- With digits in front, padding is padding whatever comes behind them. -/
theorem padded_append {u tail : Str} (htail : Ends tail) : Padded (u ++ tail) ↔ Padded u := by
  constructor
  · intro h
    obtain ⟨d, s, hs, hd⟩ := h
    have hend := htail.head
    match u with
    | [] =>
      rw [List.nil_append] at hs
      rw [hs] at hend
      cases hend
    | ['0'] =>
      -- a zero at the end has no digit behind it, in `u` or in `tail`
      rw [List.cons_append, List.nil_append] at hs
      rw [(List.cons.inj hs).2] at hend
      simp [hd] at hend
    | c :: d' :: u =>
      have hc : c = '0' := (List.cons.inj hs).1
      have hd' : d' = d := (List.cons.inj (List.cons.inj hs).2).1
      exact ⟨d', u, by rw [hc], by rw [hd']; exact hd⟩
  · intro h
    obtain ⟨d, s, rfl, hd⟩ := h
    exact ⟨d, s ++ tail, rfl, hd⟩

/-- All the padding of a text of digits. -/
theorem padded_cases {u : Str} (hu : ∀ c ∈ u, c.isDigit) (h : Padded u) :
    ∃ k d w, u = .replicate (k + 1) '0' ++ d :: w ∧ (d ≠ '0' ∨ w = []) := by
  obtain ⟨d, s, rfl, -⟩ := h
  induction s generalizing d with
  | nil => exact ⟨0, d, [], rfl, .inr rfl⟩
  | cons c s ih =>
    by_cases hd : d = '0'
    · -- the digit is a zero itself, and padding as long as one follows
      subst hd
      obtain ⟨k, e, w, hkw, hstop⟩ := ih c fun x hx => hu x (List.mem_cons_of_mem _ hx)
      exact ⟨k + 1, e, w, by rw [hkw]; rfl, hstop⟩
    · exact ⟨0, d, c :: s, rfl, .inl hd⟩

/-! ## The first component -/

/-- Digits are kept or get fewer, and are kept iff there is no padding. -/
theorem stripLeading_digits {tail : Str} (htail : Ends tail) (u : Str)
    (hu : ∀ c ∈ u, c.isDigit) :
    ∃ a, stripLeading (u ++ tail) = some (a ++ tail) ∧ (∀ c ∈ a, c.isDigit) ∧
      a.length ≤ u.length ∧ (a = u ↔ ¬ Padded u) := by
  induction hn : u.length using Nat.strong_induction_on generalizing u with
  | _ n ih =>
    by_cases hpad : Padded u
    · obtain ⟨k, d, w, rfl, hstop⟩ := padded_cases hu hpad
      have hd : d.isDigit := hu d (by simp)
      have hw : ∀ c ∈ w, c.isDigit := fun c hc => hu c (by simp [hc])
      have hstop' : d ≠ '0' ∨ (w ++ tail).head?.all fun c => !c.isDigit := by
        refine hstop.imp_right ?_
        rintro rfl
        exact htail.head
      simp only [List.length_append, List.length_replicate, List.length_cons] at hn
      -- the match ends behind the first digit, and the search resumes there
      obtain ⟨a, ha, hdigits, hle, -⟩ := ih w.length (by omega) w hw rfl
      refine ⟨d :: a, ?_, ?_, ?_, ?_⟩
      · rw [List.append_assoc, List.cons_append, stripLeading_match hd hstop', ha]
        rfl
      · intro c hc
        rcases List.mem_cons.mp hc with rfl | hc
        · exact hd
        · exact hdigits c hc
      · rw [List.length_cons]
        omega
      · refine iff_of_false ?_ (not_not.mpr hpad)
        intro heq
        have hlen := congrArg List.length heq
        simp only [List.length_append, List.length_replicate, List.length_cons] at hlen
        omega
    · refine ⟨u, ?_, hu, hn.le, iff_of_true rfl hpad⟩
      exact stripLeading_of_not_padded (mt (padded_append htail).mp hpad)

/-- The anchored expression takes off the padding and nothing else: there is
none, or behind the first digit of the number no zero with another digit. -/
def StripsRight (n : Nat) : Prop :=
  10 ^ 7 ≤ n ∨ n < 100 ∨ (numeral n)[1]? ≠ some '0'

instance (n : Nat) : Decidable (StripsRight n) :=
  inferInstanceAs (Decidable (_ ∨ _))

theorem stripsRight_iff_of_lt {n : Nat} {d : Char} {u : Str} (hn : n < 10 ^ 7)
    (hnum : numeral n = d :: u) : StripsRight n ↔ ¬ Padded u := by
  have hlen : (numeral n).length ≤ 2 ↔ n < 100 :=
    Nat.length_toDigits_le_iff (by decide) (by decide)
  have hdigits : ∀ c ∈ u, c.isDigit := fun c hc =>
    isDigit_of_mem_numeral (by rw [hnum]; exact List.mem_cons_of_mem _ hc)
  unfold StripsRight
  rw [or_iff_right (by omega), ← hlen, hnum]
  match u with
  | [] => simp [Padded]
  | [c] => simp [Padded]
  | c :: d' :: u =>
    have hd' : d'.isDigit := hdigits d' (by simp)
    simp [Padded, hd']

theorem stripLeading_dec {n : Nat} (hn : n < 10 ^ 8) {tail : Str} (htail : Ends tail) :
    ∃ a, stripLeading (dec n ++ tail) = some (a ++ tail) ∧ (∀ c ∈ a, c.isDigit) ∧ a ≠ [] ∧
      (a = numeral n ↔ StripsRight n) := by
  obtain ⟨d, u, hnum, hcases⟩ := dec_cases hn
  have hd : d.isDigit := isDigit_of_mem_numeral (by rw [hnum]; exact List.mem_cons_self)
  have hu : ∀ c ∈ u, c.isDigit := fun c hc =>
    isDigit_of_mem_numeral (by rw [hnum]; exact List.mem_cons_of_mem _ hc)
  rcases hcases with ⟨hlarge, hne, hdec⟩ | ⟨hsmall, hstop, k, hdec⟩
  · have hpad : ¬ Padded (dec n ++ tail) := by
      intro h
      obtain ⟨d', s, hs, -⟩ := h
      rw [hdec] at hs
      exact hne (List.cons.inj hs).1
    rw [stripLeading_of_not_padded hpad, hdec, ← hnum]
    refine ⟨numeral n, rfl, fun c => isDigit_of_mem_numeral, ?_, iff_of_true rfl (.inl hlarge)⟩
    simp [hnum]
  · obtain ⟨a, ha, hdigits, -, hiff⟩ := stripLeading_digits htail u hu
    have hstop' : d ≠ '0' ∨ (u ++ tail).head?.all fun c => !c.isDigit := by
      refine hstop.imp_right ?_
      rintro rfl
      exact htail.head
    refine ⟨d :: a, ?_, ?_, List.cons_ne_nil d a, ?_⟩
    · rw [hdec, List.append_assoc, List.cons_append, stripLeading_match hd hstop', ha]
      rfl
    · intro c hc
      rcases List.mem_cons.mp hc with rfl | hc
      · exact hd
      · exact hdigits c hc
    · rw [stripsRight_iff_of_lt hsmall hnum, ← hiff, hnum, List.cons.injEq, eq_self,
        true_and]

/-! ## The dotted components -/

theorem stripDotted_dec {n : Nat} (hn : n < 10 ^ 8) {tail : Str} (htail : Ends tail) :
    stripDotted ('.' :: (dec n ++ tail)) =
      (stripDotted tail).map fun out => '.' :: (numeral n ++ out) := by
  obtain ⟨d, u, hnum, hcases⟩ := dec_cases hn
  have hd : d.isDigit := isDigit_of_mem_numeral (by rw [hnum]; exact List.mem_cons_self)
  have hu : '.' ∉ u := dot_not_mem_of_digits fun c hc =>
    isDigit_of_mem_numeral (by rw [hnum]; exact List.mem_cons_of_mem _ hc)
  rcases hcases with ⟨-, hne, hdec⟩ | ⟨-, hstop, k, hdec⟩
  · have hpad : ¬ Padded (dec n ++ tail) := by
      intro h
      obtain ⟨d', s, hs, -⟩ := h
      rw [hdec] at hs
      exact hne (List.cons.inj hs).1
    have hdot : '.' ∉ numeral n := dot_not_mem_of_digits fun c => isDigit_of_mem_numeral
    rw [stripDotted_of_not_padded hpad, hdec, ← hnum, stripDotted_append _ hdot, Option.map_map]
    rfl
  · have hstop' : d ≠ '0' ∨ (u ++ tail).head?.all fun c => !c.isDigit := by
      refine hstop.imp_right ?_
      rintro rfl
      exact htail.head
    rw [hdec, List.append_assoc, List.cons_append, stripDotted_match hd hstop',
      stripDotted_append _ hu, Option.map_map, hnum]
    rfl

theorem stripDotted_nil : stripDotted [] = some [] := replaceAll_of_none _ rfl

theorem stripDotted_digits {s : Str} (hs : ∀ c ∈ s, c.isDigit) : stripDotted s = some s := by
  have happ := stripDotted_append [] (dot_not_mem_of_digits hs)
  rw [List.append_nil, stripDotted_nil, Option.map_some, List.append_nil] at happ
  exact happ

/-! ## Markers -/

theorem marker_eq (name body : Str) :
    marker name body = "INFO:".toList ++ (name ++ '[' :: (body ++ [']'])) :=
  List.append_assoc ..

/-- A marker is read back by the expression for its name. -/
theorem match1_marker {name body : Str} (hbody : ∀ c ∈ body, (c != ']' && c != '"') = true) :
    match1 name (marker name body) = some body := by
  have hmarker : marker name body =
      "INFO:".toList ++ name ++ ['['] ++ (body ++ ([']'] ++ [])) := by
    rw [marker_eq]
    simp
  have hmatch : (infoRegex name).matchAt none (marker name body) =
      some ⟨"INFO:".toList ++ name ++ ['['], body, [']'], []⟩ := by
    rw [hmarker]
    exact matchAt_delimited none hbody rfl
  unfold match1
  rw [find_of_match hmatch]
  rfl

/-- A marker of another name is not, as long as nothing in it but its start
looks like the start of one. -/
theorem match1_none {name name' body : Str}
    (hname : ¬ name ++ ['['] <+: name' ++ '[' :: (body ++ [']'])) (hI : 'I' ∉ name' ++ body) :
    match1 name (marker name' body) = none := by
  have hfind : find (infoRegex name).matchAt none (marker name' body) = none := by
    refine find_eq_none_iff.mpr ?_
    intro t s' hsplit
    apply matchAt_none_of_literal
    intro hword
    cases t with
    | nil =>
      rw [List.nil_append] at hsplit
      rw [← hsplit] at hword
      have hcut : "INFO:".toList ++ (name ++ ['[']) <+:
          "INFO:".toList ++ (name' ++ '[' :: (body ++ [']'])) := by
        simpa [marker_eq] using hword
      exact hname ((List.prefix_append_right_inj _).mp hcut)
    | cons c t =>
      -- a word that starts with `I` cannot start behind the first character
      have hmem : 'I' ∈ s' := hword.subset (by simp)
      have htail : "NFO:".toList ++ name' ++ '[' :: (body ++ [']']) = t ++ s' :=
        (List.cons.inj hsplit).2
      have hmem' : 'I' ∈ "NFO:".toList ++ name' ++ '[' :: (body ++ [']']) := by
        rw [htail]
        exact List.mem_append_right t hmem
      simp at hmem' hI
      tauto
  unfold match1
  rw [hfind]
  rfl

theorem dec_digits (n : Nat) : ∀ c ∈ dec n, c.isDigit := by
  have hmod : ∀ m, (digit (m % 10)).isDigit := by
    intro m
    have hlt := Nat.mod_lt m (show 10 > 0 by decide)
    interval_cases m % 10 <;> rfl
  simp [dec, hmod]

theorem digit_ne_special {c : Char} (h : c.isDigit) : c ≠ ']' ∧ c ≠ '"' ∧ c ≠ 'I' := by
  refine ⟨?_, ?_, ?_⟩ <;> rintro rfl <;> cases h

/-! ## The decoder on the markers -/

/-- The body of the version marker. -/
def versionBody (major minor revision : Nat) : Str :=
  dec major ++ '.' :: (dec minor ++ '.' :: dec revision)

theorem mem_versionBody {major minor revision : Nat} {c : Char}
    (h : c ∈ versionBody major minor revision) : c.isDigit ∨ c = '.' := by
  simp only [versionBody, List.mem_append, List.mem_cons] at h
  rcases h with h | rfl | h | rfl | h
  · exact .inl (dec_digits major c h)
  · exact .inr rfl
  · exact .inl (dec_digits minor c h)
  · exact .inr rfl
  · exact .inl (dec_digits revision c h)

theorem not_special {c : Char} (h : c.isDigit ∨ c = '.') : c ≠ ']' ∧ c ≠ '"' ∧ c ≠ 'I' := by
  rcases h with h | rfl
  · exact digit_ne_special h
  · decide

section

variable {major minor revision level : Nat}

/-- The version comes out with everything right but, perhaps, its first number. -/
theorem strip_versionBody (hmajor : major < 10 ^ 8) (hminor : minor < 10 ^ 8)
    (hrevision : revision < 10 ^ 8) :
    ∃ a, (a = numeral major ↔ StripsRight major) ∧
      stripPadding (versionBody major minor revision) =
        some (a ++ '.' :: (numeral minor ++ '.' :: numeral revision)) := by
  have hend : Ends ('.' :: (dec minor ++ '.' :: dec revision)) := .inr ⟨_, rfl⟩
  have hend' : Ends ('.' :: dec revision) := .inr ⟨_, rfl⟩
  have hend'' : Ends [] := .inl rfl
  obtain ⟨a, ha, hdigits, -, hiff⟩ := stripLeading_dec hmajor hend
  refine ⟨a, hiff, ?_⟩
  have hrevision' := stripDotted_dec hrevision hend''
  rw [List.append_nil, stripDotted_nil, Option.map_some, List.append_nil] at hrevision'
  have hminor' := stripDotted_dec hminor hend'
  rw [hrevision', Option.map_some] at hminor'
  unfold stripPadding versionBody
  rw [ha, Option.bind_some, stripDotted_append _ (dot_not_mem_of_digits hdigits), hminor']
  rfl

theorem readInfo_version (hmajor : major < 10 ^ 8) (hminor : minor < 10 ^ 8)
    (hrevision : revision < 10 ^ 8) :
    ∃ a, (a = numeral major ↔ StripsRight major) ∧
      ∀ vars, readInfo vars (infoVersion major minor revision) =
        some { vars with
          version := some (a ++ '.' :: (numeral minor ++ '.' :: numeral revision)) } := by
  obtain ⟨a, hiff, hstrip⟩ := strip_versionBody hmajor hminor hrevision
  refine ⟨a, hiff, fun vars => ?_⟩
  have hbody : ∀ c ∈ versionBody major minor revision, c ≠ ']' ∧ c ≠ '"' ∧ c ≠ 'I' :=
    fun c hc => not_special (mem_versionBody hc)
  have hI : 'I' ∉ "version".toList ++ versionBody major minor revision := by
    intro h
    rcases List.mem_append.mp h with h | h
    · exact absurd h (by decide)
    · exact (hbody 'I' h).2.2 rfl
  have hversion : match1 "version".toList (infoVersion major minor revision) =
      some (versionBody major minor revision) := by
    apply match1_marker
    intro c hc
    simp [(hbody c hc).1, (hbody c hc).2.1]
  have hname : match1 "version_name".toList (infoVersion major minor revision) = none := by
    apply match1_none _ hI
    simp
  have hlevel : match1 "uapi_level".toList (infoVersion major minor revision) = none := by
    apply match1_none _ hI
    simp
  simp only [readInfo, hversion, hname, hlevel, hstrip]
  simp [setParent]

theorem readInfo_uapiLevel (hlevel : level < 10 ^ 8) :
    ∃ a, (a = numeral level ↔ StripsRight level) ∧
      ∀ vars, readInfo vars (infoUapiLevel level) = some { vars with uapiLevel := some a } := by
  have hend : Ends [] := .inl rfl
  obtain ⟨a, ha, hdigits, hne, hiff⟩ := stripLeading_dec hlevel hend
  rw [List.append_nil, List.append_nil] at ha
  refine ⟨a, hiff, fun vars => ?_⟩
  have hstrip : stripPadding (dec level) = some a := by
    unfold stripPadding
    rw [ha, Option.bind_some, stripDotted_digits hdigits]
  have hbody := fun c hc => not_special (.inl (dec_digits level c hc))
  have hI : 'I' ∉ "uapi_level".toList ++ dec level := by
    intro h
    rcases List.mem_append.mp h with h | h
    · exact absurd h (by decide)
    · exact (hbody 'I' h).2.2 rfl
  have huapi : match1 "uapi_level".toList (infoUapiLevel level) = some (dec level) := by
    apply match1_marker
    intro c hc
    simp [(hbody c hc).1, (hbody c hc).2.1]
  have hversion : match1 "version".toList (infoUapiLevel level) = none := by
    apply match1_none _ hI
    simp
  have hname : match1 "version_name".toList (infoUapiLevel level) = none := by
    apply match1_none _ hI
    simp
  simp only [readInfo, huapi, hversion, hname, hstrip]
  simp [setParent, hne]

end

/-- Reading two markers, each as often as it was found. -/
theorem foldlM_readInfo {i j : Str} {v l : Str} (hij : i ≠ j)
    (hi : ∀ vars, readInfo vars i = some { vars with version := some v })
    (hj : ∀ vars, readInfo vars j = some { vars with uapiLevel := some l })
    {infos : List Str} (hinfos : ∀ info ∈ infos, info = i ∨ info = j) (vars : Versions) :
    infos.foldlM readInfo vars = some { vars with
      version := if i ∈ infos then some v else vars.version
      uapiLevel := if j ∈ infos then some l else vars.uapiLevel } := by
  induction infos generalizing vars with
  | nil => simp
  | cons info infos ih =>
    have hrest := ih fun info hinfo => hinfos info (List.mem_cons_of_mem _ hinfo)
    rcases hinfos info List.mem_cons_self with rfl | rfl
    · rw [List.foldlM_cons, hi, Option.bind_eq_bind, Option.bind_some, hrest]
      simp [hij.symm]
    · rw [List.foldlM_cons, hj, Option.bind_eq_bind, Option.bind_some, hrest]
      simp [hij]

/-! ## Encoding and decoding -/

/-- From these markers the function finds the version and the level in decimal. -/
def Decodes (major minor revision level : Nat) (infos : List Str) : Prop :=
  ∃ vars, xenoGetVersion infos = some vars ∧
    vars.version = some (numeral major ++ '.' :: (numeral minor ++ '.' :: numeral revision)) ∧
    vars.uapiLevel = some (numeral level)

theorem infoVersion_ne_infoUapiLevel (major minor revision level : Nat) :
    infoVersion major minor revision ≠ infoUapiLevel level := by
  intro h
  simp [infoVersion, infoUapiLevel, marker_eq] at h

/-- Read from its markers, a version has everything right but, perhaps, its
first number, and so has the level. -/
theorem xenoGetVersion_markers {major minor revision level : Nat} (hmajor : major < 10 ^ 8)
    (hminor : minor < 10 ^ 8) (hrevision : revision < 10 ^ 8) (hlevel : level < 10 ^ 8)
    {infos : List Str} (hinfos : ∀ info, info ∈ infos ↔
      info = infoVersion major minor revision ∨ info = infoUapiLevel level) :
    ∃ a b, (a = numeral major ↔ StripsRight major) ∧ (b = numeral level ↔ StripsRight level) ∧
      xenoGetVersion infos = some
        { version := some (a ++ '.' :: (numeral minor ++ '.' :: numeral revision))
          versionName := none
          uapiLevel := some b } := by
  obtain ⟨a, ha, hversion⟩ := readInfo_version hmajor hminor hrevision
  obtain ⟨b, hb, huapi⟩ := readInfo_uapiLevel hlevel
  have hrun := foldlM_readInfo (infoVersion_ne_infoUapiLevel major minor revision level)
    hversion huapi (fun info => (hinfos info).mp) ⟨none, none, none⟩
  rw [if_pos ((hinfos _).mpr (.inl rfl)), if_pos ((hinfos _).mpr (.inr rfl))] at hrun
  exact ⟨a, b, ha, hb, hrun⟩

/-- Level 101 is read as 11. -/
theorem not_decodes_level_101 : ¬ Decodes 3 1 0 101 [infoVersion 3 1 0, infoUapiLevel 101] := by
  have hinfos : ∀ info, info ∈ [infoVersion 3 1 0, infoUapiLevel 101] ↔
      info = infoVersion 3 1 0 ∨ info = infoUapiLevel 101 := fun _ => List.mem_pair
  obtain ⟨a, b, -, hb, hget⟩ := xenoGetVersion_markers (by decide) (by decide) (by decide)
    (by decide) hinfos
  intro h
  obtain ⟨vars, hvars, -, hlevel⟩ := h
  obtain rfl := Option.some.inj (hget.symm.trans hvars)
  have hright : StripsRight 101 := hb.mp (Option.some.inj hlevel)
  exact absurd hright (by decide)

/-- **The decoder undoes the encoder**, on numbers of at most eight digits and
markers in any order, iff the anchored expression meets no second padding in
the first number of the version and in the level. -/
theorem decodes_iff (major minor revision level : Nat) (hmajor : major < 10 ^ 8)
    (hminor : minor < 10 ^ 8) (hrevision : revision < 10 ^ 8) (hlevel : level < 10 ^ 8)
    (infos : List Str) (hinfos : ∀ info, info ∈ infos ↔
      info = infoVersion major minor revision ∨ info = infoUapiLevel level) :
    Decodes major minor revision level infos ↔ StripsRight major ∧ StripsRight level := by
  obtain ⟨a, b, ha, hb, hget⟩ :=
    xenoGetVersion_markers hmajor hminor hrevision hlevel hinfos
  unfold Decodes
  rw [hget, ← ha, ← hb]
  simp

theorem decodes_iff_release :
    Decodes 3 0 4 14 [infoVersion 3 0 4, infoUapiLevel 14] ↔ StripsRight 3 ∧ StripsRight 14 :=
  decodes_iff 3 0 4 14 (by decide) (by decide) (by decide) (by decide)
    [infoVersion 3 0 4, infoUapiLevel 14] (fun _ => List.mem_pair)

end CmakeXenomai.Find
