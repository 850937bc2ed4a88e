import CmakeXenomai.Lib.Gsub
import CmakeXenomai.Install.Autodetect

/-!
# When the detected version is the defined one

The printed words go through a command substitution, which drops the newlines
at the end. So what the installer takes for the version is the word of the
first line that mentions `VERSION`, as long as the other lines have none
(`cmdSubst_lines_iff`).
-/

namespace CmakeXenomai.Install

open Lib.Path Lib.Regexp

/-! ## Printed lines -/

theorem cmdSubst_eq_iff {s v : Str} (hv : '\n' ∉ v) :
    cmdSubst s = v ↔ ∃ k, s = v ++ .replicate k '\n' := by
  constructor
  · rintro rfl
    refine ⟨(s.rtakeWhile (· = '\n')).length, ?_⟩
    have hall : s.rtakeWhile (· = '\n') =
        .replicate (s.rtakeWhile (· = '\n')).length '\n' := by
      refine List.eq_replicate_iff.mpr ⟨rfl, fun c hc => ?_⟩
      simpa using List.mem_rtakeWhile_imp hc
    rw [← hall]
    exact List.rdropWhile_append_rtakeWhile.symm
  · intro h
    obtain ⟨k, rfl⟩ := h
    unfold cmdSubst
    cases v using List.reverseRecOn with
    | nil => simp [List.rdropWhile_eq_nil_iff]
    | append_singleton v c =>
      have hc : c ≠ '\n' := fun h => hv (by simp [h])
      rw [List.append_assoc, List.singleton_append]
      exact rdropWhile_append _ v (by simpa using hc) (by simp)

theorem flatMap_replicate_nil (n : Nat) :
    (List.replicate n ([] : Str)).flatMap (· ++ ['\n']) = .replicate n '\n' := by
  induction n with
  | zero => rfl
  | succ n ih => rw [List.replicate_succ, List.flatMap_cons, ih]; rfl

/-- Lines that print nothing but newlines are empty. -/
theorem eq_replicate_of_flatMap {R : List Str} (hR : ∀ w ∈ R, '\n' ∉ w)
    (h : ∀ c ∈ R.flatMap (· ++ ['\n']), c = '\n') : R = .replicate R.length [] := by
  refine List.eq_replicate_iff.mpr ⟨rfl, fun w hw => ?_⟩
  cases w with
  | nil => rfl
  | cons c w =>
    have hc : c = '\n' := h c (List.mem_flatMap.mpr ⟨c :: w, hw, by simp⟩)
    exact absurd (by simp [hc]) (hR _ hw)

/-- Lines that come out of a command substitution as `v`, which is one line. -/
theorem cmdSubst_lines_iff {R : List Str} (hR : ∀ w ∈ R, '\n' ∉ w) {v : Str} (hv : '\n' ∉ v) :
    cmdSubst (R.flatMap (· ++ ['\n'])) = v ↔
      (R = [] ∧ v = []) ∨ ∃ n, R = v :: .replicate n [] := by
  rw [cmdSubst_eq_iff hv]
  constructor
  · intro h
    obtain ⟨k, hk⟩ := h
    cases R with
    | nil => exact .inl ⟨rfl, (List.append_eq_nil_iff.mp hk.symm).1⟩
    | cons w R =>
      have hw : '\n' ∉ w := hR w List.mem_cons_self
      have hcut : w ++ '\n' :: R.flatMap (· ++ ['\n']) = v ++ .replicate k '\n' := by
        simpa using hk
      -- neither `w` nor `v` has a newline, so they end at the same place
      have hsplit : w = v ∧ '\n' :: R.flatMap (· ++ ['\n']) = .replicate k '\n' := by
        rcases List.append_eq_append_iff.mp hcut with ⟨x, hx, hx'⟩ | ⟨x, hx, hx'⟩
        · cases x with
          | nil => exact ⟨by simpa using hx.symm, hx'⟩
          | cons c x =>
            obtain rfl := (List.cons.inj hx').1
            exact absurd (by simp [hx]) hv
        · cases x with
          | nil => exact ⟨by simpa using hx, hx'.symm⟩
          | cons c x =>
            have hc : c ∈ List.replicate k '\n' := by simp [hx']
            obtain rfl := (List.mem_replicate.mp hc).2
            exact absurd (by simp [hx]) hw
      obtain ⟨rfl, htail⟩ := hsplit
      refine .inr ⟨R.length, congrArg (w :: ·) ?_⟩
      refine eq_replicate_of_flatMap (fun w' hw' => hR w' (List.mem_cons_of_mem _ hw')) ?_
      intro c hc
      have hmem : c ∈ List.replicate k '\n' := htail ▸ List.mem_cons_of_mem _ hc
      exact (List.mem_replicate.mp hmem).2
  · intro h
    rcases h with ⟨rfl, rfl⟩ | ⟨n, rfl⟩
    · exact ⟨0, rfl⟩
    · refine ⟨n + 1, ?_⟩
      rw [List.flatMap_cons, flatMap_replicate_nil, List.append_assoc]
      rfl

/-! ## What a line says -/

theorem said_no_newline {ct : Ctype} {line w : Str} (hline : '\n' ∉ line)
    (h : said ct line = some w) : '\n' ∉ w := by
  obtain ⟨rest, hlast, rfl⟩ := Option.map_eq_some_iff.mp h
  obtain ⟨u, ⟨rfl, -⟩, -⟩ := lastMention_eq_some hlast
  intro hmem
  apply hline
  have hdrop : '\n' ∈ rest.dropWhile ct.sep := (List.takeWhile_prefix _).subset hmem
  have hrest : '\n' ∈ rest := (List.dropWhile_suffix _).subset hdrop
  simp [hrest]

theorem blank_cases {c : Char} (h : blank c) : c = ' ' ∨ c = '\t' := by
  simpa [blank] using h

theorem blank_not_ident {c : Char} (h : blank c) : identChar c = false := by
  rcases blank_cases h with rfl | rfl <;> rfl

theorem blank_not_word (ct : Ctype) {c : Char} (h : blank c) : ct.word c = false := by
  rcases blank_cases h with rfl | rfl <;> exact ct.word_ascii _ (by decide)

theorem blank_sep (ct : Ctype) {c : Char} (h : blank c) : ct.sep c = true := by
  have hspace : ct.space c = true := by
    rcases blank_cases h with rfl | rfl <;> exact ct.space_ascii _ (by decide)
  simp [Ctype.sep, hspace]

theorem blank_ne {c x : Char} (h : blank c) (hx : blank x = false) : c ≠ x := by
  rintro rfl
  rw [h] at hx
  cases hx

theorem identChar_of_mem_versionWord : ∀ c ∈ versionWord, identChar c :=
  List.all_eq_true.mp (by decide)

/-- Blanks in front of something else are dropped. -/
theorem dropWhile_blank {b s : Str} (hb : ∀ c ∈ b, blank c) (hs : s.head?.all fun c => !blank c) :
    (b ++ s).dropWhile blank = s := by
  rw [List.dropWhile_append_of_pos hb]
  cases s with
  | nil => rfl
  | cons c s =>
    have hc : ¬ blank c := by simpa using hs
    rw [List.dropWhile_cons_of_neg hc]

/-- A directive is read back, whatever follows the name. -/
theorem macroName?_eq {a b c name rest : Str} (ha : ∀ x ∈ a, blank x) (hb : ∀ x ∈ b, blank x)
    (hc : ∀ x ∈ c, blank x) (hne : c ≠ []) (hname : ∀ x ∈ name, identChar x)
    (hblank : (name ++ rest).head?.all fun x => !blank x)
    (hrest : rest.head?.all fun x => !identChar x) :
    macroName? (a ++ '#' :: (b ++ ("define".toList ++ (c ++ (name ++ rest))))) = some name := by
  have hhash : (a ++ '#' :: (b ++ ("define".toList ++ (c ++ (name ++ rest))))).dropWhile blank =
      ['#'] ++ (b ++ ("define".toList ++ (c ++ (name ++ rest)))) := dropWhile_blank ha rfl
  have hdefine : (b ++ ("define".toList ++ (c ++ (name ++ rest)))).dropWhile blank =
      "define".toList ++ (c ++ (name ++ rest)) := dropWhile_blank hb rfl
  have hspace : (c ++ (name ++ rest)).head?.any blank = true := by
    obtain ⟨x, c, rfl⟩ := List.exists_cons_of_ne_nil hne
    exact hc x List.mem_cons_self
  have htake : (name ++ rest).takeWhile identChar = name := by
    rw [List.takeWhile_append_of_pos hname]
    cases rest with
    | nil => simp
    | cons x rest =>
      have hx : ¬ identChar x := by simpa using hrest
      rw [List.takeWhile_cons_of_neg hx, List.append_nil]
  have hfirst := (isPrefixOf?_eq_some_iff ['#'] _ _).mpr hhash
  have hsecond := (isPrefixOf?_eq_some_iff "define".toList _ _).mpr hdefine
  unfold macroName?
  simp only [hfirst, hsecond, Option.bind_eq_bind, Option.bind_some, if_pos hspace,
    dropWhile_blank hc hblank, htake]

namespace DefinesAs

variable {line v e : Str}

/-- It defines the macro. -/
theorem defines (h : DefinesAs line v e) : definesVersion line = true := by
  obtain ⟨-, a, b, c, d, hblank, hc, rfl⟩ := h
  simp only [List.mem_append] at hblank
  have hrest : (d ++ '"' :: (v ++ '"' :: e)).head?.all (fun x => !identChar x) := by
    cases d with
    | nil => rfl
    | cons y d =>
      have hy : identChar y = false := blank_not_ident (hblank y (by simp))
      simp [hy]
  have hname : macroName? (a ++ '#' :: (b ++ ("define".toList ++ (c ++ (versionWord ++
      (d ++ '"' :: (v ++ '"' :: e))))))) = some versionWord :=
    macroName?_eq (fun x hx => hblank x (by simp [hx])) (fun x hx => hblank x (by simp [hx]))
      (fun x hx => hblank x (by simp [hx])) hc identChar_of_mem_versionWord rfl hrest
  exact beq_iff_eq.mpr hname

/-- The text between its first quotes is the version. -/
theorem quoted (h : DefinesAs line v e) :
    v = ((line.dropWhile (· ≠ '"')).drop 1).takeWhile (· ≠ '"') := by
  obtain ⟨hv, a, b, c, d, hblank, -, rfl⟩ := h
  have hquote : ∀ x ∈ a ++ b ++ c ++ d, x ≠ '"' := fun x hx => blank_ne (hblank x hx) rfl
  have hfront : ∀ x ∈ a ++ '#' :: (b ++ ("define".toList ++ (c ++ (versionWord ++ d)))),
      decide (x ≠ '"') = true := by
    intro x hx
    have hdefine : '"' ∉ "define".toList := by decide
    have hversion : '"' ∉ versionWord := by decide
    simp only [List.mem_append, List.mem_cons] at hx hquote
    rcases hx with h | rfl | h | h | h | h | h
    · simp [hquote x (by simp [h])]
    · decide
    · simp [hquote x (by simp [h])]
    · exact decide_eq_true (ne_of_mem_of_not_mem h hdefine)
    · simp [hquote x (by simp [h])]
    · exact decide_eq_true (ne_of_mem_of_not_mem h hversion)
    · simp [hquote x (by simp [h])]
  have hregroup : a ++ '#' :: (b ++ ("define".toList ++ (c ++ (versionWord ++
      (d ++ '"' :: (v ++ '"' :: e)))))) =
      (a ++ '#' :: (b ++ ("define".toList ++ (c ++ (versionWord ++ d))))) ++
        '"' :: (v ++ '"' :: e) := by
    simp
  have hv' : ∀ x ∈ v, decide (x ≠ '"') = true := by
    intro x hx
    have hne : x ≠ '"' := fun h => hv (h ▸ hx)
    simp [hne]
  rw [hregroup, List.dropWhile_append_of_pos hfront, List.dropWhile_cons_of_neg (by simp),
    List.drop_one, List.tail_cons, List.takeWhile_append_of_pos hv',
    List.takeWhile_cons_of_neg (by simp), List.append_nil]

/-- It mentions `VERSION`. -/
theorem mention (h : DefinesAs line v e) (ct : Ctype) :
    ∃ u d, (∀ c ∈ d, blank c) ∧ Mention ct none line u (d ++ '"' :: (v ++ '"' :: e)) := by
  obtain ⟨-, a, b, c, d, hblank, hc, rfl⟩ := h
  refine ⟨a ++ '#' :: (b ++ ("define".toList ++ c)), d, ?_, by simp, ?_⟩
  · exact fun x hx => hblank x (List.mem_append_right _ hx)
  · rcases List.eq_nil_or_concat' c with hnil | ⟨c', x, rfl⟩
    · exact absurd hnil hc
    · have hx := blank_not_word ct (hblank x (by simp))
      have hlast : behind none (a ++ '#' :: (b ++ ("define".toList ++ (c' ++ [x])))) = some x := by
        have hregroup : a ++ '#' :: (b ++ ("define".toList ++ (c' ++ [x]))) =
            (a ++ '#' :: (b ++ ("define".toList ++ c'))) ++ [x] := by simp
        rw [hregroup, behind_append]
        rfl
      rw [hlast]
      exact hx

end DefinesAs

/-- Behind the mention of a version line there is no further one. -/
theorem not_isInfix_behind {d v e : Str} (hblank : ∀ c ∈ d, blank c)
    (honce : ¬ versionWord <:+: v ++ '"' :: e) :
    ¬ versionWord <:+: versionWord.tail ++ (d ++ '"' :: (v ++ '"' :: e)) := by
  have hfront : 'V' ∉ versionWord.tail ++ d := by
    intro h
    rcases List.mem_append.mp h with h | h
    · exact absurd h (by decide)
    · exact absurd (hblank 'V' h) (by decide)
  have hquote : '"' ∉ versionWord := by decide
  intro h
  rw [← List.append_assoc] at h
  rcases Lib.Gsub.isInfix_append_sep hquote h with h | h
  · exact hfront (h.subset (by decide))
  · exact honce h

/-- The first word between the quotes is the text there, if it is one word. -/
theorem firstWord_quoted {ct : Ctype} {d v : Str} (e : Str) (hblank : ∀ c ∈ d, blank c)
    (hne : v ≠ []) (hword : ∀ c ∈ v, ct.sep c = false) :
    firstWord ct (d ++ '"' :: (v ++ '"' :: e)) = v := by
  have hquote : ct.sep '"' = true := by simp [Ctype.sep]
  have hd : ∀ c ∈ d, ct.sep c := fun c hc => blank_sep ct (hblank c hc)
  obtain ⟨c, v, rfl⟩ := List.exists_cons_of_ne_nil hne
  have hc := hword c List.mem_cons_self
  have hall : ∀ x ∈ c :: v, (!ct.sep x) = true := fun x hx => by simp [hword x hx]
  unfold firstWord
  rw [List.dropWhile_append_of_pos hd, List.dropWhile_cons_of_pos hquote, List.cons_append,
    List.dropWhile_cons_of_neg (by simp [hc]), ← List.cons_append,
    List.takeWhile_append_of_pos hall, List.takeWhile_cons_of_neg (by simp [hquote]),
    List.append_nil]

/-- A version of one word is what its line says, if the word `VERSION` is not
spelled once more from there on. -/
theorem DefinesAs.said_eq {line v e : Str} (h : DefinesAs line v e) {ct : Ctype} (hne : v ≠ [])
    (hword : ∀ c ∈ v, ct.sep c = false) (honce : ¬ versionWord <:+: v ++ '"' :: e) :
    said ct line = some v := by
  obtain ⟨u, d, hblank, hmention⟩ := h.mention ct
  cases hlast : lastMention ct none line with
  | none => exact absurd hmention (lastMention_eq_none hlast _ _)
  | some rest =>
    obtain ⟨u', ⟨hline, -⟩, hmax⟩ := lastMention_eq_some hlast
    have hle := hmax _ _ hmention
    have hcut := hmention.1.symm.trans hline
    have hrest : rest = d ++ '"' :: (v ++ '"' :: e) := by
      rcases List.append_eq_append_iff.mp hcut with ⟨x, rfl, hx⟩ | ⟨x, rfl, hx⟩
      · cases x with
        | nil => exact (List.append_cancel_left hx).symm
        | cons c x =>
          -- a later mention starts behind the `V` of this one
          have htail : versionWord.tail ++ (d ++ '"' :: (v ++ '"' :: e)) =
              x ++ (versionWord ++ rest) := (List.cons.inj hx).2
          refine absurd ⟨x, rest, ?_⟩ (not_isInfix_behind hblank honce)
          rw [htail, List.append_assoc]
      · have hnil : x = [] := by
          rw [List.length_append] at hle
          exact List.length_eq_zero_iff.mp (by omega)
        rw [hnil] at hx
        exact List.append_cancel_left hx
    unfold said
    rw [hlast, hrest, Option.map_some, firstWord_quoted e hblank hne hword]

namespace VersionLine

variable {line v : Str}

theorem defines (h : VersionLine line v) : definesVersion line = true := by
  obtain ⟨e, h⟩ := h
  exact h.defines

theorem no_newline (h : VersionLine line v) (hline : '\n' ∉ line) : '\n' ∉ v := by
  obtain ⟨e, -, a, b, c, d, -, -, rfl⟩ := h
  intro hmem
  apply hline
  simp [hmem]

theorem unique {v' : Str} (h : VersionLine line v) (h' : VersionLine line v') : v = v' := by
  obtain ⟨e, h⟩ := h
  obtain ⟨e', h'⟩ := h'
  exact h.quoted.trans h'.quoted.symm

theorem said_ne_none (h : VersionLine line v) (ct : Ctype) : said ct line ≠ none := by
  obtain ⟨e, h⟩ := h
  intro hnone
  obtain ⟨u, d, -, hmention⟩ := h.mention ct
  exact lastMention_eq_none (Option.map_eq_none_iff.mp hnone) _ _ hmention

end VersionLine

/-- Of two lines that define the macro, only one is there. -/
theorem eq_of_definesVersion {lines : List Str} (hone : lines.countP definesVersion ≤ 1)
    {line line' : Str} (hline : line ∈ lines) (hline' : line' ∈ lines)
    (h : definesVersion line = true) (h' : definesVersion line' = true) : line = line' := by
  rw [List.countP_eq_length_filter] at hone
  have hmem : line ∈ lines.filter definesVersion := List.mem_filter.mpr ⟨hline, h⟩
  have hmem' : line' ∈ lines.filter definesVersion := List.mem_filter.mpr ⟨hline', h'⟩
  match lines.filter definesVersion, hone, hmem, hmem' with
  | [only], _, hmem, hmem' =>
    rw [List.mem_singleton.mp hmem, List.mem_singleton.mp hmem']

/-! ## Detection -/

theorem autodetect_header (ct : Ctype) (header : Header) :
    autodetect ct (some header) (parsedVersion none) =
      ⟨cmdSubst ((header.lines.filterMap (said ct)).flatMap (· ++ ['\n'])), ['1']⟩ := by
  have hsaid : sedLine ct = said ct := funext (sedLine_eq_said ct)
  show VersionVars.mk (cmdSubst ((header.lines.filterMap (sedLine ct)).flatMap _)) _ = _
  rw [hsaid]

theorem autodetect_missing (ct : Ctype) :
    autodetect ct none (parsedVersion none) = ⟨"@CMAKE_VERSION_CODE@".toList, []⟩ := rfl

/-- Every header counts as one with a version. -/
theorem not_detects_of_missing {ct : Ctype} {header : Header}
    (h : ∀ line ∈ header.lines, ∀ v, ¬ VersionLine line v) : ¬ Detects ct header := by
  intro hdetects
  have heq := (hdetects.missing h).1
  rw [autodetect_header, autodetect_missing] at heq
  cases congrArg VersionVars.doVersion heq

/-- The words a header's lines say, after the command substitution. -/
theorem cmdSubst_said_iff {ct : Ctype} {header : Header} {v : Str} (hv : '\n' ∉ v) :
    cmdSubst ((header.lines.filterMap (said ct)).flatMap (· ++ ['\n'])) = v ↔
      (header.lines.filterMap (said ct) = [] ∧ v = []) ∨
        ∃ n, header.lines.filterMap (said ct) = v :: .replicate n [] := by
  apply cmdSubst_lines_iff _ hv
  intro w hw
  obtain ⟨l, hl, hlw⟩ := List.mem_filterMap.mp hw
  exact said_no_newline (header.no_newline l hl) hlw

/-- The other direction: one line defines the version, and nothing else is said. -/
theorem detects_of_said {ct : Ctype} {header : Header}
    (hone : header.lines.countP definesVersion ≤ 1) {line v : Str} (hline : line ∈ header.lines)
    (hversion : VersionLine line v) {n : Nat}
    (hsaid : header.lines.filterMap (said ct) = v :: .replicate n []) : Detects ct header := by
  have hv : '\n' ∉ v := hversion.no_newline (header.no_newline line hline)
  refine ⟨?_, ?_⟩
  · intro line' hline' v' hversion'
    obtain rfl := eq_of_definesVersion hone hline hline' hversion.defines hversion'.defines
    obtain rfl := hversion.unique hversion'
    rw [autodetect_header, (cmdSubst_said_iff hv).mpr (.inr ⟨n, hsaid⟩)]
  · intro hnone
    exact absurd hversion (hnone line hline v)

/-- A header whose version is one word, and which mentions `VERSION` nowhere
but where it defines it. -/
theorem detects_of_plain {ct : Ctype} {header : Header}
    (hone : header.lines.countP definesVersion ≤ 1) {above below : List Str} {line v e : Str}
    (hlines : header.lines = above ++ line :: below) (hversion : DefinesAs line v e)
    (hne : v ≠ []) (hword : ∀ c ∈ v, ct.sep c = false) (honce : ¬ versionWord <:+: v ++ '"' :: e)
    (hothers : ∀ l ∈ above ++ below, said ct l = none) : Detects ct header := by
  have hline : line ∈ header.lines := by simp [hlines]
  refine detects_of_said hone hline ⟨e, hversion⟩ (n := 0) ?_
  have habove : above.filterMap (said ct) = [] :=
    List.filterMap_eq_nil_iff.mpr fun l hl => hothers l (List.mem_append_left below hl)
  have hbelow : below.filterMap (said ct) = [] :=
    List.filterMap_eq_nil_iff.mpr fun l hl => hothers l (List.mem_append_right above hl)
  rw [hlines, List.filterMap_append, habove, List.nil_append,
    List.filterMap_cons_some (hversion.said_eq hne hword honce), hbelow]
  rfl

/-- A header that does not have the word at all. -/
def smpHeader : Header where
  lines := ["#define CONFIG_SMP 1".toList]
  no_newline := by decide
  no_nul := by decide

/-- It makes the installer render a version file, with an empty version. -/
theorem not_detects_smpHeader : ¬ Detects .posix smpHeader := by
  refine not_detects_of_missing ?_
  intro line hline v hversion
  obtain rfl := List.mem_singleton.mp hline
  exact absurd hversion.defines (by decide)

/-- **When the detection is right**: for headers with at most one definition of
the macro, iff there is one with a string, the first line that mentions
`VERSION` says that string, and no other line says anything. -/
theorem detects_iff (ct : Ctype) (header : Header)
    (hone : header.lines.countP definesVersion ≤ 1) :
    Detects ct header ↔ ∃ line ∈ header.lines, ∃ v, VersionLine line v ∧
      ∃ n, header.lines.filterMap (said ct) = v :: .replicate n [] := by
  constructor
  · intro hdetects
    by_cases hdefined : ∃ line ∈ header.lines, ∃ v, VersionLine line v
    · obtain ⟨line, hline, v, hversion⟩ := hdefined
      refine ⟨line, hline, v, hversion, ?_⟩
      have hv : '\n' ∉ v := hversion.no_newline (header.no_newline line hline)
      have hfound := hdetects.found line hline v hversion
      rw [autodetect_header] at hfound
      have hsubst := congrArg VersionVars.version hfound
      rcases (cmdSubst_said_iff hv).mp hsubst with ⟨hnone, -⟩ | hsaid
      · have hsilent := List.filterMap_eq_nil_iff.mp hnone line hline
        exact absurd hsilent (hversion.said_ne_none ct)
      · exact hsaid
    · refine absurd hdetects (not_detects_of_missing ?_)
      intro line hline v hversion
      exact hdefined ⟨line, hline, v, hversion⟩
  · intro h
    obtain ⟨line, hline, v, hversion, n, hsaid⟩ := h
    exact detects_of_said hone hline hversion hsaid

/-- A release's header: a comment and a carriage return behind the version, and
the word inside another macro's name. -/
def releaseHeader : Header where
  lines := ["/* Version number of package */".toList,
    "#define VERSION \"3.0.4\" /* Xenomai */\r".toList,
    "#define CONFIG_XENO_VERSION_MAJOR 3".toList]
  no_newline := by decide
  no_nul := by decide

theorem definesAs_releaseHeader :
    DefinesAs "#define VERSION \"3.0.4\" /* Xenomai */\r".toList "3.0.4".toList
      " /* Xenomai */\r".toList :=
  ⟨by decide, [], [], [' '], [' '], List.all_eq_true.mp rfl, List.cons_ne_nil _ _, by decide⟩

/-- Its version is detected. -/
theorem detects_iff_releaseHeader : Detects .posix releaseHeader :=
  (detects_iff .posix releaseHeader (by decide)).mpr
    ⟨_, by decide, "3.0.4".toList, ⟨_, definesAs_releaseHeader⟩, 0, by decide⟩

end CmakeXenomai.Install
