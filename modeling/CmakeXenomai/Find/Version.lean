import CmakeXenomai.Lib.Decimal
import CmakeXenomai.Lib.Regexp

/-!
# The version probe

`FindXenomai_Version.c` spells the version numbers of the headers it is
compiled with into marker strings, eight digits each; `_xeno_get_version` of
`FindXenomai.cmake` finds the markers in the executable and takes the padding
off with regular expressions.

The expression for padding at the start is anchored with `^`, which holds again
wherever a search resumes. The digit behind the padding is part of a match, so
the next search starts right behind the first digit of the number and takes
zeros there for padding as well (`decodes_iff`).
-/

namespace CmakeXenomai.Find

open Lib.Regexp Lib.Decimal

abbrev Str := List Char

/-! ## The probe -/

/-- `'0' + d` -/
def digit (d : Nat) : Char := Char.ofNat ('0'.toNat + d)

/-- `DEC(n)` -/
def dec (n : Nat) : Str :=
  [digit (n / 10000000 % 10),
    digit (n / 1000000 % 10),
    digit (n / 100000 % 10),
    digit (n / 10000 % 10),
    digit (n / 1000 % 10),
    digit (n / 100 % 10),
    digit (n / 10 % 10),
    digit (n % 10)]

/-- `INFO:name[body]` -/
def marker (name body : Str) : Str := "INFO:".toList ++ name ++ '[' :: (body ++ [']'])

def infoVersion (major minor revision : Nat) : Str :=
  marker "version".toList (dec major ++ '.' :: (dec minor ++ '.' :: dec revision))

def infoUapiLevel (level : Nat) : Str := marker "uapi_level".toList (dec level)

/-! ## `_xeno_get_version` -/

/-- `^0+([0-9])` -/
def leadingZeros : Regex Char where
  lead := [.assert fun before _ => before.isNone, .plus (· == '0')]
  group := [.once Char.isDigit]
  trail := []

/-- `\.0+([0-9])` -/
def dottedZeros : Regex Char where
  lead := [.once (· == '.'), .plus (· == '0')]
  group := [.once Char.isDigit]
  trail := []

/-- `INFO:name\[([^]"]*)\]` -/
def infoRegex (name : Str) : Regex Char where
  lead := literal ("INFO:".toList ++ name ++ ['['])
  group := [.star fun c => c != ']' && c != '"']
  trail := literal [']']

/-- `string(REGEX REPLACE "^0+([0-9])" "\\1" …)` -/
def stripLeading (s : Str) : Option Str := replaceAll leadingZeros Match.group s

/-- `string(REGEX REPLACE "\\.0+([0-9])" ".\\1" …)` -/
def stripDotted (s : Str) : Option Str := replaceAll dottedZeros (fun m => '.' :: m.group) s

/-- One replacement after the other. -/
def stripPadding (s : Str) : Option Str := (stripLeading s).bind stripDotted

/-- The variables the function sets for its caller. -/
structure Versions where
  version : Option Str
  versionName : Option Str
  uapiLevel : Option Str
deriving DecidableEq

/-- `CMAKE_MATCH_1` after `"${info}" MATCHES "INFO:name\\[([^]\"]*)\\]"`. -/
def match1 (name info : Str) : Option Str :=
  (find (infoRegex name).matchAt none info).map fun (_, m) => m.group

/-- `set(… ${value} PARENT_SCOPE)`: without a value the variable is unset. -/
def setParent (value : Str) : Option Str := if value = [] then none else some value

/-- The body of `foreach(info ${_XENO_ID_STRINGS})`. -/
def readInfo (vars : Versions) (info : Str) : Option Versions := do
  let vars ← match match1 "version".toList info with
    | some s => do pure { vars with version := setParent (← stripPadding s) }
    | none => pure vars
  let vars ← match match1 "version_name".toList info with
    | some s => do pure { vars with versionName := setParent (← stripLeading s) }
    | none => pure vars
  match match1 "uapi_level".toList info with
    | some s => do pure { vars with uapiLevel := setParent (← stripPadding s) }
    | none => pure vars

/-- `_xeno_get_version`, on the strings `file(STRINGS)` finds; none where
CMake stops with an error. -/
def xenoGetVersion (infos : List Str) : Option Versions :=
  infos.foldlM readInfo ⟨none, none, none⟩

/-! ## Padding -/

/-- A zero with another digit behind it. -/
def Padded (s : Str) : Prop := ∃ d s', s = '0' :: d :: s' ∧ d.isDigit

/-- The group of both expressions, with nothing behind it. -/
def digitNext : Follow Char (Str × Str × Str) :=
  runAll (runAll (fun _ rest => if true then some rest else none) []) [.once Char.isDigit]

theorem digitNext_eq_some {before : Option Char} {s : Str} {b : Str × Str × Str}
    (h : digitNext before s = some b) : ∃ d s', s = d :: s' ∧ d.isDigit := by
  cases s with
  | nil => cases h
  | cons d s =>
    refine ⟨d, s, rfl, ?_⟩
    by_contra hd
    simp [digitNext, runAll, Piece.run, hd] at h

theorem digitNext_cons (before : Option Char) {d : Char} (s : Str) (hd : d.isDigit) :
    digitNext before (d :: s) = some ([d], [], s) := by
  simp [digitNext, runAll, Piece.run, hd]

/-- All the zeros but, in a number that is nothing else, the last one. -/
theorem padding_run {n : Nat} {d : Char} {s : Str} (before : Option Char) (hd : d.isDigit)
    (hstop : d ≠ '0' ∨ s.head?.all fun c => !c.isDigit) :
    runAll digitNext [.plus (· == '0')] before (.replicate (n + 1) '0' ++ d :: s) =
      some (.replicate (n + 1) '0', [d], [], s) := by
  have hstar : starThen (· == '0') (runAll digitNext []) (some '0')
      (.replicate n '0' ++ d :: s) = some (.replicate n '0', [], [d], [], s) := by
    refine starThen_eq_some_iff.mpr ⟨⟨d :: s, rfl, by simp, ?_⟩, ?_⟩
    · simp [runAll, digitNext_cons _ s hd]
    · intro t b hfits
      obtain ⟨s', heq, hall, hk⟩ := hfits
      obtain ⟨b', hk, -⟩ := Option.map_eq_some_iff.mp hk
      obtain ⟨d', s'', rfl, hd'⟩ := digitNext_eq_some hk
      by_contra hlt
      rcases List.append_eq_append_iff.mp heq with ⟨u, hu, hu'⟩ | ⟨u, hu, -⟩
      · -- more than the zeros: `d` is one as well, and a digit follows
        cases u with
        | nil => simp [hu] at hlt
        | cons c u =>
          obtain ⟨rfl, hs⟩ := List.cons.inj hu'
          have hzero : d = '0' := by simpa using hall d (by simp [hu])
          have hhead := hstop.resolve_left (fun h => h hzero)
          cases u with
          | nil => simp [hs, hd'] at hhead
          | cons c u =>
            have hc : c = '0' := by simpa using hall c (by simp [hu])
            simp [hs, hc] at hhead
      · have hle := congrArg List.length hu
        simp only [List.length_append] at hle
        omega
  have hrun : (Piece.plus (· == '0')).run (runAll digitNext []) before
      ('0' :: (.replicate n '0' ++ d :: s)) = some ('0' :: .replicate n '0', [], [d], [], s) := by
    simp only [Piece.run, beq_self_eq_true, if_true, hstar, Option.map_some]
  show ((Piece.plus (· == '0')).run (runAll digitNext []) before
    ('0' :: (.replicate n '0' ++ d :: s))).map _ = _
  rw [hrun]
  simp [List.replicate_succ]

theorem padding_none {s : Str} (before : Option Char) (hs : ¬ Padded s) :
    runAll digitNext [.plus (· == '0')] before s = none := by
  cases s with
  | nil => rfl
  | cons c s =>
    by_cases hc : c = '0'
    · subst hc
      have hstar : starThen (· == '0') (runAll digitNext []) (some '0') s = none := by
        refine starThen_eq_none_iff.mpr ?_
        intro t b hfits
        obtain ⟨s', rfl, hall, hk⟩ := hfits
        obtain ⟨b', hk, -⟩ := Option.map_eq_some_iff.mp hk
        obtain ⟨d, s'', rfl, hd⟩ := digitNext_eq_some hk
        cases t with
        | nil => exact hs ⟨d, s'', rfl, hd⟩
        | cons c t =>
          have hzero : c = '0' := by simpa using hall c List.mem_cons_self
          exact hs ⟨c, t ++ d :: s'', rfl, by rw [hzero]; rfl⟩
      show ((Piece.plus (· == '0')).run (runAll digitNext []) before ('0' :: s)).map _ = none
      simp only [Piece.run, beq_self_eq_true, if_true, hstar, Option.map_none]
    · simp [runAll, Piece.run, hc]

theorem leadingZeros_match {n : Nat} {d : Char} {s : Str} (hd : d.isDigit)
    (hstop : d ≠ '0' ∨ s.head?.all fun c => !c.isDigit) :
    leadingZeros.matchAt none (.replicate (n + 1) '0' ++ d :: s) =
      some ⟨.replicate (n + 1) '0', [d], [], s⟩ := by
  have hrun := padding_run (n := n) none hd hstop
  show (((runAll digitNext [.plus (· == '0')] none _).map ([], ·)).map _).map _ = _
  rw [hrun]
  rfl

theorem leadingZeros_none {s : Str} (hs : ¬ Padded s) : leadingZeros.matchAt none s = none := by
  have hrun := padding_none none hs
  show (((runAll digitNext [.plus (· == '0')] none s).map ([], ·)).map _).map _ = _
  rw [hrun]
  rfl

theorem dottedZeros_match {n : Nat} {d : Char} {s : Str} (hd : d.isDigit)
    (hstop : d ≠ '0' ∨ s.head?.all fun c => !c.isDigit) :
    dottedZeros.matchAt none ('.' :: (.replicate (n + 1) '0' ++ d :: s)) =
      some ⟨'.' :: .replicate (n + 1) '0', [d], [], s⟩ := by
  have hrun := padding_run (n := n) (some '.') hd hstop
  show (((runAll digitNext [.plus (· == '0')] (some '.') _).map (['.'], ·)).map _).map _ = _
  rw [hrun]
  rfl

theorem dottedZeros_none {s : Str} (hs : ¬ Padded s) :
    dottedZeros.matchAt none ('.' :: s) = none := by
  have hrun := padding_none (some '.') hs
  show (((runAll digitNext [.plus (· == '0')] (some '.') s).map (['.'], ·)).map _).map _ = _
  rw [hrun]
  rfl

theorem dottedZeros_none_of_ne {c : Char} (s : Str) (hc : c ≠ '.') :
    dottedZeros.matchAt none (c :: s) = none := by
  have hrun : (Piece.once (· == '.')).run (runAll digitNext [.plus (· == '0')]) none (c :: s) =
      none := by
    simp [Piece.run, hc]
  show (((Piece.once (· == '.')).run (runAll digitNext [.plus (· == '0')]) none
    (c :: s)).map _).map _ = _
  rw [hrun]
  rfl

end CmakeXenomai.Find
