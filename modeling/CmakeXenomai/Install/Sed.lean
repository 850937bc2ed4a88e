import CmakeXenomai.Lib.Gsub
import CmakeXenomai.Lib.Templates

/-!
# The sed script of the installer

`install_cmakeconfig.sh` renders its templates with ten substitutions
`s,@name@,value,g`, the values spliced into the script as they are. sed reads
that script back: a value can quote, stand for the match, or end its
substitution early. How sed reads a replacement beyond what POSIX says, and
what it does with commands that come out of a value, is the parameter `Sed`.
-/

namespace CmakeXenomai.Install

open Lib.Gsub Lib.Templates

abbrev Text := List Char

/-! ## Placeholders -/

inductive Placeholder where
  | core
  | coreUpper
  | pfx
  | libdir
  | includedir
  | libToPrefix
  | libdirRel
  | includedirRel
  | cmakeVersionCode
  | cmakeSizeofVoidP
deriving DecidableEq, Repr

namespace Placeholder

def name : Placeholder → Text
  | core => "core".toList
  | coreUpper => "core_upper".toList
  | pfx => "prefix".toList
  | libdir => "libdir".toList
  | includedir => "includedir".toList
  | libToPrefix => "lib_to_prefix".toList
  | libdirRel => "libdir_rel".toList
  | includedirRel => "includedir_rel".toList
  | cmakeVersionCode => "CMAKE_VERSION_CODE".toList
  | cmakeSizeofVoidP => "CMAKE_SIZEOF_VOID_P".toList

/-- `@name@` -/
def spelled (x : Placeholder) : Text := '@' :: (x.name ++ ['@'])

/-- In the order of the `-e` options. -/
def all : List Placeholder :=
  [core, coreUpper, pfx, libdir, includedir, libToPrefix, libdirRel, includedirRel,
    cmakeVersionCode, cmakeSizeofVoidP]

theorem mem_all (x : Placeholder) : x ∈ all := by
  cases x <;> decide

/-- The placeholders substituted before `x`, and those after. -/
def earlier (x : Placeholder) : List Placeholder := all.takeWhile (· ≠ x)

def later (x : Placeholder) : List Placeholder := (all.dropWhile (· ≠ x)).tail

theorem all_eq (x : Placeholder) : all = x.earlier ++ x :: x.later := by
  cases x <;> rfl

/-- No placeholder is part of another. -/
theorem not_isInfix_of_earlier (x : Placeholder) : ∀ y ∈ x.earlier, ¬ y.spelled <:+: x.spelled := by
  cases x <;> decide

end Placeholder

/-- Values of the shell variables, one for each placeholder. -/
structure Values where
  val : Placeholder → Text
  no_newline : ∀ x, '\n' ∉ val x

/-! ## Reading the script -/

/-- What a sed adds to the part of the language the script is meant to use. -/
structure Sed where
  /-- What the replacement text stands for, given the match; none where sed
  rejects it. -/
  reading : Text → Text → Option Text
  reading_nil : ∀ m, reading m [] = some []
  reading_cons : ∀ m c r, c ≠ '&' → c ≠ '\\' → c ≠ '\n' →
    reading m (c :: r) = (reading m r).map (c :: ·)
  reading_amp : ∀ m r, reading m ('&' :: r) = (reading m r).map (m ++ ·)
  /-- A script with more in it than its ten substitutions, on a file of lines;
  none where sed fails. -/
  smuggled : List Text → List Text → Option Text

/-- Up to the next comma that is not quoted, and what follows it; a quoted
comma is a comma. -/
def splitDelim : Text → Option (Text × Text)
  | [] => none
  | ',' :: s => some ([], s)
  | ['\\'] => none
  | '\\' :: c :: s => (splitDelim s).map fun (t, rest) =>
      (if c = ',' then ',' :: t else '\\' :: c :: t, rest)
  | c :: s => (splitDelim s).map fun (t, rest) => (c :: t, rest)

/-- `s,regex,replacement,flags` -/
def readSubst : Text → Option (Text × Text × Text)
  | 's' :: ',' :: s => (splitDelim s).bind fun (regex, s) =>
      (splitDelim s).map fun (replacement, flags) => (regex, replacement, flags)
  | _ => none

/-- Letters and digits some sed has as a flag of `s`. -/
def flagLetter (c : Char) : Bool := c.isDigit || c ∈ ['g', 'p', 'i', 'I', 'm', 'M', 'e']

/-- After its flags the command ends, or names a file to write: sed goes on
reading. Anything else is an unknown flag. -/
def goesOn (flags : Text) : Bool :=
  match flags.dropWhile flagLetter with
  | [] => true
  | c :: _ => c ∈ ['w', ';', '}', '#', ' ', '\t']

inductive Reading where
  | reject
  | subst (pat repl : Text)
  | smuggled
deriving DecidableEq

namespace Sed

variable (S : Sed)

/-- A substitution, by what follows its replacement. -/
def command (regex replacement flags : Text) : Reading :=
  if flags = ['g'] then
    match S.reading regex replacement with
    | some repl => .subst regex repl
    | none => .reject
  else if goesOn flags then .smuggled
  else .reject

/-- How sed reads one `-e` option. The placeholders have no special characters
of regular expressions. -/
def read (chunk : Text) : Reading :=
  match readSubst chunk with
  | none => .reject
  | some (regex, replacement, flags) => S.command regex replacement flags

theorem command_eq_subst {regex replacement flags pat repl : Text}
    (h : S.command regex replacement flags = .subst pat repl) :
    pat = regex ∧ S.reading regex replacement = some repl := by
  unfold command at h
  by_cases hflags : flags = ['g']
  · rw [if_pos hflags] at h
    cases hreading : S.reading regex replacement with
    | none => simp [hreading] at h
    | some repl' =>
      rw [hreading] at h
      obtain ⟨rfl, rfl⟩ := Reading.subst.inj h
      exact ⟨rfl, rfl⟩
  · rw [if_neg hflags] at h
    split at h <;> simp at h

/-- The substitutions of a script that is nothing but substitutions. -/
def substs : List Text → Option (List (Text × Text))
  | [] => some []
  | chunk :: chunks =>
    match S.read chunk with
    | .subst pat repl => (substs chunks).map ((pat, repl) :: ·)
    | _ => none

/-- sed with a script, on a file of lines. -/
def run (chunks lines : List Text) : Option Text :=
  if ∃ chunk ∈ chunks, S.read chunk = .smuggled then S.smuggled chunks lines
  else (S.substs chunks).map fun cmds => lines.flatMap fun line => gsubs cmds line ++ ['\n']

end Sed

/-- `-e 's,@name@,'"$value"',g'` -/
def chunk (v : Values) (x : Placeholder) : Text :=
  "s,".toList ++ x.spelled ++ ',' :: (v.val x ++ ",g".toList)

def script (v : Values) : List Text := Placeholder.all.map (chunk v)

theorem readSubst_chunk (v : Values) (x : Placeholder) :
    readSubst (chunk v x) =
      (splitDelim (v.val x ++ ",g".toList)).map fun (r, flags) => (x.spelled, r, flags) := by
  have hregex : ∀ s, splitDelim (x.spelled ++ ',' :: s) = some (x.spelled, s) := by
    intro s
    cases x <;> rfl
  have hchunk : chunk v x = 's' :: ',' :: (x.spelled ++ ',' :: (v.val x ++ ",g".toList)) := by
    simp [chunk]
  rw [hchunk]
  show (splitDelim (x.spelled ++ ',' :: (v.val x ++ ",g".toList))).bind _ = _
  rw [hregex]
  rfl

theorem read_chunk (S : Sed) (v : Values) (x : Placeholder) :
    S.read (chunk v x) =
      match splitDelim (v.val x ++ ",g".toList) with
      | none => .reject
      | some (replacement, flags) => S.command x.spelled replacement flags := by
  unfold Sed.read
  rw [readSubst_chunk]
  cases splitDelim (v.val x ++ ",g".toList) <;> rfl

/-! ## A sed without extensions -/

/-- Replacements as POSIX has them. There are no groups to refer to; a
backslash makes any other character stand for itself. -/
def posixReading (m : Text) : Text → Option Text
  | [] => some []
  | '&' :: r => (posixReading m r).map (m ++ ·)
  | ['\\'] => some ['\\']
  | '\\' :: c :: r => if c.isDigit then none else (posixReading m r).map (c :: ·)
  | c :: r => (posixReading m r).map (c :: ·)

/-- A sed that accepts no more than the ten substitutions. -/
def posix : Sed where
  reading := posixReading
  reading_nil _ := rfl
  reading_cons m c r hamp hquote _ := by
    rw [posixReading]
    · exact hamp
    · exact fun h _ => hquote h
    · exact fun _ _ h _ => hquote h
  reading_amp _ _ := rfl
  smuggled _ _ := none

end CmakeXenomai.Install
