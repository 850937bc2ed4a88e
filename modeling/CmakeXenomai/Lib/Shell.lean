import Mathlib.Data.List.Basic
import Mathlib.Tactic

/-!
# Words of the shell

How a POSIX shell takes a line apart into words, as far as blanks, single
quotes, backslashes and characters without a meaning of their own go; a line
with anything else in it is left to the shell. Quoting with single quotes, each
single quote inside written as `'\''`, keeps any string a word of its own
(`words_line`).
-/

namespace Lib.Shell

abbrev Str := List Char

/-! ## Taking a line apart -/

/-- Where the shell is in a line: between words, in one, in a quoted part of
one, or behind a backslash. -/
inductive Lex where
  | between
  | word (w : Str)
  | quoted (w : Str)
  | escaped (before : Option Str)

def blank (c : Char) : Bool := c = ' ' || c = '\t'

/-- Characters that stand for themselves outside quotes, wherever they are. -/
def ordinary (c : Char) : Bool :=
  c.isAlphanum || c ∈ ['-', '_', '.', '/', ',', ':', '+', '%', '@', '=']

/-- The word that goes on. -/
def Lex.current : Option Str → Lex
  | none => .between
  | some w => .word w

def lex : Lex → Str → Option (List Str)
  | .between, [] => some []
  | .word w, [] => some [w]
  | .quoted _, [] => none
  | .escaped _, [] => none
  | .between, c :: s =>
    if blank c then lex .between s
    else if c = '\'' then lex (.quoted []) s
    else if c = '\\' then lex (.escaped none) s
    else if ordinary c then lex (.word [c]) s
    else none
  | .word w, c :: s =>
    if blank c then (lex .between s).map (w :: ·)
    else if c = '\'' then lex (.quoted w) s
    else if c = '\\' then lex (.escaped (some w)) s
    else if ordinary c then lex (.word (w ++ [c])) s
    else none
  | .quoted w, c :: s => if c = '\'' then lex (.word w) s else lex (.quoted (w ++ [c])) s
  | .escaped before, c :: s =>
    -- a line goes on behind a backslash at its end
    if c = '\n' then lex (.current before) s else lex (.word (before.getD [] ++ [c])) s

/-- The words of a line. -/
def words (line : Str) : Option (List Str) := lex .between line

theorem lex_between_blank (s : Str) : lex .between (' ' :: s) = lex .between s := by
  have hblank : blank ' ' = true := rfl
  rw [lex, if_pos hblank]

/-- A blank ends the word. -/
theorem lex_word_blank (w s : Str) :
    lex (.word w) (' ' :: s) = (lex .between s).map (w :: ·) := by
  have hblank : blank ' ' = true := rfl
  rw [lex, if_pos hblank]

/-! ## Quoting -/

/-- A string between single quotes, without the first of them. -/
def quoteRest : Str → Str
  | [] => ['\'']
  | '\'' :: s => '\'' :: '\\' :: '\'' :: '\'' :: quoteRest s
  | c :: s => c :: quoteRest s

def quote (s : Str) : Str := '\'' :: quoteRest s

theorem quoteRest_cons {c : Char} (hc : c ≠ '\'') (s : Str) :
    quoteRest (c :: s) = c :: quoteRest s := by
  rw [quoteRest]
  exact fun h => hc h

/-- Behind the closing quote the shell has the whole string in its word. -/
theorem lex_quoteRest (w s rest : Str) :
    lex (.quoted w) (quoteRest s ++ rest) = lex (.word (w ++ s)) rest := by
  induction s generalizing w with
  | nil =>
    show lex (.quoted w) ('\'' :: rest) = _
    rw [lex, if_pos rfl, List.append_nil]
  | cons c s ih =>
    by_cases hc : c = '\''
    · subst hc
      -- the quote is closed, the single quote escaped, and the quote opened again
      show lex (.quoted w) ('\'' :: '\\' :: '\'' :: '\'' :: (quoteRest s ++ rest)) = _
      rw [lex, if_pos rfl, lex, if_neg (by decide), if_neg (by decide), if_pos rfl, lex,
        if_neg (by decide), lex, if_neg (by decide), if_pos rfl, ih]
      show lex (.word (w ++ ['\''] ++ s)) rest = _
      rw [List.append_assoc]
      rfl
    · rw [quoteRest_cons hc, List.cons_append, lex, if_neg hc, ih, List.append_assoc]
      rfl

/-- A quoted string starts a word wherever it stands between words. -/
theorem lex_quote (s rest : Str) :
    lex .between (quote s ++ rest) = lex (.word s) rest := by
  show lex .between ('\'' :: (quoteRest s ++ rest)) = _
  rw [lex, if_neg (by decide), if_pos rfl, lex_quoteRest, List.nil_append]

theorem not_special_of_ordinary {c : Char} (hc : ordinary c) :
    ¬ blank c ∧ c ≠ '\'' ∧ c ≠ '\\' := by
  refine ⟨fun hblank => ?_, ?_, ?_⟩
  · simp only [blank, Bool.or_eq_true, decide_eq_true_eq] at hblank
    rcases hblank with rfl | rfl <;> exact absurd hc (by decide)
  · rintro rfl
    exact absurd hc (by decide)
  · rintro rfl
    exact absurd hc (by decide)

/-- Ordinary characters go into the word. -/
theorem lex_ordinary {s : Str} (hs : ∀ c ∈ s, ordinary c) (w rest : Str) :
    lex (.word w) (s ++ rest) = lex (.word (w ++ s)) rest := by
  induction s generalizing w with
  | nil => rw [List.nil_append, List.append_nil]
  | cons c s ih =>
    rw [List.forall_mem_cons] at hs
    obtain ⟨hblank, hquote, hbackslash⟩ := not_special_of_ordinary hs.1
    rw [List.cons_append, lex, if_neg hblank, if_neg hquote, if_neg hbackslash, if_pos hs.1,
      ih hs.2, List.append_assoc]
    rfl

/-! ## Lines of words -/

/-- A way to write a word: as it is, or quoted. -/
inductive Token where
  | bare (s : Str)
  | quoted (s : Str)

namespace Token

def word : Token → Str
  | bare s => s
  | quoted s => s

def text : Token → Str
  | bare s => s
  | quoted s => quote s

/-- Nothing in a bare word means anything to the shell. -/
def Valid : Token → Prop
  | bare s => s ≠ [] ∧ ∀ c ∈ s, ordinary c
  | quoted _ => True

theorem lex_text {t : Token} (ht : t.Valid) (rest : Str) :
    lex .between (t.text ++ rest) = lex (.word t.word) rest := by
  cases t with
  | quoted s => exact lex_quote s rest
  | bare s =>
    obtain ⟨hne, hs⟩ := ht
    obtain ⟨c, s, rfl⟩ := List.exists_cons_of_ne_nil hne
    rw [List.forall_mem_cons] at hs
    obtain ⟨hblank, hquote, hbackslash⟩ := not_special_of_ordinary hs.1
    show lex .between (c :: (s ++ rest)) = lex (.word (c :: s)) rest
    rw [lex, if_neg hblank, if_neg hquote, if_neg hbackslash, if_pos hs.1, lex_ordinary hs.2]
    rfl

end Token

/-- A line of words, a blank in front of each. -/
def line (ts : List Token) : Str := ts.flatMap fun t => ' ' :: t.text

theorem line_cons (t : Token) (ts : List Token) : line (t :: ts) = ' ' :: (t.text ++ line ts) := rfl

/-- The blank in front of the next word ends this one. -/
theorem lex_word_line (w : Str) (ts : List Token) :
    lex (.word w) (line ts) = (lex .between (line ts)).map (w :: ·) := by
  cases ts with
  | nil => rfl
  | cons t ts =>
    rw [line_cons, lex_word_blank, lex_between_blank]

/-- **The shell reads the words that were written**, whatever is in the quoted
ones. -/
theorem words_line {ts : List Token} (hts : ∀ t ∈ ts, t.Valid) :
    words (line ts) = some (ts.map Token.word) := by
  show lex .between (line ts) = _
  induction ts with
  | nil => rfl
  | cons t ts ih =>
    rw [List.forall_mem_cons] at hts
    rw [line_cons, lex_between_blank, Token.lex_text hts.1, lex_word_line, ih hts.2]
    rfl

/-- `'\''` is how a quote gets into a quoted word. -/
example : words " --libdir 'it'\\''s here' --".toList =
    some ["--libdir".toList, "it's here".toList, "--".toList] := by decide +kernel

end Lib.Shell
