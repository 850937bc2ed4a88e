import CmakeXenomai.Install.Torelpath
import CmakeXenomai.Lib.Templates

/-!
# derefvar

The function of `install_cmakeconfig.sh` that expands the shell variables in a
path: it has the shell evaluate the text as a double-quoted word until nothing
changes any more. The four variables start out as texts with references to one
another, and each result overwrites its variable before the next is resolved.
-/

namespace CmakeXenomai.Install

open Lib.Loop Lib.Path Lib.Templates

/-! ## The function -/

/-- The path variables of the script. -/
inductive Var where
  | pfx
  | execPrefix
  | libdir
  | includedir
deriving DecidableEq, Repr

instance : Fintype Var where
  elems := {.pfx, .execPrefix, .libdir, .includedir}
  complete := by intro x; cases x <;> decide

def Var.name : Var → Str
  | .pfx => "prefix".toList
  | .execPrefix => "exec_prefix".toList
  | .libdir => "libdir".toList
  | .includedir => "includedir".toList

/-- Values of the variables. -/
abbrev Vars := Var → Str

/-- `${name}` -/
def Var.spell (x : Var) : Str := ['$', '{'] ++ x.name ++ ['}']

/-- Characters that mean something in a double-quoted word. -/
def quoting (c : Char) : Bool := c ∈ ['$', '"', '\\', '`']

/-- A name and its closing brace. -/
def readName (s : Str) : Option (Var × Str) :=
  [Var.pfx, .execPrefix, .libdir, .includedir].findSome? fun x =>
    ((x.name ++ ['}']).isPrefixOf? s).map (x, ·)

/-- The value of a double-quoted word; of the expansions the shell has, those
of the form `${name}` with a path variable's name. -/
def evalWord (vars : Vars) : Nat → Str → Option Str
  | 0, _ => none
  | _ + 1, [] => some []
  | n + 1, '$' :: '{' :: s =>
    match readName s with
    | some (x, s') => (evalWord vars n s').map (vars x ++ ·)
    | none => none
  | n + 1, c :: s => if quoting c then none else (evalWord vars n s).map (c :: ·)

/-- `$(eval "printf '%s' \"$var\"")` -/
def evalPrintf (vars : Vars) (var : Str) : Option Str :=
  (evalWord vars (var.length + 1) var).map cmdSubst

/-- The local variables of `derefvar`. -/
structure Deref where
  var : Str
  last : Str

/-- `while [ "$var" != "$last" ]`; without a result where the text is no word
this model evaluates. -/
def derefLoop (vars : Vars) (s : Deref) : Turn Deref (Option Str) :=
  if s.var ≠ s.last then
    match evalPrintf vars s.var with
    | some var => .again ⟨var, s.var⟩
    | none => .leave none
  else .leave (some s.var)

/-- `derefvar "$arg"` with a turn budget for its loop. -/
def derefvar (vars : Vars) (fuel : Nat) (arg : Str) : Option Str :=
  (run (derefLoop vars) fuel ⟨arg, 'x' :: arg⟩).join

/-- `x=$(derefvar "$x")` for each variable in turn. -/
def resolve (fuel : Nat) : List Var → Vars → Option Vars
  | [], vars => some vars
  | x :: order, vars => do
    let value ← derefvar vars fuel (vars x)
    resolve fuel order (Function.update vars x (cmdSubst value))

/-! ## Texts with references -/

/-- Characters of literal text. -/
def plainChar (c : Char) : Bool := !quoting c && c ≠ '\n'

abbrev Lit := {c : Char // plainChar c}

/-- Literal characters of a string. -/
def literal (s : Str) (h : s.all plainChar) : List Lit :=
  s.pmap Subtype.mk (List.all_eq_true.mp h)

/-- A template as the shell text it stands for. -/
def text (t : Template Lit Var) : Str := fill Subtype.val Var.spell t

/-- Literal characters as text. -/
def chars (s : List Lit) : Str := s.map Subtype.val

/-- The values the script starts from. -/
def defaults : Var → Template Lit Var
  | .pfx => lits (literal "/usr/xenomai".toList (by decide))
  | .execPrefix => [.ref .pfx]
  | .libdir => .ref .execPrefix :: lits (literal "/lib".toList (by decide))
  | .includedir => .ref .pfx :: lits (literal "/include".toList (by decide))

example : text (defaults .libdir) = "${exec_prefix}/lib".toList := by decide

theorem text_lits (s : List Lit) : text (lits s) = chars s :=
  fill_lits _ _ s

theorem text_cons_lit (c : Lit) (t : Template Lit Var) : text (.lit c :: t) = c.val :: text t := rfl

theorem text_cons_ref (x : Var) (t : Template Lit Var) :
    text (.ref x :: t) = '$' :: '{' :: (x.name ++ '}' :: text t) := by
  show x.spell ++ text t = _
  simp [Var.spell]

/-- Every name is read back, whatever follows its brace. -/
theorem readName_name (x : Var) (s : Str) : readName (x.name ++ '}' :: s) = some (x, s) := by
  cases x <;> rfl

theorem not_quoting (c : Lit) : ¬ quoting c.val := by
  have h := c.2
  simp only [plainChar, Bool.and_eq_true, Bool.not_eq_true'] at h
  simp [h.1]

theorem ne_newline (c : Lit) : c.val ≠ '\n' := by
  have h := c.2
  simp only [plainChar, Bool.and_eq_true, decide_eq_true_eq] at h
  exact h.2

theorem ne_dollar (c : Lit) : c.val ≠ '$' := by
  intro h
  exact not_quoting c (by rw [h]; decide)

/-- A text is written in one way only. -/
theorem text_injective {t t' : Template Lit Var} (h : text t = text t') : t = t' := by
  induction t generalizing t' with
  | nil =>
    cases t' with
    | nil => rfl
    | cons f t' =>
      cases f with
      | lit c => rw [text_cons_lit] at h; cases h
      | ref x => rw [text_cons_ref] at h; cases h
  | cons f t ih =>
    cases t' with
    | nil =>
      cases f with
      | lit c => rw [text_cons_lit] at h; cases h
      | ref x => rw [text_cons_ref] at h; cases h
    | cons f' t' =>
      cases f with
      | lit c =>
        cases f' with
        | lit c' =>
          rw [text_cons_lit, text_cons_lit, List.cons.injEq] at h
          rw [Subtype.ext h.1, ih h.2]
        | ref y =>
          rw [text_cons_lit, text_cons_ref, List.cons.injEq] at h
          exact absurd h.1 (ne_dollar c)
      | ref x =>
        cases f' with
        | lit c' =>
          rw [text_cons_lit, text_cons_ref, List.cons.injEq] at h
          exact absurd h.1.symm (ne_dollar c')
        | ref y =>
          rw [text_cons_ref, text_cons_ref] at h
          have hread := readName_name x (text t)
          rw [(List.cons.inj (List.cons.inj h).2).2, readName_name] at hread
          obtain ⟨rfl, hrest⟩ := Prod.mk.inj (Option.some.inj hread)
          rw [ih hrest.symm]

theorem newline_not_mem_text (t : Template Lit Var) : '\n' ∉ text t := by
  induction t with
  | nil => simp [text]
  | cons f t ih =>
    cases f with
    | lit c =>
      rw [text_cons_lit, List.mem_cons, not_or]
      exact ⟨fun h => ne_newline c h.symm, ih⟩
    | ref x =>
      have hname : '\n' ∉ x.name := by cases x <;> decide
      rw [text_cons_ref]
      simp [hname, ih]

theorem cmdSubst_text (t : Template Lit Var) : cmdSubst (text t) = text t := by
  unfold cmdSubst
  rw [List.rdropWhile_eq_self_iff]
  intro hne hlast
  have hmem := List.getLast_mem hne
  rw [of_decide_eq_true hlast] at hmem
  exact newline_not_mem_text t hmem

/-! ## One evaluation -/

theorem evalWord_lit (vars : Vars) (n : Nat) (c : Lit) (s : Str) :
    evalWord vars (n + 1) (c.val :: s) = (evalWord vars n s).map (c.val :: ·) := by
  rw [evalWord]
  · exact if_neg (not_quoting c)
  · intro s' h
    exact absurd h (ne_dollar c)

/-- The shell's value of a text is the text with the variables' values for its
references. -/
theorem evalWord_text (vars : Vars) (t : Template Lit Var) {n : Nat} (hn : (text t).length < n) :
    evalWord vars n (text t) = some (fill Subtype.val vars t) := by
  induction t generalizing n with
  | nil =>
    obtain ⟨n, rfl⟩ : ∃ m, n = m + 1 := ⟨n - 1, by omega⟩
    rfl
  | cons f t ih =>
    obtain ⟨n, rfl⟩ : ∃ m, n = m + 1 := ⟨n - 1, by omega⟩
    cases f with
    | lit c =>
      rw [text_cons_lit] at hn ⊢
      rw [evalWord_lit, ih (by simpa using hn)]
      rfl
    | ref x =>
      rw [text_cons_ref] at hn ⊢
      have hn' : (text t).length < n := by
        simp at hn
        omega
      rw [evalWord, readName_name]
      simp only
      rw [ih hn']
      rfl

/-- One round of the loop expands all references at once. -/
theorem evalPrintf_text (g : Var → Template Lit Var) (t : Template Lit Var) :
    evalPrintf (fun x => text (g x)) (text t) = some (text (subst g t)) := by
  unfold evalPrintf
  rw [evalWord_text _ t (Nat.lt_succ_self _), Option.map_some]
  have hfill : fill Subtype.val (fun x => text (g x)) t = text (subst g t) :=
    (fill_subst Subtype.val Var.spell g t).symm
  rw [hfill, cmdSubst_text]

/-! ## The loop -/

variable {g : Var → Template Lit Var}

theorem derefLoop_again {t : Template Lit Var} {last : Str} (h : text t ≠ last) :
    derefLoop (fun x => text (g x)) ⟨text t, last⟩ = .again ⟨text (subst g t), text t⟩ := by
  unfold derefLoop
  rw [if_pos h]
  simp only
  rw [evalPrintf_text]

theorem derefLoop_leave (vars : Vars) (s : Str) : derefLoop vars ⟨s, s⟩ = .leave (some s) := by
  unfold derefLoop
  rw [if_neg (by simp)]

/-- From a text whose references have ranks below `n`, the loop ends on its
complete expansion; the rank drops with every level. -/
theorem derefLoop_returns {rank : Var → Nat} (hrank : ∀ x y, Refers g x y → rank y < rank x)
    {n : Nat} {t : Template Lit Var} {s : List Lit} (last : Str) (hbelow : Below rank n t)
    (hs : Expands g t s) (hlast : text t = last → ∃ s, t = lits s) :
    Returns (derefLoop fun x => text (g x)) ⟨text t, last⟩ (some (chars s)) := by
  -- a text without references is left as soon as it has been seen twice
  have hdone : ∀ s last, Returns (derefLoop fun x => text (g x)) ⟨text (lits s), last⟩
      (some (chars s)) := by
    intro s last
    by_cases heq : text (lits s) = last
    · subst heq
      rw [text_lits]
      exact .of_leave (derefLoop_leave _ _)
    · refine .of_again (derefLoop_again heq) ?_
      rw [subst_lits, text_lits]
      exact .of_leave (derefLoop_leave _ _)
  induction n generalizing t last with
  | zero =>
    obtain ⟨s', rfl⟩ := hbelow.eq_lits
    rw [hs.unique (expands_lits s')]
    exact hdone s' last
  | succ n ih =>
    by_cases heq : text t = last
    · obtain ⟨s', rfl⟩ := hlast heq
      rw [hs.unique (expands_lits s')]
      exact hdone s' last
    · refine .of_again (derefLoop_again heq) (ih _ (hbelow.subst hrank) hs.subst fun hsame => ?_)
      have hfix : subst g t = t := text_injective hsame
      obtain ⟨s', hs'⟩ := eq_lits_of_subst_eq hrank hbelow hfix
      exact ⟨s', hfix.trans hs'⟩

/-- Every call of `derefvar` terminates and prints the complete expansion. -/
theorem derefvar_expands (hacyclic : Acyclic g) {t : Template Lit Var} {s : List Lit}
    (hs : Expands g t s) :
    ∃ fuel, derefvar (fun x => text (g x)) fuel (text t) = some (chars s) := by
  obtain ⟨rank, hrank⟩ := exists_rank hacyclic
  obtain ⟨n, hn⟩ := exists_below (α := Lit) rank
  obtain ⟨fuel, hfuel⟩ := derefLoop_returns hrank ('x' :: text t) (hn t) hs (by simp)
  exact ⟨fuel, by rw [derefvar, hfuel]; rfl⟩

theorem derefvar_mono {vars : Vars} {fuel more : Nat} {arg s : Str}
    (h : derefvar vars fuel arg = some s) (hle : fuel ≤ more) :
    derefvar vars more arg = some s := by
  unfold derefvar at h ⊢
  rw [run_mono (Option.join_eq_some_iff.mp h) hle]
  rfl

theorem resolve_mono {order : List Var} {fuel more : Nat} {vars vars' : Vars}
    (h : resolve fuel order vars = some vars') (hle : fuel ≤ more) :
    resolve more order vars = some vars' := by
  induction order generalizing vars with
  | nil => exact h
  | cons x order ih =>
    obtain ⟨value, hvalue, hrest⟩ := Option.bind_eq_some_iff.mp h
    exact Option.bind_eq_some_iff.mpr ⟨value, derefvar_mono hvalue hle, ih hrest⟩

/-! ## All variables -/

/-- Variables that have their complete expansions already refer to nothing. -/
theorem acyclic_of_filled (hacyclic : Acyclic g) {full : Var → List Lit}
    {g' : Var → Template Lit Var} (hg' : ∀ x, g' x = g x ∨ g' x = lits (full x)) : Acyclic g' := by
  refine hacyclic.congr fun y z hyz => ?_
  rcases hg' y with h | h
  · rwa [Refers, ← h]
  · simp [Refers, h, lits] at hyz

theorem expands_of_filled {full : Var → List Lit} (hfull : ∀ x, Expands g (g x) (full x))
    {g' : Var → Template Lit Var} (hg' : ∀ x, g' x = g x ∨ g' x = lits (full x)) (x : Var) :
    Expands g' (g' x) (full x) := by
  rcases hg' x with h | h
  · rw [h]
    exact (hfull x).congr hfull hg'
  · rw [h]
    exact expands_lits _

theorem filled_update {full : Var → List Lit} {g' : Var → Template Lit Var}
    (hg' : ∀ x, g' x = g x ∨ g' x = lits (full x)) (x y : Var) :
    Function.update g' x (lits (full x)) y = g y ∨
      Function.update g' x (lits (full x)) y = lits (full y) := by
  by_cases hy : y = x
  · subst hy
    exact .inr (by rw [Function.update_self])
  · rw [Function.update_of_ne hy]
    exact hg' y

/-- Between the assignments each variable has its original text or its complete
expansion, so the expansions stay the same. -/
theorem resolve_expands (hacyclic : Acyclic g) {full : Var → List Lit}
    (hfull : ∀ x, Expands g (g x) (full x)) (order : List Var) (g' : Var → Template Lit Var)
    (hg' : ∀ x, g' x = g x ∨ g' x = lits (full x)) :
    ∃ fuel vars, resolve fuel order (fun x => text (g' x)) = some vars ∧
      (∀ x ∈ order, vars x = chars (full x)) ∧ ∀ x ∉ order, vars x = text (g' x) := by
  induction order generalizing g' with
  | nil => exact ⟨0, _, rfl, by simp, fun x _ => rfl⟩
  | cons x order ih =>
    obtain ⟨n, hn⟩ :=
      derefvar_expands (acyclic_of_filled hacyclic hg') (expands_of_filled hfull hg' x)
    -- the assignment makes `x` literal text
    obtain ⟨g'', hg''⟩ : ∃ g'', g'' = Function.update g' x (lits (full x)) := ⟨_, rfl⟩
    have hupdate : Function.update (fun y => text (g' y)) x (cmdSubst (chars (full x))) =
        fun y => text (g'' y) := by
      funext y
      by_cases hy : y = x
      · subst hy
        rw [hg'', Function.update_self, Function.update_self, ← text_lits, cmdSubst_text]
      · rw [hg'', Function.update_of_ne hy, Function.update_of_ne hy]
    have hfilled : ∀ y, g'' y = g y ∨ g'' y = lits (full y) := by
      rw [hg'']
      exact filled_update hg' x
    obtain ⟨m, vars, hrun, hin, hout⟩ := ih g'' hfilled
    refine ⟨max n m, vars, ?_, ?_, ?_⟩
    · refine Option.bind_eq_some_iff.mpr ⟨_, derefvar_mono hn (le_max_left n m), ?_⟩
      rw [hupdate]
      exact resolve_mono hrun (le_max_right n m)
    · intro y hy
      by_cases hyo : y ∈ order
      · exact hin y hyo
      · obtain rfl : y = x := (List.mem_cons.mp hy).resolve_right hyo
        rw [hout y hyo, hg'', Function.update_self, text_lits]
    · intro y hy
      rw [List.mem_cons, not_or] at hy
      rw [hout y hy.2, hg'', Function.update_of_ne hy.1]

/-- Acyclic texts are resolved completely, in whatever order the variables are
taken: every call of `derefvar` terminates, every resolved variable is the
complete expansion of its original text and has no reference left, and the
others keep their text. -/
theorem derefvar_resolves (g : Var → Template Lit Var) (hacyclic : Acyclic g) :
    ∃ full : Var → List Lit, (∀ x, Expands g (g x) (full x)) ∧
      ∀ order, ∃ fuel vars, resolve fuel order (fun x => text (g x)) = some vars ∧
        (∀ x ∈ order, vars x = chars (full x) ∧ '$' ∉ vars x) ∧
        ∀ x ∉ order, vars x = text (g x) := by
  choose full hfull using fun x => exists_expands hacyclic (g x)
  refine ⟨full, hfull, fun order => ?_⟩
  obtain ⟨fuel, vars, hrun, hin, hout⟩ :=
    resolve_expands hacyclic hfull order g fun x => .inl rfl
  refine ⟨fuel, vars, hrun, fun x hx => ⟨hin x hx, ?_⟩, hout⟩
  rw [hin x hx]
  intro hmem
  obtain ⟨c, -, hc⟩ := List.mem_map.mp hmem
  exact ne_dollar c hc

/-- The script's defaults. -/
theorem derefvar_resolves_defaults :
    ∃ full : Var → List Lit, (∀ x, Expands defaults (defaults x) (full x)) ∧
      ∀ order, ∃ fuel vars, resolve fuel order (fun x => text (defaults x)) = some vars ∧
        (∀ x ∈ order, vars x = chars (full x) ∧ '$' ∉ vars x) ∧
        ∀ x ∉ order, vars x = text (defaults x) := by
  -- prefix, then exec_prefix and includedir, then libdir
  have hrank : ∀ x y, .ref y ∈ defaults x →
      [Var.pfx, .execPrefix, .libdir].idxOf y < [Var.pfx, .execPrefix, .libdir].idxOf x := by
    decide
  exact derefvar_resolves defaults (acyclic_of_rank hrank)

end CmakeXenomai.Install
