import Mathlib.Data.List.Basic
import Mathlib.Tactic

/-!
# The CMake language

Lists as strings with semicolons and their expansion into arguments, the truth
of a variable in `if`, comparison of versions, and `cmake_parse_arguments` as
documented. Elements without list syntax come out of a list as they went in;
options come out of the parser with their values in whatever order they are
written.
-/

namespace Lib.Cmake

abbrev Str := List Char

/-! ## Lists -/

/-- The value of a list variable. -/
def joinList (xs : List Str) : Str := [';'].intercalate xs

/-- Empty elements are dropped. -/
def element (word : Str) : List Str := if word = [] then [] else [word]

/-- The change of the depth in square brackets. -/
def bracket (c : Char) : Int := if c = '[' then 1 else if c = ']' then -1 else 0

/-- The elements of a list from `word` on, `nest` brackets deep. -/
def expandFrom (nest : Int) (word : Str) : Str → List Str
  | [] => element word
  | '\\' :: ';' :: s => expandFrom nest (word ++ [';']) s
  | c :: s =>
    if c = ';' ∧ nest = 0 then element word ++ expandFrom nest [] s
    else expandFrom (nest + bracket c) (word ++ [c]) s

/-- The arguments an unquoted `${variable}` stands for. -/
def expandList (s : Str) : List Str := expandFrom 0 [] s

/-- Not empty, and without list syntax. -/
def Plain (x : Str) : Prop := x ≠ [] ∧ ∀ c ∈ x, c ∉ [';', '[', ']', '\\']

instance (x : Str) : Decidable (Plain x) :=
  decidable_of_iff (x ≠ [] ∧ x.all fun c => c ∉ [';', '[', ']', '\\']) <| by
    simp only [Plain, List.all_eq_true, decide_eq_true_eq]

@[simp] theorem joinList_nil : joinList [] = [] := rfl

@[simp] theorem joinList_singleton (x : Str) : joinList [x] = x := List.intercalate_singleton

theorem joinList_cons_cons (x y : Str) (xs : List Str) :
    joinList (x :: y :: xs) = x ++ ';' :: joinList (y :: xs) := by
  simp [joinList, List.intercalate_cons_cons]

theorem joinList_concat (x : Str) (xs : List Str) :
    joinList (xs ++ [x]) = if xs = [] then x else joinList xs ++ ';' :: x := by
  induction xs with
  | nil => simp
  | cons y ys ih =>
    cases ys with
    | nil => simp [joinList_cons_cons]
    | cons z zs =>
      rw [List.cons_append, List.cons_append, joinList_cons_cons, joinList_cons_cons]
      rw [List.cons_append] at ih
      simp [ih]

theorem expandFrom_cons {nest : Int} {word : Str} {c : Char} {s : Str} (hc : c ≠ '\\') :
    expandFrom nest word (c :: s) =
      if c = ';' ∧ nest = 0 then element word ++ expandFrom nest [] s
      else expandFrom (nest + bracket c) (word ++ [c]) s := by
  rw [expandFrom]
  intro s' h
  exact absurd h hc

/-- Characters without list syntax go into the word. -/
theorem expandFrom_append {x : Str} (hx : ∀ c ∈ x, c ∉ [';', '[', ']', '\\']) (word s : Str) :
    expandFrom 0 word (x ++ s) = expandFrom 0 (word ++ x) s := by
  induction x generalizing word with
  | nil => simp
  | cons c x ih =>
    have hc := hx c (List.mem_cons_self ..)
    simp only [List.mem_cons, List.not_mem_nil, or_false, not_or] at hc
    rw [List.cons_append, expandFrom_cons hc.2.2.2, if_neg fun h => hc.1 h.1]
    -- the depth stays as it is
    have hb : bracket c = 0 := by simp [bracket, hc]
    rw [hb, Int.zero_add, ih fun d hd => hx d (List.mem_cons_of_mem _ hd)]
    simp

theorem expandList_plain {x : Str} (hx : Plain x) : expandList x = [x] := by
  have h := expandFrom_append hx.2 [] []
  rw [List.append_nil] at h
  rw [expandList, h]
  simp [expandFrom, element, hx.1]

theorem expandList_plain_append {x : Str} (hx : Plain x) (s : Str) :
    expandList (x ++ ';' :: s) = x :: expandList s := by
  rw [expandList, expandFrom_append hx.2, expandFrom_cons (by decide)]
  simp [element, hx.1, expandList]

theorem plain_append {x y : Str} (hx : Plain x) (hy : Plain y) : Plain (x ++ y) := by
  refine ⟨by simp [hx.1], ?_⟩
  intro c hc
  rcases List.mem_append.1 hc with hc | hc
  · exact hx.2 c hc
  · exact hy.2 c hc

/-- Plain elements come out of a list as they went in. -/
theorem expandList_joinList {xs : List Str} (hxs : ∀ x ∈ xs, Plain x) :
    expandList (joinList xs) = xs := by
  induction xs with
  | nil => rfl
  | cons x xs ih =>
    have hx := hxs x (List.mem_cons_self ..)
    cases xs with
    | nil => rw [joinList_singleton, expandList_plain hx]
    | cons y ys =>
      rw [joinList_cons_cons, expandList_plain_append hx,
        ih fun z hz => hxs z (List.mem_cons_of_mem _ hz)]

theorem joinList_inj {xs ys : List Str} (hxs : ∀ x ∈ xs, Plain x) (hys : ∀ y ∈ ys, Plain y) :
    joinList xs = joinList ys ↔ xs = ys := by
  constructor
  · intro h
    rw [← expandList_joinList hxs, h, expandList_joinList hys]
  · rintro rfl
    rfl

/-! ## Conditions -/

def upper (s : Str) : Str := s.map Char.toUpper

def lower (s : Str) : Str := s.map Char.toLower

theorem lower_concat (s : Str) (c : Char) : lower (s ++ [c]) = lower s ++ [c.toLower] :=
  List.map_append

/-- The constants that are false. -/
def isOff (s : Str) : Bool :=
  upper s ∈ ["".toList, "0".toList, "N".toList, "NO".toList, "OFF".toList, "FALSE".toList,
    "IGNORE".toList] ||
  s == "NOTFOUND".toList || "-NOTFOUND".toList.isSuffixOf s

/-- `if(VARIABLE)` -/
def truthy : Option Str → Bool
  | none => false
  | some s => !isOff s

/-- `if(name STREQUAL "text")`: a name that is no variable stands for itself. -/
def strEqual (name : Str) (value : Option Str) (text : Str) : Bool := value.getD name == text

/-- `if(… VERSION_LESS …)`: components that are missing are zero. -/
def versionLess : List Nat → List Nat → Bool
  | _, [] => false
  | [], b :: bs => 0 < b || versionLess [] bs
  | a :: as, b :: bs => a < b || a == b && versionLess as bs

@[simp] theorem truthy_none : truthy none = false := rfl

@[simp] theorem truthy_some (s : Str) : truthy (some s) = !isOff s := rfl

@[simp] theorem strEqual_some (name s text : Str) :
    strEqual name (some s) text = decide (s = text) := by
  simp [strEqual, beq_eq_decide]

/-- False constants end in a letter of their own or a zero. -/
theorem not_isOff_concat {s : Str} {c : Char} (hs : 6 ≤ s.length) (hc : c ≠ 'D') :
    isOff (s ++ [c]) = false := by
  have hup : ∀ t : Str, t.length ≤ 6 → upper (s ++ [c]) ≠ t := by
    rintro t ht rfl
    simp [upper] at ht
    omega
  have hsuf : ∀ t : Str, t ++ ['D'] ≠ s ++ [c] := by
    intro t h
    exact hc (List.append_inj_right' h rfl |> List.cons.inj |>.1).symm
  have hnot : ¬ "-NOTFOUND".toList <:+ s ++ [c] := by
    rintro ⟨t, h⟩
    apply hsuf (t ++ "-NOTFOUN".toList)
    rw [← h]
    simp
  simp only [isOff, Bool.or_eq_false_iff, decide_eq_false_iff_not, beq_eq_false_iff_ne]
  refine ⟨⟨?_, (hsuf "NOTFOUN".toList).symm⟩, ?_⟩
  · -- the constants have at most six characters
    intro h
    simp only [List.mem_cons, List.not_mem_nil, or_false] at h
    rcases h with h | h | h | h | h | h | h <;> exact hup _ (by decide) h
  · rw [← Bool.not_eq_true, List.isSuffixOf_iff_suffix]
    exact hnot

/-- A letter in lower case, or a character as it was. -/
theorem toLower_cases (c : Char) :
    (c.toLower = c ∧ ¬ (65 ≤ c.toNat ∧ c.toNat ≤ 90)) ∨
      (97 ≤ c.toLower.toNat ∧ c.toLower.toNat ≤ 122) := by
  by_cases h : c.val ≥ 'A'.val ∧ c.val ≤ 'Z'.val
  · right
    have hval : c.toLower.toNat = c.toNat + 32 := by
      have h90 : c.val.toNat ≤ 90 := h.2
      have hlower : c.toLower = _ := dif_pos h
      rw [hlower]
      show (c.val + 32).toNat = c.val.toNat + 32
      rw [UInt32.toNat_add]
      show (c.val.toNat + 32) % 4294967296 = _
      omega
    have h65 : 65 ≤ c.toNat := h.1
    have h90 : c.toNat ≤ 90 := h.2
    omega
  · left
    refine ⟨dif_neg h, ?_⟩
    intro hc
    exact h ⟨hc.1, hc.2⟩

theorem plain_lower {x : Str} (hx : Plain x) : Plain (lower x) := by
  refine ⟨by simpa [lower] using hx.1, ?_⟩
  intro d hd
  obtain ⟨c, hc, rfl⟩ := List.mem_map.1 hd
  have hspecial := hx.2 c hc
  rcases toLower_cases c with ⟨h, -⟩ | h
  · rwa [h]
  · intro hmem
    simp only [List.mem_cons, List.not_mem_nil, or_false] at hmem
    rcases hmem with h' | h' | h' | h' <;> rw [h'] at h <;> exact absurd h (by decide)

theorem toLower_ne_D (c : Char) : c.toLower ≠ 'D' := by
  rcases toLower_cases c with ⟨h, hc⟩ | h <;> intro hD
  · rw [← h, hD] at hc
    exact hc (by decide)
  · rw [hD] at h
    exact absurd h (by decide)

/-! ## `cmake_parse_arguments` -/

structure Keywords where
  options : List Str
  oneValue : List Str
  multiValue : List Str

def Keywords.all (kw : Keywords) : List Str := kw.options ++ kw.oneValue ++ kw.multiValue

/-- The keyword that takes the next value. -/
inductive Inside where
  | outside
  | one (key : Str)
  | multi (key : Str)

structure Parsed where
  options : Str → Bool
  oneValue : Str → Option Str
  multiValue : Str → List Str
  unparsed : List Str

def Parsed.empty : Parsed := ⟨fun _ => false, fun _ => none, fun _ => [], []⟩

def Parsed.setOption (p : Parsed) (key : Str) : Parsed :=
  { p with options := Function.update p.options key true }

def Parsed.setOne (p : Parsed) (key value : Str) : Parsed :=
  { p with oneValue := Function.update p.oneValue key (some value) }

def Parsed.addMulti (p : Parsed) (key : Str) (values : List Str) : Parsed :=
  { p with multiValue := Function.update p.multiValue key (p.multiValue key ++ values) }

/-- An argument that is no keyword. -/
def Inside.take (p : Parsed) (arg : Str) : Inside → Parsed × Inside
  | outside => ({ p with unparsed := p.unparsed ++ [arg] }, outside)
  | one key => (p.setOne key arg, outside)
  | multi key => (p.addMulti key [arg], multi key)

def Keywords.step (kw : Keywords) (p : Parsed × Inside) (arg : Str) : Parsed × Inside :=
  if arg ∈ kw.options then (p.1.setOption arg, .outside)
  else if arg ∈ kw.oneValue then (p.1, .one arg)
  else if arg ∈ kw.multiValue then (p.1, .multi arg)
  else p.2.take p.1 arg

def parseArguments (kw : Keywords) (args : List Str) : Parsed :=
  (args.foldl kw.step (.empty, .outside)).1

/-- An option as a caller writes it. -/
inductive Group where
  | option (key : Str)
  | one (key value : Str)
  | multi (key : Str) (values : List Str)

namespace Group

def key : Group → Str
  | option key => key
  | one key _ => key
  | multi key _ => key

def args : Group → List Str
  | option key => [key]
  | one key value => [key, value]
  | multi key values => key :: values

/-- The keyword is of its kind only, and the values are no keywords. -/
def Legal (kw : Keywords) : Group → Prop
  | option key => key ∈ kw.options
  | one key value => key ∉ kw.options ∧ key ∈ kw.oneValue ∧ value ∉ kw.all
  | multi key values =>
    key ∉ kw.options ∧ key ∉ kw.oneValue ∧ key ∈ kw.multiValue ∧ ∀ v ∈ values, v ∉ kw.all

/-- What the option says. -/
def apply (p : Parsed) : Group → Parsed
  | option key => p.setOption key
  | one key value => p.setOne key value
  | multi key values => p.addMulti key values

end Group

/-- All that is said of a key. -/
def Parsed.at (p : Parsed) (key : Str) : Bool × Option Str × List Str :=
  (p.options key, p.oneValue key, p.multiValue key)

@[simp] theorem at_empty (key : Str) : Parsed.empty.at key = (false, none, []) := rfl

@[simp] theorem at_apply_option (p : Parsed) (key : Str) :
    ((Group.option key).apply p).at key = (true, p.oneValue key, p.multiValue key) := by
  simp [Group.apply, Parsed.at, Parsed.setOption]

@[simp] theorem at_apply_one (p : Parsed) (key value : Str) :
    ((Group.one key value).apply p).at key = (p.options key, some value, p.multiValue key) := by
  simp [Group.apply, Parsed.at, Parsed.setOne]

@[simp] theorem at_apply_multi (p : Parsed) (key : Str) (values : List Str) :
    ((Group.multi key values).apply p).at key =
      (p.options key, p.oneValue key, p.multiValue key ++ values) := by
  simp [Group.apply, Parsed.at, Parsed.addMulti]

variable {kw : Keywords}

theorem step_of_not_mem {arg : Str} (h : arg ∉ kw.all) (p : Parsed) (inside : Inside) :
    kw.step (p, inside) arg = inside.take p arg := by
  simp only [Keywords.all, List.mem_append, not_or] at h
  rw [Keywords.step, if_neg h.1.1, if_neg h.1.2, if_neg h.2]

theorem addMulti_addMulti (p : Parsed) (key : Str) (vs ws : List Str) :
    (p.addMulti key vs).addMulti key ws = p.addMulti key (vs ++ ws) := by
  simp [Parsed.addMulti]

theorem addMulti_nil (p : Parsed) (key : Str) : p.addMulti key [] = p := by
  simp [Parsed.addMulti]

theorem foldl_step_multi {values : List Str} (hvalues : ∀ v ∈ values, v ∉ kw.all) (p : Parsed)
    (key : Str) :
    values.foldl kw.step (p, .multi key) = (p.addMulti key values, .multi key) := by
  induction values generalizing p with
  | nil => rw [addMulti_nil]; rfl
  | cons v values ih =>
    rw [List.foldl_cons, step_of_not_mem (hvalues v (List.mem_cons_self ..))]
    show values.foldl kw.step (p.addMulti key [v], .multi key) = _
    rw [ih fun w hw => hvalues w (List.mem_cons_of_mem _ hw), addMulti_addMulti]
    rfl

/-- An option takes effect whatever stands before it. -/
theorem foldl_step_args {g : Group} (hg : g.Legal kw) (p : Parsed) (inside : Inside) :
    ∃ inside', g.args.foldl kw.step (p, inside) = (g.apply p, inside') := by
  cases g with
  | option key =>
    refine ⟨.outside, ?_⟩
    show kw.step (p, inside) key = _
    rw [Keywords.step, if_pos (show key ∈ kw.options from hg)]
    rfl
  | one key value =>
    obtain ⟨hopt, hone, hvalue⟩ := hg
    refine ⟨.outside, ?_⟩
    show kw.step (kw.step (p, inside) key) value = _
    have hkey : kw.step (p, inside) key = (p, .one key) := by
      rw [Keywords.step, if_neg hopt, if_pos hone]
    rw [hkey, step_of_not_mem hvalue]
    rfl
  | multi key values =>
    obtain ⟨hopt, hone, hmulti, hvalues⟩ := hg
    refine ⟨.multi key, ?_⟩
    show values.foldl kw.step (kw.step (p, inside) key) = _
    have hkey : kw.step (p, inside) key = (p, .multi key) := by
      rw [Keywords.step, if_neg hopt, if_neg hone, if_pos hmulti]
    rw [hkey, foldl_step_multi hvalues]
    rfl

theorem foldl_step_flatMap {groups : List Group} (hgroups : ∀ g ∈ groups, g.Legal kw) (p : Parsed)
    (inside : Inside) :
    ∃ inside', (groups.flatMap Group.args).foldl kw.step (p, inside) =
      (groups.foldl Group.apply p, inside') := by
  induction groups generalizing p inside with
  | nil => exact ⟨inside, rfl⟩
  | cons g groups ih =>
    obtain ⟨inside', h⟩ := foldl_step_args (hgroups g (List.mem_cons_self ..)) p inside
    obtain ⟨inside'', h'⟩ :=
      ih (fun g' hg' => hgroups g' (List.mem_cons_of_mem _ hg')) (g.apply p) inside'
    refine ⟨inside'', ?_⟩
    rw [List.flatMap_cons, List.foldl_append, h, h']
    rfl

/-- An option says nothing of other keys. -/
theorem at_apply_of_ne {g : Group} {key : Str} (h : key ≠ g.key) (p : Parsed) :
    (g.apply p).at key = p.at key := by
  cases g with
  | option k => simp_all [Group.apply, Group.key, Parsed.at, Parsed.setOption]
  | one k value => simp_all [Group.apply, Group.key, Parsed.at, Parsed.setOne]
  | multi k values => simp_all [Group.apply, Group.key, Parsed.at, Parsed.addMulti]

theorem at_foldl_of_not_mem {groups : List Group} {key : Str} (h : key ∉ groups.map Group.key)
    (p : Parsed) : (groups.foldl Group.apply p).at key = p.at key := by
  induction groups generalizing p with
  | nil => rfl
  | cons g groups ih =>
    rw [List.map_cons, List.mem_cons, not_or] at h
    rw [List.foldl_cons, ih h.2, at_apply_of_ne h.1]

/-- What an option says of its own key depends on that key only. -/
theorem at_apply_congr (g : Group) {p p' : Parsed} (h : p.at g.key = p'.at g.key) :
    (g.apply p).at g.key = (g.apply p').at g.key := by
  simp only [Parsed.at, Prod.mk.injEq] at h
  obtain ⟨hopt, hone, hmulti⟩ := h
  cases g <;> simp_all [Group.key]

/-- Options with different keys, in any order: a key that is not written is unset. -/
theorem parseArguments_at_of_not_mem {groups : List Group} (hgroups : ∀ g ∈ groups, g.Legal kw)
    {key : Str} (h : key ∉ groups.map Group.key) :
    (parseArguments kw (groups.flatMap Group.args)).at key = Parsed.empty.at key := by
  obtain ⟨inside, hrun⟩ := foldl_step_flatMap hgroups .empty .outside
  rw [parseArguments, hrun]
  exact at_foldl_of_not_mem h _

/-- Options with different keys, in any order: each has the values written behind it. -/
theorem parseArguments_at_key {groups : List Group} (hgroups : ∀ g ∈ groups, g.Legal kw)
    (hnodup : (groups.map Group.key).Nodup) {g : Group} (hg : g ∈ groups) :
    (parseArguments kw (groups.flatMap Group.args)).at g.key = (g.apply .empty).at g.key := by
  obtain ⟨inside, hrun⟩ := foldl_step_flatMap hgroups .empty .outside
  rw [parseArguments, hrun]
  obtain ⟨before, after, rfl⟩ := List.append_of_mem hg
  -- neither the options before it nor those behind it have its key
  rw [List.map_append, List.map_cons, List.nodup_append] at hnodup
  obtain ⟨-, hafter, hdisjoint⟩ := hnodup
  have hbefore : g.key ∉ before.map Group.key := by
    intro h
    exact hdisjoint _ h _ (List.mem_cons_self ..) rfl
  rw [List.foldl_append, List.foldl_cons, at_foldl_of_not_mem (List.nodup_cons.1 hafter).1]
  exact at_apply_congr g (at_foldl_of_not_mem hbefore _)

end Lib.Cmake
