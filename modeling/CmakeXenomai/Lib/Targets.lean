import Mathlib.Data.List.Nodup
import Mathlib.Data.Set.Basic
import Mathlib.Logic.Relation

/-!
# Registries of targets

What a build knows by name, directory by directory. Packages bring their
targets in sets: a set is imported as a whole, it is left alone where all of it
is known, and the build stops where only a part of it is. Definitions are never
taken back (`Extends`), and where any two sets of a family have a name in
common, no directory ever sees targets of more than one of them
(`OneOf.load`).
-/

namespace Lib.Targets

variable {Name Def : Type}

/-! ## Registries -/

/-- The targets a directory knows. -/
abbrev Registry (Name Def : Type) := Name → Option Def

def Defined (reg : Registry Name Def) (n : Name) : Prop := (reg n).isSome

instance (reg : Registry Name Def) : DecidablePred (Defined reg) := fun n =>
  inferInstanceAs (Decidable ((reg n).isSome = true))

/-- Every definition is still there, as it was. -/
def Extends (reg reg' : Registry Name Def) : Prop :=
  ∀ n d, reg n = some d → reg' n = some d

theorem Extends.refl (reg : Registry Name Def) : Extends reg reg := fun _ _ h => h

theorem Extends.trans {reg reg' reg'' : Registry Name Def} (h : Extends reg reg')
    (h' : Extends reg' reg'') : Extends reg reg'' :=
  fun n d hn => h' n d (h n d hn)

theorem not_defined_iff {reg : Registry Name Def} {n : Name} : ¬ Defined reg n ↔ reg n = none := by
  simp [Defined]

theorem Extends.defined {reg reg' : Registry Name Def} (h : Extends reg reg') {n : Name}
    (hn : Defined reg n) : Defined reg' n := by
  obtain ⟨d, hd⟩ := Option.isSome_iff_exists.mp hn
  exact Option.isSome_iff_exists.mpr ⟨d, h n d hd⟩

section Overlay

variable [DecidableEq Name]

theorem lookup_eq_none_iff (entries : List (Name × Def)) (n : Name) :
    entries.lookup n = none ↔ n ∉ entries.map Prod.fst := by
  rw [List.lookup_eq_none_iff]
  simp only [bne_iff_ne, List.mem_map, not_exists, not_and]
  exact ⟨fun h p hp hn => h p hp hn.symm, fun h p hp hn => h p hp hn.symm⟩

/-- The registry with the entries in it. -/
def overlay (entries : List (Name × Def)) (reg : Registry Name Def) : Registry Name Def :=
  fun n => (entries.lookup n).or (reg n)

/-- A name that is none of the entries' can as well be defined after them. -/
theorem overlay_update {entries : List (Name × Def)} {n : Name}
    (h : n ∉ entries.map Prod.fst) (d : Def) (reg : Registry Name Def) :
    overlay entries (Function.update reg n (some d)) = overlay ((n, d) :: entries) reg := by
  funext m
  show (entries.lookup m).or (Function.update reg n (some d) m) =
    (((n, d) :: entries).lookup m).or (reg m)
  by_cases hm : m = n
  · subst hm
    rw [Function.update_self, List.lookup_cons_self, (lookup_eq_none_iff entries m).mpr h,
      Option.none_or, Option.some_or]
  · rw [Function.update_of_ne hm, List.lookup_cons, beq_false_of_ne hm]

/-- Entries take the place of others under the same names. -/
theorem overlay_overlay {entries entries' : List (Name × Def)}
    (h : entries.map Prod.fst = entries'.map Prod.fst) (reg : Registry Name Def) :
    overlay entries (overlay entries' reg) = overlay entries reg := by
  have hlookup : ∀ n, (entries.lookup n).isNone = (entries'.lookup n).isNone := by
    intro n
    rw [Bool.eq_iff_iff, Option.isNone_iff_eq_none, Option.isNone_iff_eq_none,
      lookup_eq_none_iff, lookup_eq_none_iff, h]
  funext n
  show (entries.lookup n).or ((entries'.lookup n).or (reg n)) = (entries.lookup n).or (reg n)
  have hn := hlookup n
  cases hentry : entries.lookup n with
  | some d => rfl
  | none =>
    rw [hentry, Option.isNone_none, eq_comm, Option.isNone_iff_eq_none] at hn
    rw [hn, Option.none_or, Option.none_or]

/-- A loop that (re)defines one target after the other, as long as it finds
each of them as it expects to. -/
theorem foldlM_overlay {ι Error : Type} {name : ι → Name} {before : ι → Option Def}
    {after : ι → Def} {step : Registry Name Def → ι → Except Error (Registry Name Def)}
    (hstep : ∀ reg i, reg (name i) = before i →
      step reg i = .ok (Function.update reg (name i) (some (after i))))
    {is : List ι} (hnodup : (is.map name).Nodup) {reg : Registry Name Def}
    (hbefore : ∀ i ∈ is, reg (name i) = before i) :
    is.foldlM step reg = .ok (overlay (is.map fun i => (name i, after i)) reg) := by
  induction is generalizing reg with
  | nil => rfl
  | cons i is ih =>
    rw [List.map_cons, List.nodup_cons] at hnodup
    rw [List.forall_mem_cons] at hbefore
    have hrest : ∀ j ∈ is,
        Function.update reg (name i) (some (after i)) (name j) = before j := by
      intro j hj
      have hne : name j ≠ name i := fun h => hnodup.1 (h ▸ List.mem_map_of_mem hj)
      rw [Function.update_of_ne hne]
      exact hbefore.2 j hj
    have hkeys : name i ∉ (is.map fun j => (name j, after j)).map Prod.fst := by
      rw [List.map_map]
      exact hnodup.1
    rw [List.foldlM_cons, hstep reg i hbefore.1]
    show is.foldlM step (Function.update reg (name i) (some (after i))) = _
    rw [ih hnodup.2 hrest, overlay_update hkeys]
    rfl

/-- Every entry is found under its name. -/
theorem lookup_map {ι : Type} {name : ι → Name} {is : List ι} (hnodup : (is.map name).Nodup)
    (d : ι → Def) {i : ι} (hi : i ∈ is) :
    (is.map fun i => (name i, d i)).lookup (name i) = some (d i) := by
  induction is with
  | nil => exact absurd hi List.not_mem_nil
  | cons j is ih =>
    rw [List.map_cons, List.nodup_cons] at hnodup
    rcases List.mem_cons.mp hi with rfl | hmem
    · rw [List.map_cons, List.lookup_cons_self]
    · have hne : name i ≠ name j := fun h => hnodup.1 (h ▸ List.mem_map_of_mem hmem)
      rw [List.map_cons, List.lookup_cons, beq_false_of_ne hne]
      exact ih hnodup.2 hmem

theorem overlay_map {ι : Type} {name : ι → Name} {is : List ι} (hnodup : (is.map name).Nodup)
    (d : ι → Def) (reg : Registry Name Def) {i : ι} (hi : i ∈ is) :
    overlay (is.map fun i => (name i, d i)) reg (name i) = some (d i) := by
  show ((is.map fun i => (name i, d i)).lookup (name i)).or (reg (name i)) = _
  rw [lookup_map hnodup d hi, Option.some_or]

end Overlay

/-! ## Export sets -/

/-- The targets a package exports. -/
structure ExportSet (Name Def : Type) where
  entries : List (Name × Def)
  nodup : (entries.map Prod.fst).Nodup
  nonempty : entries ≠ []

namespace ExportSet

def names (s : ExportSet Name Def) : List Name := s.entries.map Prod.fst

theorem names_ne_nil (s : ExportSet Name Def) : s.names ≠ [] := by
  show s.entries.map Prod.fst ≠ []
  rw [ne_eq, List.map_eq_nil_iff]
  exact s.nonempty

variable [DecidableEq Name]

def lookup (s : ExportSet Name Def) (n : Name) : Option Def := s.entries.lookup n

theorem isSome_lookup_iff (s : ExportSet Name Def) (n : Name) :
    (s.lookup n).isSome ↔ n ∈ s.names := by
  show (s.entries.lookup n).isSome ↔ n ∈ s.entries.map Prod.fst
  rw [← Option.ne_none_iff_isSome, ne_eq, lookup_eq_none_iff, not_not]

/-- The registry with the targets of the set in it. -/
def overlay (s : ExportSet Name Def) (reg : Registry Name Def) : Registry Name Def :=
  Targets.overlay s.entries reg

theorem overlay_of_mem (s : ExportSet Name Def) (reg : Registry Name Def) {n : Name}
    (hn : n ∈ s.names) : s.overlay reg n = s.lookup n := by
  obtain ⟨d, hd⟩ := Option.isSome_iff_exists.mp ((s.isSome_lookup_iff n).mpr hn)
  show (s.lookup n).or (reg n) = s.lookup n
  rw [hd, Option.some_or]

theorem overlay_of_not_mem (s : ExportSet Name Def) (reg : Registry Name Def) {n : Name}
    (hn : n ∉ s.names) : s.overlay reg n = reg n := by
  show (s.lookup n).or (reg n) = reg n
  have hnone : s.lookup n = none := (lookup_eq_none_iff s.entries n).mpr hn
  rw [hnone, Option.none_or]

end ExportSet

/-! ## Importing a set -/

/-- How much of a set of names a registry knows. -/
inductive Presence (Name : Type) where
  | complete
  | absent
  | partly (defined missing : List Name)
deriving DecidableEq

def presence (reg : Registry Name Def) (names : List Name) : Presence Name :=
  let defined := names.filter fun n => Defined reg n
  let missing := names.filter fun n => ¬ Defined reg n
  if missing = [] then .complete
  else if defined = [] then .absent
  else .partly defined missing

theorem presence_complete {reg : Registry Name Def} {names : List Name}
    (h : ∀ n ∈ names, Defined reg n) : presence reg names = .complete := by
  have hmissing : (names.filter fun n => ¬ Defined reg n) = [] := by
    rw [List.filter_eq_nil_iff]
    intro n hn
    simp [h n hn]
  unfold presence
  rw [if_pos hmissing]

theorem presence_absent {reg : Registry Name Def} {names : List Name} (hne : names ≠ [])
    (h : ∀ n ∈ names, reg n = none) : presence reg names = .absent := by
  have hdefined : (names.filter fun n => Defined reg n) = [] := by
    rw [List.filter_eq_nil_iff]
    intro n hn
    simp [not_defined_iff.mpr (h n hn)]
  have hmissing : (names.filter fun n => ¬ Defined reg n) ≠ [] := by
    rw [ne_eq, List.filter_eq_nil_iff]
    intro hall
    obtain ⟨n, hn⟩ := List.exists_mem_of_ne_nil names hne
    exact hall n hn (by simp [not_defined_iff.mpr (h n hn)])
  unfold presence
  rw [if_neg hmissing, if_pos hdefined]

theorem presence_partly {reg : Registry Name Def} {names : List Name} {a b : Name}
    (ha : a ∈ names) (hdefined : Defined reg a) (hb : b ∈ names) (hmissing : reg b = none) :
    presence reg names =
      .partly (names.filter fun n => Defined reg n) (names.filter fun n => ¬ Defined reg n) := by
  have hb' : b ∈ names.filter fun n => ¬ Defined reg n := by
    simp [List.mem_filter, hb, not_defined_iff.mpr hmissing]
  have ha' : a ∈ names.filter fun n => Defined reg n := by
    simp [List.mem_filter, ha, hdefined]
  unfold presence
  rw [if_neg (List.ne_nil_of_mem hb'), if_neg (List.ne_nil_of_mem ha')]

/-- One of three: all of the names are known, none of them, or there is one of
either kind. -/
theorem presence_cases (reg : Registry Name Def) (names : List Name) :
    (∀ n ∈ names, Defined reg n) ∨ (∀ n ∈ names, reg n = none) ∨
      ∃ a ∈ names, ∃ b ∈ names, Defined reg a ∧ reg b = none := by
  by_cases hall : ∀ n ∈ names, Defined reg n
  · exact .inl hall
  · by_cases hnone : ∀ n ∈ names, reg n = none
    · exact .inr (.inl hnone)
    · simp only [not_forall] at hall hnone
      obtain ⟨b, hb, hmissing⟩ := hall
      obtain ⟨a, ha, hdefined⟩ := hnone
      refine .inr (.inr ⟨a, ha, b, hb, ?_, not_defined_iff.mp hmissing⟩)
      by_contra h
      exact hdefined (not_defined_iff.mp h)

section Import

variable [DecidableEq Name]

/-- The registry with the set imported, where it can be. -/
def load (reg : Registry Name Def) (s : ExportSet Name Def) : Option (Registry Name Def) :=
  match presence reg s.names with
  | .complete => some reg
  | .absent => some (s.overlay reg)
  | .partly _ _ => none

theorem load_complete {reg : Registry Name Def} {s : ExportSet Name Def}
    (h : ∀ n ∈ s.names, Defined reg n) : load reg s = some reg := by
  unfold load
  rw [presence_complete h]

theorem load_absent {reg : Registry Name Def} {s : ExportSet Name Def}
    (h : ∀ n ∈ s.names, reg n = none) : load reg s = some (s.overlay reg) := by
  unfold load
  rw [presence_absent s.names_ne_nil h]

theorem load_partly {reg : Registry Name Def} {s : ExportSet Name Def} {a b : Name}
    (ha : a ∈ s.names) (hdefined : Defined reg a) (hb : b ∈ s.names) (hmissing : reg b = none) :
    load reg s = none := by
  unfold load
  rw [presence_partly ha hdefined hb hmissing]

/-- An import finds the set or brings it, as a whole. -/
theorem load_cases {reg reg' : Registry Name Def} {s : ExportSet Name Def}
    (h : load reg s = some reg') :
    (∀ n ∈ s.names, Defined reg n) ∧ reg' = reg ∨
      (∀ n ∈ s.names, reg n = none) ∧ reg' = s.overlay reg := by
  rcases presence_cases reg s.names with hall | hnone | ⟨a, ha, b, hb, hab⟩
  · rw [load_complete hall] at h
    exact .inl ⟨hall, (Option.some.inj h).symm⟩
  · rw [load_absent hnone] at h
    exact .inr ⟨hnone, (Option.some.inj h).symm⟩
  · rw [load_partly ha hab.1 hb hab.2] at h
    cases h

theorem extends_overlay {reg : Registry Name Def} {s : ExportSet Name Def}
    (h : ∀ n ∈ s.names, reg n = none) : Extends reg (s.overlay reg) := by
  intro n d hn
  rw [s.overlay_of_not_mem reg fun hmem => by rw [h n hmem] at hn; cases hn]
  exact hn

theorem load_extends {reg reg' : Registry Name Def} {s : ExportSet Name Def}
    (h : load reg s = some reg') : Extends reg reg' := by
  rcases load_cases h with ⟨-, rfl⟩ | ⟨hnone, rfl⟩
  · exact .refl _
  · exact extends_overlay hnone

/-! ## Families of sets that exclude one another -/

/-- Any two sets of the family have a name in common. -/
def Overlapping (F : Set (ExportSet Name Def)) : Prop :=
  ∀ s ∈ F, ∀ t ∈ F, ∃ n ∈ s.names, n ∈ t.names

/-- No target of the family is known. -/
def Absent (F : Set (ExportSet Name Def)) (reg : Registry Name Def) : Prop :=
  ∀ s ∈ F, ∀ n ∈ s.names, reg n = none

/-- Of all targets of the family, those of `s` are known. -/
structure Holds (F : Set (ExportSet Name Def)) (reg : Registry Name Def)
    (s : ExportSet Name Def) : Prop where
  mem : s ∈ F
  own : ∀ n ∈ s.names, reg n = s.lookup n
  others : ∀ t ∈ F, ∀ n ∈ t.names, n ∉ s.names → reg n = none

/-- Of all targets of the family `F`, those of one set of `G` are known, or
none. -/
def OneOf (F G : Set (ExportSet Name Def)) (reg : Registry Name Def) : Prop :=
  Absent F reg ∨ ∃ s ∈ G, Holds F reg s

variable {F G : Set (ExportSet Name Def)}

theorem Holds.defined {reg : Registry Name Def} {s : ExportSet Name Def} (h : Holds F reg s)
    {n : Name} (hn : n ∈ s.names) : Defined reg n := by
  show (reg n).isSome
  rw [h.own n hn]
  exact (s.isSome_lookup_iff n).mpr hn

theorem Absent.holds_overlay {reg : Registry Name Def} (h : Absent F reg)
    {s : ExportSet Name Def} (hs : s ∈ F) : Holds F (s.overlay reg) s where
  mem := hs
  own _ hn := s.overlay_of_mem reg hn
  others t ht n hn hout := by
    rw [s.overlay_of_not_mem reg hout]
    exact h t ht n hn

/-- Into a directory without targets of the family any set can be imported. -/
theorem Absent.load {reg : Registry Name Def} (h : Absent F reg) {s : ExportSet Name Def}
    (hs : s ∈ F) : Targets.load reg s = some (s.overlay reg) :=
  load_absent (h s hs)

/-- Where a set is known, exactly the sets without further names can be
imported, and nothing comes of it. -/
theorem Holds.load (hF : Overlapping F) {reg : Registry Name Def} {s t : ExportSet Name Def}
    (h : Holds F reg s) (ht : t ∈ F) :
    Targets.load reg t = if ∀ n ∈ t.names, n ∈ s.names then some reg else none := by
  by_cases hsub : ∀ n ∈ t.names, n ∈ s.names
  · rw [if_pos hsub]
    exact load_complete fun n hn => h.defined (hsub n hn)
  · rw [if_neg hsub]
    simp only [not_forall] at hsub
    obtain ⟨b, hb, hout⟩ := hsub
    obtain ⟨a, has, hat⟩ := hF s h.mem t ht
    exact load_partly hat (h.defined has) hb (h.others t ht b hb hout)

theorem OneOf.load (hF : Overlapping F) {reg reg' : Registry Name Def} (h : OneOf F G reg)
    {s : ExportSet Name Def} (hs : s ∈ F) (hsG : s ∈ G) (hload : Targets.load reg s = some reg') :
    OneOf F G reg' := by
  rcases h with habsent | ⟨t, htG, ht⟩
  · rw [habsent.load hs] at hload
    obtain rfl := Option.some.inj hload
    exact .inr ⟨s, hsG, habsent.holds_overlay hs⟩
  · rw [ht.load hF hs] at hload
    split at hload
    · obtain rfl := Option.some.inj hload
      exact .inr ⟨t, htG, ht⟩
    · cases hload

/-- Other definitions are no business of the family. -/
theorem OneOf.congr {reg reg' : Registry Name Def} (h : OneOf F G reg)
    (hsame : ∀ s ∈ F, ∀ n ∈ s.names, reg' n = reg n) : OneOf F G reg' := by
  rcases h with habsent | ⟨t, htG, ht⟩
  · exact .inl fun s hs n hn => (hsame s hs n hn).trans (habsent s hs n hn)
  · exact .inr ⟨t, htG, ht.mem, fun n hn => (hsame t ht.mem n hn).trans (ht.own n hn),
      fun s hs n hn hout => (hsame s hs n hn).trans (ht.others s hs n hn hout)⟩

end Import

/-! ## What targets link to -/

/-- What can be reached from `n` in at most so many steps. -/
def reach (next : Name → List Name) : Nat → Name → List Name
  | 0, n => [n]
  | k + 1, n => n :: (next n).flatMap (reach next k)

theorem mem_reach_self (next : Name → List Name) (k : Nat) (n : Name) : n ∈ reach next k n := by
  cases k with
  | zero => exact List.mem_singleton_self n
  | succ k => exact List.mem_cons_self

theorem reach_sound {next : Name → List Name} {k : Nat} {n m : Name} (h : m ∈ reach next k n) :
    Relation.ReflTransGen (fun a b => b ∈ next a) n m := by
  induction k generalizing n with
  | zero =>
    obtain rfl := List.mem_singleton.mp h
    exact .refl
  | succ k ih =>
    rcases List.mem_cons.mp h with rfl | h
    · exact .refl
    · obtain ⟨b, hb, hm⟩ := List.mem_flatMap.mp h
      exact .head hb (ih hm)

/-- Once nothing new is reached, everything is. -/
theorem mem_reach_iff {next : Name → List Name} {k : Nat} {n : Name}
    (hclosed : ∀ m ∈ reach next k n, ∀ b ∈ next m, b ∈ reach next k n) (m : Name) :
    m ∈ reach next k n ↔ Relation.ReflTransGen (fun a b => b ∈ next a) n m := by
  constructor
  · exact reach_sound
  · intro h
    induction h with
    | refl => exact mem_reach_self next k n
    | tail _ hstep ih => exact hclosed _ ih _ hstep

/-- Two relations that agree wherever either of them leads. -/
theorem reflTransGen_iff {r s : Name → Name → Prop} {S : Name → Prop}
    (hagree : ∀ a, S a → ∀ b, r a b ↔ s a b) (hclosed : ∀ a, S a → ∀ b, s a b → S b) {a : Name}
    (ha : S a) (b : Name) : Relation.ReflTransGen r a b ↔ Relation.ReflTransGen s a b := by
  have hreaches : ∀ b, Relation.ReflTransGen s a b → S b := by
    intro b h
    induction h with
    | refl => exact ha
    | tail _ hstep ih => exact hclosed _ ih _ hstep
  constructor
  · intro h
    induction h with
    | refl => exact .refl
    | tail _ hstep ih => exact ih.tail ((hagree _ (hreaches _ ih) _).mp hstep)
  · intro h
    induction h with
    | refl => exact .refl
    | tail hpath hstep ih => exact ih.tail ((hagree _ (hreaches _ hpath) _).mpr hstep)

/-! ## Directories -/

/-- What a build does: something with the targets of the directory it is in, or
a step into a subdirectory, which starts from what its parent knows, and back. -/
inductive Op (Action : Type) where
  | act (a : Action)
  | enter
  | leave

/-- The directories on the way to the current one, innermost first. -/
abbrev Scopes (Name Def : Type) := List (Registry Name Def)

variable {Action Error : Type}

/-- Leaving the top directory is the end of the build. -/
def step (act : Action → Registry Name Def → Except Error (Registry Name Def)) :
    Op Action → Scopes Name Def → Except Error (Scopes Name Def)
  | .act a, reg :: outer => (act a reg).map (· :: outer)
  | .enter, reg :: outer => .ok (reg :: reg :: outer)
  | .leave, _ :: outer => .ok outer
  | _, [] => .ok []

def build (act : Action → Registry Name Def → Except Error (Registry Name Def))
    (ops : List (Op Action)) (scopes : Scopes Name Def) : Except Error (Scopes Name Def) :=
  ops.foldlM (fun scopes op => step act op scopes) scopes

variable {act : Action → Registry Name Def → Except Error (Registry Name Def)}

theorem build_cons (op : Op Action) (ops : List (Op Action)) (scopes : Scopes Name Def) :
    build act (op :: ops) scopes = (step act op scopes).bind (build act ops) := rfl

/-- What every step keeps, every build keeps. -/
theorem build_induction {P : Scopes Name Def → Prop} {ops : List (Op Action)}
    (hstep : ∀ op ∈ ops, ∀ scopes scopes', P scopes → step act op scopes = .ok scopes' → P scopes')
    {scopes scopes' : Scopes Name Def} (h : P scopes)
    (hbuild : build act ops scopes = .ok scopes') : P scopes' := by
  induction ops generalizing scopes with
  | nil =>
    obtain rfl := Except.ok.inj hbuild
    exact h
  | cons op ops ih =>
    rw [build_cons] at hbuild
    rw [List.forall_mem_cons] at hstep
    cases hop : step act op scopes with
    | error e =>
      rw [hop] at hbuild
      cases hbuild
    | ok middle =>
      rw [hop] at hbuild
      exact ih hstep.2 (hstep.1 scopes middle h hop) hbuild

/-- What a step does to the directories. -/
theorem step_cases {op : Op Action} {scopes scopes' : Scopes Name Def}
    (h : step act op scopes = .ok scopes') :
    scopes = [] ∧ scopes' = [] ∨ ∃ reg outer, scopes = reg :: outer ∧
      ((∃ a reg', op = .act a ∧ act a reg = .ok reg' ∧ scopes' = reg' :: outer) ∨
        op = .enter ∧ scopes' = reg :: reg :: outer ∨ op = .leave ∧ scopes' = outer) := by
  cases scopes with
  | nil => cases op <;> exact .inl ⟨rfl, (Except.ok.inj h).symm⟩
  | cons reg outer =>
    refine .inr ⟨reg, outer, rfl, ?_⟩
    cases op with
    | act a =>
      cases hreg : act a reg with
      | error e =>
        simp only [step, hreg] at h
        cases h
      | ok reg' =>
        simp only [step, hreg] at h
        exact .inl ⟨a, reg', rfl, hreg, (Except.ok.inj h).symm⟩
    | enter => exact .inr (.inl ⟨rfl, (Except.ok.inj h).symm⟩)
    | leave => exact .inr (.inr ⟨rfl, (Except.ok.inj h).symm⟩)

/-- What every action keeps of the directory it is in, every build keeps of all
directories. -/
theorem build_forall {P : Registry Name Def → Prop} {ops : List (Op Action)}
    (hact : ∀ a, .act a ∈ ops → ∀ reg reg', P reg → act a reg = .ok reg' → P reg')
    {scopes scopes' : Scopes Name Def} (h : ∀ reg ∈ scopes, P reg)
    (hbuild : build act ops scopes = .ok scopes') : ∀ reg ∈ scopes', P reg := by
  refine build_induction (P := fun scopes => ∀ reg ∈ scopes, P reg) ?_ h hbuild
  intro op hop scopes scopes' h hstep
  rcases step_cases hstep with ⟨-, rfl⟩ | ⟨reg, outer, rfl, hcases⟩
  · exact List.forall_mem_nil _
  · rw [List.forall_mem_cons] at h
    rcases hcases with ⟨a, reg', rfl, hreg, rfl⟩ | ⟨rfl, rfl⟩ | ⟨rfl, rfl⟩
    · exact List.forall_mem_cons.mpr ⟨hact a hop reg reg' h.1 hreg, h.2⟩
    · exact List.forall_mem_cons.mpr ⟨h.1, List.forall_mem_cons.mpr h⟩
    · exact h.2

/-- Where actions only add definitions, a directory knows what its parents
know. -/
theorem build_nested (hact : ∀ a reg reg', act a reg = .ok reg' → Extends reg reg')
    {ops : List (Op Action)} {scopes scopes' : Scopes Name Def}
    (h : scopes.Pairwise fun inner outer => Extends outer inner)
    (hbuild : build act ops scopes = .ok scopes') :
    scopes'.Pairwise fun inner outer => Extends outer inner := by
  refine build_induction (P := List.Pairwise fun inner outer => Extends outer inner) ?_ h hbuild
  intro op _ scopes scopes' h hstep
  rcases step_cases hstep with ⟨-, rfl⟩ | ⟨reg, outer, rfl, hcases⟩
  · exact List.Pairwise.nil
  · rw [List.pairwise_cons] at h
    rcases hcases with ⟨a, reg', rfl, hreg, rfl⟩ | ⟨rfl, rfl⟩ | ⟨rfl, rfl⟩
    · exact List.pairwise_cons.mpr
        ⟨fun above habove => (h.1 above habove).trans (hact a reg reg' hreg), h.2⟩
    · exact List.pairwise_cons.mpr
        ⟨List.forall_mem_cons.mpr ⟨.refl _, h.1⟩, List.pairwise_cons.mpr h⟩
    · exact h.2

end Lib.Targets
