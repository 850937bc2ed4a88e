import CmakeXenomai.Macros.TargetBootstrap

/-!
# What `xenomai_target_bootstrap` accepts

A call as its author writes it: each option at most once, in any order, with
any strings for the values of `MAIN` and `MAIN_WRAP`. Against the grammar the
author has in mind (`Meets`) the function misses the values that CMake takes
for false, or for no value at all, and a skin that goes by the name of the
bootstrap library (`acceptsGrammar_iff`); with other values and skins it keeps
to the grammar (`acceptsGrammar_of_true`).
-/

namespace CmakeXenomai.Macros

open Lib.Cmake

/-! ## Calls -/

/-- A name that stays one element of a list and is not taken for an option. -/
structure SkinName where
  name : Str
  plain : Plain name
  not_keyword : name ∉ keywords.all

inductive Opt where
  | main (value : Str)
  | mainWrap (value : Str)
  | noFallback
  | modechk
  | skins (names : List SkinName)

namespace Opt

def group : Opt → Group
  | main value => .one "MAIN".toList value
  | mainWrap value => .one "MAIN_WRAP".toList value
  | noFallback => .option "NO_FALLBACK".toList
  | modechk => .option "MODECHK".toList
  | skins names => .multi "SKINS".toList (names.map SkinName.name)

def skinNames : Opt → List Str
  | skins names => names.map SkinName.name
  | _ => []

/-- Written so that it is read as written. -/
def Plain : Opt → Prop
  | main value => Lib.Cmake.Plain value ∧ value ∉ keywords.all
  | mainWrap value => Lib.Cmake.Plain value ∧ value ∉ keywords.all
  | _ => True

end Opt

structure Call where
  version : List Nat
  binaryDir : Str
  target : Target
  opts : List Opt
  nodup : (opts.map fun o => o.group.key).Nodup

namespace Call

variable (c : Call)

def args : List Str := c.opts.flatMap fun o => o.group.args

def skinNames : List Str := c.opts.flatMap Opt.skinNames

def filePrefix : Str := c.binaryDir ++ "/generated/xenomai_bootstrap".toList

def run : Option Outcome := xenomaiTargetBootstrap c.version c.binaryDir c.target c.args

/-- The options as list expansion and `cmake_parse_arguments` read them. -/
def read : Xbs := readOptions c.args

/-! ## The grammar -/

/-- The calls that are errors. -/
def MustReject : Prop :=
  (∃ v, .main v ∈ c.opts ∧ v ∉ mainValues) ∨
  (∃ v, .mainWrap v ∈ c.opts ∧ v ∉ mainWrapValues) ∨
  isOld c.version ∧ .noFallback ∈ c.opts ∧
    ∀ v, .main v ∈ c.opts → v = "NONE".toList ∨ v = "SOURCE".toList

/-- The calls of the grammar for the library; the others are for sources. -/
def WantsLibrary : Prop := isOld c.version ∨ .main "PRECOMPILED".toList ∈ c.opts

/-- Generated sources or the library, never both. -/
def OneProvider (sources libs : List Str) : Prop :=
  IsGenerated c.filePrefix sources ∧ legacyBootstrap ∉ libs ∨
    sources = [] ∧ legacyBootstrap ∈ libs

structure Meets (o : Outcome) : Prop where
  error : o.reportsError ↔ c.MustReject
  unchanged : o.reportsError → o.target = c.target
  attached : ¬ o.reportsError → ∃ sources libs,
    Added c.target o.target sources (libs ++ c.skinNames.map skinTarget) ∧
    libs.Sublist helpers ∧
    c.OneProvider sources (libs ++ c.skinNames.map skinTarget)

def AcceptsGrammar : Prop := ∃ o, c.run = some o ∧ c.Meets o

end Call

/-! ## Reading the options -/

variable {c : Call}

theorem legal_of_plain {o : Opt} (h : o.Plain) : o.group.Legal keywords := by
  cases o with
  | main value => exact ⟨by decide, by decide, h.2⟩
  | mainWrap value => exact ⟨by decide, by decide, h.2⟩
  | noFallback => exact (by decide : "NO_FALLBACK".toList ∈ keywords.options)
  | modechk => exact (by decide : "MODECHK".toList ∈ keywords.options)
  | skins names =>
    refine ⟨by decide, by decide, by decide, ?_⟩
    intro v hv
    obtain ⟨name, -, rfl⟩ := List.mem_map.1 hv
    exact name.not_keyword

theorem plain_of_mem_args {o : Opt} (h : o.Plain) : ∀ a ∈ o.group.args, Plain a := by
  cases o with
  | main value =>
    intro a ha
    rcases List.mem_pair.1 ha with rfl | rfl
    · decide
    · exact h.1
  | mainWrap value =>
    intro a ha
    rcases List.mem_pair.1 ha with rfl | rfl
    · decide
    · exact h.1
  | noFallback =>
    intro a ha
    rw [List.mem_singleton.1 ha]
    decide
  | modechk =>
    intro a ha
    rw [List.mem_singleton.1 ha]
    decide
  | skins names =>
    intro a ha
    rcases List.mem_cons.1 ha with rfl | ha
    · decide
    · obtain ⟨name, -, rfl⟩ := List.mem_map.1 ha
      exact name.plain

/-- What the parser makes of the options one by one. -/
def Call.parsed (c : Call) : Parsed :=
  parseArguments keywords ((c.opts.map Opt.group).flatMap Group.args)

theorem read_eq (hplain : ∀ o ∈ c.opts, o.Plain) : c.read = .ofParsed c.parsed := by
  have hargs : ∀ a ∈ c.args, Plain a := by
    intro a ha
    obtain ⟨o, ho, hao⟩ := List.mem_flatMap.1 ha
    exact plain_of_mem_args (hplain o ho) a hao
  rw [Call.read, readOptions, expandList_joinList hargs, Call.parsed, Call.args, List.flatMap_map]

theorem eq_of_key_eq {o o' : Opt} (ho : o ∈ c.opts) (ho' : o' ∈ c.opts)
    (h : o.group.key = o'.group.key) : o = o' :=
  List.inj_on_of_nodup_map c.nodup ho ho' h

/-- An option that is written is read, and one that is not written is not. -/
theorem parsed_cases (hplain : ∀ o ∈ c.opts, o.Plain) (key : Str) :
    (∃ o ∈ c.opts, o.group.key = key ∧ c.parsed.at key = (o.group.apply .empty).at key) ∨
      (∀ o ∈ c.opts, o.group.key ≠ key) ∧ c.parsed.at key = Parsed.empty.at key := by
  have hlegal : ∀ g ∈ c.opts.map Opt.group, g.Legal keywords := by
    intro g hg
    obtain ⟨o, ho, rfl⟩ := List.mem_map.1 hg
    exact legal_of_plain (hplain o ho)
  by_cases h : ∃ o ∈ c.opts, o.group.key = key
  · left
    obtain ⟨o, ho, rfl⟩ := h
    have hnodup : ((c.opts.map Opt.group).map Group.key).Nodup := by
      rw [List.map_map]
      exact c.nodup
    exact ⟨o, ho, rfl, parseArguments_at_key hlegal hnodup (List.mem_map_of_mem ho)⟩
  · right
    refine ⟨fun o ho hkey => h ⟨o, ho, hkey⟩, ?_⟩
    apply parseArguments_at_of_not_mem hlegal
    intro hmem
    obtain ⟨g, hg, hkey⟩ := List.mem_map.1 hmem
    obtain ⟨o, ho, rfl⟩ := List.mem_map.1 hg
    exact h ⟨o, ho, hkey⟩

/-- An option with one value. -/
theorem parsed_oneValue (hplain : ∀ o ∈ c.opts, o.Plain) {opt : Str → Opt} {key : Str}
    (hopt : ∀ v, (opt v).group = .one key v) (hkey : ∀ o, o.group.key = key → ∃ v, o = opt v)
    (v : Str) : c.parsed.oneValue key = some v ↔ opt v ∈ c.opts := by
  have hkeys : ∀ w, (opt w).group.key = key := by
    intro w
    rw [hopt]
    rfl
  rcases parsed_cases hplain key with ⟨o, ho, hkey', hat⟩ | ⟨hno, hat⟩
  · obtain ⟨w, rfl⟩ := hkey o hkey'
    rw [hopt, at_apply_one] at hat
    have hone : c.parsed.oneValue key = some w := congrArg (·.2.1) hat
    rw [hone]
    constructor
    · intro h
      rwa [← Option.some.inj h]
    · intro hv
      have heq := congrArg Opt.group (eq_of_key_eq ho hv ((hkeys w).trans (hkeys v).symm))
      rw [hopt, hopt] at heq
      rw [(Group.one.inj heq).2]
  · have hone : c.parsed.oneValue key = none := congrArg (·.2.1) hat
    rw [hone]
    constructor
    · intro h
      cases h
    · intro hv
      exact absurd (hkeys v) (hno _ hv)

theorem read_main (hplain : ∀ o ∈ c.opts, o.Plain) (v : Str) :
    c.read.main = some v ↔ .main v ∈ c.opts := by
  rw [read_eq hplain]
  apply parsed_oneValue hplain (fun _ => rfl)
  intro o ho
  cases o <;> simp [Opt.group, Group.key] at ho ⊢

theorem read_mainWrap (hplain : ∀ o ∈ c.opts, o.Plain) (v : Str) :
    c.read.mainWrap = some v ↔ .mainWrap v ∈ c.opts := by
  rw [read_eq hplain]
  apply parsed_oneValue hplain (fun _ => rfl)
  intro o ho
  cases o <;> simp [Opt.group, Group.key] at ho ⊢

theorem read_noFallback (hplain : ∀ o ∈ c.opts, o.Plain) :
    c.read.noFallback ↔ .noFallback ∈ c.opts := by
  rw [read_eq hplain]
  rcases parsed_cases hplain "NO_FALLBACK".toList with ⟨o, ho, hkey, hat⟩ | ⟨hno, hat⟩
  · obtain rfl : o = .noFallback := by
      cases o <;> simp [Opt.group, Group.key] at hkey ⊢
    have hset : c.parsed.options "NO_FALLBACK".toList = true :=
      congrArg (·.1) (hat.trans (at_apply_option ..))
    exact ⟨fun _ => ho, fun _ => hset⟩
  · have hunset : c.parsed.options "NO_FALLBACK".toList = false := congrArg (·.1) hat
    constructor
    · intro hset
      exact absurd hset (Bool.eq_false_iff.1 hunset)
    · intro hmem
      exact absurd rfl (hno _ hmem)

theorem skinNames_of_key_ne {o : Opt} (h : o.group.key ≠ "SKINS".toList) : o.skinNames = [] := by
  cases o with
  | skins names => exact absurd rfl h
  | _ => rfl

theorem read_skins (hplain : ∀ o ∈ c.opts, o.Plain) : c.read.skins = c.skinNames := by
  rw [read_eq hplain]
  show c.parsed.multiValue "SKINS".toList = c.opts.flatMap Opt.skinNames
  rcases parsed_cases hplain "SKINS".toList with ⟨o, ho, hkey, hat⟩ | ⟨hno, hat⟩
  · obtain ⟨names, rfl⟩ : ∃ names, o = .skins names := by
      cases o <;> simp [Opt.group, Group.key] at hkey ⊢
    have hskins : c.parsed.multiValue "SKINS".toList = names.map SkinName.name :=
      congrArg (·.2.2) (hat.trans (at_apply_multi ..))
    obtain ⟨before, after, hopts⟩ := List.append_of_mem ho
    have hnodup := c.nodup
    rw [hopts, List.map_append, List.map_cons, List.nodup_middle, List.nodup_cons,
      List.mem_append, not_or] at hnodup
    -- no other option has the keyword, so no other has skins
    have hothers : ∀ l : List Opt, "SKINS".toList ∉ l.map (fun o => o.group.key) →
        l.flatMap Opt.skinNames = [] := by
      intro l hl
      rw [List.flatMap_eq_nil_iff]
      intro o ho
      exact skinNames_of_key_ne fun hkey => hl (List.mem_map.2 ⟨o, ho, hkey⟩)
    rw [hskins, hopts, List.flatMap_append, List.flatMap_cons, hothers before hnodup.1.1,
      hothers after hnodup.1.2, List.nil_append, List.append_nil]
    rfl
  · have hskins : c.parsed.multiValue "SKINS".toList = [] := congrArg (·.2.2) hat
    rw [hskins]
    symm
    rw [List.flatMap_eq_nil_iff]
    intro o ho
    exact skinNames_of_key_ne (hno o ho)

/-! ## Errors -/

/-- The errors, for options that are read as written: only what CMake takes for
false goes unnoticed. -/
theorem rejects_read_iff (hplain : ∀ o ∈ c.opts, o.Plain) :
    Rejects c.version c.read ↔
      (∃ v, .main v ∈ c.opts ∧ ¬ isOff v ∧ v ∉ mainValues) ∨
      (∃ v, .mainWrap v ∈ c.opts ∧ ¬ isOff v ∧ v ∉ mainWrapValues) ∨
      isOld c.version ∧ .noFallback ∈ c.opts ∧
        ∀ v, .main v ∈ c.opts → isOff v ∨ v = "NONE".toList ∨ v = "SOURCE".toList := by
  simp only [Rejects, read_main hplain, read_mainWrap hplain, read_noFallback hplain]

theorem plain_of_supported {v : Str} (h : v ∈ mainValues ∨ v ∈ mainWrapValues) :
    Plain v ∧ v ∉ keywords.all ∧ ¬ isOff v := by
  simp only [mainValues, mainWrapValues, List.mem_cons, List.not_mem_nil, or_false] at h
  rcases h with (rfl | rfl | rfl) | (rfl | rfl | rfl) <;> decide +kernel

/-- Options of the grammar are read as written. -/
theorem plain_of_not_mustReject (h : ¬ c.MustReject) : ∀ o ∈ c.opts, o.Plain := by
  rw [Call.MustReject, not_or, not_or] at h
  intro o ho
  cases o with
  | main v =>
    have hv : v ∈ mainValues := by
      by_contra hv
      exact h.1 ⟨v, ho, hv⟩
    have hp := plain_of_supported (Or.inl hv)
    exact ⟨hp.1, hp.2.1⟩
  | mainWrap v =>
    have hv : v ∈ mainWrapValues := by
      by_contra hv
      exact h.2.1 ⟨v, ho, hv⟩
    have hp := plain_of_supported (Or.inr hv)
    exact ⟨hp.1, hp.2.1⟩
  | _ => trivial

/-- Nothing of the grammar is reported. -/
theorem not_rejects_of_not_mustReject (h : ¬ c.MustReject) : ¬ Rejects c.version c.read := by
  rw [rejects_read_iff (plain_of_not_mustReject h)]
  intro hreject
  apply h
  rcases hreject with ⟨v, hv, -, hno⟩ | ⟨v, hv, -, hno⟩ | ⟨hold, hfallback, hmain⟩
  · exact Or.inl ⟨v, hv, hno⟩
  · exact Or.inr (Or.inl ⟨v, hv, hno⟩)
  · -- a false constant is none of the three values either
    by_cases hall : ∃ v, .main v ∈ c.opts ∧ v ∉ mainValues
    · exact Or.inl hall
    · refine Or.inr (Or.inr ⟨hold, hfallback, ?_⟩)
      intro v hv
      have hvalue : v ∈ mainValues := by
        by_contra hvalue
        exact hall ⟨v, hv, hvalue⟩
      exact (hmain v hv).resolve_left (plain_of_supported (Or.inl hvalue)).2.2

/-! ## Attached -/

/-- A call of the grammar attaches one of the providers, and its skins. -/
theorem run_of_not_mustReject (h : ¬ c.MustReject) :
    ∃ o sources libs, c.run = some o ∧ ¬ o.reportsError ∧
      Added c.target o.target sources (libs ++ c.skinNames.map skinTarget) ∧
      libs.Sublist helpers ∧
      (c.WantsLibrary → sources = [] ∧ legacyBootstrap ∈ libs) ∧
      (¬ c.WantsLibrary → IsGenerated c.filePrefix sources ∧ legacyBootstrap ∉ libs) := by
  have hplain := plain_of_not_mustReject h
  have hreject := not_rejects_of_not_mustReject h
  have hskins : (settle c.version c.target c.read).xbs.skins = c.skinNames :=
    (settle_skins ..).trans (read_skins hplain)
  have hnames : ∀ skin ∈ (settle c.version c.target c.read).xbs.skins, Plain skin := by
    rw [hskins]
    intro skin hskin
    obtain ⟨o, -, hskin⟩ := List.mem_flatMap.1 hskin
    cases o with
    | skins names =>
      obtain ⟨name, -, rfl⟩ := List.mem_map.1 hskin
      exact name.plain
    | _ => exact absurd hskin List.not_mem_nil
  have hlibrary : (settle c.version c.target c.read).xbs.main = some "PRECOMPILED".toList ↔
      c.WantsLibrary := by
    rw [settle_main hreject, read_main hplain, Call.WantsLibrary]
  obtain ⟨target', sources, libs, hattach, hadded, hlibs, hprovider⟩ :=
    attach_added hnames c.filePrefix c.target
  have hrun : c.run = some ⟨target', (settle c.version c.target c.read).messages⟩ := by
    have hbootstrap := bootstrap_of_not_rejects hreject c.filePrefix c.target
    rw [hattach] at hbootstrap
    exact hbootstrap
  rw [hskins] at hadded
  refine ⟨_, sources, libs, hrun, mt (reportsError_iff hrun).1 hreject, hadded, hlibs, ?_, ?_⟩
  · intro hwants
    rwa [if_pos (hlibrary.2 hwants)] at hprovider
  · intro hwants
    rwa [if_neg (mt hlibrary.1 hwants)] at hprovider

theorem legacyBootstrap_mem_iff (names : List Str) :
    legacyBootstrap ∈ names.map skinTarget ↔ ∃ n ∈ names, lower n = "legacy_bootstrap".toList := by
  have hlegacy : legacyBootstrap = exportNamespace ++ "legacy_bootstrap".toList := by
    decide +kernel
  rw [List.mem_map, hlegacy]
  simp only [skinTarget, List.append_right_inj]

/-- What has to be reported is not, unless the checks see it. -/
theorem rejects_of_acceptsGrammar (h : c.AcceptsGrammar) (hmust : c.MustReject) :
    Rejects c.version c.read := by
  obtain ⟨o, hrun, hmeets⟩ := h
  exact (reportsError_iff hrun).1 (hmeets.error.2 hmust)

/-- A skin that is the bootstrap library is a second provider. -/
theorem skins_of_acceptsGrammar (h : c.AcceptsGrammar) (hmust : ¬ c.MustReject)
    (hwants : ¬ c.WantsLibrary) : ∀ name ∈ c.skinNames, lower name ≠ "legacy_bootstrap".toList := by
  intro name hname hlower
  obtain ⟨o, hrun, hmeets⟩ := h
  obtain ⟨o', sources, libs, hrun', herror, hadded, -, -, hgenerated⟩ :=
    run_of_not_mustReject hmust
  obtain rfl : o = o' := Option.some.inj (hrun.symm.trans hrun')
  obtain ⟨sources', libs', hadded', -, hprovider⟩ := hmeets.attached herror
  obtain ⟨⟨suffix, -, hsources⟩, -⟩ := hgenerated hwants
  have hsame : sources = sources' :=
    List.append_cancel_left (hadded.sources_eq.symm.trans hadded'.sources_eq)
  rcases hprovider with ⟨-, hno⟩ | ⟨hnil, -⟩
  · apply hno
    exact List.mem_append_right _ ((legacyBootstrap_mem_iff _).2 ⟨name, hname, hlower⟩)
  · -- something was added to the sources, so the provider is not the library
    rw [← hsame, hsources] at hnil
    exact absurd hnil (List.cons_ne_nil _ _)

theorem acceptsGrammar_of_rejects (hmust : c.MustReject) (hreject : Rejects c.version c.read) :
    c.AcceptsGrammar := by
  obtain ⟨o, hrun, herror, htarget⟩ := bootstrap_of_rejects hreject c.filePrefix c.target
  refine ⟨o, hrun, ⟨fun _ => hmust, fun _ => herror⟩, fun _ => htarget, ?_⟩
  intro hno
  exact absurd herror hno

theorem acceptsGrammar_of_not_mustReject (hmust : ¬ c.MustReject)
    (hskins : ¬ c.WantsLibrary → ∀ name ∈ c.skinNames, lower name ≠ "legacy_bootstrap".toList) :
    c.AcceptsGrammar := by
  obtain ⟨o, sources, libs, hrun, herror, hadded, hlibs, hlibrary, hgenerated⟩ :=
    run_of_not_mustReject hmust
  refine ⟨o, hrun, ⟨fun h => absurd h herror, fun h => absurd h hmust⟩,
    fun h => absurd h herror, ?_⟩
  intro _
  refine ⟨sources, libs, hadded, hlibs, ?_⟩
  by_cases hwants : c.WantsLibrary
  · right
    exact ⟨(hlibrary hwants).1, List.mem_append_left _ (hlibrary hwants).2⟩
  · left
    refine ⟨(hgenerated hwants).1, ?_⟩
    intro hmem
    rcases List.mem_append.1 hmem with hmem | hmem
    · exact (hgenerated hwants).2 hmem
    · obtain ⟨name, hname, hlower⟩ := (legacyBootstrap_mem_iff _).1 hmem
      exact hskins hwants name hname hlower

/-- With values that are read as written and that CMake does not take for
false, and skins that are not the bootstrap library, what is accepted is the
grammar. -/
theorem acceptsGrammar_of_true (hplain : ∀ o ∈ c.opts, o.Plain)
    (hmain : ∀ v, .main v ∈ c.opts → ¬ isOff v) (hwrap : ∀ v, .mainWrap v ∈ c.opts → ¬ isOff v)
    (hskins : ∀ name ∈ c.skinNames, lower name ≠ "legacy_bootstrap".toList) :
    c.AcceptsGrammar := by
  by_cases hmust : c.MustReject
  · apply acceptsGrammar_of_rejects hmust
    rw [rejects_read_iff hplain]
    rcases hmust with ⟨v, hv, hno⟩ | ⟨v, hv, hno⟩ | ⟨hold, hfallback, hvalue⟩
    · exact Or.inl ⟨v, hv, hmain v hv, hno⟩
    · exact Or.inr (Or.inl ⟨v, hv, hwrap v hv, hno⟩)
    · exact Or.inr (Or.inr ⟨hold, hfallback, fun v hv => Or.inr (hvalue v hv)⟩)
  · exact acceptsGrammar_of_not_mustReject hmust fun _ => hskins

/-- **What is accepted is the grammar**, iff the errors in the options as
written are errors in the options as read, and no skin is the bootstrap library
where generated sources are attached. -/
theorem acceptsGrammar_iff (c : Call) :
    c.AcceptsGrammar ↔
      (c.MustReject → Rejects c.version c.read) ∧
      (¬ c.MustReject → ¬ c.WantsLibrary →
        ∀ name ∈ c.skinNames, lower name ≠ "legacy_bootstrap".toList) := by
  constructor
  · intro h
    exact ⟨rejects_of_acceptsGrammar h, skins_of_acceptsGrammar h⟩
  · rintro ⟨hreported, hskins⟩
    by_cases hmust : c.MustReject
    · exact acceptsGrammar_of_rejects hmust (hreported hmust)
    · exact acceptsGrammar_of_not_mustReject hmust (hskins hmust)

/-- A value that is none of the three, and that CMake takes for false. -/
def mainOffCall : Call where
  version := [3, 20, 0]
  binaryDir := "/build".toList
  target := ⟨"app".toList, .executable, ["app.c".toList], [], []⟩
  opts := [.main "OFF".toList]
  nodup := List.nodup_singleton _

/-- It is no error: the call attaches the default. -/
theorem not_acceptsGrammar_mainOffCall : ¬ mainOffCall.AcceptsGrammar := by
  intro h
  have hmem : Opt.main "OFF".toList ∈ mainOffCall.opts := List.mem_singleton_self _
  have hmust : mainOffCall.MustReject := Or.inl ⟨_, hmem, by decide⟩
  have hplain : ∀ o ∈ mainOffCall.opts, o.Plain := by
    intro o ho
    rw [List.mem_singleton.1 ho]
    exact ⟨by decide, by decide⟩
  have hreject := rejects_of_acceptsGrammar h hmust
  rw [rejects_read_iff hplain] at hreject
  rcases hreject with ⟨v, hv, hoff, -⟩ | ⟨v, hv, -⟩ | ⟨hold, -⟩
  · rw [Opt.main.inj (List.mem_singleton.1 hv)] at hoff
    exact hoff (by decide)
  · exact absurd (List.mem_singleton.1 hv) (by simp)
  · exact absurd hold (by decide)

end CmakeXenomai.Macros
