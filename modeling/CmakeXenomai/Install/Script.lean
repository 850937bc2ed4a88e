import CmakeXenomai.Install.Options
import CmakeXenomai.Install.Relocate
import CmakeXenomai.Install.Render
import CmakeXenomai.Install.Autodetect

/-!
# The installer as a whole

`install_cmakeconfig.sh` from its command line to the files in TARGETPATH. The
templates are rendered into a temporary directory (`prepare`), and only the last
command, `cp -r`, writes anywhere else: a run that stops before it leaves every
directory alone, and one that gets there ends as `cp` does (`install_iff`). What
`cp` does is the machine's; `Machine.Copies` is what a good one promises.
-/

namespace CmakeXenomai.Install

open Lib.Loop Lib.Path Lib.Templates
open Lib.Pattern (Matcher ordinary)

/-! ## The script -/

/-- The files of a directory. -/
abbrev Dir := Str → Option Text

/-- The directories of a machine by their paths. -/
abbrev Dirs := Str → Option Dir

/-- What the script is run with: its tools, the directories there are, what sed
reads when given a header, and the templates of its own directory. -/
structure Machine where
  posixlyCorrect : Bool
  matcher : Matcher
  sed : Sed
  ctype : Ctype
  dir : Dirs
  header : Str → Option Header
  /-- `mktemp -d` makes a directory. -/
  mktemp : Bool
  /-- `none` where sed cannot read the template, or not write what it prints. -/
  template : Str → Option TemplateFile
  /-- `cp -r $TEMPDIR/. "${targetpath}"` with these files in TEMPDIR: its status
  and the directories it leaves, whole copies or not. -/
  cp : Str → Dir → Dirs → Nat × Dirs

/-- An unquoted expansion of the text would be split or matched against file
names. -/
def splits (s : Str) : Bool := s.any fun c => c ∈ [' ', '\t', '\n', '*', '?', '[', '\\']

/-- `printf "%s" $core | tr '[a-z]' '[A-Z]'` -/
def coreUpper (core : Str) : Str := core.map Char.toUpper

/-- `${tname##*/}` -/
def dropDirs (s : Str) : Str := s.rtakeWhile (· != '/')

/-- `tname`: the template's name without `.in` and its directories. -/
def tname (m : Matcher) (template : Str) : Str :=
  dropDirs (m.dropSuffix ".in".toList template)

/-- What the ten substitutions put in. -/
def fillIns (core : Str) (vars : Vars) (rel : RelPaths) (version bitness : Str) :
    Placeholder → Text
  | .core => core
  | .coreUpper => coreUpper core
  | .pfx => vars .pfx
  | .libdir => vars .libdir
  | .includedir => vars .includedir
  | .libToPrefix => rel.libToPrefix
  | .libdirRel => rel.libdirRel
  | .includedirRel => rel.includedirRel
  | .cmakeVersionCode => version
  | .cmakeSizeofVoidP => bitness

/-- The values, where they are lines. -/
def values? (val : Placeholder → Text) : Option Values :=
  if h : ∀ x ∈ Placeholder.all, '\n' ∉ val x then some ⟨val, fun x => h x x.mem_all⟩ else none

/-- `for template in …; do … sed … || exit 20; done`, writing into `tmp`. -/
def renderAll (M : Machine) (v : Values) : List Str → Dir → Except Stop Dir
  | [], tmp => .ok tmp
  | t :: ts, tmp =>
    match (M.template t).bind (render M.sed v) with
    | none => .error .template
    | some out => renderAll M v ts (Function.update tmp (tname M.matcher t) (some out))

/-- `[ -d "${1-}" ] || …; targetpath=$1` -/
def targetpath (M : Machine) : List Str → Except Stop Str
  | [] => .error .noTargetpath
  | target :: _ =>
    if target ≠ [] ∧ (M.dir target).isSome then .ok target else .error .noTargetpath

/-- `TEMPDIR=$(mktemp -d)` -/
def tempdir (M : Machine) : Except Stop Dir :=
  if M.mktemp then .ok fun _ => none else .error .tempdir

/-- Without a result where the value is outside of what the model evaluates. -/
def modelled {α : Type} (x : Option α) : ExceptT Stop Option α := ExceptT.lift x

/-- The script up to its last command, with a turn budget for its loops:
TARGETPATH, and the files in TEMPDIR. -/
def prepare (M : Machine) (fuel : Nat) (argv : List Str) : ExceptT Stop Option (Str × Dir) := do
  let s ← ExceptT.mk (readOptions M.posixlyCorrect fuel argv)
  let target ← ExceptT.mk (some (targetpath M s.args))
  let vars ← modelled (resolve fuel [.pfx, .libdir, .includedir] s.settings.vars)
  let rel ← (relPaths M.matcher fuel (vars .pfx) (vars .libdir) (vars .includedir)).adapt
    Stop.torelpath
  let core ← modelled (if splits s.settings.core then none else some s.settings.core)
  let found := autodetect M.ctype (M.header (vars .includedir ++ "/xeno_config.h".toList))
    ⟨s.settings.version, s.settings.doVersion⟩
  let tmp ← ExceptT.mk (some (tempdir M))
  -- a value with a newline would be more than one line of the sed script
  let v ← modelled (values? (fillIns core vars rel found.version s.settings.bitness))
  let tmp ← ExceptT.mk (some (renderAll M v (templates core found.doVersion) tmp))
  return (target, tmp)

inductive Ending where
  | done
  | stopped (stop : Stop)
  | copyFailed (status : Nat)
deriving DecidableEq, Repr

/-- By the status of the last command. -/
def ended (status : Nat) : Ending := if status = 0 then .done else .copyFailed status

/-- How a run ends, and the directories it leaves. -/
structure Outcome where
  ending : Ending
  dir : Dirs

/-- The script. Before the last command it writes into TEMPDIR only. -/
def install (M : Machine) (fuel : Nat) (argv : List Str) : Option Outcome :=
  match prepare M fuel argv with
  | none => none
  | some (.error stop) => some ⟨.stopped stop, M.dir⟩
  | some (.ok (target, tmp)) => some ⟨ended (M.cp target tmp M.dir).1, (M.cp target tmp M.dir).2⟩

/-- The files of `tmp` put over those of `old`. -/
def overlaid (tmp old : Dir) : Dir := fun n => (tmp n).or (old n)

/-- What `cp -r` promises where TARGETPATH is no option to it and none of the
files are links: when it reports success the files are there, and those of
other names as they were. -/
def Machine.Copies (M : Machine) (target : Str) : Prop :=
  ∀ tmp old dir, M.dir target = some old → M.cp target tmp M.dir = (0, dir) →
    dir target = some (overlaid tmp old)

/-! ## Names of the files -/

theorem dropDirs_of_no_slash {name : Str} (h : '/' ∉ name) : dropDirs name = name := by
  unfold dropDirs
  rw [List.rtakeWhile_eq_self_iff]
  intro c hc
  rw [bne_iff_ne]
  rintro rfl
  exact h hc

theorem dropDirs_append (dir : Str) {name : Str} (h : '/' ∉ name) :
    dropDirs (dir ++ '/' :: name) = name := by
  have hrev : ∀ c ∈ name.reverse, (c != '/') = true := by
    intro c hc
    rw [bne_iff_ne]
    rintro rfl
    exact h (List.mem_reverse.mp hc)
  unfold dropDirs List.rtakeWhile
  rw [List.reverse_append, List.reverse_cons, List.append_assoc,
    List.takeWhile_append_of_pos hrev]
  simp

/-- The files the script installs. -/
def installedNames (doVersion : Str) : List Str :=
  ["xenomai-targets.cmake".toList, "xenomai-targets-noconfig.cmake".toList,
    "xenomai-config.cmake".toList, "xenomai-macros.cmake".toList,
    "bootstrap-template.h".toList] ++
    if doVersion = [] then [] else ["xenomai-config-version.cmake".toList]

theorem ordinary_in : ∀ c ∈ ".in".toList, ordinary c :=
  List.all_eq_true.mp (by decide)

theorem tname_in (m : Matcher) (dir : Str) {name : Str} (h : '/' ∉ name) :
    tname m (dir ++ '/' :: (name ++ ".in".toList)) = name := by
  unfold tname
  have hsplit : dir ++ '/' :: (name ++ ".in".toList) = (dir ++ '/' :: name) ++ ".in".toList := by
    simp
  rw [hsplit, Matcher.dropSuffix_plain ordinary_in, dropDirs_append dir h]

theorem tname_here (m : Matcher) {name : Str} (h : '/' ∉ name) :
    tname m (name ++ ".in".toList) = name := by
  unfold tname
  rw [Matcher.dropSuffix_plain ordinary_in, dropDirs_of_no_slash h]

/-- Whatever the core is called, the names of the files are the same. -/
theorem map_tname_templates (m : Matcher) (core doVersion : Str) :
    (templates core doVersion).map (tname m) = installedNames doVersion := by
  have hbootstrap : tname m "bootstrap-template.h".toList = "bootstrap-template.h".toList := by
    unfold tname
    rw [Matcher.dropSuffix_of_not_isSuffix ordinary_in (by decide),
      dropDirs_of_no_slash (by decide)]
  have hbelow : ∀ file name : String, '/' ∉ name.toList →
      file.toList = '/' :: (name.toList ++ ".in".toList) →
      tname m (core ++ file.toList) = name.toList := by
    intro file name hname hfile
    rw [hfile, tname_in m core hname]
  have hhere : ∀ file name : String, '/' ∉ name.toList →
      file.toList = name.toList ++ ".in".toList → tname m file.toList = name.toList := by
    intro file name hname hfile
    rw [hfile, tname_here m hname]
  have htargets := hbelow "/xenomai-targets.cmake.in" "xenomai-targets.cmake" (by decide)
    (by decide)
  have hnoconfig := hbelow "/xenomai-targets-noconfig.cmake.in" "xenomai-targets-noconfig.cmake"
    (by decide) (by decide)
  have hconfig := hhere "xenomai-config.cmake.in" "xenomai-config.cmake" (by decide) (by decide)
  have hmacros := hhere "xenomai-macros.cmake.in" "xenomai-macros.cmake" (by decide) (by decide)
  have hversion := hhere "xenomai-config-version.cmake.in" "xenomai-config-version.cmake"
    (by decide) (by decide)
  unfold templates installedNames
  by_cases hdo : doVersion = []
  · rw [if_pos hdo, if_pos hdo, List.append_nil, List.append_nil]
    simp only [List.map_cons, List.map_nil, htargets, hnoconfig, hconfig, hmacros, hbootstrap]
  · rw [if_neg hdo, if_neg hdo, List.map_append]
    simp only [List.map_cons, List.map_nil, htargets, hnoconfig, hconfig, hmacros, hbootstrap,
      hversion]

theorem installedNames_nodup (doVersion : Str) : (installedNames doVersion).Nodup := by
  unfold installedNames
  split_ifs <;> decide

/-! ## Rendering all of them -/

theorem renderAll_ok {M : Machine} {v : Values} {ts : List Str} {tmp tmp' : Dir}
    (h : renderAll M v ts tmp = .ok tmp') (hnodup : (ts.map (tname M.matcher)).Nodup) :
    (∀ t ∈ ts, ∃ out, (M.template t).bind (render M.sed v) = some out ∧
        tmp' (tname M.matcher t) = some out) ∧
      ∀ n ∉ ts.map (tname M.matcher), tmp' n = tmp n := by
  induction ts generalizing tmp with
  | nil =>
    obtain rfl : tmp = tmp' := Except.ok.inj h
    exact ⟨fun t ht => absurd ht List.not_mem_nil, fun n _ => rfl⟩
  | cons t ts ih =>
    rw [List.map_cons, List.nodup_cons] at hnodup
    rw [renderAll] at h
    rw [List.forall_mem_cons]
    cases hout : (M.template t).bind (render M.sed v) with
    | none =>
      rw [hout] at h
      cases h
    | some out =>
      rw [hout] at h
      obtain ⟨hin, hnot⟩ := ih h hnodup.2
      refine ⟨⟨⟨out, rfl, ?_⟩, hin⟩, fun n hn => ?_⟩
      · rw [hnot _ hnodup.1, Function.update_self]
      · rw [List.map_cons, List.mem_cons, not_or] at hn
        rw [hnot n hn.2, Function.update_of_ne hn.1]

theorem exists_renderAll {M : Machine} {v : Values} {ts : List Str}
    (h : ∀ t ∈ ts, ((M.template t).bind (render M.sed v)).isSome) (tmp : Dir) :
    ∃ tmp', renderAll M v ts tmp = .ok tmp' := by
  induction ts generalizing tmp with
  | nil => exact ⟨tmp, rfl⟩
  | cons t ts ih =>
    rw [List.forall_mem_cons] at h
    obtain ⟨out, hout⟩ := Option.isSome_iff_exists.mp h.1
    rw [renderAll, hout]
    exact ih h.2 _

/-! ## A run -/

theorem modelled_eq_ok_iff {α : Type} {x : Option α} {a : α} :
    modelled x = ExceptT.mk (some (.ok a)) ↔ x = some a := by
  cases x with
  | none =>
    constructor
    · intro h
      cases h
    · intro h
      cases h
  | some a' =>
    constructor
    · intro h
      have h' : some (Except.ok a' : Except Stop α) = some (.ok a) := h
      rw [Except.ok.inj (Option.some.inj h')]
    · rintro h
      rw [h]
      rfl

theorem readOptions_mono {posixlyCorrect : Bool} {fuel more : Nat} {argv : List Str}
    {r : Except Stop OptionLoop} (h : readOptions posixlyCorrect fuel argv = some r)
    (hle : fuel ≤ more) : readOptions posixlyCorrect more argv = some r := by
  unfold readOptions at h ⊢
  cases hp : getopt posixlyCorrect argv with
  | none =>
    rw [hp] at h
    exact h
  | some p =>
    rw [hp] at h
    simp only [evalSet_printed] at h ⊢
    exact run_mono h hle

theorem relPaths_mono {m : Matcher} {fuel more : Nat} {pfx libdir includedir : Str}
    {rel : RelPaths} (h : relPaths m fuel pfx libdir includedir = ExceptT.mk (some (.ok rel)))
    (hle : fuel ≤ more) :
    relPaths m more pfx libdir includedir = ExceptT.mk (some (.ok rel)) := by
  unfold relPaths at h ⊢
  obtain ⟨r₁, h₁, h⟩ := bind_eq_ok_iff.mp h
  obtain ⟨r₂, h₂, h⟩ := bind_eq_ok_iff.mp h
  obtain ⟨r₃, h₃, h⟩ := bind_eq_ok_iff.mp h
  rw [torelpath_mono h₁ hle, torelpath_mono h₂ hle, torelpath_mono h₃ hle]
  exact h

theorem adapt_eq_ok_iff {ε ε' α : Type} {f : ε → ε'} {x : ExceptT ε Option α} {a : α} :
    x.adapt f = ExceptT.mk (some (.ok a)) ↔ x = ExceptT.mk (some (.ok a)) := by
  match x with
  | none =>
    constructor
    · intro h
      cases h
    · intro h
      cases h
  | some (.error e) =>
    constructor
    · intro h
      cases h
    · intro h
      cases h
  | some (.ok a') =>
    constructor
    · intro h
      have h' : some (Except.ok a' : Except ε' α) = some (.ok a) := h
      rw [Except.ok.inj (Option.some.inj h')]
      rfl
    · intro h
      have h' : some (Except.ok a' : Except ε α) = some (.ok a) := h
      rw [Except.ok.inj (Option.some.inj h')]
      rfl

/-- The variables behind the option loop. -/
def settings (p : Parsed) : Settings := Settings.initial.given p.options

/-- `version` and `do_version` as the templates get them. -/
def versionVars (M : Machine) (p : Parsed) (vars : Vars) : VersionVars :=
  autodetect M.ctype (M.header (vars .includedir ++ "/xeno_config.h".toList))
    ⟨(settings p).version, (settings p).doVersion⟩

/-- `files` has every template as sed renders it, under its own name, and is
otherwise `old`. -/
structure Renders (M : Machine) (p : Parsed) (vars : Vars) (v : Values) (old files : Dir) :
    Prop where
  rendered : ∀ t ∈ templates (settings p).core (versionVars M p vars).doVersion, ∃ out,
    (M.template t).bind (render M.sed v) = some out ∧ files (tname M.matcher t) = some out
  others : ∀ n ∉ installedNames (versionVars M p vars).doVersion, files n = old n

/-- What a run has done that gets to its last command, with `tmp` in TEMPDIR. -/
structure Prepares (M : Machine) (argv : List Str) (p : Parsed) (target : Str) (vars : Vars)
    (rel : RelPaths) (v : Values) (tmp : Dir) : Prop where
  parsed : getopt M.posixlyCorrect argv = some p
  operand : p.operands.head? = some target ∧ target ≠ []
  before : (M.dir target).isSome
  resolved : ∃ fuel, resolve fuel [.pfx, .libdir, .includedir] (settings p).vars = some vars
  computes : Computes M.matcher (vars .pfx) (vars .libdir) (vars .includedir) rel
  core : ¬ splits (settings p).core
  tempdir : M.mktemp
  values : v.val = fillIns (settings p).core vars rel (versionVars M p vars).version
    (settings p).bitness
  renders : Renders M p vars v (fun _ => none) tmp

theorem targetpath_eq_ok_iff {M : Machine} {args : List Str} {target : Str} :
    targetpath M args = .ok target ↔
      (args.head? = some target ∧ target ≠ []) ∧ (M.dir target).isSome := by
  cases args with
  | nil => simp [targetpath]
  | cons first args =>
    rw [targetpath, List.head?_cons, Option.some.injEq]
    split
    · rename_i hdir
      rw [Except.ok.injEq]
      constructor
      · rintro rfl
        exact ⟨⟨rfl, hdir.1⟩, hdir.2⟩
      · exact fun h => h.1.1
    · rename_i hdir
      constructor
      · intro h
        cases h
      · rintro ⟨⟨rfl, hne⟩, hsome⟩
        exact absurd ⟨hne, hsome⟩ hdir

theorem tempdir_eq_ok_iff {M : Machine} {tmp : Dir} :
    tempdir M = .ok tmp ↔ M.mktemp ∧ (fun _ => none) = tmp := by
  unfold tempdir
  split
  · rename_i h
    simp [h]
  · rename_i h
    simp [h]

theorem values?_eq_some_iff {val : Placeholder → Text} {v : Values} :
    values? val = some v ↔ v.val = val := by
  unfold values?
  by_cases hlines : ∀ x ∈ Placeholder.all, '\n' ∉ val x
  · rw [dif_pos hlines, Option.some.injEq]
    constructor
    · rintro rfl
      rfl
    · rintro rfl
      rfl
  · rw [dif_neg hlines]
    constructor
    · intro h
      cases h
    · rintro rfl
      exact absurd (fun x _ => v.no_newline x) hlines

theorem templates_map_nodup (m : Matcher) (core doVersion : Str) :
    ((templates core doVersion).map (tname m)).Nodup := by
  rw [map_tname_templates]
  exact installedNames_nodup doVersion

theorem renders_of_renderAll {M : Machine} {p : Parsed} {vars : Vars} {v : Values} {files : Dir}
    (h : renderAll M v (templates (settings p).core (versionVars M p vars).doVersion)
      (fun _ => none) = .ok files) : Renders M p vars v (fun _ => none) files := by
  obtain ⟨hin, hnot⟩ := renderAll_ok h (templates_map_nodup _ _ _)
  rw [map_tname_templates] at hnot
  exact ⟨hin, hnot⟩

namespace Renders

variable {M : Machine} {p : Parsed} {vars : Vars} {v : Values} {old files files' : Dir}

/-- The renderings and the old files leave nothing open. -/
theorem unique (h : Renders M p vars v old files) (h' : Renders M p vars v old files') :
    files = files' := by
  funext n
  by_cases hn : n ∈ installedNames (versionVars M p vars).doVersion
  · rw [← map_tname_templates M.matcher (settings p).core] at hn
    obtain ⟨t, ht, rfl⟩ := List.mem_map.mp hn
    obtain ⟨out, hout, hfile⟩ := h.rendered t ht
    obtain ⟨out', hout', hfile'⟩ := h'.rendered t ht
    rw [hfile, hfile', ← hout, ← hout']
  · rw [h.others n hn, h'.others n hn]

theorem overlaid (h : Renders M p vars v (fun _ => none) files) (old : Dir) :
    Renders M p vars v old (Install.overlaid files old) := by
  refine ⟨fun t ht => ?_, fun n hn => ?_⟩
  · obtain ⟨out, hout, hfile⟩ := h.rendered t ht
    refine ⟨out, hout, ?_⟩
    rw [Install.overlaid, hfile, Option.some_or]
  · rw [Install.overlaid, h.others n hn, Option.none_or]

end Renders

/-- The command line is read back by the option loop. -/
theorem readOptions_ok {posixlyCorrect : Bool} {fuel : Nat} {argv : List Str} {s : OptionLoop}
    (h : readOptions posixlyCorrect fuel argv = some (.ok s)) :
    ∃ p, getopt posixlyCorrect argv = some p ∧ s = ⟨settings p, p.operands⟩ := by
  cases hp : getopt posixlyCorrect argv with
  | none =>
    rw [readOptions, hp] at h
    cases h
  | some p =>
    obtain ⟨n, hn⟩ := exists_readOptions hp
    have hmore := readOptions_mono h (le_max_left fuel n)
    rw [readOptions_mono hn (le_max_right fuel n)] at hmore
    exact ⟨p, rfl, (Except.ok.inj (Option.some.inj hmore)).symm⟩

/-- A run that gets to its last command has done every step before. -/
theorem prepares_of_ok {M : Machine} {fuel : Nat} {argv : List Str} {target : Str} {tmp : Dir}
    (h : prepare M fuel argv = ExceptT.mk (some (.ok (target, tmp)))) :
    ∃ p vars rel v, Prepares M argv p target vars rel v tmp := by
  unfold prepare at h
  -- the results of the commands, one after the other
  obtain ⟨s, hs, h⟩ := bind_eq_ok_iff.mp h
  obtain ⟨path, hpath, h⟩ := bind_eq_ok_iff.mp h
  obtain ⟨vars, hvars, h⟩ := bind_eq_ok_iff.mp h
  obtain ⟨rel, hrel, h⟩ := bind_eq_ok_iff.mp h
  obtain ⟨core, hword, h⟩ := bind_eq_ok_iff.mp h
  obtain ⟨empty, hempty, h⟩ := bind_eq_ok_iff.mp h
  obtain ⟨v, hv, h⟩ := bind_eq_ok_iff.mp h
  obtain ⟨files, hfiles, hpair⟩ := bind_eq_ok_iff.mp h
  obtain ⟨rfl, rfl⟩ : path = target ∧ files = tmp :=
    Prod.mk.inj (Except.ok.inj (Option.some.inj hpair))
  -- and what each of them says about the run
  obtain ⟨p, hp, rfl⟩ := readOptions_ok hs
  obtain ⟨htarget, hbefore⟩ := targetpath_eq_ok_iff.mp (Option.some.inj hpath)
  obtain ⟨hmktemp, rfl⟩ := tempdir_eq_ok_iff.mp (Option.some.inj hempty)
  rw [modelled_eq_ok_iff] at hvars hword hv
  rw [adapt_eq_ok_iff] at hrel
  obtain ⟨hcore, rfl⟩ : ¬ splits (settings p).core ∧ (settings p).core = core := by
    split_ifs at hword with hsplits
    exact ⟨hsplits, Option.some.inj hword⟩
  exact ⟨p, vars, rel, v, hp, htarget, hbefore, ⟨fuel, hvars⟩, ⟨fuel, hrel⟩, hcore, hmktemp,
    values?_eq_some_iff.mp hv, renders_of_renderAll (Option.some.inj hfiles)⟩

/-- With turns enough for its loops, a run gets there. -/
theorem Prepares.exists_prepare {M : Machine} {argv : List Str} {p : Parsed} {target : Str}
    {vars : Vars} {rel : RelPaths} {v : Values} {tmp : Dir}
    (h : Prepares M argv p target vars rel v tmp) :
    ∃ fuel, prepare M fuel argv = ExceptT.mk (some (.ok (target, tmp))) := by
  obtain ⟨n₁, hread⟩ : ∃ n, readOptions M.posixlyCorrect n argv =
      some (.ok ⟨settings p, p.operands⟩) := exists_readOptions h.parsed
  obtain ⟨n₂, hresolve⟩ := h.resolved
  obtain ⟨n₃, hrel⟩ := h.computes
  -- one budget for all three loops
  obtain ⟨fuel, hfuel⟩ : ∃ fuel, fuel = max n₁ (max n₂ n₃) := ⟨_, rfl⟩
  have hrendered : ∀ t ∈ templates (settings p).core (versionVars M p vars).doVersion,
      ((M.template t).bind (render M.sed v)).isSome := by
    intro t ht
    obtain ⟨out, hout, -⟩ := h.renders.rendered t ht
    rw [hout]
    rfl
  obtain ⟨files, hfiles⟩ := exists_renderAll hrendered fun _ => none
  obtain rfl : files = tmp := (renders_of_renderAll hfiles).unique h.renders
  refine ⟨fuel, ?_⟩
  unfold prepare
  refine bind_eq_ok_iff.mpr ⟨_, readOptions_mono hread (by omega), ?_⟩
  refine bind_eq_ok_iff.mpr ⟨target, ?_, ?_⟩
  · exact congrArg some (targetpath_eq_ok_iff.mpr ⟨h.operand, h.before⟩)
  refine bind_eq_ok_iff.mpr ⟨vars, modelled_eq_ok_iff.mpr (resolve_mono hresolve (by omega)), ?_⟩
  refine bind_eq_ok_iff.mpr ⟨rel, adapt_eq_ok_iff.mpr (relPaths_mono hrel (by omega)), ?_⟩
  refine bind_eq_ok_iff.mpr ⟨(settings p).core, ?_, ?_⟩
  · rw [if_neg h.core]
    rfl
  refine bind_eq_ok_iff.mpr ⟨_, congrArg some (tempdir_eq_ok_iff.mpr ⟨h.tempdir, rfl⟩), ?_⟩
  refine bind_eq_ok_iff.mpr ⟨v, modelled_eq_ok_iff.mpr (values?_eq_some_iff.mpr h.values), ?_⟩
  exact bind_eq_ok_iff.mpr ⟨_, congrArg some hfiles, rfl⟩

/-! ## The last command -/

/-- A run that stops early has touched nothing; a run that gets to the last
command ends as that does. -/
theorem install_cases {M : Machine} {fuel : Nat} {argv : List Str} {outcome : Outcome}
    (h : install M fuel argv = some outcome) :
    (∃ stop, outcome = ⟨.stopped stop, M.dir⟩) ∨
      ∃ p target vars rel v tmp status dir, Prepares M argv p target vars rel v tmp ∧
        M.cp target tmp M.dir = (status, dir) ∧ outcome = ⟨ended status, dir⟩ := by
  unfold install at h
  split at h
  · cases h
  · rename_i stop _
    exact .inl ⟨stop, (Option.some.inj h).symm⟩
  · rename_i target tmp hprepare
    obtain ⟨p, vars, rel, v, hprepares⟩ := prepares_of_ok hprepare
    exact .inr ⟨p, target, vars, rel, v, tmp, _, _, hprepares, rfl, (Option.some.inj h).symm⟩

theorem Prepares.exists_install {M : Machine} {argv : List Str} {p : Parsed} {target : Str}
    {vars : Vars} {rel : RelPaths} {v : Values} {tmp : Dir}
    (h : Prepares M argv p target vars rel v tmp) {status : Nat} {dir : Dirs}
    (hcp : M.cp target tmp M.dir = (status, dir)) :
    ∃ fuel, install M fuel argv = some ⟨ended status, dir⟩ := by
  obtain ⟨fuel, hprepare⟩ := h.exists_prepare
  refine ⟨fuel, ?_⟩
  have hstatus : (M.cp target tmp M.dir).1 = status := congrArg Prod.fst hcp
  have hdir : (M.cp target tmp M.dir).2 = dir := congrArg Prod.snd hcp
  unfold install
  rw [hprepare, ← hstatus, ← hdir]
  rfl

theorem ended_ne_stopped (status : Nat) (stop : Stop) : ended status ≠ .stopped stop := by
  unfold ended
  split <;> simp

theorem ended_inj {status status' : Nat} (h : ended status = ended status') :
    status = status' := by
  unfold ended at h
  split_ifs at h with h₁ h₂
  · rw [h₁, h₂]
  · exact Ending.copyFailed.inj h

/-- Nothing in the value means anything to sed, and no placeholder is in it. -/
def Literal (s : Text) : Prop := ∀ c ∈ s, literalChar c ∧ c ≠ '@' ∧ c ≠ '\n'

instance (s : Text) : Decidable (Literal s) := List.decidableBAll _ s

/-- With such values every template is rendered literally. -/
theorem render_literal (S : Sed) {v : Values} (h : ∀ x, Literal (v.val x)) (t : TemplateFile) :
    render S v t = some (filled v t) := by
  have hread := read_chunk_literal S fun x c hc => (h x c hc).1
  have hsmuggles : ¬ Smuggles S v := by
    intro hsmuggles
    obtain ⟨x, hx⟩ := hsmuggles
    rw [hread] at hx
    cases hx
  rw [render, run_script hsmuggles, script, substs_commands hread, Option.map_some,
    List.flatMap_map]
  refine congrArg some ((flatMap_eq_filled_iff v _ t).mpr fun l _ => ?_)
  refine (gsubs_line_iff v _ l).mpr fun x _ => Lib.Gsub.gsubs_of_not_isInfix fun cmd hcmd => ?_
  obtain ⟨y, -, rfl⟩ := List.mem_map.mp hcmd
  intro hinside
  exact (h x '@' (hinside.subset List.mem_cons_self)).2.1 rfl

end CmakeXenomai.Install
