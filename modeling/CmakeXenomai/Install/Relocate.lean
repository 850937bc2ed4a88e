import CmakeXenomai.Install.Relpath

/-!
# The installed package finds its own files

`install_cmakeconfig.sh` computes three relative paths from prefix, libdir and
includedir; the installed config files join them to the directory they are
found in, and CMake normalises. Wherever the tree is staged, the joins lead
back to libdir and includedir below the staging root.
-/

namespace CmakeXenomai.Install

open Lib.Path
open Lib.Pattern (Matcher ordinary)

/-! ## The script's three uses of torelpath -/

structure RelPaths where
  libToPrefix : Str
  libdirRel : Str
  includedirRel : Str
deriving DecidableEq

/-- The assignments of `lib_to_prefix`, `libdir_rel` and `includedir_rel`; the
first that fails ends the script (`set -e`). -/
def relPaths (m : Matcher) (fuel : Nat) (pfx libdir includedir : Str) :
    ExceptT Nat Option RelPaths := do
  let libToPrefix ← ExceptT.mk (torelpath m fuel libdir pfx)
  let libdirRel ← ExceptT.mk (torelpath m fuel pfx libdir)
  let includedirRel ← ExceptT.mk (torelpath m fuel pfx includedir)
  return ⟨cmdSubst libToPrefix, cmdSubst libdirRel, cmdSubst includedirRel⟩

/-- The script gets past them with `rel`. -/
def Computes (m : Matcher) (pfx libdir includedir : Str) (rel : RelPaths) : Prop :=
  ∃ fuel, relPaths m fuel pfx libdir includedir = ExceptT.mk (some (.ok rel))

/-! ## The config files -/

/-- `_IMPORT_PREFIX` of `xenomai-targets.cmake` found in `dir`:
`get_filename_component(… ABSOLUTE)`, then the root made empty. -/
def importPrefix (dir libToPrefix : Str) : Str :=
  let p := normalize (dir ++ "/../../".toList ++ libToPrefix)
  if p = ['/'] then [] else p

/-- The staging root in front of an installed path; empty without one. -/
def stage (root : Option AbsPath) : Str :=
  match root with
  | none => []
  | some r => r.str

/-! ## Paths the installer is given -/

/-- Characters of installation paths. -/
def pathChar (x : Char) : Bool :=
  x.isAlphanum || x ∈ ['.', '-', '_', '+']

/-- A normalised absolute path made of these. -/
structure InstallPath extends AbsPath where
  chars : ∀ c ∈ comps, c.all pathChar

theorem ordinary_of_pathChar {x : Char} (h : pathChar x) : ordinary x ∧ x ≠ '\n' := by
  constructor
  · unfold ordinary
    refine decide_eq_true fun hmem => ?_
    simp only [List.mem_cons, List.not_mem_nil, or_false] at hmem
    rcases hmem with rfl | rfl | rfl | rfl
    all_goals exact absurd h (by decide)
  · rintro rfl
    exact absurd h (by decide)

theorem InstallPath.plain (p : InstallPath) : Plain p.toAbsPath :=
  fun c hc x hx => ordinary_of_pathChar (List.all_eq_true.mp (p.chars c hc) x hx)

/-! ## Paths below one another -/

/-- Going up to a path above. -/
theorem above_of_isPrefix {p q : AbsPath} (h : p.comps <+: q.comps) (i : Nat)
    (hstr : (q.up i).str <+: p.str) : (q.up i).comps <+: p.comps := by
  rcases List.prefix_or_prefix_of_prefix (List.take_prefix _ _ : (q.up i).comps <+: q.comps) h with
    hup | hup
  · exact hup
  · have heq : (q.up i).str = p.str :=
      hstr.eq_of_length_le (AbsPath.str_isPrefix hup).length_le
    rw [AbsPath.str_inj heq]

/-- Going down to a path below. -/
theorem below_of_isPrefix {p q : AbsPath} (h : p.comps <+: q.comps) (i : Nat)
    (_ : (p.up i).str <+: q.str) : (p.up i).comps <+: q.comps :=
  (List.take_prefix _ _).trans h

/-- Between plain paths nothing is lost to the command substitution around
`torelpath`, and what it prints leads the way on top of any stack. -/
theorem leads_of_plain (m : Matcher) {start target : AbsPath} (hstart : Plain start)
    (htarget : Plain target)
    (h : ∀ i, (start.up i).str <+: target.str → (start.up i).comps <+: target.comps) :
    ∃ r, Prints m start.str target.str r ∧ cmdSubst r = r ∧
      ∀ stack, walk (start.comps.reverse ++ stack) r = target.comps.reverse ++ stack := by
  obtain ⟨r, i, more, hr, hi, hmore, hwalk⟩ := prints_of_plain m hstart h
  refine ⟨r, hr, ?_, fun stack => ?_⟩
  · unfold cmdSubst
    rw [List.rdropWhile_eq_self_iff]
    intro hne hlast
    rcases hr.mem (List.getLast_mem hne) with hx | hx | hx
    · simp [hx] at hlast
    · simp [hx] at hlast
    · exact (htarget.mem_str hx).2 (by simpa using hlast)
  · have hi' : i ≤ start.comps.reverse.length := by simpa using hi
    rw [hwalk, hmore, List.drop_append_of_le_length hi', ← start.up_comps_reverse]
    simp

/-! ## Relocation -/

theorem torelpath_mono {m : Matcher} {fuel more : Nat} {start target : Str} {r : Except Nat Str}
    (h : torelpath m fuel start target = some r) (hle : fuel ≤ more) :
    torelpath m more start target = some r := by
  unfold torelpath at h ⊢
  split at h
  · rename_i hne
    obtain ⟨s, hs, hr⟩ := Option.map_eq_some_iff.mp h
    rw [if_pos hne, Lib.Loop.run_mono hs hle, Option.map_some, hr]
  · rename_i hne
    rw [if_neg hne]
    exact h

theorem bind_eq_ok_iff {ε α β : Type} {x : ExceptT ε Option α} {f : α → ExceptT ε Option β}
    {b : β} :
    x >>= f = ExceptT.mk (some (.ok b)) ↔
      ∃ a, x = ExceptT.mk (some (.ok a)) ∧ f a = ExceptT.mk (some (.ok b)) := by
  constructor
  · intro h
    match x, h with
    | some (.ok a), h => exact ⟨a, rfl, h⟩
  · rintro ⟨a, rfl, h⟩
    exact h

/-- The three uses succeed or not on their own. -/
theorem computes_iff {m : Matcher} {pfx libdir includedir : Str} {rel : RelPaths} :
    Computes m pfx libdir includedir rel ↔
      ∃ r₁ r₂ r₃, Prints m libdir pfx r₁ ∧ Prints m pfx libdir r₂ ∧ Prints m pfx includedir r₃ ∧
        rel = ⟨cmdSubst r₁, cmdSubst r₂, cmdSubst r₃⟩ := by
  constructor
  · intro h
    obtain ⟨fuel, h⟩ := h
    unfold relPaths at h
    obtain ⟨r₁, h₁, h⟩ := bind_eq_ok_iff.mp h
    obtain ⟨r₂, h₂, h⟩ := bind_eq_ok_iff.mp h
    obtain ⟨r₃, h₃, h⟩ := bind_eq_ok_iff.mp h
    exact ⟨r₁, r₂, r₃, ⟨fuel, h₁⟩, ⟨fuel, h₂⟩, ⟨fuel, h₃⟩,
      (Except.ok.inj (Option.some.inj h)).symm⟩
  · intro h
    obtain ⟨r₁, r₂, r₃, ⟨n₁, h₁⟩, ⟨n₂, h₂⟩, ⟨n₃, h₃⟩, rfl⟩ := h
    refine ⟨max n₁ (max n₂ n₃), ?_⟩
    unfold relPaths
    rw [torelpath_mono h₁ (by omega), torelpath_mono h₂ (by omega), torelpath_mono h₃ (by omega)]
    rfl

/-- The relative paths of an installation, by where they lead from the
directories they are used in. -/
structure LeadsTo (pfx libdir includedir : AbsPath) (rel : RelPaths) : Prop where
  up : ∀ stack, walk (libdir.comps.reverse ++ stack) rel.libToPrefix = pfx.comps.reverse ++ stack
  toLib : ∀ stack, walk (pfx.comps.reverse ++ stack) rel.libdirRel = libdir.comps.reverse ++ stack
  toInclude : ∀ stack,
    walk (pfx.comps.reverse ++ stack) rel.includedirRel = includedir.comps.reverse ++ stack

theorem exists_leadsTo (m : Matcher) {pfx libdir includedir : InstallPath}
    (hlib : pfx.comps <+: libdir.comps) (hinclude : pfx.comps <+: includedir.comps) :
    ∃ rel, Computes m pfx.str libdir.str includedir.str rel ∧
      LeadsTo pfx.toAbsPath libdir.toAbsPath includedir.toAbsPath rel := by
  obtain ⟨r₁, hr₁, hc₁, hwalk₁⟩ := leads_of_plain m libdir.plain pfx.plain (above_of_isPrefix hlib)
  obtain ⟨r₂, hr₂, hc₂, hwalk₂⟩ := leads_of_plain m pfx.plain libdir.plain (below_of_isPrefix hlib)
  obtain ⟨r₃, hr₃, hc₃, hwalk₃⟩ :=
    leads_of_plain m pfx.plain includedir.plain (below_of_isPrefix hinclude)
  refine ⟨_, computes_iff.mpr ⟨r₁, r₂, r₃, hr₁, hr₂, hr₃, rfl⟩, ?_⟩
  rw [hc₁, hc₂, hc₃]
  exact ⟨hwalk₁, hwalk₂, hwalk₃⟩

/-- Where the config files are below libdir. -/
def cmakeXenomai : AbsPath := ⟨["cmake".toList, "xenomai".toList], by decide⟩

/-- What the import prefix denotes: the directory, two levels up, then on. -/
theorem walk_importPrefix (dir libToPrefix : Str) :
    walk [] (importPrefix dir libToPrefix) = walk (walk [] dir).tail.tail libToPrefix := by
  have hjoin : dir ++ "/../../".toList ++ libToPrefix =
      dir ++ '/' :: (['.', '.'] ++ '/' :: (['.', '.'] ++ '/' :: libToPrefix)) := by simp
  have hup : ∀ stack, walk stack ['.', '.'] = stack.tail := by
    intro stack
    rw [walk_of_no_slash stack (by decide), push_dotdot]
  have hwalk : walk [] (importPrefix dir libToPrefix) =
      walk [] (dir ++ "/../../".toList ++ libToPrefix) := by
    unfold importPrefix
    by_cases hroot : normalize (dir ++ "/../../".toList ++ libToPrefix) = ['/']
    · rw [if_pos hroot, ← walk_normalize (dir ++ _ ++ _), hroot]
      rfl
    · rw [if_neg hroot, walk_normalize]
  rw [hwalk, hjoin, walk_join, walk_join, walk_join, hup, hup]

/-- From the directory of the config files they lead into the staged tree, which
is at the bottom of every stack. -/
theorem LeadsTo.relocates {pfx libdir includedir : AbsPath} {rel : RelPaths}
    (h : LeadsTo pfx libdir includedir rel) (root : Option AbsPath) {dir : Str}
    (hdir : normalize dir = normalize (stage root ++ libdir.str ++ "/cmake/xenomai".toList)) :
    normalize (importPrefix dir rel.libToPrefix ++ '/' :: rel.libdirRel) =
        normalize (stage root ++ libdir.str) ∧
      normalize (importPrefix dir rel.libToPrefix ++ '/' :: rel.includedirRel) =
        normalize (stage root ++ includedir.str) := by
  have habove : walk [] (importPrefix dir rel.libToPrefix) =
      pfx.comps.reverse ++ walk [] (stage root) := by
    have hcmake : "/cmake/xenomai".toList = cmakeXenomai.str := rfl
    rw [walk_importPrefix, (normalize_eq_iff _ _).mp hdir, hcmake, AbsPath.walk_append_str,
      AbsPath.walk_append_str]
    exact h.up _
  constructor
  · rw [normalize_eq_iff, walk_join, habove, h.toLib, AbsPath.walk_append_str]
  · rw [normalize_eq_iff, walk_join, habove, h.toInclude, AbsPath.walk_append_str]

/-- For a libdir and an includedir at or below the prefix, and wherever the
tree is staged: from the directory of the config files, the import prefix
joined with the relative paths the installer computed denotes the staged
libdir and the staged includedir. -/
theorem package_relocates (m : Matcher) (pfx libdir includedir : InstallPath)
    (root : Option AbsPath) (hlib : pfx.comps <+: libdir.comps)
    (hinclude : pfx.comps <+: includedir.comps) (dir : Str)
    (hdir : normalize dir = normalize (stage root ++ libdir.str ++ "/cmake/xenomai".toList)) :
    ∃ rel, Computes m pfx.str libdir.str includedir.str rel ∧
      normalize (importPrefix dir rel.libToPrefix ++ '/' :: rel.libdirRel) =
        normalize (stage root ++ libdir.str) ∧
      normalize (importPrefix dir rel.libToPrefix ++ '/' :: rel.includedirRel) =
        normalize (stage root ++ includedir.str) := by
  obtain ⟨rel, hrel, hleads⟩ := exists_leadsTo m hlib hinclude
  exact ⟨rel, hrel, hleads.relocates root hdir⟩

/-- A buildroot layout: headers and libraries below `/usr/xenomai`, staged in
`/home/staging`. -/
theorem package_relocates_staging :
    ∃ rel, Computes Lib.Pattern.posix "/usr/xenomai".toList "/usr/xenomai/lib".toList
        "/usr/xenomai/include".toList rel ∧
      normalize (importPrefix "/home/staging/usr/xenomai/lib/cmake/xenomai".toList
          rel.libToPrefix ++ '/' :: rel.libdirRel) = "/home/staging/usr/xenomai/lib".toList ∧
      normalize (importPrefix "/home/staging/usr/xenomai/lib/cmake/xenomai".toList
          rel.libToPrefix ++ '/' :: rel.includedirRel) =
        "/home/staging/usr/xenomai/include".toList :=
  package_relocates Lib.Pattern.posix
    ⟨⟨["usr".toList, "xenomai".toList], by decide⟩, by decide⟩
    ⟨⟨["usr".toList, "xenomai".toList, "lib".toList], by decide⟩, by decide⟩
    ⟨⟨["usr".toList, "xenomai".toList, "include".toList], by decide⟩, by decide⟩
    (some ⟨["home".toList, "staging".toList], by decide⟩) (by decide) (by decide) _ (by decide)

end CmakeXenomai.Install
