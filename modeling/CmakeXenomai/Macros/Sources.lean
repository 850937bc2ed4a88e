import CmakeXenomai.Bootstrap.Process
import CmakeXenomai.Lib.Linker
import CmakeXenomai.Macros.TargetBootstrap

/-!
# The generated sources

The files that `xenomai_target_bootstrap` writes for its targets, and the
symbols of `bootstrap-template.h` compiled from them. A definition
`main=__real_main` on the target is in force in these files too;
`xenomai_bootstrap_main.c` takes it back before it names its own `main`
(`compileHeader_mainSource`).
-/

namespace CmakeXenomai.Macros

open Lib.Cmake
open Lib.Linker (Table Directive Object preprocess)
open Bootstrap (Build InitCall)

/-! ## The files -/

def mainName : Str := "main".toList

def realMain : Str := "__real_main".toList

def xenomaiMainName : Str := "xenomai_main".toList

def getargvName : Str := "xenomai_bootstrap_getargv".toList

def defineMainwrapper : Str := "_XENOMAI_BOOTSTRAP_DEFINE_MAINWRAPPER".toList

def weakrefMainwrapper : Str := "_XENOMAI_BOOTSTRAP_WEAKREF_MAINWRAPPER".toList

def bootstrapDso : Str := "_XENOMAI_BOOTSTRAP_DSO".toList

def glibcConstructors : Str := "_XENOMAI_BOOTSTRAP_GLIBC_CONSTRUCTORS".toList

/-- `_extradefines` -/
def extradefines : List Directive :=
  [.define "_XENOMAI_BOOTSTRAP_WRAP_MALLOC".toList [], .define glibcConstructors []]

/-- `_fileinclude` -/
def fileinclude : Directive := .includes "xenomai_bootstrap_template.h".toList

/-- `xenomai_bootstrap_main.c` -/
def mainSource : List Directive :=
  [.ifdef mainName, .undef mainName, .endif] ++ extradefines ++
    [.define defineMainwrapper realMain, .define weakrefMainwrapper mainName, fileinclude]

/-- `xenomai_bootstrap_shl.c` -/
def shlSource : List Directive := extradefines ++ [.define bootstrapDso [], fileinclude]

/-- `xenomai_bootstrap.c` -/
def plainSource : List Directive := extradefines ++ [fileinclude]

example : String.ofList (mainSource.flatMap Directive.text) =
    "#ifdef main\n#undef main\n#endif\n#define _XENOMAI_BOOTSTRAP_WRAP_MALLOC\n" ++
    "#define _XENOMAI_BOOTSTRAP_GLIBC_CONSTRUCTORS\n" ++
    "#define _XENOMAI_BOOTSTRAP_DEFINE_MAINWRAPPER __real_main\n" ++
    "#define _XENOMAI_BOOTSTRAP_WEAKREF_MAINWRAPPER main\n" ++
    "#include \"xenomai_bootstrap_template.h\"\n" := by decide +kernel

def generatedFiles (filePrefix : Str) : List (Str × List Directive) :=
  [(filePrefix ++ "_main.c".toList, mainSource), (filePrefix ++ "_shl.c".toList, shlSource),
    (filePrefix ++ ".c".toList, plainSource)]

/-! ## The header -/

/-- What the compiler makes of constant expressions. -/
structure Compiler where
  number : Str → UInt64
  literal : Str → String

/-- A function of a program. -/
inductive Fn where
  /-- A function of the application, by its name in the source. -/
  | app (name : Str)
  /-- `xenomai_bootstrap_getargv` -/
  | getargv
  /-- `xenomai_main`, around the function it calls. -/
  | xenomaiMain (b : Build) (wrapped : Str)
deriving DecidableEq

/-- A compiled source: its symbols, and the constructors `xenomai_bootstrap` in
it. -/
structure CompiledUnit where
  object : Object Fn
  constructors : List Build

section

variable (cc : Compiler) (t : Table)

def headerBuild : Build where
  glibcConstructorsReal :=
    (t.lookup "_XENOMAI_BOOTSTRAP_GLIBC_CONSTRUCTORS_REAL".toList).map fun v => cc.number v == 1
  glibcConstructors := t.defined glibcConstructors
  glibc := t.defined "__GLIBC__".toList
  uclibc := t.defined "__UCLIBC__".toList
  dso := t.defined bootstrapDso
  initFlags := (t.lookup "_XENOMAI_BOOTSTRAP_INITFLAGS".toList).map cc.number
  modname := (t.lookup "_XENOMAI_BOOTSTRAP_MODNAME".toList).map cc.literal

def initName : InitCall → Str
  | .xenomaiInit => "xenomai_init".toList
  | .xenomaiInitDso => "xenomai_init_dso".toList
  | .xenomaiInitExt .. => "xenomai_init_ext".toList

/-- What the header calls of Xenomai. -/
def headerCalls : List Str :=
  initName (headerBuild cc t).initCall ::
    if t.defined "_XENOMAI_INIT_HASFETCHARGV".toList && !(headerBuild cc t).ctorGetsArgv then
      ["xenomai_init_fetchargv".toList]
    else []

/-- `_XENOMAI_BOOTSTRAP_WEAKREF_MAINWRAPPER`; an alias is one of a function of
the file, by the name in the quotes. -/
def weakref (wrapper : Fn) : Option (List (Str × Fn)) :=
  if t.defined weakrefMainwrapper then
    if t.expand xenomaiMainName = xenomaiMainName then
      some [(t.expand weakrefMainwrapper, wrapper)]
    else none
  else some []

/-- `bootstrap-template.h` under some macros, if it compiles. The calls of the
C library are left out. -/
def compileHeader : Option CompiledUnit :=
  let b := headerBuild cc t
  let getargv := (t.expand getargvName, Fn.getargv)
  let calls := (headerCalls cc t).map t.expand
  if t.defined defineMainwrapper then
    let wrapped := t.expand defineMainwrapper
    let wrapper := Fn.xenomaiMain b wrapped
    if b.dso then none
    else (weakref t wrapper).map fun weak =>
      ⟨.compile [getargv, (t.expand xenomaiMainName, wrapper)] weak (calls ++ [wrapped]), [b]⟩
  else some ⟨.compile [getargv] [] calls, [b]⟩

end

/-! ## Sources of a target -/

/-- A source of the application: the functions it defines for other files, and
the names it uses. -/
structure SourceFile where
  functions : List Str
  uses : List Str

def compileApp (t : Table) (file : SourceFile) : CompiledUnit where
  object := .compile (file.functions.map fun f => (t.expand f, .app f)) [] (file.uses.map t.expand)
  constructors := []

/-- A source by its name: a generated one, or one of the application. -/
def compileSource (cc : Compiler) (filePrefix : Str) (tree : Str → Option SourceFile) (t : Table)
    (source : Str) : Option CompiledUnit :=
  match (generatedFiles filePrefix).lookup source with
  | some directives => compileHeader cc (preprocess directives [] t)
  | none => (tree source).map (compileApp t)

/-! ## What they define -/

/-- The names the header and the linker give a meaning to. -/
def reserved : List Str :=
  [mainName, realMain, xenomaiMainName, getargvName, "__wrap_main".toList, defineMainwrapper,
    weakrefMainwrapper, bootstrapDso]

/-- Macros that leave the reserved names alone. -/
def Quiet (t : Table) : Prop := ∀ n ∈ reserved, t.lookup n = none

/-- The macros of a target with `MAIN_WRAP MACRO`. -/
def renamed (t : Table) : Table := (mainName, realMain) :: t

/-- The header with the wrapper, which goes by the name `weak` as well. -/
def wrapperUnit (cc : Compiler) (t : Table) (weak : Str) : CompiledUnit :=
  let wrapper := Fn.xenomaiMain (headerBuild cc t) realMain
  ⟨.compile [(getargvName, .getargv), (xenomaiMainName, wrapper)] [(weak, wrapper)]
    ((headerCalls cc t).map t.expand ++ [realMain]), [headerBuild cc t]⟩

/-- The header without it. -/
def plainUnit (cc : Compiler) (t : Table) : CompiledUnit :=
  ⟨.compile [(getargvName, .getargv)] [] ((headerCalls cc t).map t.expand), [headerBuild cc t]⟩

variable {cc : Compiler} {t : Table}

theorem compileHeader_wrapper {weak : Str} (hdefine : t.lookup defineMainwrapper = some realMain)
    (hweakref : t.lookup weakrefMainwrapper = some weak)
    (hplain : ∀ n ∈ [realMain, weak, xenomaiMainName, getargvName, bootstrapDso],
      t.lookup n = none) :
    compileHeader cc t = some (wrapperUnit cc t weak) := by
  simp only [List.forall_mem_cons] at hplain
  obtain ⟨hreal, hweak, hmain, hgetargv, hdso, -⟩ := hplain
  have hdefined : t.defined defineMainwrapper = true ∧ t.defined weakrefMainwrapper = true := by
    unfold Table.defined
    rw [hdefine, hweakref]
    exact ⟨rfl, rfl⟩
  have hnotdso : (headerBuild cc t).dso = false := by
    show (t.lookup bootstrapDso).isSome = false
    rw [hdso]
    rfl
  have hwrapped := Table.expand_of_lookup_some hdefine hreal
  have halias := Table.expand_of_lookup_some hweakref hweak
  have hname := Table.expand_of_lookup_none hmain
  have hgetter := Table.expand_of_lookup_none hgetargv
  unfold compileHeader weakref
  simp only [hdefined, hnotdso, hwrapped, halias, hname, hgetter, if_true]
  rfl

theorem compileHeader_plain (hdefine : t.lookup defineMainwrapper = none)
    (hgetargv : t.lookup getargvName = none) :
    compileHeader cc t = some (plainUnit cc t) := by
  have hdefined : t.defined defineMainwrapper = false := by
    unfold Table.defined
    rw [hdefine]
    rfl
  have hgetter := Table.expand_of_lookup_none hgetargv
  unfold compileHeader
  simp only [hdefined, hgetter]
  rfl

/-- The macros of `xenomai_bootstrap_main.c` where it includes the header. -/
theorem lookup_mainSource (t : Table) (n : Str) :
    (preprocess mainSource [] t).lookup n =
      if n = weakrefMainwrapper then some mainName
      else if n = defineMainwrapper then some realMain
      else if n = glibcConstructors then some []
      else if n = "_XENOMAI_BOOTSTRAP_WRAP_MALLOC".toList then some []
      else if n = mainName then none
      else t.lookup n := by
  have hmain : (if t.defined mainName then t.undef mainName else t).lookup n =
      if n = mainName then none else t.lookup n := by
    by_cases hdefined : t.defined mainName
    · rw [if_pos hdefined, Table.lookup_undef]
    · rw [if_neg hdefined]
      split_ifs with hn
      · rw [hn]
        exact Option.not_isSome_iff_eq_none.mp hdefined
      · rfl
  rw [← hmain, ← Table.lookup_define, ← Table.lookup_define, ← Table.lookup_define,
    ← Table.lookup_define]
  show (preprocess mainSource [] t).lookup n = _
  unfold mainSource extradefines
  simp only [List.cons_append, List.nil_append, preprocess, List.all_cons, List.all_nil,
    List.tail_cons, id_eq, Bool.and_true, if_true]
  rfl

theorem lookup_plainSource (t : Table) (n : Str) :
    (preprocess plainSource [] t).lookup n =
      if n = glibcConstructors then some []
      else if n = "_XENOMAI_BOOTSTRAP_WRAP_MALLOC".toList then some []
      else t.lookup n := by
  rw [← Table.lookup_define, ← Table.lookup_define]
  rfl

/-- Whether the target renames `main` or not, `xenomai_bootstrap_main.c`
defines a weak `main` around `__real_main`. -/
theorem compileHeader_mainSource (hquiet : Quiet t) {t' : Table} (ht : t' = t ∨ t' = renamed t) :
    compileHeader cc (preprocess mainSource [] t') =
      some (wrapperUnit cc (preprocess mainSource [] t') mainName) := by
  have hothers : ∀ n ∈ reserved, n ≠ mainName → t'.lookup n = none := by
    intro n hn hne
    rcases ht with rfl | rfl
    · exact hquiet n hn
    · unfold renamed
      rw [List.lookup_cons, beq_false_of_ne hne]
      exact hquiet n hn
  refine compileHeader_wrapper ?_ ?_ ?_
  · rw [lookup_mainSource, if_neg (by decide), if_pos rfl]
  · rw [lookup_mainSource, if_pos rfl]
  · have hnone : ∀ n ∈ reserved, n ≠ weakrefMainwrapper → n ≠ defineMainwrapper →
        n ≠ glibcConstructors → n ≠ "_XENOMAI_BOOTSTRAP_WRAP_MALLOC".toList →
        (preprocess mainSource [] t').lookup n = none := by
      intro n hn h1 h2 h3 h4
      rw [lookup_mainSource, if_neg h1, if_neg h2, if_neg h3, if_neg h4]
      split_ifs with hmain
      · rfl
      · exact hothers n hn hmain
    simp only [List.forall_mem_cons]
    refine ⟨?_, ?_, ?_, ?_, ?_, List.forall_mem_nil _⟩
    all_goals exact hnone _ (by decide) (by decide) (by decide) (by decide) (by decide)

theorem compileHeader_plainSource (hquiet : Quiet t) {t' : Table} (ht : t' = t ∨ t' = renamed t) :
    compileHeader cc (preprocess plainSource [] t') =
      some (plainUnit cc (preprocess plainSource [] t')) := by
  have hothers : ∀ n ∈ [defineMainwrapper, getargvName],
      (preprocess plainSource [] t').lookup n = none := by
    intro n hn
    have hne : n ≠ mainName ∧ n ≠ glibcConstructors ∧
        n ≠ "_XENOMAI_BOOTSTRAP_WRAP_MALLOC".toList ∧ n ∈ reserved := by
      simp only [List.mem_cons, List.not_mem_nil, or_false] at hn
      rcases hn with rfl | rfl <;> decide
    obtain ⟨hmain, h1, h2, hmem⟩ := hne
    rw [lookup_plainSource, if_neg h1, if_neg h2]
    rcases ht with rfl | rfl
    · exact hquiet n hmem
    · unfold renamed
      rw [List.lookup_cons, beq_false_of_ne hmain]
      exact hquiet n hmem
  exact compileHeader_plain (hothers _ (by decide)) (hothers _ (by decide))

end CmakeXenomai.Macros
