import CmakeXenomai.Bootstrap.FetchArgv

/-!
# The bootstrap code of a process

`bootstrap-template.h` around `_xenomai_init_fetchargv`: the constructor
`xenomai_bootstrap`, the state `early_args` with its accessors, and the wrapper
`xenomai_main`. The preprocessor's choices are a `Build`; what `xenomai_init`
makes of an argument vector is a parameter. The events of a process are the
calls that leave the file: into Xenomai's init code and into the wrapped
`main`.
-/

namespace CmakeXenomai.Bootstrap

open Lib.CString

/-- Macros the bootstrap source is compiled under. -/
structure Build where
  /-- `_XENOMAI_BOOTSTRAP_GLIBC_CONSTRUCTORS_REAL`, when given; its value is 1. -/
  glibcConstructorsReal : Option Bool
  /-- `_XENOMAI_BOOTSTRAP_GLIBC_CONSTRUCTORS` is defined. -/
  glibcConstructors : Bool
  /-- `__GLIBC__` is defined. -/
  glibc : Bool
  /-- `__UCLIBC__` is defined. -/
  uclibc : Bool
  /-- `_XENOMAI_BOOTSTRAP_DSO` is defined. -/
  dso : Bool
  /-- `_XENOMAI_BOOTSTRAP_INITFLAGS` -/
  initFlags : Option UInt64
  /-- `_XENOMAI_BOOTSTRAP_MODNAME` -/
  modname : Option String
deriving DecidableEq, Repr

/-- A build that defines the main wrapper; for a shared library the header
stops with `#error`. -/
structure MainBuild extends Build where
  not_dso : dso = false

namespace Build

/-- `_XENOMAI_BOOTSTRAP_GLIBC_CONSTRUCTORS_REAL == 1`: the constructor has the
signature of `main`. -/
def ctorGetsArgv (b : Build) : Bool :=
  match b.glibcConstructorsReal with
  | some real => real
  | none => b.glibcConstructors && b.glibc && !b.uclibc

end Build

/-- Entry points of Xenomai's init code. -/
inductive InitCall where
  | xenomaiInit
  | xenomaiInitDso
  | xenomaiInitExt (isDso : Bool) (modname : Option String) (bflags : UInt64)
deriving DecidableEq, Repr

/-- The entry point `call_xenomai_init` is compiled to. -/
def Build.initCall (b : Build) : InitCall :=
  match b.initFlags, b.modname with
  | none, none => if b.dso then .xenomaiInitDso else .xenomaiInit
  | flags, modname => .xenomaiInitExt b.dso modname (flags.getD 0)

inductive Event where
  | init (call : InitCall) (argv : ArgVec)
  | main (argv : ArgVec)
deriving DecidableEq

/-- `struct xbootstrap_state`. -/
structure EarlyArgs where
  argc : Nat
  argv : ArgVec
  argc_eq : argc = argv.length

structure Process where
  earlyArgs : EarlyArgs
  events : List Event

/-- Static storage starts zeroed. -/
def Process.initial : Process := ⟨⟨0, [], rfl⟩, []⟩

/-- `xenomai_bootstrap_getargv(&argc, &argv)` with `argv` in the caller's
variables: the return value and what the variables hold afterwards. -/
def Process.getargv (p : Process) (argv : ArgVec) : Int × ArgVec :=
  if p.earlyArgs.argc ≠ 0 then (1, p.earlyArgs.argv) else (0, argv)

/-- `_xenomai_bootstrap_setargv(argc, argv)` -/
def setargv (argv : ArgVec) : EarlyArgs := ⟨argv.length, argv, rfl⟩

section

variable (b : Build) (init : ArgVec → ArgVec)

/-- `call_xenomai_init(&argc, &argv)`: the process, and the vector the
variables hold afterwards. -/
def callXenomaiInit (p : Process) (argv : ArgVec) : Process × ArgVec :=
  (⟨setargv (init argv), p.events ++ [.init b.initCall argv]⟩, init argv)

/-- The constructor `xenomai_bootstrap`. `argv` is what the C library passes
to it, `fetched` what `_xenomai_init_fetchargv` gives (`none` for -1); the
build looks at one of the two. -/
def xenomaiBootstrap (p : Process) (argv : ArgVec) (fetched : Option ArgVec) : Process :=
  if b.ctorGetsArgv then (callXenomaiInit b init p argv).1
  else
    match fetched with
    | none => p
    | some argv => (callXenomaiInit b init p argv).1

/-- `xenomai_main(argc, argv)`, around the application's `main`. -/
def xenomaiMain (main : ArgVec → Int) (p : Process) (argv : ArgVec) : Process × Int :=
  let (ok, argv) := p.getargv argv
  let (p, argv) := if ok = 0 then callXenomaiInit b init p argv else (p, argv)
  (⟨p.earlyArgs, p.events ++ [.main argv]⟩, main argv)

/-- A process started with `argv`: the constructor, then `xenomai_main`. -/
def startup (main : ArgVec → Int) (argv : ArgVec) (fetched : Option ArgVec) : Process :=
  (xenomaiMain b init main (xenomaiBootstrap b init .initial argv fetched) argv).1

end

/-- The outcome of `_xenomai_init_fetchargv` as the constructor sees it. -/
def Result.outcome (r : Result) : Option ArgVec :=
  if r.ret ≠ 0 then none else some (r.argvp.vector r.argcp.toNat)

end CmakeXenomai.Bootstrap
