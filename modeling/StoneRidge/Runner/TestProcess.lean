import StoneRidge.Kit.Exec
import StoneRidge.Kit.Polling
import StoneRidge.Kit.PosixPath
import StoneRidge.Kit.PyText

/-!
# Test processes

`stoneridge.run_xpcshell`, `run_firefox` and what they call (`stoneridge.py:223-334`), and
`StoneRidgeRunner.run` (`srrunner.py:71-140`) for the tests that `_build_testlist` has
picked.
-/

set_option autoImplicit false

namespace StoneRidge.Runner
open StoneRidge.Kit StoneRidge.Kit.PyText StoneRidge.Kit.PosixPath StoneRidge.Kit.Exec

inductive ProcessType where
  | xpcshell
  | firefox
  deriving DecidableEq

def ProcessType.name : ProcessType → String
  | .xpcshell => "xpcshell"
  | .firefox => "firefox"

/-- What the code asks of the machine; `ldLibraryPath` is the variable of the environment. -/
structure Machine where
  config : String → String → Option String
  exists? : String → Bool
  abspath : String → String
  ldLibraryPath : Option String

inductive Raised where
  | missingBindir
  | missingBinary (proctype : ProcessType)
  /-- `os.path.join` with `None`. -/
  | noBinaryName
  /-- `file(process_out_file, 'wb')` -/
  | cannotOpen
  /-- The process cannot be started. -/
  | cannotStart
  deriving DecidableEq

/-- The variables of the module (`stoneridge.py:225-234`). -/
structure Cached where
  environ : Option String := none
  bindir : Option String := none
  binaries : ProcessType → Option String := fun _ => none
  timeouts : ProcessType → Option ℤ := fun _ => none

section Ensure
variable (m : Machine)

def getConfigInt (sectname option : String) (default : ℤ) : ℤ :=
  match m.config sectname option with
  | none => default
  | some value => (int? value).getD default

def ensureBindir : EStateM Raised Cached String := do
  match (← get).bindir with
  | some bindir => return bindir
  | none =>
    match m.config "run" "bin" with
    | none => throw .missingBindir
    | some bindir =>
      modify fun c => { c with bindir := some bindir }
      if m.exists? bindir then return bindir else throw .missingBindir

def libraryPath (bindir : String) : String :=
  match m.ldLibraryPath with
  | none => bindir
  | some ldlibpath => if ldlibpath = "" then bindir else bindir ++ ":" ++ ldlibpath

def ensureTestProcessEnviron (bindir : String) : EStateM Raised Cached String := do
  match (← get).environ with
  | some ldlibpath => return ldlibpath
  | none =>
    modify fun c => { c with environ := some (libraryPath m bindir) }
    return libraryPath m bindir

def ensureBinary (bindir : String) (proctype : ProcessType) : EStateM Raised Cached String := do
  match (← get).binaries proctype with
  | some binary => return binary
  | none =>
    match m.config "machine" proctype.name with
    | none => throw .noBinaryName
    | some binary =>
      -- a binary that is not there is not remembered
      if m.exists? (join bindir binary) then
        modify fun c =>
          { c with binaries := Function.update c.binaries proctype (some (join bindir binary)) }
        return join bindir binary
      else throw (.missingBinary proctype)

def ensureTimeout (proctype : ProcessType) : EStateM Raised Cached ℤ := do
  match (← get).timeouts proctype with
  | some timeout => return timeout
  | none =>
    let timeout := getConfigInt m proctype.name "timeout" 900
    modify fun c => { c with timeouts := Function.update c.timeouts proctype (some timeout) }
    return timeout

/-- What `_run_test_process` starts, and for how long. -/
structure Launch where
  binary : String
  bindir : String
  ldLibraryPath : String
  timeout : ℤ
  deriving DecidableEq

def prepare (proctype : ProcessType) : EStateM Raised Cached Launch := do
  let bindir ← ensureBindir m
  let ldlibpath ← ensureTestProcessEnviron m bindir
  let binary ← ensureBinary m bindir proctype
  let timeout ← ensureTimeout m proctype
  return ⟨binary, bindir, ldlibpath, timeout⟩

end Ensure

/-- A process that has been started, with the loop that watches it. -/
structure TestProcess extends Naps 5 where
  /-- When the process would end if it were left alone, with its return code. -/
  exit : Option (ℚ × ℤ)

inductive Outcome where
  | returned (returncode : ℤ)
  | killed
  deriving DecidableEq

namespace TestProcess
variable (p : TestProcess)

def poll (t : ℚ) : Option ℤ :=
  match p.exit with
  | none => none
  | some (ended, returncode) => if ended ≤ t then some returncode else none

/-- The loop of `_run_test_process`: the round it ends in and the return code. -/
def watched (timeout : ℤ) : ℕ × Option ℤ := p.wait timeout p.poll 0

def outcome (timeout : ℤ) : Outcome :=
  match (p.watched timeout).2 with
  | some returncode => .returned returncode
  | none => .killed

/-- When `_run_test_process` returns or raises `TestProcessTimeout`. -/
def finish (timeout : ℤ) : ℚ :=
  match (p.watched timeout).2 with
  | some _ => p.wake (p.watched timeout).1
  | none => p.head (p.watched timeout).1

/-- The process is alive. -/
def Alive (timeout : ℤ) (t : ℚ) : Prop :=
  p.begin ≤ t ∧ t < p.finish timeout ∧ ∀ ended returncode, p.exit = some (ended, returncode) → t < ended

end TestProcess

/-- What the runner reads from the configuration. -/
structure Setting where
  testroot : String
  outdir : String
  profile : String
  installroot : String
  heads : List String
  unittest : Bool

section Arguments
variable (m : Machine) (cfg : Setting)

def buildPreargs : List String :=
  ["-v", "180"] ++ cfg.heads.flatMap fun head => ["-f", m.abspath head]

def outfile (test : String) : String := join cfg.outdir (test ++ ".out")

/-- `outfile.replace('\\', '\\\\')`. -/
def escaped (name : String) : String :=
  String.ofList (name.toList.flatMap fun c => if c = '\\' then ['\\', '\\'] else [c])

def processType (test : String) : ProcessType :=
  if endsWith test ".js" then .xpcshell else .firefox

def processArgs (test : String) : List String :=
  match processType test with
  | .xpcshell => buildPreargs m cfg ++
      ["-e", "const _SR_OUT_FILE = \"" ++ escaped (outfile cfg test) ++ "\";",
        "-f", join cfg.installroot "srdata.js", "-f", join cfg.installroot "head.js",
        "-f", join cfg.testroot test, "-e", "do_stoneridge(); quit(0);"]
  | .firefox =>
    ["-sr", join cfg.testroot test, "-sroutput", outfile cfg test, "-profile", cfg.profile]

def processOutFile (test : String) : String := join cfg.outdir (test ++ ".process.out")

end Arguments

/-- What becomes of the `i`-th process of a run: the file for its output cannot be opened, or
the process, asked for at a time, is not started, or its clock goes on from there. -/
structure Bench where
  openFails : ℕ → String → Bool
  start : ℕ → ℚ → Option TestProcess
  le_begin : ∀ i t p, start i t = some p → t ≤ p.begin

/-- A test for which a process has been started. -/
structure Ran where
  test : String
  args : List String
  out : String
  launch : Launch
  process : TestProcess

namespace Ran

def outcome (r : Ran) : Outcome := r.process.outcome r.launch.timeout

def finish (r : Ran) : ℚ := r.process.finish r.launch.timeout

/-- `TEST FAILED` is logged. -/
def failed (r : Ran) : Bool :=
  match r.outcome with
  | .returned returncode => returncode ≠ 0
  | .killed => true

end Ran

section Run
variable (m : Machine) (cfg : Setting) (bench : Bench)

/-- The loop of `run` from time `t` on, `i` processes having been started. A timeout is caught,
any other exception ends the loop. -/
def runTests : List String → ℕ → ℚ → Cached → List Ran × Option Raised
  | [], _, _, _ => ([], none)
  | test :: tests, i, t, c =>
    if cfg.unittest then runTests tests i t c
    else if bench.openFails i (processOutFile cfg test) then ([], some .cannotOpen)
    else match prepare m (processType test) c with
      | .error e _ => ([], some e)
      | .ok launch c' =>
        match bench.start i t with
        | none => ([], some .cannotStart)
        | some p =>
          let ran : Ran := ⟨test, processArgs m cfg test, processOutFile cfg test, launch, p⟩
          let rest := runTests tests (i + 1) ran.finish c'
          (ran :: rest.1, rest.2)

def run (tests : List String) (t : ℚ) : List Ran × Option Raised := runTests m cfg bench tests 0 t {}

end Run

end StoneRidge.Runner
