import StoneRidge.Kit.Exec

set_option autoImplicit false

/-!
# The worker's stage runner (srworker.py)

`StoneRidgeWorker.run_process` starts one stage as a subprocess and, when that
subprocess exits non-zero, restores DNS, archives and uploads before it raises.
The handler calls `run_process` again for each of these, so the function is
modelled by its approximations at a bounded nesting depth. `run_test` is the
sequence of stages, and `handle` sets the flags the handler reads.

The exit statuses are an arbitrary stream: `exit k` is the status of the `k`-th
subprocess started during one `handle`, whichever stage that is.
-/

namespace StoneRidge.Worker
open StoneRidge.Kit.Exec

inductive Stage where
  | downloader | unpacker | infogatherer | pcap | dnsupdater | dnscheck | arpfixer
  | runner | collator | archiver | uploader
  deriving DecidableEq, Repr

def Stage.name : Stage → String
  | .downloader => "downloader"
  | .unpacker => "unpacker"
  | .infogatherer => "infogatherer"
  | .pcap => "pcap"
  | .dnsupdater => "dnsupdater"
  | .dnscheck => "dnscheck"
  | .arpfixer => "arpfixer"
  | .runner => "runner"
  | .collator => "collator"
  | .archiver => "archiver"
  | .uploader => "uploader"

/-- A stage subprocess that was started: the stage, the arguments the caller
added, and the whole command line. -/
structure Invocation where
  stage : Stage
  args : List String
  command : List String
  deriving DecidableEq, Repr

/-- What is fixed for one `handle`: the worker's configuration and the paths of
the run (`srworker.py:19-21`, `38`, `60`, `67`). -/
structure Setting where
  srconffile : String
  unittest : Bool
  srnetconfig : String
  logdir : String
  runconfig : String

/-- The three flags that steer the failure handler. -/
structure Flags where
  needDnsReset : Bool
  archiveOnFailure : Bool
  uploaded : Bool
  deriving DecidableEq, Repr

/-- The fields `run_process` reads and writes. `invoked` is the history of the
subprocesses started so far. -/
structure StoneRidgeWorker extends Flags where
  setting : Setting
  procno : ℕ
  childlog : Option String
  invoked : List Invocation

/-- What leaves a method of the worker as an exception. `tooDeep` is not raised
by the program: it says that the handler nests deeper than the approximation
follows it (CPython would end such a nesting with a `RuntimeError`, which no
handler of the worker catches). -/
inductive Raised where
  | stoneRidgeException (message : String)
  | tooDeep
  deriving DecidableEq, Repr

abbrev Action := EStateM Raised StoneRidgeWorker

/-- `'%02d' % n`. -/
def twoDigits (n : ℕ) : String :=
  if n < 10 then "0" ++ toString n else toString n

def StoneRidgeWorker.logfile (w : StoneRidgeWorker) (stage : Stage) : String :=
  w.setting.logdir ++ "/" ++ twoDigits w.procno ++ "_" ++ stage.name ++ "_" ++
    w.setting.srnetconfig ++ ".log"

def StoneRidgeWorker.command (w : StoneRidgeWorker) (stage : Stage) (args : List String) : List String :=
  ["sr" ++ stage.name ++ ".py", "--config", w.setting.srconffile,
    "--runconfig", w.setting.runconfig, "--log", w.logfile stage] ++ args

/-- The worker once the subprocess has run (`srworker.py:128`, `142`). -/
def StoneRidgeWorker.ran (w : StoneRidgeWorker) (stage : Stage) (args : List String) : StoneRidgeWorker :=
  { w with
    procno := w.procno + 1
    invoked := w.invoked ++ [⟨stage, args, w.command stage args⟩] }

/-- `do_error`: name the stage and the log of the child that failed last. -/
def doError (stage : Stage) : Action Unit := do
  let w ← get
  throw (.stoneRidgeException
    ("Error running " ++ stage.name ++ ": see " ++ w.childlog.getD "None" ++ "\n"))

/-- `try: … except StoneRidgeException: pass`. -/
def ignoring (x : Action Unit) : Action Unit :=
  tryCatch x fun e =>
    match e with
    | .stoneRidgeException _ => pure ()
    | .tooDeep => throw .tooDeep

section Handler
variable (run : Stage → List String → Action Unit)

/-- `srworker.py:147-167`: no archive and no upload while DNS is restored. -/
def restoreDns : Action Unit := do
  let w ← get
  if w.needDnsReset then
    let doArchive := w.archiveOnFailure
    modify fun w => { w with archiveOnFailure := false }
    let uploaded := w.uploaded
    modify fun w => { w with uploaded := true }
    ignoring (run .dnsupdater ["--restore"])
    modify fun w => { w with archiveOnFailure := doArchive, uploaded := uploaded }

/-- `srworker.py:169-177`. -/
def archiveOnce : Action Unit := do
  let w ← get
  if w.archiveOnFailure then
    modify fun w => { w with archiveOnFailure := false }
    ignoring (run .archiver [])

/-- `srworker.py:178-183`. -/
def uploadOnce : Action Unit := do
  let w ← get
  if !w.uploaded then
    modify fun w => { w with uploaded := true }
    ignoring (run .uploader [])

/-- The body of `except subprocess.CalledProcessError`, after `childlog` is set. -/
def failureHandler (stage : Stage) : Action Unit := do
  restoreDns run
  archiveOnce run
  uploadOnce run
  doError stage

end Handler

/-- `run_process`, following the handler's own calls to the given depth. -/
def runProcess (exit : ℕ → ℤ) : ℕ → Stage → List String → Action Unit
  | 0, _, _ => throw .tooDeep
  | depth + 1, stage, args => do
    let w ← get
    if w.setting.unittest then
      modify fun w => { w with procno := w.procno + 1 }
    else do
      modify fun w => w.ran stage args
      if exit w.invoked.length ≠ 0 then do
        modify fun w' => { w' with childlog := some (w.logfile stage) }
        failureHandler (runProcess exit depth) stage

/-- `run_test` (`srworker.py:188-223`). -/
def runTest (exit : ℕ → ℤ) (depth : ℕ) : Action Unit := do
  let runProcess := runProcess exit depth
  runProcess .downloader []
  runProcess .unpacker []
  runProcess .infogatherer []
  runProcess .pcap ["--start"]
  runProcess .dnsupdater []
  modify fun w => { w with needDnsReset := true }
  runProcess .dnscheck []
  runProcess .arpfixer []
  runProcess .runner []
  modify fun w => { w with needDnsReset := false }
  runProcess .dnsupdater ["--restore"]
  runProcess .dnscheck ["--public"]
  runProcess .pcap ["--stop"]
  runProcess .collator []
  modify fun w => { w with archiveOnFailure := false }
  runProcess .archiver []
  modify fun w => { w with uploaded := true }
  runProcess .uploader []

/-- The flags as `handle` sets them before the first stage (`srworker.py:60-65`). -/
def start (cfg : Setting) : StoneRidgeWorker where
  setting := cfg
  uploaded := false
  archiveOnFailure := true
  procno := 1
  childlog := none
  needDnsReset := false
  invoked := []

@[simp] theorem start_unittest (cfg : Setting) :
    (start cfg).setting.unittest = cfg.unittest := rfl

/-- The part of `handle` that runs the stages (`srworker.py:94-97`). -/
def handleStages (exit : ℕ → ℤ) (depth : ℕ) : Action Unit :=
  ignoring (runTest exit depth)

end StoneRidge.Worker
