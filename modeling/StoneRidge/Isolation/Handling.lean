import StoneRidge.Isolation.Stages
import StoneRidge.Kit.Machine
import StoneRidge.Worker.Workdir

/-!
# One message after the other

`StoneRidgeWorker.handle` and `reset` (`srworker.py:28-111`) on the disk of the machine.
The exit statuses of the stages are an arbitrary stream, so that a stage may also fail
after its work is done.
-/

set_option autoImplicit false

namespace StoneRidge.Isolation
open StoneRidge.Kit.Exec StoneRidge.Kit.PosixPath StoneRidge.Kit.PosixTree
open StoneRidge.Kit.PosixDisk
open StoneRidge.Config (writeRunIni runOptions)
open StoneRidge.Dispatch (RunMessage)
open StoneRidge.Worker (Call Setting start handleStages srwork makeWorkspace)

def doScribble (srout : String) (writer : ℕ) (d : Disk File) : Scribble → Disk File
  | .write l name content =>
    if l = d.tree.location srout then d
    else if h : l ∈ d.tree.dirs then d.insert l h name ⟨content, writer⟩
    else d
  | .unlink l name => if l = d.tree.location srout then d else d.erase l name
  | .mkdir l name =>
    if h : l ∈ d.tree.dirs then d.setTree (d.tree.insert name.text l h) else d

section Handling
variable (client : Client)

/-- The `k`-th subprocess of a handling. -/
def runStage (world : World) (srout : String) (k : ℕ) (c : Call) (s : Machine) : Machine :=
  let disk := (world.elsewhere k).foldl (doScribble srout s.handling) s.disk
  endState (perform client world (join srout "run.ini") c { s with disk := disk })

def runStages (world : World) (srout : String) : ℕ → List Call → Machine → Machine
  | _, [], s => s
  | k, c :: cs, s => runStages world srout (k + 1) cs (runStage client world srout k c s)

def setting (m : RunMessage) (srout : String) : Setting where
  srconffile := client.srconffile
  unittest := client.unittest
  srnetconfig := m.netconfig.name
  logdir := join srout "logs"
  runconfig := join srout "run.ini"

/-- `if self.runconfig and os.path.exists(self.runconfig): os.unlink(self.runconfig)`. -/
def reset (runconfig : String) (d : Disk File) : Disk File :=
  if d.exists? runconfig then (d.unlink runconfig).getD d else d

/-- `handle` up to the first stage; it gives the out directory. What has been written of
run.ini where this raises is read by nobody. -/
def prepare (m : RunMessage) (world : World) : Program String := do
  modify fun s => { s with run := m, handling := s.handling + 1, sources := [], operations := 0 }
  let s ← get
  let srwork := srwork client.workroot s.disk.tree m
  match makeWorkspace client.workroot m s.disk.tree with
  | .error _ t =>
    set { s with disk := s.disk.setTree t }
    throw ()
  | .ok _ t =>
    set { s with disk := s.disk.setTree t }
    match writeRunIni (runOptions m srwork client.firefoxPath) with
    | none => throw ()
    | some ini =>
      let srout := join srwork "out"
      writeFile world (join srout "run.ini") (.text ini)
      pure srout

/-- The calls of one handling. -/
def callsOf (m : RunMessage) (world : World) (srout : String) : List Call :=
  (endState (handleStages world.exit world.depth (start (setting client m srout)))).calls

def handle (m : RunMessage) (world : World) (s : Machine) : Machine :=
  match prepare client m world s with
  | .error _ s => s
  | .ok srout s =>
    let s := runStages client world srout 0 (callsOf client m world srout) s
    match handleStages world.exit world.depth (start (setting client m srout)) with
    | .ok _ _ => { s with disk := reset (join srout "run.ini") s.disk }
    | .error _ _ => s

inductive Event where
  | deliver (m : RunMessage) (world : World)
  /-- Between two messages others work on the disk. -/
  | change (d : Disk File)

def step : Event → Machine → Option Machine
  | .deliver m world, s => some (handle client m world s)
  | .change d, s => some { s with disk := d }

end Handling

end StoneRidge.Isolation
