import StoneRidge.Dispatch.Messages
import StoneRidge.Kit.PosixPath

/-!
# The master's handler

`StoneRidgeMaster.handle` (`srmaster.py:28-80`) runs the cloner, waits a minute
and then publishes once for each netconfig. Any of these can be the last thing
the process does, so the handler is a job that advances one external effect at a
time.
-/

set_option autoImplicit false

namespace StoneRidge.Dispatch
open StoneRidge.Kit.PosixPath

/-- What `setup` reads from the configuration (`srmaster.py:25-26`). -/
structure MasterSetting where
  config : String
  logdir : String

namespace Request

def effectiveNetconfigs (r : Request) : List String :=
  if r.nightly then Dispatch.netconfigs else r.netconfigs

def effectiveOperatingSystems (r : Request) : List String :=
  if r.nightly then Dispatch.operatingSystems else r.operatingSystems

/-- The cloner's command line, or nothing for a try run without ldap or sha. -/
def clonerArgs (cfg : MasterSetting) (r : Request) (srid : String) : Option (List String) :=
  let logfile := "cloner_" ++ srid ++ ".log"
  let args := ["srcloner.py", "--config", cfg.config, "--srid", srid,
    "--log", join cfg.logdir logfile, "--attempt", toString r.attempt]
  if r.nightly then
    some (args ++ ["--nightly"])
  else if r.ldap = "" ∨ r.sha = "" then
    none
  else
    some (args ++ ["--ldap", r.ldap] ++ ["--sha", r.sha] ++
      r.operatingSystems.map ("--" ++ ·) ++ r.netconfigs.map ("--" ++ ·))

end Request

/-- A handling whose cloner has exited zero. -/
structure Run where
  request : Request
  srid : String
  tstamp : ℤ

namespace Run

def netconfigMessage (r : Run) : NetconfigMessage :=
  ⟨r.request.effectiveOperatingSystems, r.srid, r.tstamp, r.request.ldap⟩

def runMessage (r : Run) (n : Netconfig) : RunMessage :=
  ⟨r.srid, n, r.tstamp, r.request.ldap⟩

/-- `n` and `o` are valid and belong to the run. -/
def Covers (r : Run) (n : Netconfig) (o : OperatingSystem) : Prop :=
  n.name ∈ r.request.effectiveNetconfigs ∧ o.name ∈ r.request.effectiveOperatingSystems

/-- The run keeps the srid of a request that has one. -/
def KeepsSrid (r : Run) : Prop := ∀ s, r.request.srid = some s → r.srid = s

end Run

inductive MasterJob where
  /-- The cloner is running for this srid, with this command line. -/
  | cloning (srid : String) (args : List String)
  /-- The cloner has exited zero and `tstamp` is taken; `time.sleep(60)`. -/
  | sleeping (run : Run)
  /-- The netconfigs still to be published. -/
  | publishing (run : Run) (todo : List String)
  /-- `handle` has returned early. -/
  | returned

def MasterJob.start (cfg : MasterSetting) (uuid : String) (r : Request) : MasterJob :=
  let srid := r.srid.getD uuid
  match r.clonerArgs cfg srid with
  | some args => .cloning srid args
  | none => .returned

theorem MasterJob.start_cases (cfg : MasterSetting) (uuid : String) (r : Request) :
    MasterJob.start cfg uuid r = .returned ∨
      ∃ args, MasterJob.start cfg uuid r = .cloning (r.srid.getD uuid) args := by
  unfold MasterJob.start
  cases h : r.clonerArgs cfg (r.srid.getD uuid) with
  | none => simp [h]
  | some args => simp [h]

end StoneRidge.Dispatch
