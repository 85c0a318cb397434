import StoneRidge.Dispatch.Master
import StoneRidge.Kit.AckQueue
import StoneRidge.Kit.Machine

/-!
# The master, the schedulers and their queues

One master listens to the incoming queue and one scheduler to the queue of each
netconfig (`srscheduler.py:24-31`); the schedulers publish to the client queues. A
step is one delivery, one external effect of a handler, one acknowledgement, or a
failure of a process or of its connection between any two of these.

Every message carries the number of the request it stems from. No step looks at
this number: it only says, in the theorems, which messages belong together.
-/

set_option autoImplicit false

namespace StoneRidge.Dispatch
open StoneRidge.Kit.AckQueue

structure Traced (Msg : Type) where
  origin : ℕ
  body : Msg
  deriving DecidableEq

structure System where
  incoming : Queue (Traced Request) MasterJob
  netconfig : Netconfig → Queue (Traced NetconfigMessage) (List String)
  /-- Every message ever published on a client queue. -/
  client : OperatingSystem → List (Traced RunMessage)
  /-- The handlings in which the cloner exited zero. -/
  cloned : List (Traced Run)
  /-- Those that the master has acknowledged. -/
  acked : List (Traced Run)

def System.init : System := ⟨.empty, fun _ => .empty, fun _ => [], [], []⟩

inductive Action where
  | submit (r : Request)
  | deliver (i : ℕ) (uuid : String)
  | clonerFailed
  | clonerSucceeded (tstamp : ℤ)
  | wake
  | enqueueNext
  | ack
  | crash
  | disconnect
  | schedulerDeliver (n : Netconfig) (i : ℕ)
  | schedulerEnqueueNext (n : Netconfig)
  | schedulerAck (n : Netconfig)
  | schedulerCrash (n : Netconfig)
  | schedulerDisconnect (n : Netconfig)

namespace System

def submit (s : System) (r : Request) : System :=
  { s with incoming := s.incoming.publish ⟨s.incoming.published.length, r⟩ }

def setJob (s : System) (j : MasterJob) : System :=
  { s with incoming := s.incoming.setJob j }

def setNetconfig (s : System) (n : Netconfig)
    (q : Queue (Traced NetconfigMessage) (List String)) : System :=
  { s with netconfig := Function.update s.netconfig n q }

/-- The loop body of `handle` (`srmaster.py:73-80`) for netconfig `nc`. -/
def enqueueNetconfig (s : System) (origin : ℕ) (run : Run) (nc : String) : System :=
  match Netconfig.ofName? nc with
  | none => s
  | some n => s.setNetconfig n ((s.netconfig n).publish ⟨origin, run.netconfigMessage⟩)

/-- The loop body of the scheduler's `handle` (`srscheduler.py:25-31`) for `o`. -/
def enqueueClient (s : System) (n : Netconfig) (m : Traced NetconfigMessage) (o : String) :
    System :=
  match OperatingSystem.ofName? o with
  | none => s
  | some o =>
    let run : RunMessage := ⟨m.body.srid, n, m.body.tstamp, m.body.ldap⟩
    { s with client := Function.update s.client o (s.client o ++ [⟨m.origin, run⟩]) }

end System

section Step
variable (cfg : MasterSetting)

/-- Steps of the master while it works on a message. -/
def masterStep (a : Action) (t : Task (Traced Request) MasterJob) (s : System) :
    Option System :=
  match a, t.job with
  | .clonerFailed, .cloning _ _ => some (s.setJob .returned)
  | .clonerSucceeded tstamp, .cloning srid _ =>
    let run : Run := ⟨t.msg.body, srid, tstamp⟩
    some { s.setJob (.sleeping run) with cloned := s.cloned ++ [⟨t.msg.origin, run⟩] }
  | .wake, .sleeping run => some (s.setJob (.publishing run run.request.effectiveNetconfigs))
  | .enqueueNext, .publishing run (nc :: todo) =>
    some ((s.setJob (.publishing run todo)).enqueueNetconfig t.msg.origin run nc)
  | .ack, .publishing run [] =>
    some { s with
      incoming := s.incoming.ack
      -- over a lost connection the acknowledgement does not arrive
      acked := if t.held then s.acked ++ [⟨t.msg.origin, run⟩] else s.acked }
  | .ack, .returned => some { s with incoming := s.incoming.ack }
  | _, _ => none

/-- Steps of scheduler `n` while it works on a message. -/
def schedulerStep (n : Netconfig) (a : Action) (t : Task (Traced NetconfigMessage) (List String))
    (s : System) : Option System :=
  match a, t.job with
  | .schedulerEnqueueNext _, o :: todo =>
    some ((s.setNetconfig n ((s.netconfig n).setJob todo)).enqueueClient n t.msg o)
  | .schedulerAck _, [] => some (s.setNetconfig n (s.netconfig n).ack)
  | _, _ => none

def step (a : Action) (s : System) : Option System :=
  match a with
  | .submit r => some (s.submit r)
  | .deliver i uuid =>
    (s.incoming.deliver i fun m => .start cfg uuid m.body).map fun q => { s with incoming := q }
  | .crash => some { s with incoming := s.incoming.crash }
  | .disconnect => some { s with incoming := s.incoming.disconnect }
  | .schedulerDeliver n i =>
    ((s.netconfig n).deliver i fun m => m.body.operatingSystems).map (s.setNetconfig n)
  | .schedulerCrash n => some (s.setNetconfig n (s.netconfig n).crash)
  | .schedulerDisconnect n => some (s.setNetconfig n (s.netconfig n).disconnect)
  | .schedulerEnqueueNext n | .schedulerAck n =>
    (s.netconfig n).task.bind fun t => schedulerStep n a t s
  | .clonerFailed | .clonerSucceeded _ | .wake | .enqueueNext | .ack =>
    s.incoming.task.bind fun t => masterStep a t s

end Step

/-- What a step can do, one constructor for each way through `step`. -/
inductive Step (cfg : MasterSetting) : Action → System → System → Prop where
  | submit {s : System} (r : Request) : Step cfg (.submit r) s (s.submit r)
  | deliver {s : System} {i : ℕ} {uuid : String} {q : Queue (Traced Request) MasterJob}
      (hd : s.incoming.deliver i (fun m => .start cfg uuid m.body) = some q) :
      Step cfg (.deliver i uuid) s { s with incoming := q }
  | crash {s : System} : Step cfg .crash s { s with incoming := s.incoming.crash }
  | disconnect {s : System} : Step cfg .disconnect s { s with incoming := s.incoming.disconnect }
  | clonerFailed {s : System} {m : Traced Request} {held : Bool} {srid : String}
      {args : List String} (ht : s.incoming.task = some ⟨m, held, .cloning srid args⟩) :
      Step cfg .clonerFailed s (s.setJob .returned)
  | clonerSucceeded {s : System} {m : Traced Request} {held : Bool} {srid : String}
      {args : List String} (tstamp : ℤ)
      (ht : s.incoming.task = some ⟨m, held, .cloning srid args⟩) :
      Step cfg (.clonerSucceeded tstamp) s
        { s.setJob (.sleeping ⟨m.body, srid, tstamp⟩) with
          cloned := s.cloned ++ [⟨m.origin, m.body, srid, tstamp⟩] }
  | wake {s : System} {m : Traced Request} {held : Bool} {run : Run}
      (ht : s.incoming.task = some ⟨m, held, .sleeping run⟩) :
      Step cfg .wake s (s.setJob (.publishing run run.request.effectiveNetconfigs))
  | enqueueNext {s : System} {m : Traced Request} {held : Bool} {run : Run} {nc : String}
      {todo : List String} (ht : s.incoming.task = some ⟨m, held, .publishing run (nc :: todo)⟩) :
      Step cfg .enqueueNext s ((s.setJob (.publishing run todo)).enqueueNetconfig m.origin run nc)
  | ackRun {s : System} {m : Traced Request} {held : Bool} {run : Run}
      (ht : s.incoming.task = some ⟨m, held, .publishing run []⟩) :
      Step cfg .ack s { s with
        incoming := s.incoming.ack
        acked := if held then s.acked ++ [⟨m.origin, run⟩] else s.acked }
  | ackReturned {s : System} {m : Traced Request} {held : Bool}
      (ht : s.incoming.task = some ⟨m, held, .returned⟩) :
      Step cfg .ack s { s with incoming := s.incoming.ack }
  | schedulerDeliver {s : System} {n : Netconfig} {i : ℕ}
      {q : Queue (Traced NetconfigMessage) (List String)}
      (hd : (s.netconfig n).deliver i (fun m => m.body.operatingSystems) = some q) :
      Step cfg (.schedulerDeliver n i) s (s.setNetconfig n q)
  | schedulerEnqueueNext {s : System} {n : Netconfig} {m : Traced NetconfigMessage} {held : Bool}
      {o : String} {todo : List String} (ht : (s.netconfig n).task = some ⟨m, held, o :: todo⟩) :
      Step cfg (.schedulerEnqueueNext n) s
        ((s.setNetconfig n ((s.netconfig n).setJob todo)).enqueueClient n m o)
  | schedulerAck {s : System} {n : Netconfig} {m : Traced NetconfigMessage} {held : Bool}
      (ht : (s.netconfig n).task = some ⟨m, held, []⟩) :
      Step cfg (.schedulerAck n) s (s.setNetconfig n (s.netconfig n).ack)
  | schedulerCrash {s : System} (n : Netconfig) :
      Step cfg (.schedulerCrash n) s (s.setNetconfig n (s.netconfig n).crash)
  | schedulerDisconnect {s : System} (n : Netconfig) :
      Step cfg (.schedulerDisconnect n) s (s.setNetconfig n (s.netconfig n).disconnect)

section Inversion
variable {cfg : MasterSetting} {a : Action} {s s' : System}

theorem masterStep_sound {t : Task (Traced Request) MasterJob} (ht : s.incoming.task = some t)
    (h : masterStep a t s = some s') : Step cfg a s s' := by
  obtain ⟨m, held, job⟩ := t
  unfold masterStep at h
  split at h
  next heq =>
    cases h
    obtain rfl : job = _ := heq
    exact .clonerFailed ht
  next tstamp srid args heq =>
    cases h
    obtain rfl : job = _ := heq
    exact .clonerSucceeded tstamp ht
  next heq =>
    cases h
    obtain rfl : job = _ := heq
    exact .wake ht
  next heq =>
    cases h
    obtain rfl : job = _ := heq
    exact .enqueueNext ht
  next heq =>
    cases h
    obtain rfl : job = _ := heq
    exact .ackRun ht
  next heq =>
    cases h
    obtain rfl : job = _ := heq
    exact .ackReturned ht
  next => cases h

theorem step_sound (h : step cfg a s = some s') : Step cfg a s s' := by
  cases a with
  | submit r =>
    cases h
    exact .submit r
  | deliver i uuid =>
    obtain ⟨q, hq, rfl⟩ := Option.map_eq_some_iff.mp h
    exact .deliver hq
  | crash =>
    cases h
    exact .crash
  | disconnect =>
    cases h
    exact .disconnect
  | schedulerDeliver n i =>
    obtain ⟨q, hq, rfl⟩ := Option.map_eq_some_iff.mp h
    exact .schedulerDeliver hq
  | schedulerCrash n =>
    cases h
    exact .schedulerCrash n
  | schedulerDisconnect n =>
    cases h
    exact .schedulerDisconnect n
  | schedulerEnqueueNext n =>
    obtain ⟨⟨m, held, todo⟩, ht, hs⟩ := Option.bind_eq_some_iff.mp h
    cases todo with
    | nil => cases hs
    | cons o todo =>
      cases hs
      exact .schedulerEnqueueNext ht
  | schedulerAck n =>
    obtain ⟨⟨m, held, todo⟩, ht, hs⟩ := Option.bind_eq_some_iff.mp h
    cases todo with
    | nil =>
      cases hs
      exact .schedulerAck ht
    | cons o todo => cases hs
  | clonerFailed | clonerSucceeded | wake | enqueueNext | ack =>
    obtain ⟨t, ht, hs⟩ := Option.bind_eq_some_iff.mp h
    exact masterStep_sound ht hs

end Inversion

end StoneRidge.Dispatch
