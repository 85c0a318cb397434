import StoneRidge.Dispatch.System
import StoneRidge.Kit.Stamps
import Mathlib.Data.NNRat.Floor

/-!
# The master and the wall clock

`handle` takes `tstamp = int(time.time())` once the cloner has exited zero, sleeps for a
minute and only then publishes (`srmaster.py:64-80`). Here the steps of `System` are
taken under a clock that never goes back, and each message on a netconfig's queue
keeps the number of the execution of `handle` that published it.
-/

set_option autoImplicit false

namespace StoneRidge.Dispatch
open StoneRidge.Kit.AckQueue StoneRidge.Kit.Machine StoneRidge.Kit.Stamps

structure Timed where
  system : System
  /-- `time.time()`, in seconds since the epoch. -/
  now : ℚ≥0
  /-- `time.sleep(60)` does not return before. -/
  wakeAt : ℚ≥0
  /-- How often `handle` has been called. -/
  execution : ℕ
  /-- The messages of a netconfig's queue, each with the execution that published it. -/
  sent : Netconfig → List (ℕ × Traced NetconfigMessage)

inductive TimedAction where
  | pass (d : ℚ≥0)
  | act (a : Action)

namespace Timed

def init (now : ℚ≥0) : Timed := ⟨.init, now, now, 0, fun _ => []⟩

/-- What the clock says about a step of the system. -/
def Allows (t : Timed) : Action → Prop
  | .clonerSucceeded tstamp => tstamp = ⌊t.now⌋₊
  | .wake => t.wakeAt ≤ t.now
  | _ => True

instance (t : Timed) (a : Action) : Decidable (t.Allows a) := by
  cases a <;> unfold Allows <;> infer_instance

/-- After action `a` has taken the system to `s'`. -/
def after (t : Timed) (a : Action) (s' : System) : Timed where
  system := s'
  now := t.now
  wakeAt := match a with
    | .clonerSucceeded _ => t.now + 60
    | _ => t.wakeAt
  execution := match a with
    | .deliver _ _ => t.execution + 1
    | _ => t.execution
  sent n := t.sent n ++
    ((s'.netconfig n).published.drop (t.sent n).length).map fun m => (t.execution, m)

def step (cfg : MasterSetting) : TimedAction → Timed → Option Timed
  | .pass d, t => some { t with now := t.now + d }
  | .act a, t => if t.Allows a then (Dispatch.step cfg a t.system).map (t.after a) else none

/-- The executions and the tstamps of the messages they have published. -/
def stamps (t : Timed) : Set (ℕ × ℤ) :=
  {x | ∃ n, ∃ m : Traced NetconfigMessage, (x.1, m) ∈ t.sent n ∧ m.body.tstamp = x.2}

/-- The steps without the clock's. -/
def actions : List TimedAction → List Action
  | [] => []
  | .pass _ :: as => actions as
  | .act a :: as => a :: actions as

section Refinement
variable {cfg : MasterSetting} {t t' : Timed}

theorem step_act {a : Action} (h : step cfg (.act a) t = some t') :
    t.Allows a ∧ ∃ s', Dispatch.step cfg a t.system = some s' ∧ t' = t.after a s' := by
  simp only [step] at h
  split at h
  next hallow =>
    obtain ⟨s', hs, rfl⟩ := Option.map_eq_some_iff.mp h
    exact ⟨hallow, s', hs, rfl⟩
  next => cases h

/-- Under the clock the system does nothing that it could not do without. -/
theorem run_system {as : List TimedAction} (h : run (step cfg) as t = some t') :
    run (Dispatch.step cfg) (actions as) t.system = some t'.system := by
  induction as generalizing t with
  | nil =>
    cases h
    rfl
  | cons a as ih =>
    obtain ⟨m, hm, hrest⟩ := run_cons h
    cases a with
    | pass d =>
      cases hm
      have hrun := ih hrest
      exact hrun
    | act a =>
      obtain ⟨-, s', hs, rfl⟩ := step_act hm
      simp only [actions, run, hs, Option.bind_some]
      exact ih hrest

end Refinement

end Timed

section Published
variable {cfg : MasterSetting} {a : Action} {s s' : System}

theorem published_setNetconfig {n : Netconfig} {q : Queue (Traced NetconfigMessage) (List String)}
    (hq : q.published = (s.netconfig n).published) (n' : Netconfig) :
    ((s.setNetconfig n q).netconfig n').published = (s.netconfig n').published := by
  simp only [System.setNetconfig]
  by_cases hn : n' = n
  · subst hn
    rw [Function.update_self, hq]
  · rw [Function.update_of_ne hn]

theorem published_enqueueClient (n : Netconfig) (m : Traced NetconfigMessage) (o : String)
    (n' : Netconfig) :
    ((s.enqueueClient n m o).netconfig n').published = (s.netconfig n').published := by
  unfold System.enqueueClient
  split <;> rfl

theorem incoming_enqueueClient (n : Netconfig) (m : Traced NetconfigMessage) (o : String) :
    (s.enqueueClient n m o).incoming = s.incoming := by
  unfold System.enqueueClient
  split <;> rfl

end Published

/-- What the clock knows of a job of execution `e`: an execution that has yet to take
its tstamp has published nothing, and one that has taken it sleeps until every stamp,
its own included, lies a minute back. -/
def JobTimed (t : Timed) : MasterJob → Prop
  | .cloning _ _ => ∀ x ∈ t.stamps, x.1 < t.execution
  | .sleeping run => run.tstamp + 60 ≤ ⌊t.wakeAt⌋₊ ∧
      ∀ x ∈ t.stamps, x.1 < t.execution ∧ x.2 + 60 ≤ run.tstamp
  | .publishing run _ => run.tstamp + 60 ≤ ⌊t.now⌋₊ ∧
      MayUse 60 t.stamps t.execution run.tstamp
  | .returned => True

structure InTime (t : Timed) : Prop where
  recorded : ∀ n, (t.sent n).map Prod.snd = (t.system.netconfig n).published
  past : ∀ x ∈ t.stamps, x.1 ≤ t.execution ∧ x.2 + 60 ≤ ⌊t.now⌋₊
  spaced : Spaced 60 t.stamps
  working : t.system.incoming.Working fun _ j => JobTimed t j

section Preservation
variable {cfg : MasterSetting} {a : Action} {t t' : Timed} {s' : System}

theorem InTime.init (now : ℚ≥0) : InTime (.init now) where
  recorded _ := rfl
  past x hx := by
    obtain ⟨n, m, hm, -⟩ := hx
    cases hm
  spaced x hx := by
    obtain ⟨n, m, hm, -⟩ := hx
    cases hm
  working := Queue.working_empty

/-- What a step adds to a netconfig's queue is sent by the current execution. -/
theorem sent_after (h : InTime t) (a : Action) {n : Netconfig} {ms : List (Traced NetconfigMessage)}
    (hpub : (s'.netconfig n).published = (t.system.netconfig n).published ++ ms) :
    (t.after a s').sent n = t.sent n ++ ms.map fun m => (t.execution, m) := by
  have hlen : (t.sent n).length = (t.system.netconfig n).published.length := by
    rw [← h.recorded n, List.length_map]
  simp only [Timed.after, hpub, hlen, List.drop_left]

theorem recorded_after (h : InTime t) (a : Action) {n : Netconfig}
    {ms : List (Traced NetconfigMessage)}
    (hpub : (s'.netconfig n).published = (t.system.netconfig n).published ++ ms) :
    ((t.after a s').sent n).map Prod.snd = (s'.netconfig n).published := by
  rw [sent_after h a hpub, List.map_append, h.recorded n, List.map_map, hpub]
  exact congrArg _ (List.map_id ms)

theorem InTime.pass (h : InTime t) (d : ℚ≥0) : InTime { t with now := t.now + d } := by
  have hnow : ⌊t.now⌋₊ ≤ ⌊t.now + d⌋₊ := Nat.floor_mono le_self_add
  refine ⟨h.recorded, ?_, h.spaced, h.working.imp ?_⟩
  · intro x hx
    have hpast := h.past x hx
    exact ⟨hpast.1, by dsimp only; omega⟩
  · intro _ j hj
    cases j with
    | publishing run todo => exact ⟨by have := hj.1; dsimp only; omega, hj.2⟩
    | cloning | sleeping | returned => exact hj

theorem JobTimed.congr {j : MasterJob} (h : JobTimed t j) (hstamps : t'.stamps = t.stamps)
    (hexec : t'.execution = t.execution) (hwake : t'.wakeAt = t.wakeAt) (hnow : t'.now = t.now) :
    JobTimed t' j := by
  cases j with
  | cloning | sleeping | publishing =>
    simp only [JobTimed, hstamps, hexec, hwake, hnow] at h ⊢
    exact h
  | returned => trivial

/-- A step that publishes for no netconfig has to keep what is known of the job. -/
theorem InTime.quiet (h : InTime t)
    (hpub : ∀ n, (s'.netconfig n).published = (t.system.netconfig n).published)
    (hexec : t.execution ≤ (t.after a s').execution)
    (hjob : (t.after a s').stamps = t.stamps →
      s'.incoming.Working fun _ j => JobTimed (t.after a s') j) : InTime (t.after a s') := by
  have hnil : ∀ n, (s'.netconfig n).published = (t.system.netconfig n).published ++ [] := by
    intro n
    rw [hpub n, List.append_nil]
  have hstamps : (t.after a s').stamps = t.stamps := by
    simp only [Timed.stamps, sent_after h a (hnil _), List.map_nil, List.append_nil]
  refine ⟨fun n => recorded_after h a (hnil n), ?_, ?_, hjob hstamps⟩
  · intro x hx
    rw [hstamps] at hx
    exact ⟨(h.past x hx).1.trans hexec, (h.past x hx).2⟩
  · rw [hstamps]
    exact h.spaced

/-- Whatever is not about the incoming queue leaves the execution as it is. -/
theorem InTime.aside (h : InTime t)
    (hpub : ∀ n, (s'.netconfig n).published = (t.system.netconfig n).published)
    (htask : s'.incoming.task = t.system.incoming.task)
    (hexec : (t.after a s').execution = t.execution) (hwake : (t.after a s').wakeAt = t.wakeAt) :
    InTime (t.after a s') := by
  refine h.quiet hpub hexec.ge fun hstamps => ?_
  intro task ht
  rw [htask] at ht
  exact (h.working task ht).congr hstamps hexec hwake rfl

/-- The current execution sends one message more, with a stamp that it may use. -/
theorem InTime.send (h : InTime t) {n : Netconfig} {m : Traced NetconfigMessage}
    (hpub : ∀ n', (s'.netconfig n').published =
      (t.system.netconfig n').published ++ if n' = n then [m] else [])
    (hexec : (t.after a s').execution = t.execution)
    (hnow : m.body.tstamp + 60 ≤ ⌊t.now⌋₊) (huse : MayUse 60 t.stamps t.execution m.body.tstamp)
    (hjob : (t.after a s').stamps = insert (t.execution, m.body.tstamp) t.stamps →
      s'.incoming.Working fun _ j => JobTimed (t.after a s') j) : InTime (t.after a s') := by
  have hstamps : (t.after a s').stamps = insert (t.execution, m.body.tstamp) t.stamps := by
    ext x
    simp only [Timed.stamps, sent_after h a (hpub _), Set.mem_insert_iff, Set.mem_ofPred_eq,
      List.mem_append]
    constructor
    · rintro ⟨n', m', hm | hm, hx⟩
      · exact .inr ⟨n', m', hm, hx⟩
      · split at hm
        · obtain ⟨he, rfl⟩ := Prod.mk.inj (List.mem_singleton.mp hm)
          exact .inl (Prod.ext he hx.symm)
        · cases hm
    · rintro (rfl | ⟨n', m', hm, hx⟩)
      · exact ⟨n, m, .inr (by rw [if_pos rfl]; exact List.mem_singleton_self _), rfl⟩
      · exact ⟨n', m', .inl hm, hx⟩
  refine ⟨fun n' => recorded_after h a (hpub n'), ?_, ?_, hjob hstamps⟩
  · intro x hx
    rw [hstamps] at hx
    rcases Set.mem_insert_iff.mp hx with rfl | hx
    · exact ⟨hexec.ge, hnow⟩
    · exact ⟨(h.past x hx).1.trans hexec.ge, (h.past x hx).2⟩
  · rw [hstamps]
    exact h.spaced.insert huse

/-- One round of the master's loop: the message carries the stamp of its execution. -/
theorem InTime.enqueueNext (h : InTime t) {m : Traced Request} {held : Bool} {run : Run}
    {nc : String} {todo : List String}
    (ht : t.system.incoming.task = some ⟨m, held, .publishing run (nc :: todo)⟩) :
    InTime (t.after .enqueueNext
      ((t.system.setJob (.publishing run todo)).enqueueNetconfig m.origin run nc)) := by
  obtain ⟨hnow, huse⟩ : JobTimed t (.publishing run (nc :: todo)) := h.working _ ht
  unfold System.enqueueNetconfig
  cases Netconfig.ofName? nc with
  | none =>
    refine h.quiet (fun _ => rfl) le_rfl fun hstamps => Queue.Working.setJob ht ⟨hnow, ?_⟩
    rwa [hstamps]
  | some n =>
    have hpub : ∀ n', (((t.system.setJob (.publishing run todo)).setNetconfig n
        ((t.system.netconfig n).publish ⟨m.origin, run.netconfigMessage⟩)).netconfig n').published =
          (t.system.netconfig n').published ++
            if n' = n then [⟨m.origin, run.netconfigMessage⟩] else [] := by
      intro n'
      simp only [System.setNetconfig]
      by_cases hn : n' = n
      · subst hn
        rw [Function.update_self, if_pos rfl]
        rfl
      · rw [Function.update_of_ne hn, if_neg hn, List.append_nil]
        rfl
    refine h.send hpub rfl hnow huse fun hstamps => Queue.Working.setJob ht ⟨hnow, ?_⟩
    rw [hstamps]
    exact huse.insert

theorem InTime.step (h : InTime t) (hallow : t.Allows a) (hs : Step cfg a t.system s') :
    InTime (t.after a s') := by
  cases hs with
  | submit r => exact h.aside (fun _ => rfl) rfl rfl rfl
  | deliver hd =>
    refine h.quiet (fun _ => rfl) (Nat.le_succ _) fun hstamps => ?_
    refine Queue.Working.deliver hd fun m _ => ?_
    rcases MasterJob.start_cases cfg _ m.body with hj | ⟨args, hj⟩
    · rw [hj]
      trivial
    · rw [hj]
      intro x hx
      rw [hstamps] at hx
      exact Nat.lt_succ_of_le (h.past x hx).1
  | crash => exact h.quiet (fun _ => rfl) le_rfl fun _ => Queue.working_crash
  | disconnect =>
    refine h.quiet (fun _ => rfl) le_rfl fun hstamps => Queue.Working.disconnect ?_
    exact h.working.imp fun _ j hj => hj.congr hstamps rfl rfl rfl
  | clonerFailed ht =>
    exact h.quiet (fun _ => rfl) le_rfl fun _ => Queue.Working.setJob ht trivial
  | clonerSucceeded tstamp ht =>
    have hnew : ∀ x ∈ t.stamps, x.1 < t.execution := h.working _ ht
    obtain rfl : tstamp = ⌊t.now⌋₊ := hallow
    refine h.quiet (fun _ => rfl) le_rfl fun hstamps => Queue.Working.setJob ht ⟨?_, ?_⟩
    · change (⌊t.now⌋₊ : ℤ) + 60 ≤ ⌊t.now + 60⌋₊
      rw [Nat.floor_add_ofNat zero_le, Nat.cast_add]
      rfl
    · intro x hx
      rw [hstamps] at hx
      exact ⟨hnew x hx, (h.past x hx).2⟩
  | wake ht =>
    obtain ⟨hwake, hold⟩ : JobTimed t (.sleeping _) := h.working _ ht
    refine h.quiet (fun _ => rfl) le_rfl fun hstamps => Queue.Working.setJob ht ⟨?_, ?_⟩
    · have hmono : ⌊t.wakeAt⌋₊ ≤ ⌊t.now⌋₊ := Nat.floor_mono hallow
      change _ + 60 ≤ (⌊t.now⌋₊ : ℤ)
      omega
    · rw [hstamps]
      exact fun x hx => .inr (hold x hx)
  | enqueueNext ht => exact h.enqueueNext ht
  | ackRun ht => exact h.quiet (fun _ => rfl) le_rfl fun _ => Queue.working_ack
  | ackReturned ht => exact h.quiet (fun _ => rfl) le_rfl fun _ => Queue.working_ack
  | schedulerDeliver hd =>
    obtain ⟨_, _, -, -, rfl⟩ := Queue.deliver_spec hd
    exact h.aside (published_setNetconfig rfl) rfl rfl rfl
  | schedulerEnqueueNext ht =>
    refine h.aside (fun n => ?_) ?_ rfl rfl
    · rw [published_enqueueClient]
      refine published_setNetconfig ?_ n
      rfl
    · rw [incoming_enqueueClient]
      rfl
  | schedulerAck ht => exact h.aside (published_setNetconfig rfl) rfl rfl rfl
  | schedulerCrash n => exact h.aside (published_setNetconfig rfl) rfl rfl rfl
  | schedulerDisconnect n => exact h.aside (published_setNetconfig rfl) rfl rfl rfl

theorem InTime.run {as : List TimedAction} (h : InTime t)
    (hrun : Kit.Machine.run (Timed.step cfg) as t = some t') : InTime t' := by
  refine @run_invariant _ _ _ _ _ _ InTime (fun _ => True) ?_ (fun _ _ => trivial) h hrun
  intro a t t' _ hin hs
  cases a with
  | pass d =>
    cases hs
    exact hin.pass d
  | act a =>
    obtain ⟨hallow, s', hact, rfl⟩ := Timed.step_act hs
    exact hin.step hallow (step_sound hact)

end Preservation

/-- Messages with one tstamp come from one execution of `handle`, and the tstamps of two
executions that have published are a minute apart. -/
theorem tstamps_apart (cfg : MasterSetting) (now : ℚ≥0) (as : List TimedAction) (t : Timed)
    (h : run (Timed.step cfg) as (.init now) = some t) :
    (∀ n, (t.sent n).map Prod.snd = (t.system.netconfig n).published) ∧
      ∀ (n n' : Netconfig) (e e' : ℕ) (m m' : Traced NetconfigMessage),
        (e, m) ∈ t.sent n → (e', m') ∈ t.sent n' →
          (m.body.tstamp = m'.body.tstamp → e = e') ∧
            (e ≠ e' → 60 ≤ |m.body.tstamp - m'.body.tstamp|) := by
  have hin : InTime t := (InTime.init now).run h
  refine ⟨hin.recorded, ?_⟩
  intro n n' e e' m m' hm hm'
  have hx : (e, m.body.tstamp) ∈ t.stamps := ⟨n, m, hm, rfl⟩
  have hx' : (e', m'.body.tstamp) ∈ t.stamps := ⟨n', m', hm', rfl⟩
  constructor
  · intro heq
    exact hin.spaced.eq_of_stamp (by decide) hx hx' heq
  · intro hne
    exact hin.spaced.gap_le_abs hx hx' hne

/-- The master dies after the first netconfig of a nightly run and handles the request
again as soon as it can. -/
def redelivered : List TimedAction :=
  [.act (.submit ⟨true, "", "", [], [], none, 1⟩), .act (.deliver 0 "first"),
    .act (.clonerSucceeded 100), .pass 60, .act .wake, .act .enqueueNext, .act .crash,
    .act (.deliver 0 "second"), .act (.clonerSucceeded 160), .pass 60, .act .wake,
    .act .enqueueNext]

theorem tstamps_apart_redelivered : ∃ t,
    run (Timed.step ⟨"stoneridge.ini", "/var/log"⟩) redelivered (.init 100) = some t ∧
      (t.sent .broadband).map (fun x => (x.1, x.2.body.tstamp)) = [(1, 100), (2, 160)] ∧
      ∀ (n n' : Netconfig) (e e' : ℕ) (m m' : Traced NetconfigMessage),
        (e, m) ∈ t.sent n → (e', m') ∈ t.sent n' →
          (m.body.tstamp = m'.body.tstamp → e = e') ∧
            (e ≠ e' → 60 ≤ |m.body.tstamp - m'.body.tstamp|) := by
  have hsent : (run (Timed.step ⟨"stoneridge.ini", "/var/log"⟩) redelivered (.init 100)).map
      (fun t => (t.sent .broadband).map fun x => (x.1, x.2.body.tstamp)) =
        some [(1, 100), (2, 160)] := by
    decide +kernel
  obtain ⟨t, ht, hb⟩ := Option.map_eq_some_iff.mp hsent
  exact ⟨t, ht, hb, (tstamps_apart _ 100 redelivered t ht).2⟩

end StoneRidge.Dispatch
