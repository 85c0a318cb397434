import StoneRidge.Dispatch.System

/-!
# No pair of a run is lost or invented

The invariant behind the fan-out: what the master has published for a run is
unacknowledged on the netconfig's queue until its scheduler has published it for
every operating system, and whatever stands on a queue stems from a handling in
which the cloner exited zero.
-/

set_option autoImplicit false

namespace StoneRidge.Dispatch
open StoneRidge.Kit.AckQueue

section Predicates
variable (s : System)

/-- For every operating system of run `c`, netconfig `n` is on its client queue or
still owed by the scheduler. -/
def Settled (c : Traced Run) (n : Netconfig) : Prop :=
  ∀ o : OperatingSystem, o.name ∈ c.body.request.effectiveOperatingSystems →
    ⟨c.origin, c.body.runMessage n⟩ ∈ s.client o ∨
      ⟨c.origin, c.body.netconfigMessage⟩ ∈ (s.netconfig n).unacked

def MasterSound (m : Traced Request) : MasterJob → Prop
  | .cloning srid _ => ∀ x, m.body.srid = some x → srid = x
  | .sleeping run => ⟨m.origin, run⟩ ∈ s.cloned
  | .publishing run todo => ⟨m.origin, run⟩ ∈ s.cloned ∧
      (∀ nc ∈ todo, nc ∈ run.request.effectiveNetconfigs) ∧
      ∀ n : Netconfig, n.name ∈ run.request.effectiveNetconfigs →
        n.name ∈ todo ∨ Settled s ⟨m.origin, run⟩ n
  | .returned => True

def NetconfigSound (n : Netconfig) (m : Traced NetconfigMessage) : Prop :=
  ∃ run : Run, ⟨m.origin, run⟩ ∈ s.cloned ∧ m.body = run.netconfigMessage ∧
    n.name ∈ run.request.effectiveNetconfigs

/-- What scheduler `n` publishes for the message `m`. -/
def forward (n : Netconfig) (m : Traced NetconfigMessage) : Traced RunMessage :=
  ⟨m.origin, m.body.srid, n, m.body.tstamp, m.body.ldap⟩

def SchedulerSound (n : Netconfig) (m : Traced NetconfigMessage) (todo : List String) : Prop :=
  (∀ o ∈ todo, o ∈ m.body.operatingSystems) ∧
    ∀ o : OperatingSystem, o.name ∈ m.body.operatingSystems →
      o.name ∈ todo ∨ forward n m ∈ s.client o

def ClientSound (o : OperatingSystem) (m : Traced RunMessage) : Prop :=
  ∃ (run : Run) (n : Netconfig), ⟨m.origin, run⟩ ∈ s.cloned ∧ m.body = run.runMessage n ∧
    run.Covers n o

/-- A run belongs to the request with its number, and keeps that request's srid. -/
def RunSound (q : Queue (Traced Request) MasterJob) (c : Traced Run) : Prop :=
  ⟨c.origin, c.body.request⟩ ∈ q.published ∧ c.body.KeepsSrid

structure Inv : Prop where
  incoming : s.incoming.All (· ∈ s.incoming.published)
  master : s.incoming.Working (MasterSound s)
  netconfig : ∀ n, (s.netconfig n).All (NetconfigSound s n)
  scheduler : ∀ n, (s.netconfig n).Working (SchedulerSound s n)
  client : ∀ o, ∀ m ∈ s.client o, ClientSound s o m
  cloned : ∀ c ∈ s.cloned, RunSound s.incoming c
  acked : ∀ c ∈ s.acked, c ∈ s.cloned ∧
    ∀ n : Netconfig, n.name ∈ c.body.request.effectiveNetconfigs → Settled s c n

end Predicates

section Preservation
variable {s s' : System}

theorem Inv.init : Inv System.init where
  incoming := Queue.all_empty
  master := Queue.working_empty
  netconfig _ := Queue.all_empty
  scheduler _ := Queue.working_empty
  client _ _ h := absurd h List.not_mem_nil
  cloned _ h := absurd h List.not_mem_nil
  acked _ h := absurd h List.not_mem_nil

theorem NetconfigSound.mono {n : Netconfig} {m : Traced NetconfigMessage}
    (h : NetconfigSound s n m) (hc : ∀ c ∈ s.cloned, c ∈ s'.cloned) : NetconfigSound s' n m := by
  obtain ⟨run, hrun, hm, hn⟩ := h
  exact ⟨run, hc _ hrun, hm, hn⟩

theorem ClientSound.mono {o : OperatingSystem} {m : Traced RunMessage}
    (h : ClientSound s o m) (hc : ∀ c ∈ s.cloned, c ∈ s'.cloned) : ClientSound s' o m := by
  obtain ⟨run, n, hrun, hm, hn⟩ := h
  exact ⟨run, n, hc _ hrun, hm, hn⟩

theorem MasterSound.mono {m : Traced Request} {j : MasterJob} (h : MasterSound s m j)
    (hc : ∀ c ∈ s.cloned, c ∈ s'.cloned) (hs : ∀ c n, Settled s c n → Settled s' c n) :
    MasterSound s' m j := by
  cases j with
  | cloning srid args => exact h
  | sleeping run => exact hc _ h
  | publishing run todo =>
    obtain ⟨hrun, htodo, hset⟩ := h
    refine ⟨hc _ hrun, htodo, ?_⟩
    intro n hn
    exact (hset n hn).imp_right (hs _ n)
  | returned => trivial

/-- The master changes its own queue and the records of its handlings only. -/
theorem Inv.withIncoming (h : Inv s) {q : Queue (Traced Request) MasterJob}
    {cloned acked : List (Traced Run)} (hin : q.All (· ∈ q.published))
    (hmaster : q.Working (MasterSound { s with incoming := q, cloned := cloned, acked := acked }))
    (hmono : ∀ c ∈ s.cloned, c ∈ cloned) (hcloned : ∀ c ∈ cloned, RunSound q c)
    (hacked : ∀ c ∈ acked, c ∈ cloned ∧
      ∀ n : Netconfig, n.name ∈ c.body.request.effectiveNetconfigs → Settled s c n) :
    Inv { s with incoming := q, cloned := cloned, acked := acked } where
  incoming := hin
  master := hmaster
  netconfig n := (h.netconfig n).imp fun _ hm => hm.mono hmono
  scheduler := h.scheduler
  client o m hm := (h.client o m hm).mono hmono
  cloned := hcloned
  acked := hacked

/-- The queue of the master changes while its published messages, the runs and
what it has acknowledged stay. -/
theorem Inv.withQueue (h : Inv s) {q : Queue (Traced Request) MasterJob}
    (hp : q.published = s.incoming.published) (hin : q.All (· ∈ s.incoming.published))
    (hmaster : q.Working (MasterSound s)) : Inv { s with incoming := q } := by
  refine h.withIncoming ?_ hmaster (fun _ hc => hc) ?_ h.acked
  · rw [hp]
    exact hin
  · intro c hc
    rw [RunSound, hp]
    exact h.cloned c hc

theorem Settled.update {n : Netconfig} {q : Queue (Traced NetconfigMessage) (List String)}
    {c : Traced Run} {n' : Netconfig} (h : Settled s c n')
    (hkeep : ∀ m ∈ (s.netconfig n).unacked, m ∈ q.unacked ∨
      ∀ o : OperatingSystem, o.name ∈ m.body.operatingSystems → forward n m ∈ s.client o) :
    Settled (s.setNetconfig n q) c n' := by
  intro o ho
  rcases h o ho with hc | hm
  · exact .inl hc
  · simp only [System.setNetconfig]
    by_cases hn : n' = n
    · subst hn
      rw [Function.update_self]
      rcases hkeep _ hm with hq | hdone
      · exact .inr hq
      · exact .inl (hdone o ho)
    · rw [Function.update_of_ne hn]
      exact .inr hm

/-- A scheduler changes its own queue, and lets a message go only when it has been
published for all its operating systems. -/
theorem Inv.withNetconfig (h : Inv s) {n : Netconfig}
    {q : Queue (Traced NetconfigMessage) (List String)} (hall : q.All (NetconfigSound s n))
    (hwork : q.Working (SchedulerSound s n))
    (hkeep : ∀ m ∈ (s.netconfig n).unacked, m ∈ q.unacked ∨
      ∀ o : OperatingSystem, o.name ∈ m.body.operatingSystems → forward n m ∈ s.client o) :
    Inv (s.setNetconfig n q) where
  incoming := h.incoming
  master := h.master.imp fun _ _ hm => hm.mono (fun _ hc => hc) fun _ _ hs => hs.update hkeep
  netconfig n' := by
    show (Function.update s.netconfig n q n').All (NetconfigSound s n')
    by_cases hn : n' = n
    · subst hn
      rwa [Function.update_self]
    · rw [Function.update_of_ne hn]
      exact h.netconfig n'
  scheduler n' := by
    show (Function.update s.netconfig n q n').Working (SchedulerSound s n')
    by_cases hn : n' = n
    · subst hn
      rwa [Function.update_self]
    · rw [Function.update_of_ne hn]
      exact h.scheduler n'
  client := h.client
  cloned := h.cloned
  acked c hc := ⟨(h.acked c hc).1, fun n' hn' => ((h.acked c hc).2 n' hn').update hkeep⟩

theorem mem_update_append {o o' : OperatingSystem} {m x : Traced RunMessage}
    {client : OperatingSystem → List (Traced RunMessage)} (h : x ∈ client o') :
    x ∈ Function.update client o (client o ++ [m]) o' := by
  by_cases ho : o' = o
  · subst ho
    rw [Function.update_self]
    exact List.mem_append_left _ h
  · rwa [Function.update_of_ne ho]

theorem Inv.publishClient (h : Inv s) {o : OperatingSystem} {m : Traced RunMessage}
    (hm : ClientSound s o m) :
    Inv { s with client := Function.update s.client o (s.client o ++ [m]) } := by
  have hset : ∀ c n, Settled s c n →
      Settled { s with client := Function.update s.client o (s.client o ++ [m]) } c n := by
    intro c n hs o' ho'
    exact (hs o' ho').imp_left mem_update_append
  refine ⟨h.incoming, ?_, h.netconfig, ?_, ?_, h.cloned, ?_⟩
  · exact h.master.imp fun _ _ hm => hm.mono (fun _ hc => hc) hset
  · intro n
    refine (h.scheduler n).imp fun m' todo hw => ⟨hw.1, fun o' ho' => ?_⟩
    exact (hw.2 o' ho').imp_right mem_update_append
  · intro o' x hx
    by_cases ho : o' = o
    · subst ho
      simp only [Function.update_self, List.mem_append, List.mem_singleton] at hx
      rcases hx with hx | rfl
      · exact h.client o' x hx
      · exact hm
    · simp only [Function.update_of_ne ho] at hx
      exact h.client o' x hx
  · intro c hc
    exact ⟨(h.acked c hc).1, fun n hn => hset c n ((h.acked c hc).2 n hn)⟩

theorem Inv.setMasterJob (h : Inv s) {m : Traced Request} {held : Bool} {j j' : MasterJob}
    (ht : s.incoming.task = some ⟨m, held, j⟩) (hj : MasterSound s m j') : Inv (s.setJob j') :=
  h.withQueue rfl (h.incoming.setJob j') (Queue.Working.setJob ht hj)

theorem Inv.enqueueNetconfig (h : Inv s) {m : Traced Request} {held : Bool} {run : Run}
    {nc : String} {todo : List String}
    (ht : s.incoming.task = some ⟨m, held, .publishing run (nc :: todo)⟩) :
    Inv ((s.setJob (.publishing run todo)).enqueueNetconfig m.origin run nc) := by
  obtain ⟨hrun, htodo, hset⟩ := h.master _ ht
  have htodo' : ∀ nc ∈ todo, nc ∈ run.request.effectiveNetconfigs :=
    fun x hx => htodo x (List.mem_cons_of_mem nc hx)
  unfold System.enqueueNetconfig
  cases hn : Netconfig.ofName? nc with
  | none =>
    refine h.setMasterJob ht ⟨hrun, htodo', ?_⟩
    intro n hmem
    rcases hset n hmem with hhead | hs
    · rcases List.mem_cons.mp hhead with heq | htail
      · rw [Netconfig.ofName?_eq_some.mpr heq.symm] at hn
        cases hn
      · exact .inl htail
    · exact .inr hs
  | some n =>
    obtain rfl := Netconfig.ofName?_eq_some.mp hn
    have hmsg : NetconfigSound s n ⟨m.origin, run.netconfigMessage⟩ :=
      ⟨run, hrun, rfl, htodo n.name List.mem_cons_self⟩
    have hpub : Inv (s.setNetconfig n ((s.netconfig n).publish ⟨m.origin, run.netconfigMessage⟩)) :=
      h.withNetconfig ((h.netconfig n).publish hmsg) (h.scheduler n) (by
        intro x hx
        rw [Queue.unacked_publish]
        exact .inl (List.mem_append_left _ hx))
    obtain ⟨-, -, hset'⟩ := hpub.master _ ht
    refine hpub.setMasterJob ht ⟨hrun, htodo', ?_⟩
    intro n' hmem
    rcases hset' n' hmem with hhead | hs
    · rcases List.mem_cons.mp hhead with heq | htail
      · -- the message just published owes every operating system
        obtain rfl := Netconfig.name_injective heq
        refine .inr fun o _ => .inr ?_
        simp only [System.setNetconfig, Function.update_self, Queue.unacked_publish]
        exact List.mem_append_right _ (List.mem_singleton_self _)
      · exact .inl htail
    · exact .inr hs

theorem Inv.setSchedulerJob (h : Inv s) {n : Netconfig} {m : Traced NetconfigMessage}
    {held : Bool} {todo todo' : List String} (ht : (s.netconfig n).task = some ⟨m, held, todo⟩)
    (hj : SchedulerSound s n m todo') : Inv (s.setNetconfig n ((s.netconfig n).setJob todo')) := by
  refine h.withNetconfig ((h.netconfig n).setJob todo') (Queue.Working.setJob ht hj) ?_
  intro x hx
  rw [Queue.unacked_setJob]
  exact .inl hx

theorem Inv.enqueueClient (h : Inv s) {n : Netconfig} {m : Traced NetconfigMessage}
    {held : Bool} {o : String} {todo : List String}
    (ht : (s.netconfig n).task = some ⟨m, held, o :: todo⟩) :
    Inv ((s.setNetconfig n ((s.netconfig n).setJob todo)).enqueueClient n m o) := by
  obtain ⟨htodo, hdone⟩ := h.scheduler n _ ht
  have htodo' : ∀ x ∈ todo, x ∈ m.body.operatingSystems :=
    fun x hx => htodo x (List.mem_cons_of_mem o hx)
  unfold System.enqueueClient
  cases ho : OperatingSystem.ofName? o with
  | none =>
    refine h.setSchedulerJob ht ⟨htodo', ?_⟩
    intro o' hmem
    rcases hdone o' hmem with hhead | hs
    · rcases List.mem_cons.mp hhead with heq | htail
      · rw [OperatingSystem.ofName?_eq_some.mpr heq.symm] at ho
        cases ho
      · exact .inl htail
    · exact .inr hs
  | some o =>
    obtain rfl := OperatingSystem.ofName?_eq_some.mp ho
    obtain ⟨run, hrun, hm, hn⟩ := (h.netconfig n).task _ ht
    change m.body = run.netconfigMessage at hm
    have hos : o.name ∈ m.body.operatingSystems := htodo o.name List.mem_cons_self
    have hmsg : ClientSound s o (forward n m) := by
      refine ⟨run, n, hrun, ?_, hn, ?_⟩
      · rw [forward, hm]
        rfl
      · rwa [hm] at hos
    have hpub := h.publishClient hmsg
    obtain ⟨-, hdone'⟩ := hpub.scheduler n _ ht
    refine hpub.setSchedulerJob ht ⟨htodo', ?_⟩
    intro o' hmem
    rcases hdone' o' hmem with hhead | hs
    · rcases List.mem_cons.mp hhead with heq | htail
      · obtain rfl := OperatingSystem.name_injective heq
        simp only [Function.update_self]
        exact .inr (List.mem_append_right _ (List.mem_singleton_self _))
      · exact .inl htail
    · exact .inr hs

theorem Inv.step {cfg : MasterSetting} {a : Action} (h : Inv s) (hs : Step cfg a s s') :
    Inv s' := by
  cases hs with
  | submit r =>
    have hpub : ∀ m ∈ s.incoming.published, m ∈ (s.submit r).incoming.published :=
      fun m hm => List.mem_append_left _ hm
    refine h.withIncoming ?_ h.master (fun _ hc => hc) ?_ h.acked
    · exact (h.incoming.imp hpub).publish (List.mem_append_right _ (List.mem_singleton_self _))
    · intro c hc
      exact (h.cloned c hc).imp_left (hpub _)
  | deliver hd =>
    refine h.withQueue ?_ (h.incoming.deliver hd) (Queue.Working.deliver hd ?_)
    · obtain ⟨_, _, -, -, rfl⟩ := Queue.deliver_spec hd
      rfl
    · intro m _
      rcases MasterJob.start_cases cfg _ m.body with hj | ⟨args, hj⟩
      · rw [hj]
        trivial
      · rw [hj]
        intro x hx
        rw [hx, Option.getD_some]
  | crash => exact h.withQueue rfl h.incoming.crash Queue.working_crash
  | disconnect => exact h.withQueue rfl h.incoming.disconnect h.master.disconnect
  | clonerFailed ht => exact h.setMasterJob ht trivial
  | @clonerSucceeded _ m held srid args tstamp ht =>
    have hmono : ∀ c ∈ s.cloned, c ∈ s.cloned ++ [⟨m.origin, m.body, srid, tstamp⟩] :=
      fun c hc => List.mem_append_left _ hc
    refine h.withIncoming (h.incoming.setJob _) ?_ hmono ?_ ?_
    · exact Queue.Working.setJob ht (List.mem_append_right _ (List.mem_singleton_self _))
    · intro c hc
      rcases List.mem_append.mp hc with hc | hc
      · exact h.cloned c hc
      · obtain rfl := List.mem_singleton.mp hc
        exact ⟨h.incoming.task _ ht, h.master _ ht⟩
    · intro c hc
      exact (h.acked c hc).imp_left (hmono c)
  | wake ht => exact h.setMasterJob ht ⟨h.master _ ht, fun _ hx => hx, fun _ hx => .inl hx⟩
  | enqueueNext ht => exact h.enqueueNetconfig ht
  | @ackRun _ m held run ht =>
    obtain ⟨hrun, -, hset⟩ := h.master _ ht
    refine h.withIncoming h.incoming.ack Queue.working_ack (fun _ hc => hc) h.cloned ?_
    intro c hc
    split at hc
    · rcases List.mem_append.mp hc with hc | hc
      · exact h.acked c hc
      · obtain rfl := List.mem_singleton.mp hc
        exact ⟨hrun, fun n hn => (hset n hn).resolve_left List.not_mem_nil⟩
    · exact h.acked c hc
  | ackReturned ht => exact h.withQueue rfl h.incoming.ack Queue.working_ack
  | @schedulerDeliver _ n _ _ hd =>
    refine h.withNetconfig ((h.netconfig n).deliver hd) (Queue.Working.deliver hd ?_) ?_
    · intro m _
      exact ⟨fun _ hx => hx, fun _ hx => .inl hx⟩
    · intro x hx
      exact .inl ((Queue.unacked_deliver hd).mem_iff.mpr hx)
  | schedulerEnqueueNext ht => exact h.enqueueClient ht
  | @schedulerAck _ n m held ht =>
    obtain ⟨-, hdone⟩ := h.scheduler n _ ht
    refine h.withNetconfig (h.netconfig n).ack Queue.working_ack ?_
    intro x hx
    rcases Queue.mem_unacked_of_ack ht hx with rfl | hx
    · exact .inr fun o ho => (hdone o ho).resolve_left List.not_mem_nil
    · exact .inl hx
  | schedulerCrash n =>
    exact h.withNetconfig (h.netconfig n).crash Queue.working_crash fun _ hx => .inl hx
  | schedulerDisconnect n =>
    refine h.withNetconfig (h.netconfig n).disconnect (h.scheduler n).disconnect ?_
    intro x hx
    rw [Queue.unacked_disconnect]
    exact .inl hx

end Preservation

end StoneRidge.Dispatch
