import StoneRidge.Dispatch.Fanout

/-!
# Each pair of a run once

Without a crash or a lost connection the copies of a pair are accounted for: those
on the client queue, those that the scheduler still owes and those that the master
still owes add up to what the run asks for.
-/

set_option autoImplicit false

namespace StoneRidge.Dispatch
open StoneRidge.Kit.AckQueue StoneRidge.Kit.Machine

/-- The broker keeps every connection and no process dies. -/
def Action.faultless : Action → Bool
  | .crash | .disconnect | .schedulerCrash _ | .schedulerDisconnect _ => false
  | _ => true

section Accounts
variable (i : ℕ) (n : Netconfig) (o : OperatingSystem)

/-- How often run `r` asks for the pair. -/
def Run.share (r : Run) : ℕ :=
  r.request.effectiveNetconfigs.count n.name * r.request.effectiveOperatingSystems.count o.name

def isCopy (m : Traced RunMessage) : Bool := m.origin = i ∧ m.body.netconfig = n

/-- The copies of the pair on the client queue that stem from request `i`. -/
def copies (s : System) : ℕ := (s.client o).countP (isCopy i n)

def messageOwes (m : Traced NetconfigMessage) : ℕ :=
  if m.origin = i then m.body.operatingSystems.count o.name else 0

def schedulerTaskOwes (t : Task (Traced NetconfigMessage) (List String)) : ℕ :=
  if t.msg.origin = i then t.job.count o.name else 0

def schedulerOwes (s : System) : ℕ :=
  (s.netconfig n).load (messageOwes i o) (schedulerTaskOwes i o)

def jobOwes : MasterJob → ℕ
  | .sleeping run => run.share n o
  | .publishing run todo => todo.count n.name * run.request.effectiveOperatingSystems.count o.name
  | .cloning _ _ | .returned => 0

def masterTaskOwes (t : Task (Traced Request) MasterJob) : ℕ :=
  if t.msg.origin = i then jobOwes n o t.job else 0

def masterOwes (s : System) : ℕ := s.incoming.load (fun _ => 0) (masterTaskOwes i n o)

def due (s : System) : ℕ :=
  ((s.cloned.filter fun c => c.origin = i).map fun c => c.body.share n o).sum

/-- The request, the running cloner and the finished clones that carry number `i`. -/
def taskClaims (t : Task (Traced Request) MasterJob) : ℕ :=
  match t.job with
  | .cloning _ _ => if t.msg.origin = i then 1 else 0
  | _ => 0

def requestClaims (m : Traced Request) : ℕ := if m.origin = i then 1 else 0

def claims (s : System) : ℕ :=
  s.incoming.load (requestClaims i) (taskClaims i) + s.cloned.countP fun c => c.origin = i

end Accounts

/-- The requests carry the numbers 0, 1, 2, … in the order of their submission. -/
def Numbered (s : System) : Prop :=
  ∀ k (m : Traced Request), s.incoming.published[k]? = some m → m.origin = k

structure Ledger (s : System) : Prop where
  inv : Inv s
  numbered : Numbered s
  claimed : ∀ i, claims i s ≤ 1
  balanced : ∀ i n o, copies i n o s + schedulerOwes i n o s + masterOwes i n o s = due i n o s
  linked : s.incoming.Linked ∧ ∀ n, (s.netconfig n).Linked

section Accounting
variable {s : System} {i : ℕ} {n : Netconfig} {o : OperatingSystem}

theorem schedulerOwes_set_self (q : Queue (Traced NetconfigMessage) (List String)) :
    schedulerOwes i n o (s.setNetconfig n q) = q.load (messageOwes i o) (schedulerTaskOwes i o) := by
  simp only [schedulerOwes, System.setNetconfig, Function.update_self]

theorem schedulerOwes_set_ne {n' : Netconfig} (h : n ≠ n')
    (q : Queue (Traced NetconfigMessage) (List String)) :
    schedulerOwes i n o (s.setNetconfig n' q) = schedulerOwes i n o s := by
  simp only [schedulerOwes, System.setNetconfig, Function.update_of_ne h]

/-- A queue that owes the same may replace the queue of its scheduler. -/
theorem schedulerOwes_set {n' : Netconfig} {q : Queue (Traced NetconfigMessage) (List String)}
    (h : q.load (messageOwes i o) (schedulerTaskOwes i o) = schedulerOwes i n' o s) :
    schedulerOwes i n o (s.setNetconfig n' q) = schedulerOwes i n o s := by
  by_cases hn : n = n'
  · subst hn
    rw [schedulerOwes_set_self, h]
  · exact schedulerOwes_set_ne hn q

theorem masterOwes_setJob {m : Traced Request} {held : Bool} {j : MasterJob}
    (ht : s.incoming.task = some ⟨m, held, j⟩) (j' : MasterJob) :
    masterOwes i n o (s.setJob j') + masterTaskOwes i n o ⟨m, held, j⟩ =
      masterOwes i n o s + masterTaskOwes i n o ⟨m, held, j'⟩ :=
  Queue.load_setJob _ _ ht j'

theorem jobOwes_cons (run : Run) (nc : String) (todo : List String) :
    jobOwes n o (.publishing run (nc :: todo)) = jobOwes n o (.publishing run todo) +
      if nc = n.name then run.request.effectiveOperatingSystems.count o.name else 0 := by
  simp only [jobOwes, List.count_cons, beq_iff_eq, add_mul, ite_mul, one_mul, zero_mul]

theorem masterTaskOwes_cons (m : Traced Request) (held : Bool) (run : Run) (nc : String)
    (todo : List String) :
    masterTaskOwes i n o ⟨m, held, .publishing run (nc :: todo)⟩ =
      masterTaskOwes i n o ⟨m, held, .publishing run todo⟩ +
        if nc = n.name then messageOwes i o ⟨m.origin, run.netconfigMessage⟩ else 0 := by
  simp only [masterTaskOwes, messageOwes, jobOwes_cons, Run.netconfigMessage]
  split_ifs <;> rfl

/-- One round of the master's loop moves what it owes to the scheduler. -/
theorem balanced_enqueueNetconfig {m : Traced Request} {held : Bool} {run : Run} {nc : String}
    {todo : List String} (ht : s.incoming.task = some ⟨m, held, .publishing run (nc :: todo)⟩) :
    schedulerOwes i n o ((s.setJob (.publishing run todo)).enqueueNetconfig m.origin run nc) +
        masterOwes i n o ((s.setJob (.publishing run todo)).enqueueNetconfig m.origin run nc) =
      schedulerOwes i n o s + masterOwes i n o s := by
  have hjob := @masterOwes_setJob s i n o _ _ _ ht (.publishing run todo)
  rw [masterTaskOwes_cons] at hjob
  unfold System.enqueueNetconfig
  cases hnc : Netconfig.ofName? nc with
  | none =>
    have hne : nc ≠ n.name := by
      intro heq
      rw [Netconfig.ofName?_eq_some.mpr heq] at hnc
      cases hnc
    rw [if_neg hne] at hjob
    change schedulerOwes i n o s + masterOwes i n o (s.setJob _) = _
    omega
  | some n' =>
    obtain rfl := Netconfig.ofName?_eq_some.mp hnc
    change schedulerOwes i n o (s.setNetconfig n' _) + masterOwes i n o (s.setJob _) = _
    by_cases hn : n = n'
    · subst hn
      rw [if_pos rfl] at hjob
      rw [schedulerOwes_set_self, Queue.load_publish]
      change schedulerOwes i n o s + _ + _ = _
      omega
    · have hname : n'.name ≠ n.name := fun h => hn (Netconfig.name_injective h).symm
      rw [if_neg hname] at hjob
      rw [schedulerOwes_set_ne hn]
      omega

theorem schedulerOwes_setJob {n' : Netconfig} {m : Traced NetconfigMessage} {held : Bool}
    {todo : List String} (ht : (s.netconfig n').task = some ⟨m, held, todo⟩)
    (todo' : List String) :
    ((s.netconfig n').setJob todo').load (messageOwes i o) (schedulerTaskOwes i o) +
        schedulerTaskOwes i o ⟨m, held, todo⟩ =
      schedulerOwes i n' o s + schedulerTaskOwes i o ⟨m, held, todo'⟩ :=
  Queue.load_setJob _ _ ht todo'

theorem schedulerTaskOwes_cons (m : Traced NetconfigMessage) (held : Bool) (x : String)
    (todo : List String) :
    schedulerTaskOwes i o ⟨m, held, x :: todo⟩ =
      schedulerTaskOwes i o ⟨m, held, todo⟩ + if x = o.name ∧ m.origin = i then 1 else 0 := by
  simp only [schedulerTaskOwes, List.count_cons, beq_iff_eq]
  split_ifs <;> simp_all

/-- One round of the scheduler's loop turns what it owes into a copy. -/
theorem balanced_enqueueClient {n' : Netconfig} {m : Traced NetconfigMessage} {held : Bool}
    {x : String} {todo : List String} (ht : (s.netconfig n').task = some ⟨m, held, x :: todo⟩) :
    copies i n o ((s.setNetconfig n' ((s.netconfig n').setJob todo)).enqueueClient n' m x) +
        schedulerOwes i n o
          ((s.setNetconfig n' ((s.netconfig n').setJob todo)).enqueueClient n' m x) =
      copies i n o s + schedulerOwes i n o s := by
  have hjob := @schedulerOwes_setJob s i o _ _ _ _ ht todo
  rw [schedulerTaskOwes_cons] at hjob
  unfold System.enqueueClient
  cases hx : OperatingSystem.ofName? x with
  | none =>
    have hne : ¬ (x = o.name ∧ m.origin = i) := by
      rintro ⟨heq, -⟩
      rw [OperatingSystem.ofName?_eq_some.mpr heq] at hx
      cases hx
    rw [if_neg hne] at hjob
    rw [schedulerOwes_set (by omega)]
    rfl
  | some o' =>
    obtain rfl := OperatingSystem.ofName?_eq_some.mp hx
    change (Function.update s.client o' (s.client o' ++ [forward n' m]) o).countP (isCopy i n) +
      schedulerOwes i n o (s.setNetconfig n' _) = (s.client o).countP (isCopy i n) + _
    by_cases ho : o = o'
    · subst ho
      rw [Function.update_self, List.countP_append, List.countP_singleton]
      by_cases hn : n = n'
      · subst hn
        have hcopy : isCopy i n (forward n m) = decide (m.origin = i) := by
          simp [isCopy, forward]
        rw [schedulerOwes_set_self, hcopy]
        simp only [true_and, decide_eq_true_eq] at hjob ⊢
        omega
      · have hcopy : isCopy i n (forward n' m) = false := by
          simp [isCopy, forward, Ne.symm hn]
        rw [schedulerOwes_set_ne hn, hcopy]
        rfl
    · have hname : ¬ (o'.name = o.name ∧ m.origin = i) :=
        fun h => ho (OperatingSystem.name_injective h.1).symm
      rw [if_neg hname] at hjob
      rw [Function.update_of_ne ho, schedulerOwes_set (by omega)]

end Accounting

section Preservation
variable {cfg : MasterSetting} {a : Action} {s s' : System} {i : ℕ} {n : Netconfig}
  {o : OperatingSystem}

theorem balanced_step (hs : Step cfg a s s') (hf : a.faultless = true)
    (hb : copies i n o s + schedulerOwes i n o s + masterOwes i n o s = due i n o s) :
    copies i n o s' + schedulerOwes i n o s' + masterOwes i n o s' = due i n o s' := by
  cases hs with
  | submit r =>
    have hload : masterOwes i n o (s.submit r) = masterOwes i n o s + 0 :=
      Queue.load_publish _ _ _
    change copies i n o s + schedulerOwes i n o s + _ = due i n o s
    omega
  | @deliver _ k uuid q hd =>
    obtain ⟨m, -, -, -, hload⟩ := Queue.load_deliver (fun _ => 0) (masterTaskOwes i n o) hd
    have hstart : masterTaskOwes i n o ⟨m, true, .start cfg uuid m.body⟩ = 0 := by
      unfold masterTaskOwes
      rcases MasterJob.start_cases cfg uuid m.body with hj | ⟨args, hj⟩
      · rw [hj]
        exact ite_self 0
      · rw [hj]
        exact ite_self 0
    change copies i n o s + schedulerOwes i n o s + q.load _ _ = due i n o s
    unfold masterOwes at hb
    omega
  | crash | disconnect | schedulerCrash | schedulerDisconnect => cases hf
  | @clonerFailed _ m held srid args ht =>
    have hjob := @masterOwes_setJob s i n o _ _ _ ht .returned
    simp only [masterTaskOwes, jobOwes, ite_self] at hjob
    change copies i n o s + schedulerOwes i n o s + _ = due i n o s
    omega
  | @clonerSucceeded _ m held srid args tstamp ht =>
    have hjob := @masterOwes_setJob s i n o _ _ _ ht (.sleeping ⟨m.body, srid, tstamp⟩)
    simp only [masterTaskOwes, jobOwes, ite_self, add_zero] at hjob
    have hdue : due i n o { s with cloned := s.cloned ++ [⟨m.origin, m.body, srid, tstamp⟩] } =
        due i n o s + if m.origin = i then Run.share n o ⟨m.body, srid, tstamp⟩ else 0 := by
      simp only [due, List.filter_append, List.map_append, List.sum_append]
      by_cases hi : m.origin = i <;> simp [hi]
    change copies i n o s + schedulerOwes i n o s + masterOwes i n o (s.setJob _) =
      due i n o { s with cloned := s.cloned ++ [⟨m.origin, m.body, srid, tstamp⟩] }
    omega
  | @wake _ m held run ht =>
    have hjob := @masterOwes_setJob s i n o _ _ _ ht
      (.publishing run run.request.effectiveNetconfigs)
    change _ + masterTaskOwes i n o ⟨m, held, .sleeping run⟩ =
      _ + masterTaskOwes i n o ⟨m, held, .sleeping run⟩ at hjob
    change copies i n o s + schedulerOwes i n o s + _ = due i n o s
    omega
  | @enqueueNext _ m held run nc todo ht =>
    have hmove := @balanced_enqueueNetconfig s i n o _ _ _ _ _ ht
    have hrest : copies i n o ((s.setJob (.publishing run todo)).enqueueNetconfig m.origin run nc)
        = copies i n o s ∧
      due i n o ((s.setJob (.publishing run todo)).enqueueNetconfig m.origin run nc)
        = due i n o s := by
      unfold System.enqueueNetconfig
      cases Netconfig.ofName? nc <;> exact ⟨rfl, rfl⟩
    omega
  | @ackRun _ m held run ht =>
    have hload := Queue.load_ack (fun _ => 0) (masterTaskOwes i n o) ht
    have hzero : masterTaskOwes i n o ⟨m, held, .publishing run []⟩ = 0 := by
      simp only [masterTaskOwes, jobOwes, List.count_nil, zero_mul, ite_self]
    change copies i n o s + schedulerOwes i n o s + s.incoming.ack.load _ _ = due i n o s
    unfold masterOwes at hb
    omega
  | @ackReturned _ m held ht =>
    have hload := Queue.load_ack (fun _ => 0) (masterTaskOwes i n o) ht
    have hzero : masterTaskOwes i n o ⟨m, held, .returned⟩ = 0 := ite_self 0
    change copies i n o s + schedulerOwes i n o s + s.incoming.ack.load _ _ = due i n o s
    unfold masterOwes at hb
    omega
  | @schedulerDeliver _ n' k q hd =>
    obtain ⟨m, -, -, -, hload⟩ := Queue.load_deliver (messageOwes i o) (schedulerTaskOwes i o) hd
    change _ + messageOwes i o m = _ + messageOwes i o m at hload
    change copies i n o s + schedulerOwes i n o (s.setNetconfig n' q) + masterOwes i n o s =
      due i n o s
    rw [schedulerOwes_set (Nat.add_right_cancel hload)]
    exact hb
  | @schedulerEnqueueNext _ n' m held x todo ht =>
    have hmove := @balanced_enqueueClient s i n o _ _ _ _ _ ht
    have hrest : masterOwes i n o
        ((s.setNetconfig n' ((s.netconfig n').setJob todo)).enqueueClient n' m x)
          = masterOwes i n o s ∧
      due i n o ((s.setNetconfig n' ((s.netconfig n').setJob todo)).enqueueClient n' m x)
          = due i n o s := by
      unfold System.enqueueClient
      cases OperatingSystem.ofName? x <;> exact ⟨rfl, rfl⟩
    omega
  | @schedulerAck _ n' m held ht =>
    have hload := Queue.load_ack (messageOwes i o) (schedulerTaskOwes i o) ht
    have hzero : schedulerTaskOwes i o ⟨m, held, []⟩ = 0 := ite_self 0
    rw [hzero] at hload
    change copies i n o s + schedulerOwes i n o (s.setNetconfig n' _) + masterOwes i n o s =
      due i n o s
    rw [schedulerOwes_set hload]
    exact hb

theorem published_lt {m : Traced Request} (hnum : Numbered s)
    (hm : m ∈ s.incoming.published) : m.origin < s.incoming.published.length := by
  obtain ⟨k, hk, rfl⟩ := List.getElem_of_mem hm
  rw [hnum k _ (List.getElem?_eq_getElem hk)]
  exact hk

/-- The number that the next request gets is not in use. -/
theorem claims_next (hinv : Inv s) (hnum : Numbered s) :
    claims s.incoming.published.length s = 0 := by
  have hload : s.incoming.load (requestClaims s.incoming.published.length)
      (taskClaims s.incoming.published.length) = 0 := by
    apply Queue.load_eq_zero
    · intro m hm
      have hlt := published_lt hnum (hinv.incoming.ready m hm)
      exact if_neg (by omega)
    · intro t ht
      have hlt := published_lt hnum (hinv.incoming.task t ht)
      unfold taskClaims
      split
      · exact if_neg (by omega)
      · rfl
  have hcloned : s.cloned.countP (fun c => c.origin = s.incoming.published.length) = 0 := by
    rw [List.countP_eq_zero]
    intro c hc
    have hlt := published_lt hnum (hinv.cloned c hc).1
    change c.origin < _ at hlt
    simp only [decide_eq_true_eq]
    omega
  simp only [claims, hload, hcloned]

theorem claims_setJob {m : Traced Request} {held : Bool} {j : MasterJob}
    (ht : s.incoming.task = some ⟨m, held, j⟩) (j' : MasterJob) :
    claims i (s.setJob j') + taskClaims i ⟨m, held, j⟩ =
      claims i s + taskClaims i ⟨m, held, j'⟩ := by
  have hload := Queue.load_setJob (requestClaims i) (taskClaims i) ht j'
  unfold claims
  change _ + _ + _ = _
  simp only [System.setJob] at hload ⊢
  omega

theorem claims_ack {t : Task (Traced Request) MasterJob} (ht : s.incoming.task = some t)
    (acked : List (Traced Run)) :
    claims i { s with incoming := s.incoming.ack, acked := acked } ≤ claims i s := by
  have hload := Queue.load_ack (requestClaims i) (taskClaims i) ht
  simp only [claims]
  omega

theorem claims_step (hs : Step cfg a s s') (hf : a.faultless = true) (hinv : Inv s)
    (hnum : Numbered s) (h : claims i s ≤ 1) : claims i s' ≤ 1 := by
  cases hs with
  | submit r =>
    have hload := @Queue.load_publish _ _ s.incoming (requestClaims i) (taskClaims i)
      ⟨s.incoming.published.length, r⟩
    have hclaims : claims i (s.submit r) = claims i s +
        requestClaims i ⟨s.incoming.published.length, r⟩ := by
      simp only [claims, System.submit] at hload ⊢
      omega
    by_cases hi : s.incoming.published.length = i
    · subst hi
      rw [hclaims, claims_next hinv hnum, Nat.zero_add]
      exact Nat.le_of_eq (if_pos rfl)
    · rw [hclaims, requestClaims, if_neg hi]
      exact h
  | @deliver _ k uuid q hd =>
    obtain ⟨m, -, -, -, hload⟩ := Queue.load_deliver (requestClaims i) (taskClaims i) hd
    have hstart : taskClaims i ⟨m, true, .start cfg uuid m.body⟩ ≤ requestClaims i m := by
      unfold taskClaims
      rcases MasterJob.start_cases cfg uuid m.body with hj | ⟨args, hj⟩
      · rw [hj]
        exact Nat.zero_le _
      · rw [hj]
        exact Nat.le_refl _
    simp only [claims] at h ⊢
    omega
  | crash | disconnect | schedulerCrash | schedulerDisconnect => cases hf
  | @clonerFailed _ m held srid args ht =>
    have hjob := @claims_setJob s i _ _ _ ht .returned
    have hzero : taskClaims i ⟨m, held, .returned⟩ = 0 := rfl
    omega
  | @clonerSucceeded _ m held srid args tstamp ht =>
    have hjob := @claims_setJob s i _ _ _ ht (.sleeping ⟨m.body, srid, tstamp⟩)
    simp only [claims, taskClaims, List.countP_append, List.countP_singleton,
      decide_eq_true_eq, System.setJob] at h hjob ⊢
    omega
  | @wake _ m held run ht =>
    have hjob := @claims_setJob s i _ _ _ ht (.publishing run run.request.effectiveNetconfigs)
    simp only [taskClaims] at hjob
    omega
  | @enqueueNext _ m held run nc todo ht =>
    have hjob := @claims_setJob s i _ _ _ ht (.publishing run todo)
    simp only [taskClaims] at hjob
    have hrest : claims i ((s.setJob (.publishing run todo)).enqueueNetconfig m.origin run nc) =
        claims i (s.setJob (.publishing run todo)) := by
      unfold System.enqueueNetconfig
      cases Netconfig.ofName? nc <;> rfl
    omega
  | ackRun ht => exact (claims_ack ht _).trans h
  | ackReturned ht => exact (claims_ack ht _).trans h
  | schedulerDeliver hd => exact h
  | @schedulerEnqueueNext _ n' m held x todo ht =>
    have hrest : claims i
        ((s.setNetconfig n' ((s.netconfig n').setJob todo)).enqueueClient n' m x) =
          claims i s := by
      unfold System.enqueueClient
      cases OperatingSystem.ofName? x <;> rfl
    omega
  | schedulerAck ht => exact h

theorem numbered_step (hs : Step cfg a s s') (hnum : Numbered s) : Numbered s' := by
  cases hs with
  | submit r =>
    intro k m hm
    change (s.incoming.published ++ [_])[k]? = some m at hm
    by_cases hk : k < s.incoming.published.length
    · rw [List.getElem?_append_left hk] at hm
      exact hnum k m hm
    · rw [List.getElem?_append_right (Nat.le_of_not_lt hk)] at hm
      obtain ⟨hlt, hget⟩ := List.getElem?_eq_some_iff.mp hm
      simp only [List.length_singleton] at hlt
      simp only [List.getElem_singleton] at hget
      rw [← hget]
      show s.incoming.published.length = k
      omega
  | deliver hd =>
    obtain ⟨m, rest, -, -, rfl⟩ := Queue.deliver_spec hd
    exact hnum
  | @enqueueNext _ m held run nc todo ht =>
    unfold System.enqueueNetconfig
    cases Netconfig.ofName? nc <;> exact hnum
  | @schedulerEnqueueNext _ n' m held x todo ht =>
    unfold System.enqueueClient
    cases OperatingSystem.ofName? x <;> exact hnum
  | crash | disconnect | clonerFailed | clonerSucceeded | wake | ackRun | ackReturned
  | schedulerDeliver | schedulerAck | schedulerCrash | schedulerDisconnect => exact hnum

theorem linked_set {n : Netconfig} {q : Queue (Traced NetconfigMessage) (List String)}
    (h : ∀ n, (s.netconfig n).Linked) (hq : q.Linked) (n' : Netconfig) :
    ((s.setNetconfig n q).netconfig n').Linked := by
  simp only [System.setNetconfig]
  by_cases hn : n' = n
  · subst hn
    rwa [Function.update_self]
  · rw [Function.update_of_ne hn]
    exact h n'

theorem linked_step (hs : Step cfg a s s') (hf : a.faultless = true)
    (h : s.incoming.Linked ∧ ∀ n, (s.netconfig n).Linked) :
    s'.incoming.Linked ∧ ∀ n, (s'.netconfig n).Linked := by
  obtain ⟨hin, hnc⟩ := h
  cases hs with
  | submit r => exact ⟨hin, hnc⟩
  | deliver hd => exact ⟨Queue.linked_deliver hd, hnc⟩
  | crash | disconnect | schedulerCrash | schedulerDisconnect => cases hf
  | clonerFailed ht => exact ⟨hin.setJob _, hnc⟩
  | clonerSucceeded tstamp ht => exact ⟨hin.setJob _, hnc⟩
  | wake ht => exact ⟨hin.setJob _, hnc⟩
  | @enqueueNext _ m held run nc todo ht =>
    unfold System.enqueueNetconfig
    cases Netconfig.ofName? nc with
    | none => exact ⟨hin.setJob _, hnc⟩
    | some n => exact ⟨hin.setJob _, linked_set hnc (hnc n)⟩
  | ackRun ht => exact ⟨Queue.linked_ack, hnc⟩
  | ackReturned ht => exact ⟨Queue.linked_ack, hnc⟩
  | schedulerDeliver hd => exact ⟨hin, linked_set hnc (Queue.linked_deliver hd)⟩
  | @schedulerEnqueueNext _ n m held x todo ht =>
    unfold System.enqueueClient
    cases OperatingSystem.ofName? x with
    | none => exact ⟨hin, linked_set hnc ((hnc n).setJob todo)⟩
    | some o => exact ⟨hin, linked_set hnc ((hnc n).setJob todo)⟩
  | schedulerAck ht => exact ⟨hin, linked_set hnc Queue.linked_ack⟩

theorem Ledger.step (h : Ledger s) (hs : Step cfg a s s') (hf : a.faultless = true) :
    Ledger s' where
  inv := h.inv.step hs
  numbered := numbered_step hs h.numbered
  claimed i := claims_step hs hf h.inv h.numbered (h.claimed i)
  balanced i n o := balanced_step hs hf (h.balanced i n o)
  linked := linked_step hs hf h.linked

end Preservation

theorem Ledger.init : Ledger System.init where
  inv := Inv.init
  numbered _ _ h := by cases h
  claimed _ := Nat.zero_le 1
  balanced _ _ _ := rfl
  linked := ⟨Queue.linked_empty, fun _ => Queue.linked_empty⟩

section Copies
variable {s : System} {c : Traced Run} {n : Netconfig} {o : OperatingSystem}

/-- The clone that carries its number alone asks for what the number is due. -/
theorem Ledger.due_eq (h : Ledger s) (hc : c ∈ s.cloned) :
    due c.origin n o s = c.body.share n o := by
  have hmem : c ∈ s.cloned.filter fun x => x.origin = c.origin :=
    List.mem_filter.mpr ⟨hc, decide_eq_true rfl⟩
  have hlen : (s.cloned.filter fun x => x.origin = c.origin).length ≤ 1 := by
    have hle := h.claimed c.origin
    rw [← List.countP_eq_length_filter]
    unfold claims at hle
    omega
  obtain ⟨x, hx⟩ := List.length_eq_one_iff.mp
    (Nat.le_antisymm hlen (List.length_pos_of_mem hmem))
  rw [hx] at hmem
  obtain rfl := List.mem_singleton.mp hmem
  simp only [due, hx, List.map_cons, List.map_nil, List.sum_singleton]

theorem share_eq_one (hn : c.body.request.effectiveNetconfigs.Nodup)
    (ho : c.body.request.effectiveOperatingSystems.Nodup) (hcov : c.body.Covers n o) :
    c.body.share n o = 1 := by
  rw [Run.share, List.count_eq_one_of_mem hn hcov.1, List.count_eq_one_of_mem ho hcov.2]

theorem Ledger.copies_le (h : Ledger s) (hc : c ∈ s.cloned) :
    copies c.origin n o s ≤ c.body.share n o := by
  have hb := h.balanced c.origin n o
  rw [h.due_eq hc] at hb
  omega

/-- Once nothing of the request is left on its queues, every copy has been made. -/
theorem Ledger.copies_eq (h : Ledger s) (hc : c ∈ s.cloned)
    (hin : ∀ m ∈ s.incoming.unacked, m.origin ≠ c.origin)
    (hnc : ∀ m ∈ (s.netconfig n).unacked, m.origin ≠ c.origin) :
    copies c.origin n o s = c.body.share n o := by
  have hb := h.balanced c.origin n o
  have hmaster : masterOwes c.origin n o s = 0 := by
    apply Queue.load_eq_zero
    · intro m _
      rfl
    · intro t ht
      exact if_neg (hin _ (h.linked.1.mem_unacked ht))
  have hscheduler : schedulerOwes c.origin n o s = 0 := by
    apply Queue.load_eq_zero
    · intro m hm
      exact if_neg (hnc _ (List.mem_append_right _ hm))
    · intro t ht
      exact if_neg (hnc _ ((h.linked.2 n).mem_unacked ht))
  rw [h.due_eq hc] at hb
  omega

end Copies

theorem Numbered.init : Numbered System.init := by
  intro k m h
  cases h

theorem Numbered.getElem? {s : System} {m : Traced Request} (h : Numbered s)
    (hm : m ∈ s.incoming.published) : s.incoming.published[m.origin]? = some m := by
  obtain ⟨k, hk, rfl⟩ := List.getElem_of_mem hm
  have hget := List.getElem?_eq_getElem hk
  rwa [h k _ hget]

/-- What holds after the actions `as` have led to the state `s`. -/
structure Guarantee (as : List Action) (s : System) : Prop where
  /-- An acknowledged run is on the client queue or owed by a scheduler. -/
  complete : ∀ c ∈ s.acked, ∀ n o, c.body.Covers n o →
    ⟨c.origin, c.body.runMessage n⟩ ∈ s.client o ∨
      ∃ m ∈ (s.netconfig n).unacked, m.origin = c.origin ∧ m.body.srid = c.body.srid ∧
        o.name ∈ m.body.operatingSystems
  /-- A message for a client stems from a run of a submitted request. -/
  sound : ∀ o, ∀ m ∈ s.client o, ∃ (run : Run) (n : Netconfig), ⟨m.origin, run⟩ ∈ s.cloned ∧
    s.incoming.published[m.origin]? = some ⟨m.origin, run.request⟩ ∧ run.KeepsSrid ∧
      m.body = run.runMessage n ∧ run.Covers n o
  /-- Without faults every pair is published once. -/
  once : (∀ a ∈ as, a.faultless = true) → ∀ c ∈ s.cloned,
    c.body.request.effectiveNetconfigs.Nodup → c.body.request.effectiveOperatingSystems.Nodup →
      ∀ n o, c.body.Covers n o → copies c.origin n o s ≤ 1 ∧
        ((∀ m ∈ s.incoming.unacked, m.origin ≠ c.origin) →
          (∀ m ∈ (s.netconfig n).unacked, m.origin ≠ c.origin) → copies c.origin n o s = 1)

section Runs
variable {cfg : MasterSetting} {as : List Action} {s : System}

theorem run_inv (h : run (step cfg) as .init = some s) : Inv s ∧ Numbered s := by
  refine @run_invariant _ _ _ _ _ _ (fun s => Inv s ∧ Numbered s) (fun _ => True) ?_
    (fun _ _ => trivial) ⟨Inv.init, Numbered.init⟩ h
  intro a s s' _ hi hs
  have hstep := step_sound hs
  exact ⟨hi.1.step hstep, numbered_step hstep hi.2⟩

theorem run_ledger (h : run (step cfg) as .init = some s)
    (hf : ∀ a ∈ as, a.faultless = true) : Ledger s := by
  refine run_invariant ?_ hf Ledger.init h
  intro a s s' ha hl hs
  exact hl.step (step_sound hs) ha

end Runs

/-- A try run for one pair; the scheduler dies between publishing and acknowledging. -/
def schedulerCrashRun : List Action :=
  [.submit ⟨false, "a@b.c", "abc", ["gsm"], ["linux"], none, 1⟩, .deliver 0 "u",
    .clonerSucceeded 1000, .wake, .enqueueNext, .ack, .schedulerDeliver .gsm 0,
    .schedulerEnqueueNext .gsm, .schedulerCrash .gsm, .schedulerDeliver .gsm 0]

end StoneRidge.Dispatch
