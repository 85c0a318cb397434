import Mathlib.Tactic

/-!
# Queues with acknowledgements and one listener

The broker keeps a message until it is acknowledged. The listener works on one
message at a time; the work in progress is a value of type `Job`. When the
listener dies, or loses its connection, the broker makes the message ready again;
after a lost connection the listener still finishes its work, but its
acknowledgement has no effect.
-/

set_option autoImplicit false

namespace StoneRidge.Kit.AckQueue

structure Task (Msg Job : Type) where
  msg : Msg
  /-- The broker still waits for the acknowledgement of this delivery. -/
  held : Bool
  job : Job

structure Queue (Msg Job : Type) where
  /-- Every message ever published, in order. -/
  published : List Msg
  ready : List Msg
  task : Option (Task Msg Job)

namespace Queue
variable {Msg Job : Type}

def empty : Queue Msg Job := ⟨[], [], none⟩

def publish (q : Queue Msg Job) (m : Msg) : Queue Msg Job :=
  { q with published := q.published ++ [m], ready := q.ready ++ [m] }

/-- Message `i` of those that are ready goes to the idle listener. -/
def deliver (q : Queue Msg Job) (i : ℕ) (start : Msg → Job) : Option (Queue Msg Job) :=
  if q.task.isSome then none
  else q.ready[i]?.map fun m =>
    { q with ready := q.ready.eraseIdx i, task := some ⟨m, true, start m⟩ }

def setJob (q : Queue Msg Job) (j : Job) : Queue Msg Job :=
  { q with task := q.task.map fun t => { t with job := j } }

def ack (q : Queue Msg Job) : Queue Msg Job := { q with task := none }

def held (q : Queue Msg Job) : List Msg :=
  match q.task with
  | some t => if t.held then [t.msg] else []
  | none => []

def crash (q : Queue Msg Job) : Queue Msg Job :=
  { q with ready := q.held ++ q.ready, task := none }

def disconnect (q : Queue Msg Job) : Queue Msg Job :=
  { q with ready := q.held ++ q.ready, task := q.task.map fun t => { t with held := false } }

def unacked (q : Queue Msg Job) : List Msg := q.held ++ q.ready

section Unacked
variable {q q' : Queue Msg Job} {m : Msg} {t : Task Msg Job} {start : Msg → Job} {i : ℕ}

theorem deliver_spec (h : q.deliver i start = some q') :
    ∃ m rest, q.task = none ∧ q.ready.Perm (m :: rest) ∧
      q' = ⟨q.published, rest, some ⟨m, true, start m⟩⟩ := by
  unfold deliver at h
  split at h
  · cases h
  next hidle =>
    obtain ⟨m, hm, hq⟩ := Option.map_eq_some_iff.mp h
    obtain ⟨hi, rfl⟩ := List.getElem?_eq_some_iff.mp hm
    have hnone : q.task = none := by simpa using hidle
    exact ⟨_, _, hnone, (List.getElem_cons_eraseIdx_perm hi).symm, hq.symm⟩

theorem unacked_publish : (q.publish m).unacked = q.unacked ++ [m] := by
  simp only [unacked, publish, held, List.append_assoc]

theorem unacked_deliver (h : q.deliver i start = some q') : q'.unacked.Perm q.unacked := by
  obtain ⟨m, rest, hnone, hp, rfl⟩ := deliver_spec h
  simp only [unacked, held, hnone, ite_true, List.nil_append, List.singleton_append]
  exact hp.symm

@[simp] theorem unacked_setJob (j : Job) : (q.setJob j).unacked = q.unacked := by
  unfold unacked setJob held
  cases q.task <;> rfl

@[simp] theorem unacked_disconnect : q.disconnect.unacked = q.unacked := by
  unfold unacked disconnect held
  cases q.task <;> rfl

theorem mem_unacked_of_ack (h : q.task = some t) (hm : m ∈ q.unacked) :
    m = t.msg ∨ m ∈ q.ack.unacked := by
  simp only [unacked, ack, held, h, List.nil_append, List.mem_append] at hm ⊢
  rcases hm with hm | hm
  · split at hm
    · exact .inl (List.mem_singleton.mp hm)
    · cases hm
  · exact .inr hm

end Unacked

/-- Every message that ever came to the queue, wherever it is now, has property `P`. -/
structure All (P : Msg → Prop) (q : Queue Msg Job) : Prop where
  published : ∀ m ∈ q.published, P m
  ready : ∀ m ∈ q.ready, P m
  task : ∀ t, q.task = some t → P t.msg

/-- The work in progress stands in the relation `R` to its message. -/
def Working (R : Msg → Job → Prop) (q : Queue Msg Job) : Prop :=
  ∀ t, q.task = some t → R t.msg t.job

section All
variable {q q' : Queue Msg Job} {P P' : Msg → Prop} {R R' : Msg → Job → Prop} {m : Msg}
  {t : Task Msg Job} {start : Msg → Job} {i : ℕ}

theorem all_empty : All P (empty : Queue Msg Job) where
  published _ h := absurd h List.not_mem_nil
  ready _ h := absurd h List.not_mem_nil
  task _ h := by cases h

theorem working_empty : Working R (empty : Queue Msg Job) := by
  intro t h
  cases h

theorem All.imp (h : q.All P) (hP : ∀ m, P m → P' m) : q.All P' where
  published m hm := hP m (h.published m hm)
  ready m hm := hP m (h.ready m hm)
  task t ht := hP t.msg (h.task t ht)

theorem Working.imp (h : q.Working R) (hR : ∀ m j, R m j → R' m j) : q.Working R' := by
  intro t ht
  exact hR t.msg t.job (h t ht)

theorem All.held (h : q.All P) (hm : m ∈ q.held) : P m := by
  unfold Queue.held at hm
  split at hm
  next t ht =>
    split at hm
    · rw [List.mem_singleton.mp hm]
      exact h.task t ht
    · cases hm
  · cases hm

theorem All.unacked (h : q.All P) (hm : m ∈ q.unacked) : P m := by
  rcases List.mem_append.mp hm with hm | hm
  · exact h.held hm
  · exact h.ready m hm

theorem All.publish (h : q.All P) (hm : P m) : (q.publish m).All P where
  published x hx := by
    rcases List.mem_append.mp hx with hx | hx
    · exact h.published x hx
    · rwa [List.mem_singleton.mp hx]
  ready x hx := by
    rcases List.mem_append.mp hx with hx | hx
    · exact h.ready x hx
    · rwa [List.mem_singleton.mp hx]
  task := h.task

theorem All.deliver (h : q.All P) (hd : q.deliver i start = some q') : q'.All P := by
  obtain ⟨m, rest, -, hp, rfl⟩ := deliver_spec hd
  refine ⟨h.published, fun x hx => h.ready x (hp.mem_iff.mpr (List.mem_cons_of_mem m hx)), ?_⟩
  intro t ht
  cases ht
  exact h.ready m (hp.mem_iff.mpr List.mem_cons_self)

theorem Working.deliver (hd : q.deliver i start = some q')
    (hR : ∀ m ∈ q.ready, R m (start m)) : q'.Working R := by
  obtain ⟨m, rest, -, hp, rfl⟩ := deliver_spec hd
  intro t ht
  cases ht
  exact hR m (hp.mem_iff.mpr List.mem_cons_self)

theorem All.setJob (h : q.All P) (j : Job) : (q.setJob j).All P := by
  refine ⟨h.published, h.ready, ?_⟩
  intro t ht
  obtain ⟨t', ht', rfl⟩ := Option.map_eq_some_iff.mp ht
  exact h.task t' ht'

theorem Working.setJob {j : Job} (ht : q.task = some t) (hR : R t.msg j) :
    (q.setJob j).Working R := by
  intro t' ht'
  simp only [Queue.setJob, ht, Option.map_some, Option.some.injEq] at ht'
  subst ht'
  exact hR

theorem All.ack (h : q.All P) : q.ack.All P where
  published := h.published
  ready := h.ready
  task _ ht := by cases ht

theorem working_ack : q.ack.Working R := by
  intro t ht
  cases ht

theorem All.crash (h : q.All P) : q.crash.All P where
  published := h.published
  ready _ hm := h.unacked hm
  task _ ht := by cases ht

theorem working_crash : q.crash.Working R := by
  intro t ht
  cases ht

theorem All.disconnect (h : q.All P) : q.disconnect.All P := by
  refine ⟨h.published, fun _ hm => h.unacked hm, ?_⟩
  intro t ht
  obtain ⟨t', ht', rfl⟩ := Option.map_eq_some_iff.mp ht
  exact h.task t' ht'

theorem Working.disconnect (h : q.Working R) : q.disconnect.Working R := by
  intro t ht
  obtain ⟨t', ht', rfl⟩ := Option.map_eq_some_iff.mp ht
  exact h t' ht'

end All

/-- The connection over which the current message was delivered still stands. -/
def Linked (q : Queue Msg Job) : Prop := ∀ t, q.task = some t → t.held = true

section Linked
variable {q q' : Queue Msg Job} {t : Task Msg Job} {start : Msg → Job} {i : ℕ}

theorem linked_empty : (empty : Queue Msg Job).Linked := by
  intro t h
  cases h

theorem linked_deliver (h : q.deliver i start = some q') : q'.Linked := by
  obtain ⟨m, rest, -, -, rfl⟩ := deliver_spec h
  intro t ht
  cases ht
  rfl

theorem Linked.setJob (h : q.Linked) (j : Job) : (q.setJob j).Linked := by
  intro t ht
  obtain ⟨t', ht', rfl⟩ := Option.map_eq_some_iff.mp ht
  exact h t' ht'

theorem linked_ack : q.ack.Linked := by
  intro t ht
  cases ht

/-- Over a standing connection the message in work is unacknowledged. -/
theorem Linked.mem_unacked (h : q.Linked) (ht : q.task = some t) : t.msg ∈ q.unacked := by
  apply List.mem_append_left
  simp only [held, ht, h t ht, ite_true, List.mem_singleton]

end Linked

section Load
variable {q q' : Queue Msg Job} {t : Task Msg Job} {start : Msg → Job} {i : ℕ}

/-- The weight of the ready messages and of the work in progress. -/
def load (w : Msg → ℕ) (v : Task Msg Job → ℕ) (q : Queue Msg Job) : ℕ :=
  (q.ready.map w).sum + (q.task.map v).getD 0

variable (w : Msg → ℕ) (v : Task Msg Job → ℕ)

theorem load_publish (m : Msg) : (q.publish m).load w v = q.load w v + w m := by
  simp only [load, publish, List.map_append, List.sum_append, List.map_cons, List.map_nil,
    List.sum_singleton]
  omega

/-- A delivery changes the load by what starting the job changes. -/
theorem load_deliver (h : q.deliver i start = some q') : ∃ m ∈ q.ready,
    q'.task = some ⟨m, true, start m⟩ ∧ q.task = none ∧
      q'.load w v + w m = q.load w v + v ⟨m, true, start m⟩ := by
  obtain ⟨m, rest, hnone, hp, rfl⟩ := deliver_spec h
  refine ⟨m, hp.mem_iff.mpr List.mem_cons_self, rfl, hnone, ?_⟩
  have hsum := (hp.map w).sum_eq
  simp only [load, hnone, Option.map_some, Option.map_none, Option.getD_some, Option.getD_none,
    List.map_cons, List.sum_cons] at hsum ⊢
  omega

theorem load_setJob (h : q.task = some t) (j : Job) :
    (q.setJob j).load w v + v t = q.load w v + v { t with job := j } := by
  simp only [load, setJob, h, Option.map_some, Option.getD_some]
  omega

theorem load_ack (h : q.task = some t) : q.ack.load w v + v t = q.load w v := by
  simp only [load, ack, h, Option.map_some, Option.map_none, Option.getD_some, Option.getD_none]
  omega

theorem load_eq_zero (hr : ∀ m ∈ q.ready, w m = 0) (ht : ∀ t, q.task = some t → v t = 0) :
    q.load w v = 0 := by
  have hsum : (q.ready.map w).sum = 0 := by
    apply List.sum_eq_zero
    intro x hx
    obtain ⟨m, hm, rfl⟩ := List.mem_map.mp hx
    exact hr m hm
  cases h : q.task with
  | none => simp only [load, h, hsum, Option.map_none, Option.getD_none]
  | some t => simp only [load, h, hsum, Option.map_some, Option.getD_some, ht t h]

end Load

end Queue

end StoneRidge.Kit.AckQueue
