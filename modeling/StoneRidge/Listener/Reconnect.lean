import Mathlib.Tactic

/-!
# The loop of a queue listener

`QueueListener.run` and its close callback (`stoneridge.py:641-664`). `run` connects and
stays in `start_consuming` until the connection closes; the callback, which
`start_consuming` calls, closes what is left of the connection and calls `run` again. The
control state is the stack of these calls. Of pika it is used that `BlockingConnection`
raises when it is refused and that `start_consuming` calls the callback; how
`start_consuming` ends after a callback that has ended is a parameter.
-/

set_option autoImplicit false

namespace StoneRidge.Listener

/-- How a call ends. -/
inductive Ended where
  | returned
  | raised
  deriving DecidableEq

/-- How `start_consuming` ends, given how its close callback did. -/
abbrev StartConsuming := Ended → Ended

inductive Frame where
  | run
  | handleOnclose
  deriving DecidableEq

inductive Phase where
  | connecting
  | consuming (queue : String)
  | ended (how : Ended)
  deriving DecidableEq

/-- The calls are innermost first. -/
structure QueueListener where
  queue : String
  frames : List Frame
  phase : Phase
  deriving DecidableEq

inductive Event where
  | accepted
  | refused
  | closed
  deriving DecidableEq

/-- How the outermost call ends once the innermost has ended; nothing handles an
exception on the way. -/
def unwind (pika : StartConsuming) : List Frame → Ended → Ended
  | [], how => how
  | .run :: frames, how => unwind pika frames how
  | .handleOnclose :: frames, how => unwind pika frames (pika how)

/-- `run` has been called and its connection has been accepted. -/
def started (queue : String) : QueueListener := ⟨queue, [.run], .consuming queue⟩

/-- Attempts are made only while connecting, and only an open connection closes. -/
def step (pika : StartConsuming) (l : QueueListener) (ev : Event) : QueueListener :=
  match l.phase, ev with
  | .connecting, .accepted => { l with phase := .consuming l.queue }
  | .connecting, .refused =>
    { l with frames := [], phase := .ended (unwind pika l.frames .raised) }
  | .consuming _, .closed =>
    { l with frames := .run :: .handleOnclose :: l.frames, phase := .connecting }
  | _, _ => l

def after (pika : StartConsuming) (queue : String) (events : List Event) : QueueListener :=
  events.foldl (step pika) (started queue)

/-- The calls of `run` that have not ended. -/
def QueueListener.nested (l : QueueListener) : ℕ := l.frames.count .run

/-- The listener goes on through all closes and refusals. -/
structure Survives (pika : StartConsuming) (queue : String) (events : List Event) : Prop where
  alive : ∀ pre, pre <+: events → ∀ how, (after pika queue pre).phase ≠ .ended how
  reconnects : ∀ pre, pre ++ [.closed] <+: events →
    (after pika queue pre).phase = .consuming queue →
      (after pika queue (pre ++ [.closed])).phase = .connecting
  keepsTrying : ∀ pre, pre ++ [.refused] <+: events →
    (after pika queue pre).phase = .connecting →
      (after pika queue (pre ++ [.refused])).phase = .connecting
  resumes : ∀ pre, pre ++ [.accepted] <+: events →
    (after pika queue pre).phase = .connecting →
      (after pika queue (pre ++ [.accepted])).phase = .consuming queue

/-- No further call of `run` is nested in the first. -/
def Flat (pika : StartConsuming) (queue : String) (events : List Event) : Prop :=
  ∀ pre, pre <+: events → (after pika queue pre).nested ≤ 1

section Runs
variable {pika : StartConsuming} {queue : String} {events pre : List Event} {l : QueueListener}

theorem after_append (pre : List Event) (ev : Event) :
    after pika queue (pre ++ [ev]) = step pika (after pika queue pre) ev := by
  unfold after
  rw [List.foldl_append]
  rfl

theorem step_queue (ev : Event) : (step pika l ev).queue = l.queue := by
  unfold step
  split <;> rfl

theorem step_closed {q : String} (h : l.phase = .consuming q) : step pika l .closed =
    { l with frames := .run :: .handleOnclose :: l.frames, phase := .connecting } := by
  unfold step
  rw [h]

theorem step_accepted (h : l.phase = .connecting) :
    step pika l .accepted = { l with phase := .consuming l.queue } := by
  unfold step
  rw [h]

/-- A refused attempt is the end, however pika treats the exception of its callback. -/
theorem step_refused (pika : StartConsuming) (h : l.phase = .connecting) :
    ∃ how, (step pika l .refused).phase = .ended how := by
  unfold step
  rw [h]
  exact ⟨_, rfl⟩

/-- Without a close nothing happens to a listener that has been started. -/
theorem after_of_not_closed (h : .closed ∉ events) :
    after pika queue events = started queue := by
  induction events using List.reverseRecOn with
  | nil => rfl
  | append_singleton pre ev ih =>
    have hpre : Event.closed ∉ pre := fun hmem => h (List.mem_append_left _ hmem)
    rw [after_append, ih hpre]
    cases ev with
    | accepted => rfl
    | refused => rfl
    | closed => exact absurd (List.mem_append_right _ List.mem_cons_self) h

/-- The first close nests a second call of `run`. -/
theorem nested_after_close (h : .closed ∉ pre) :
    (after pika queue (pre ++ [.closed])).nested = 2 := by
  rw [after_append, after_of_not_closed h, step_closed rfl]
  rfl

theorem after_queue (events : List Event) : (after pika queue events).queue = queue := by
  induction events using List.reverseRecOn with
  | nil => rfl
  | append_singleton pre ev ih => rw [after_append, step_queue, ih]

/-- Each close after which the broker accepts nests a further call. -/
theorem nested_after_closes (pika : StartConsuming) (queue : String) (n : ℕ) :
    (after pika queue (List.replicate n [.closed, .accepted]).flatten).phase = .consuming queue ∧
      (after pika queue (List.replicate n [.closed, .accepted]).flatten).nested = n + 1 := by
  induction n with
  | zero => exact ⟨rfl, rfl⟩
  | succ n ih =>
    obtain ⟨hphase, hnested⟩ := ih
    have hflat : (List.replicate (n + 1) [Event.closed, .accepted]).flatten =
        ((List.replicate n [Event.closed, .accepted]).flatten ++ [.closed]) ++ [.accepted] := by
      rw [List.replicate_succ', List.flatten_append]
      simp
    rw [hflat, after_append, after_append, step_closed hphase, step_accepted rfl]
    refine ⟨congrArg _ (after_queue _), ?_⟩
    unfold QueueListener.nested at hnested ⊢
    rw [List.count_cons_self, List.count_cons_of_ne (by decide), hnested]

theorem step_alive (halive : ∀ how, l.phase ≠ .ended how) {ev : Event}
    (hrefused : ev = .refused → l.phase ≠ .connecting) (how : Ended) :
    (step pika l ev).phase ≠ .ended how := by
  unfold step
  split
  · exact Phase.noConfusion
  · rename_i hphase
    exact absurd hphase (hrefused rfl)
  · exact Phase.noConfusion
  · exact halive how

/-- The listener survives exactly if no attempt to reconnect is refused. -/
theorem survives_iff (pika : StartConsuming) (queue : String) (events : List Event) :
    Survives pika queue events ↔
      ∀ pre, pre ++ [.refused] <+: events → (after pika queue pre).phase ≠ .connecting := by
  constructor
  · intro h pre hpre hphase
    obtain ⟨how, hended⟩ := step_refused pika hphase
    rw [← after_append] at hended
    exact h.alive _ hpre how hended
  · intro h
    refine ⟨?_, ?_, ?_, ?_⟩
    · intro pre hpre
      induction pre using List.reverseRecOn with
      | nil => exact fun _ => Phase.noConfusion
      | append_singleton pre ev ih =>
        rw [after_append]
        apply step_alive (ih ((List.prefix_append pre _).trans hpre))
        intro hev
        subst hev
        exact h pre hpre
    · intro pre _ hphase
      rw [after_append, step_closed hphase]
    · intro pre hpre hphase
      exact absurd hphase (h pre hpre)
    · intro pre _ hphase
      rw [after_append, step_accepted hphase, after_queue]

/-- The calls stay flat exactly if the connection never closes. -/
theorem flat_iff (pika : StartConsuming) (queue : String) (events : List Event) :
    Flat pika queue events ↔ .closed ∉ events := by
  constructor
  · intro h hclosed
    obtain ⟨pre, rest, heq, hpre⟩ := List.eq_append_cons_of_mem hclosed
    have hbegin : pre ++ [.closed] <+: events := ⟨rest, by rw [heq, List.append_assoc]; rfl⟩
    have hflat := h _ hbegin
    rw [nested_after_close hpre] at hflat
    omega
  · intro h pre hpre
    rw [after_of_not_closed fun hmem => h (hpre.subset hmem)]
    exact Nat.le_refl 1

end Runs

/-- A listener goes on in one call of `run` exactly if its connection never closes. -/
theorem persists_iff (pika : StartConsuming) (queue : String) (events : List Event) :
    Survives pika queue events ∧ Flat pika queue events ↔ .closed ∉ events := by
  rw [survives_iff, flat_iff, and_iff_right_iff_imp]
  intro h pre hpre hphase
  have hclosed : Event.closed ∉ pre := fun hmem =>
    h (((List.prefix_append pre _).trans hpre).subset hmem)
  rw [after_of_not_closed hclosed] at hphase
  cases hphase

/-- A close and a refused attempt end the listener. -/
theorem ended_by_refusal :
    ¬ (Survives id "sr_incoming" [.closed, .refused] ∧ Flat id "sr_incoming" [.closed, .refused]) := by
  intro h
  exact h.1.alive _ List.prefix_rfl .raised rfl

end StoneRidge.Listener
