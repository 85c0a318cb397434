import StoneRidge.Kit.Polling
import StoneRidge.Retry.Rounds
import Mathlib.Data.NNRat.Defs

/-!
# The pace of the attempts

`StoneRidgeDeferrer.run` (`srdeferrer.py:25-41`) waits until the interval of the
configuration has passed, in whole seconds. Here the rounds of a request are taken
under a clock that never goes back, and the time of every cloner run is kept.
-/

set_option autoImplicit false

namespace StoneRidge.Retry
open StoneRidge.Kit StoneRidge.Kit.Naps StoneRidge.Kit.Machine

/-- When the loop of `run` is over, in which there is nothing to see but the clock. -/
def deferrerDone (interval : ℤ) (n : Naps 30) : ℚ :=
  n.head (n.wait interval (fun _ => (none : Option Empty)) 0).1

structure Timed where
  rounds : Rounds
  now : ℚ
  /-- When each of the deferrers that wait was started. -/
  started : List ℚ
  /-- When the master has run the cloner. -/
  cloned : List ℚ

inductive TimedRound where
  | pass (d : ℚ≥0)
  /-- The master takes time `d` to handle a message. -/
  | handle (i : ℕ) (uuid : String) (env : Cloner.Env) (outroot : Cloner.OutRoot) (d : ℚ≥0)
  /-- A deferrer enqueues after these naps. -/
  | enqueue (i : ℕ) (naps : Naps 30)
  | lose (i : ℕ)

namespace Timed

def start (r : Dispatch.Request) (now : ℚ) : Timed := ⟨.start r, now, [], []⟩

/-- The naps of a deferrer begin after it has been started, and are over by now. -/
def Rested (interval : ℤ) (n : Naps 30) (begun now : ℚ) : Prop :=
  begun ≤ n.begin ∧ n.lead = 0 ∧ deferrerDone interval n ≤ now

instance (interval : ℤ) (n : Naps 30) (begun now : ℚ) : Decidable (Rested interval n begun now) :=
  inferInstanceAs (Decidable (_ ∧ _ ∧ _))

/-- What the master has done by the time it is through with a message. -/
def handled (t : Timed) (d : ℚ≥0) (s : Rounds) : Timed where
  rounds := s
  now := t.now + d
  started := t.started ++
    List.replicate (s.deferrers.length - t.rounds.deferrers.length) (t.now + d)
  cloned := t.cloned ++ List.replicate (s.srids.length - t.rounds.srids.length) t.now

def step (inst : Installation) (interval : ℤ) : TimedRound → Timed → Option Timed
  | .pass d, t => some { t with now := t.now + d }
  | .handle i uuid env outroot d, t =>
    (Retry.step inst (.handle i uuid env outroot) t.rounds).map (t.handled d)
  | .enqueue i naps, t =>
    match t.started[i]? with
    | none => none
    | some begun =>
      if Rested interval naps begun t.now then
        (Retry.step inst (.enqueue i) t.rounds).map fun s =>
          { t with rounds := s, started := t.started.eraseIdx i }
      else none
  | .lose i, t =>
    (Retry.step inst (.lose i) t.rounds).map fun s =>
      { t with rounds := s, started := t.started.eraseIdx i }

end Timed

/-- More than `gap` has passed since the last of the times. -/
def Since (gap : ℚ) (times : List ℚ) (now : ℚ) : Prop := ∀ last ∈ times.getLast?, gap < now - last

/-- Each two times in a row are more than `gap` apart. -/
def Apart (gap : ℚ) (times : List ℚ) : Prop := times.IsChain fun a b => gap < b - a

theorem Apart.concat {gap now : ℚ} {times : List ℚ} (h : Apart gap times)
    (hlast : Since gap times now) : Apart gap (times ++ [now]) := by
  rw [Apart, List.isChain_append]
  refine ⟨h, .singleton now, ?_⟩
  intro a ha b hb
  obtain rfl : now = b := by simpa using hb
  exact hlast a ha

theorem Since.mono {gap gap' now later : ℚ} {times : List ℚ} (h : Since gap times now)
    (hgap : gap' ≤ gap) (hle : now ≤ later) : Since gap' times later := by
  intro last hlast
  have hlt := h last hlast
  linarith

/-- A deferrer is done less than a second early. -/
theorem deferrerDone_late (interval : ℤ) (n : Naps 30) :
    (interval : ℚ) - 1 < deferrerDone interval n - n.begin := by
  have hw : n.Waited interval (fun _ => (none : Option Empty)) _ := n.waited
  refine hw.late ?_
  cases hseen : (n.wait interval (fun _ => (none : Option Empty)) 0).2 with
  | none => rfl
  | some a => exact a.elim

/-- What the clock knows of a request. -/
structure InTime (inst : Installation) (interval : ℤ) (r : Dispatch.Request) (t : Timed) :
    Prop where
  reached : Reached inst r t.rounds
  apart : Apart (interval - 1) t.cloned
  runs : t.cloned.length = t.rounds.srids.length
  past : ∀ last ∈ t.cloned.getLast?, last ≤ t.now
  deferrers : t.started.length = t.rounds.deferrers.length
  /-- A deferrer is started after the cloner that starts it. -/
  started : ∀ begun ∈ t.started, ∀ last ∈ t.cloned.getLast?, last ≤ begun
  /-- A message on the queue is a new one or has been deferred. -/
  incoming : t.rounds.incoming ≠ [] → Since (interval - 1) t.cloned t.now

section Invariant
variable {inst : Installation} {interval : ℤ} {r : Dispatch.Request} {t t' : Timed}

theorem inTime_start (hr : Accepted r) (now : ℚ) : InTime inst interval r (Timed.start r now) :=
  ⟨reached_start hr, .nil, rfl, nofun, rfl, nofun, fun _ => nofun⟩

/-- While a message is on the queue no deferrer waits, and there is just the one message. -/
theorem Reached.received {s : Rounds} (h : Reached inst r s) {i : ℕ} {m : Dispatch.Request}
    (hm : s.incoming[i]? = some m) : s.deferrers = [] ∧ s.incoming.eraseIdx i = [] := by
  obtain ⟨srid, -, hinv⟩ := h
  cases hinv with
  | received m' accepted again incoming deferrers =>
    rw [incoming] at hm ⊢
    obtain ⟨rfl, -⟩ := getElem?_singleton_some hm
    exact ⟨deferrers, rfl⟩
  | deferring m' pidfile accepted again head incoming =>
    rw [incoming] at hm
    cases hm
  | finished incoming =>
    rw [incoming] at hm
    cases hm

/-- Handling a message puts nothing on the queue and runs the cloner at most once. -/
theorem handle_effect (s : Rounds) (m : Dispatch.Request) (uuid : String) (env : Cloner.Env)
    (outroot : Cloner.OutRoot) :
    (Rounds.handle inst s m uuid env outroot).incoming = s.incoming ∧
      ((Rounds.handle inst s m uuid env outroot).srids.length = s.srids.length ∨
        (Rounds.handle inst s m uuid env outroot).srids.length = s.srids.length + 1) := by
  unfold Rounds.handle
  split
  · refine ⟨rfl, .inr ?_⟩
    rw [List.length_append, List.length_singleton]
  · exact ⟨rfl, .inl rfl⟩

theorem InTime.handle (h : InTime inst interval r t) {i : ℕ} {uuid : String} {env : Cloner.Env}
    {outroot : Cloner.OutRoot} {d : ℚ≥0} {s : Rounds}
    (hs : Retry.step inst (.handle i uuid env outroot) t.rounds = some s) :
    InTime inst interval r (t.handled d s) := by
  have hreached := reached_step h.reached hs
  obtain ⟨m, hm, heq⟩ := Option.map_eq_some_iff.mp hs
  obtain ⟨hnone, hempty⟩ := h.reached.received hm
  have hsince : Since (interval - 1) t.cloned t.now := by
    refine h.incoming ?_
    intro hnil
    rw [hnil] at hm
    cases hm
  have heffect := @handle_effect inst
    { t.rounds with incoming := t.rounds.incoming.eraseIdx i } m uuid env outroot
  rw [heq] at heffect
  obtain ⟨hincoming, hsrids⟩ := heffect
  have hstarted : t.started = [] := List.length_eq_zero_iff.mp (by rw [h.deferrers, hnone]; rfl)
  have hd : (0 : ℚ) ≤ d := d.2
  have hcloned : (t.handled d s).cloned = t.cloned ∨
      (t.handled d s).cloned = t.cloned ++ [t.now] := by
    rcases hsrids with hsrids | hsrids
    · left
      simp only [Timed.handled, hsrids, Nat.sub_self, List.replicate_zero, List.append_nil]
    · right
      simp only [Timed.handled, hsrids, Nat.add_sub_cancel_left, List.replicate_one]
  have hpast : ∀ last ∈ (t.handled d s).cloned.getLast?, last ≤ t.now + d := by
    intro last hlast
    rcases hcloned with hcloned | hcloned
    · rw [hcloned] at hlast
      have hle := h.past last hlast
      linarith
    · rw [hcloned, List.getLast?_concat] at hlast
      obtain rfl := Option.some.inj hlast
      linarith
  refine ⟨hreached, ?_, ?_, hpast, ?_, ?_, ?_⟩
  · rcases hcloned with hcloned | hcloned
    · rw [hcloned]
      exact h.apart
    · rw [hcloned]
      exact h.apart.concat hsince
  · have hruns := h.runs
    simp only [Timed.handled, List.length_append, List.length_replicate]
    dsimp only at hsrids
    omega
  · simp only [Timed.handled, hstarted, hnone, List.nil_append, List.length_replicate,
      List.length_nil, Nat.sub_zero]
  · intro begun hbegun last hlast
    simp only [Timed.handled, hstarted, List.nil_append] at hbegun
    rw [List.eq_of_mem_replicate hbegun]
    exact hpast last hlast
  · intro hne
    exact absurd (hincoming.trans hempty) hne

theorem InTime.rest (h : InTime inst interval r t) {i : ℕ} {naps : Naps 30} {begun : ℚ} {s : Rounds}
    (hbegun : t.started[i]? = some begun) (hrested : Timed.Rested interval naps begun t.now)
    (hs : Retry.step inst (.enqueue i) t.rounds = some s) :
    InTime inst interval r { t with rounds := s, started := t.started.eraseIdx i } := by
  have hreached := reached_step h.reached hs
  obtain ⟨args, hargs, rfl⟩ := Option.map_eq_some_iff.mp hs
  obtain ⟨hlt, -⟩ := List.getElem?_eq_some_iff.mp hbegun
  obtain ⟨hle, -, hdone⟩ := hrested
  refine ⟨hreached, h.apart, h.runs, h.past, ?_, ?_, ?_⟩
  · have hlength := h.deferrers
    simp only [Rounds.enqueue, List.length_eraseIdx]
    rw [hlength]
  · intro b hb last hlast
    exact h.started b (List.mem_of_mem_eraseIdx hb) last hlast
  · intro _ last hlast
    have hfirst := h.started begun (List.mem_of_getElem? hbegun) last hlast
    have hlate := deferrerDone_late interval naps
    dsimp only
    linarith

theorem InTime.lose (h : InTime inst interval r t) {i : ℕ} {s : Rounds}
    (hs : Retry.step inst (.lose i) t.rounds = some s) :
    InTime inst interval r { t with rounds := s, started := t.started.eraseIdx i } := by
  have hreached := reached_step h.reached hs
  obtain ⟨args, hargs, rfl⟩ := Option.map_eq_some_iff.mp hs
  refine ⟨hreached, h.apart, h.runs, h.past, ?_, ?_, h.incoming⟩
  · have hlength := h.deferrers
    simp only [List.length_eraseIdx]
    rw [hlength]
  · intro b hb last hlast
    exact h.started b (List.mem_of_mem_eraseIdx hb) last hlast

theorem InTime.step {a : TimedRound} (h : InTime inst interval r t)
    (hstep : Timed.step inst interval a t = some t') : InTime inst interval r t' := by
  cases a with
  | pass d =>
    obtain rfl := Option.some.inj hstep
    have hd : (0 : ℚ) ≤ d := d.2
    refine ⟨h.reached, h.apart, h.runs, ?_, h.deferrers, h.started, ?_⟩
    · intro last hlast
      have hle := h.past last hlast
      dsimp only
      linarith
    · exact fun hne => (h.incoming hne).mono le_rfl (by dsimp only; linarith)
  | handle i uuid env outroot d =>
    obtain ⟨s, hs, rfl⟩ := Option.map_eq_some_iff.mp hstep
    exact h.handle hs
  | enqueue i naps =>
    simp only [Timed.step] at hstep
    split at hstep
    next => cases hstep
    next begun hbegun =>
      split at hstep
      next hrested =>
        obtain ⟨s, hs, rfl⟩ := Option.map_eq_some_iff.mp hstep
        exact h.rest hbegun hrested hs
      next => cases hstep
  | lose i =>
    obtain ⟨s, hs, rfl⟩ := Option.map_eq_some_iff.mp hstep
    exact h.lose hs

/-- In every run of the rounds of an accepted request, whatever the servers answer and however
long everything takes, an attempt comes more than the interval less a second after the one
before. -/
theorem attempts_apart (hr : Accepted r) {now : ℚ} {as : List TimedRound}
    (hrun : run (Timed.step inst interval) as (Timed.start r now) = some t) :
    t.cloned.length = t.rounds.srids.length ∧
      t.cloned.IsChain fun a b => (interval : ℚ) - 1 < b - a := by
  have h : InTime inst interval r t := by
    refine @run_invariant _ _ _ _ _ _ (InTime inst interval r) (fun _ => True) ?_ ?_
      (inTime_start hr now) hrun
    · intro a t t' _ ht hstep
      exact ht.step hstep
    · intro a _
      trivial
  exact ⟨h.runs, h.apart⟩

end Invariant

section Example

/-- Naps that take no longer than they are asked to. -/
def restful : Naps 30 where
  begin := 2
  lead := 0
  lead_nonneg := le_rfl
  period_pos := by decide
  asleep _ := 30
  period_le _ := by norm_num
  busy _ := 0
  busy_nonneg _ := le_rfl

theorem deferrerDone_restful : deferrerDone 30 restful = 32 := by
  have h₀ : restful.elapsed 0 < 30 := by norm_num [elapsed, head, restful]
  have h₁ : ¬ restful.elapsed (0 + 1) < 30 := by norm_num [elapsed, head, restful]
  unfold deferrerDone
  rw [wait, if_pos h₀, wait, if_neg h₁]
  norm_num [head, restful]

def secondRequest : Dispatch.Request := { tryRequest with srid := some "5e1", attempt := 2 }

/-- A try run whose server cannot be reached, twice. -/
def twice : List TimedRound :=
  [.handle 0 "5e1" unreachable ∅ 2, .pass 100, .enqueue 0 restful, .handle 0 "5e2" unreachable ∅ 2]

theorem run_twice :
    (run (Timed.step installation 30) twice (Timed.start tryRequest 0)).isSome = true := by
  let args := (clonerOf installation.settings installation.cfg tryRequest "5e1").deferArgs
    unreachable.pidfile
  have hrested : Timed.Rested 30 restful (0 + (2 : ℚ≥0)) (0 + (2 : ℚ≥0) + (100 : ℚ≥0)) := by
    refine ⟨?_, rfl, ?_⟩
    · norm_num [restful]
    · rw [deferrerDone_restful]
      norm_num
  have h₁ : Timed.step installation 30 (.handle 0 "5e1" unreachable ∅ 2)
      (Timed.start tryRequest 0) =
        some ⟨⟨[], [args], ["5e1"], []⟩, 0 + (2 : ℚ≥0), [0 + (2 : ℚ≥0)], [0]⟩ := rfl
  have h₂ : Timed.step installation 30 (.enqueue 0 restful)
      ⟨⟨[], [args], ["5e1"], []⟩, 0 + (2 : ℚ≥0) + (100 : ℚ≥0), [0 + (2 : ℚ≥0)], [0]⟩ =
        some ⟨⟨[secondRequest], [], ["5e1"], [secondRequest]⟩, 0 + (2 : ℚ≥0) + (100 : ℚ≥0), [],
          [0]⟩ := by
    simp only [Timed.step, List.getElem?_cons_zero, if_pos hrested]
    rfl
  rw [twice, run, h₁, Option.bind_some, run, Timed.step, Option.bind_some, run, h₂,
    Option.bind_some]
  rfl

theorem attempts_apart_unreachable : ∃ t,
    run (Timed.step installation 30) twice (Timed.start tryRequest 0) = some t ∧
      t.cloned.length = t.rounds.srids.length ∧
      t.cloned.IsChain fun a b => ((30 : ℤ) : ℚ) - 1 < b - a := by
  obtain ⟨t, hrun⟩ := Option.isSome_iff_exists.mp run_twice
  have haccepted : Accepted tryRequest := (@enqueue_some installation.keys false
    "dev@example.com" "abc123" ["gsm", "umts"] ["linux"] none 1 tryRequest rfl).1
  exact ⟨_, hrun, attempts_apart haccepted hrun⟩

end Example

end StoneRidge.Retry
