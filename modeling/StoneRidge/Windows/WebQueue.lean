import StoneRidge.Dispatch.Messages
import StoneRidge.Kit.AckQueue
import StoneRidge.Kit.Machine

/-!
# The web queue of the Windows worker

The proxy takes the messages of the Windows queue out of the broker and inserts them
into a table (`windows/srmqproxy.py:13-25`); the web server hands out the first row
that is not done, which it marks first (`windows/srwebmq.py:16-32`). The server takes
one request at a time. Its process, and the response on its way to the worker, can be
lost between any two steps.
-/

set_option autoImplicit false

namespace StoneRidge.Windows
open StoneRidge.Kit.AckQueue StoneRidge.Kit.Machine StoneRidge.Dispatch

structure Row where
  id : ℕ
  config : RunMessage
  deriving DecidableEq

inductive ProxyJob where
  | inserting
  | inserted
  deriving DecidableEq

/-- How far `get_next` is. -/
inductive Server where
  | idle
  | selected (row : Option Row)
  | responding (row : Option Row)
  deriving DecidableEq

structure WebQueue where
  queue : Queue RunMessage ProxyJob
  /-- The table `runs` in order of id, with the column `done`. -/
  runs : List (Row × Bool)
  server : Server
  /-- The rows that have arrived at the worker. -/
  received : List Row

def WebQueue.init : WebQueue := ⟨.empty, [], .idle, []⟩

inductive Action where
  | publish (m : RunMessage)
  | deliver (i : ℕ)
  | insert
  | ack
  | proxyCrash
  | proxyDisconnect
  | request
  | commit
  | serverCrash
  | arrive
  | lose
  deriving DecidableEq

namespace WebQueue

/-- The rows that are not done, the first of which `get_next` selects. -/
def waiting (s : WebQueue) : List Row := (s.runs.filter fun r => !r.2).map Prod.fst

def rows (s : WebQueue) : List Row := s.runs.map Prod.fst

/-- The next id is one more than the largest; no row is ever deleted. -/
def insertRow (s : WebQueue) (m : RunMessage) : WebQueue :=
  { s with runs := s.runs ++ [(⟨s.runs.length + 1, m⟩, false)] }

/-- `UPDATE runs SET done = ? WHERE id = ?`. -/
def mark (s : WebQueue) (id : ℕ) : WebQueue :=
  { s with runs := s.runs.map fun r => if r.1.id = id then (r.1, true) else r }

end WebQueue

def step (a : Action) (s : WebQueue) : Option WebQueue :=
  match a with
  | .publish m => some { s with queue := s.queue.publish m }
  | .deliver i => (s.queue.deliver i fun _ => .inserting).map fun q => { s with queue := q }
  | .insert =>
    match s.queue.task with
    | some ⟨m, _, .inserting⟩ => some { s.insertRow m with queue := s.queue.setJob .inserted }
    | _ => none
  | .ack =>
    match s.queue.task with
    | some ⟨_, _, .inserted⟩ => some { s with queue := s.queue.ack }
    | _ => none
  | .proxyCrash => some { s with queue := s.queue.crash }
  | .proxyDisconnect => some { s with queue := s.queue.disconnect }
  | .request =>
    match s.server with
    | .idle => some { s with server := .selected s.waiting.head? }
    | _ => none
  | .commit =>
    match s.server with
    | .selected (some r) => some { s.mark r.id with server := .responding (some r) }
    | .selected none => some { s with server := .responding none }
    | _ => none
  | .serverCrash =>
    match s.server with
    | .selected _ => some { s with server := .idle }
    | _ => none
  | .arrive =>
    match s.server with
    | .responding row => some { s with server := .idle, received := s.received ++ row.toList }
    | _ => none
  | .lose =>
    match s.server with
    | .responding _ => some { s with server := .idle }
    | _ => none

/-! ### What the queue is for -/

namespace WebQueue

/-- The row in a response that is on its way. -/
def inFlight (s : WebQueue) : List Row :=
  match s.server with
  | .responding (some r) => [r]
  | _ => []

/-- A message that was published is in the broker or in the table. -/
def Kept (s : WebQueue) : Prop :=
  ∀ m ∈ s.queue.published, m ∈ s.queue.unacked ∨ ∃ r ∈ s.rows, r.config = m

/-- Each row has arrived, or is on its way, or waits, and in order of id. -/
def Accounted (s : WebQueue) : Prop := s.received ++ s.inFlight ++ s.waiting = s.rows

/-- Polls whose responses arrive bring the worker every row exactly once and in order. -/
def Drains (s : WebQueue) : Prop :=
  ∃ as t, (∀ a ∈ as, a = Action.request ∨ a = .commit ∨ a = .arrive) ∧ run step as s = some t ∧
    t.rows = s.rows ∧ t.received = s.rows

structure HandsOut (s : WebQueue) : Prop where
  kept : s.Kept
  accounted : s.Accounted
  drains : s.Drains

end WebQueue

/-- No step of the run loses a response that carries a row. -/
def Lossless : List Action → WebQueue → Prop
  | [], _ => True
  | a :: as, s => (a = .lose → s.inFlight = []) ∧ ∀ s', step a s = some s' → Lossless as s'

/-! ### The table -/

namespace WebQueue
variable {s s' : WebQueue} {a : Action}

/-- The done rows come first, the ids count up, and a selected row is the first to wait. -/
structure Inv (s : WebQueue) : Prop where
  ids : s.rows.map Row.id = List.range' 1 s.runs.length
  prefixed : ∃ done, s.rows = done ++ s.waiting ∧
    s.received.length + s.inFlight.length ≤ done.length
  selected : ∀ r, s.server = .selected (some r) → s.waiting.head? = some r

theorem inv_init : Inv init := by
  refine ⟨rfl, ⟨[], rfl, Nat.le_refl 0⟩, ?_⟩
  intro r h
  cases h

theorem rows_mark (s : WebQueue) (id : ℕ) : (s.mark id).rows = s.rows := by
  unfold rows mark
  rw [List.map_map]
  apply List.map_congr_left
  intro r _
  rw [Function.comp_apply]
  split <;> rfl

theorem waiting_mark (s : WebQueue) (id : ℕ) :
    (s.mark id).waiting = s.waiting.filter fun r => r.id ≠ id := by
  unfold waiting mark
  induction s.runs with
  | nil => rfl
  | cons r runs ih =>
    obtain ⟨row, done⟩ := r
    by_cases hid : row.id = id
    · cases done <;> simp_all
    · cases done <;> simp_all

theorem rows_insertRow (s : WebQueue) (m : RunMessage) :
    (s.insertRow m).rows = s.rows ++ [⟨s.runs.length + 1, m⟩] := by
  simp [rows, insertRow]

theorem waiting_insertRow (s : WebQueue) (m : RunMessage) :
    (s.insertRow m).waiting = s.waiting ++ [⟨s.runs.length + 1, m⟩] := by
  simp [waiting, insertRow]

theorem waiting_sublist (s : WebQueue) : List.Sublist s.waiting s.rows :=
  List.filter_sublist.map Prod.fst

/-- Marking the selected row takes it from those that wait. -/
theorem Inv.waiting_mark (h : s.Inv) {r : Row} (hr : s.waiting.head? = some r) :
    s.waiting = r :: (s.mark r.id).waiting := by
  have hnodup : (s.waiting.map Row.id).Nodup := by
    apply (s.waiting_sublist.map Row.id).nodup
    rw [h.ids]
    exact List.nodup_range'
  rw [WebQueue.waiting_mark]
  cases hw : s.waiting with
  | nil =>
    rw [hw] at hr
    cases hr
  | cons x rest =>
    rw [hw] at hr hnodup
    obtain rfl := Option.some.inj hr
    rw [List.map_cons, List.nodup_cons] at hnodup
    rw [List.filter_cons_of_neg (by simp), List.filter_eq_self.mpr]
    intro y hy
    have hne : y.id ≠ x.id := by
      intro heq
      exact hnodup.1 (heq ▸ List.mem_map_of_mem hy)
    simpa using hne

theorem Inv.insertRow (h : s.Inv) (m : RunMessage) : (s.insertRow m).Inv := by
  obtain ⟨done, hrows, hle⟩ := h.prefixed
  refine ⟨?_, ⟨done, ?_, hle⟩, ?_⟩
  · rw [rows_insertRow, List.map_append, h.ids]
    show _ = List.range' 1 (s.runs ++ [_]).length
    rw [List.length_append, List.length_singleton, List.range'_concat]
    simp [Nat.add_comm]
  · rw [rows_insertRow, waiting_insertRow, hrows, List.append_assoc]
  · intro r hr
    rw [waiting_insertRow, List.head?_append, h.selected r hr]
    rfl

end WebQueue

/-! ### What a step does to the table and to the responses -/

section Steps
variable {s s' : WebQueue} {a : Action}

inductive Change (a : Action) (s : WebQueue) : WebQueue → Prop where
  | queue (q : Queue RunMessage ProxyJob) : Change a s { s with queue := q }
  | inserted (m : RunMessage) (q : Queue RunMessage ProxyJob) :
      Change a s { s.insertRow m with queue := q }
  | selected (h : s.server = .idle) : Change a s { s with server := .selected s.waiting.head? }
  | marked (r : Row) (h : s.server = .selected (some r)) :
      Change a s { s.mark r.id with server := .responding (some r) }
  /-- The server goes on, with no row on its way before or after. -/
  | quiet (v : Server) (h : s.inFlight = []) (hv : v = .idle ∨ v = .responding none) :
      Change a s { s with server := v }
  | arrived (r : Row) (h : s.server = .responding (some r)) :
      Change a s { s with server := .idle, received := s.received ++ [r] }
  | lost (r : Row) (ha : a = .lose) (h : s.server = .responding (some r)) :
      Change a s { s with server := .idle }

theorem change_of_step (h : step a s = some s') : Change a s s' := by
  cases a with
  | publish m =>
    obtain rfl := Option.some.inj h
    exact .queue _
  | deliver i =>
    obtain ⟨q, _, rfl⟩ := Option.map_eq_some_iff.mp h
    exact .queue q
  | insert =>
    simp only [step] at h
    split at h
    · obtain rfl := Option.some.inj h
      exact .inserted _ _
    · cases h
  | ack =>
    simp only [step] at h
    split at h
    · obtain rfl := Option.some.inj h
      exact .queue _
    · cases h
  | proxyCrash =>
    obtain rfl := Option.some.inj h
    exact .queue _
  | proxyDisconnect =>
    obtain rfl := Option.some.inj h
    exact .queue _
  | request =>
    cases hs : s.server with
    | idle =>
      simp only [step, hs] at h
      obtain rfl := Option.some.inj h
      exact .selected hs
    | selected row => simp [step, hs] at h
    | responding row => simp [step, hs] at h
  | commit =>
    cases hs : s.server with
    | idle => simp [step, hs] at h
    | responding row => simp [step, hs] at h
    | selected row =>
      cases row with
      | none =>
        simp only [step, hs] at h
        obtain rfl := Option.some.inj h
        exact .quiet _ (by simp [WebQueue.inFlight, hs]) (.inr rfl)
      | some r =>
        simp only [step, hs] at h
        obtain rfl := Option.some.inj h
        exact .marked r hs
  | serverCrash =>
    cases hs : s.server with
    | idle => simp [step, hs] at h
    | responding row => simp [step, hs] at h
    | selected row =>
      simp only [step, hs] at h
      obtain rfl := Option.some.inj h
      exact .quiet _ (by simp [WebQueue.inFlight, hs]) (.inl rfl)
  | arrive =>
    cases hs : s.server with
    | idle => simp [step, hs] at h
    | selected row => simp [step, hs] at h
    | responding row =>
      simp only [step, hs] at h
      obtain rfl := Option.some.inj h
      cases row with
      | none =>
        simp only [Option.toList_none, List.append_nil]
        exact .quiet _ (by simp [WebQueue.inFlight, hs]) (.inl rfl)
      | some r => exact .arrived r hs
  | lose =>
    cases hs : s.server with
    | idle => simp [step, hs] at h
    | selected row => simp [step, hs] at h
    | responding row =>
      simp only [step, hs] at h
      obtain rfl := Option.some.inj h
      cases row with
      | none => exact .quiet _ (by simp [WebQueue.inFlight, hs]) (.inl rfl)
      | some r => exact .lost r rfl hs

namespace WebQueue

theorem inFlight_selected {row : Option Row} (h : s.server = .selected row) : s.inFlight = [] := by
  simp [inFlight, h]

theorem inFlight_responding {r : Row} (h : s.server = .responding (some r)) :
    s.inFlight = [r] := by
  simp [inFlight, h]

/-- The rows that a response has carried, or will if none is lost. -/
def handed (s : WebQueue) : ℕ := s.received.length + s.inFlight.length + s.waiting.length

theorem Inv.handed_le (h : s.Inv) : s.handed ≤ s.rows.length := by
  obtain ⟨done, hrows, hle⟩ := h.prefixed
  have hlen := congrArg List.length hrows
  rw [List.length_append] at hlen
  unfold handed
  omega

theorem Accounted.handed (h : s.Accounted) : s.handed = s.rows.length := by
  unfold WebQueue.handed
  rw [← h, List.length_append, List.length_append]

theorem inv_change (hi : s.Inv) (h : Change a s s') : s'.Inv := by
  obtain ⟨done, hrows, hle⟩ := hi.prefixed
  cases h with
  | queue q => exact ⟨hi.ids, hi.prefixed, hi.selected⟩
  | inserted m q =>
    have hi' := hi.insertRow m
    exact ⟨hi'.ids, hi'.prefixed, hi'.selected⟩
  | selected hs =>
    refine ⟨hi.ids, ⟨done, hrows, ?_⟩, ?_⟩
    · show s.received.length + 0 ≤ done.length
      omega
    · intro r hr
      exact Server.selected.inj hr
  | marked r hs =>
    have hwaiting := hi.waiting_mark (hi.selected r hs)
    refine ⟨?_, ⟨done ++ [r], ?_, ?_⟩, ?_⟩
    · show (s.mark r.id).rows.map Row.id = List.range' 1 (s.runs.map _).length
      rw [rows_mark, hi.ids, List.length_map]
    · show (s.mark r.id).rows = done ++ [r] ++ (s.mark r.id).waiting
      rw [rows_mark, hrows, hwaiting, List.append_assoc]
      rfl
    · show s.received.length + 1 ≤ (done ++ [r]).length
      rw [List.length_append, List.length_singleton]
      omega
    · intro x hx
      cases hx
  | quiet v hs hv =>
    rcases hv with rfl | rfl
    · refine ⟨hi.ids, ⟨done, hrows, ?_⟩, fun r hr => by cases hr⟩
      show s.received.length + 0 ≤ done.length
      omega
    · refine ⟨hi.ids, ⟨done, hrows, ?_⟩, fun r hr => by cases hr⟩
      show s.received.length + 0 ≤ done.length
      omega
  | arrived r hs =>
    rw [inFlight_responding hs, List.length_singleton] at hle
    refine ⟨hi.ids, ⟨done, hrows, ?_⟩, fun x hx => by cases hx⟩
    show (s.received ++ [r]).length + 0 ≤ done.length
    rw [List.length_append, List.length_singleton]
    omega
  | lost r ha hs =>
    refine ⟨hi.ids, ⟨done, hrows, ?_⟩, fun x hx => by cases hx⟩
    show s.received.length + 0 ≤ done.length
    omega

theorem accounted_change (hi : s.Inv) (hacc : s.Accounted) (hlose : a = .lose → s.inFlight = [])
    (h : Change a s s') : s'.Accounted := by
  unfold Accounted at hacc ⊢
  cases h with
  | queue q => exact hacc
  | inserted m q =>
    show s.received ++ s.inFlight ++ (s.insertRow m).waiting = (s.insertRow m).rows
    rw [waiting_insertRow, rows_insertRow, ← hacc, ← List.append_assoc]
  | selected hs =>
    have hnone : s.inFlight = [] := by simp [inFlight, hs]
    rw [hnone] at hacc
    exact hacc
  | marked r hs =>
    have hwaiting := hi.waiting_mark (hi.selected r hs)
    rw [inFlight_selected hs, List.append_nil] at hacc
    show s.received ++ [r] ++ (s.mark r.id).waiting = (s.mark r.id).rows
    rw [rows_mark, ← hacc, hwaiting, List.append_assoc]
    rfl
  | quiet v hs hv =>
    rw [hs] at hacc
    rcases hv with rfl | rfl <;> exact hacc
  | arrived r hs =>
    rw [inFlight_responding hs] at hacc
    show s.received ++ [r] ++ [] ++ s.waiting = s.rows
    rw [List.append_nil]
    exact hacc
  | lost r ha hs =>
    rw [inFlight_responding hs] at hlose
    cases hlose ha

/-- Rows that are missing from the account never come back. -/
theorem behind_change (hi : s.Inv) (hlt : s.handed < s.rows.length) (h : Change a s s') :
    s'.handed < s'.rows.length := by
  unfold handed at hlt ⊢
  cases h with
  | queue q => exact hlt
  | inserted m q =>
    show s.received.length + s.inFlight.length + (s.insertRow m).waiting.length <
      (s.insertRow m).rows.length
    rw [waiting_insertRow, rows_insertRow, List.length_append, List.length_append,
      List.length_singleton]
    omega
  | selected hs =>
    show s.received.length + 0 + s.waiting.length < s.rows.length
    omega
  | marked r hs =>
    have hwaiting := congrArg List.length (hi.waiting_mark (hi.selected r hs))
    rw [List.length_cons] at hwaiting
    show s.received.length + 1 + (s.mark r.id).waiting.length < (s.mark r.id).rows.length
    rw [rows_mark]
    omega
  | quiet v hs hv =>
    rcases hv with rfl | rfl
    · show s.received.length + 0 + s.waiting.length < s.rows.length
      omega
    · show s.received.length + 0 + s.waiting.length < s.rows.length
      omega
  | arrived r hs =>
    rw [inFlight_responding hs, List.length_singleton] at hlt
    show (s.received ++ [r]).length + 0 + s.waiting.length < s.rows.length
    rw [List.length_append, List.length_singleton]
    omega
  | lost r ha hs =>
    show s.received.length + 0 + s.waiting.length < s.rows.length
    omega

theorem behind_of_lose (hi : s.Inv) (hrow : s.inFlight ≠ []) (h : step .lose s = some s') :
    s'.handed < s'.rows.length := by
  have hle := hi.handed_le
  unfold handed at hle ⊢
  unfold inFlight at hrow hle
  cases hs : s.server with
  | idle => simp [hs] at hrow
  | selected row => simp [hs] at hrow
  | responding row =>
    simp only [step, hs] at h
    obtain rfl := Option.some.inj h
    cases row with
    | none => simp [hs] at hrow
    | some r =>
      simp only [hs, List.length_singleton] at hle
      show s.received.length + 0 + s.waiting.length < s.rows.length
      omega

end WebQueue

/-- In a run that starts with a true account, the account stays true exactly if no
row is lost. -/
theorem accounted_run_iff {as : List Action} (hi : s.Inv) (hacc : s.Accounted)
    (h : run step as s = some s') : s'.Accounted ↔ Lossless as s := by
  induction as generalizing s with
  | nil =>
    obtain rfl := Option.some.inj h
    exact iff_of_true hacc trivial
  | cons a as ih =>
    obtain ⟨t, hstep, hrest⟩ := run_cons h
    have hchange := change_of_step hstep
    have hi' := WebQueue.inv_change hi hchange
    by_cases hlose : a = .lose → s.inFlight = []
    · rw [ih hi' (WebQueue.accounted_change hi hacc hlose hchange) hrest]
      constructor
      · intro hl
        refine ⟨hlose, ?_⟩
        intro t' ht'
        obtain rfl := Option.some.inj (hstep.symm.trans ht')
        exact hl
      · intro hl
        exact hl.2 t hstep
    · refine iff_of_false ?_ fun hl => hlose hl.1
      push Not at hlose
      obtain ⟨rfl, hrow⟩ := hlose
      have hbehind := @run_invariant _ _ _ _ _ _
        (fun t => t.Inv ∧ t.handed < t.rows.length) (fun _ => True)
        (fun b u u' _ hu hb => ⟨WebQueue.inv_change hu.1 (change_of_step hb),
          WebQueue.behind_change hu.1 hu.2 (change_of_step hb)⟩)
        (fun _ _ => trivial) ⟨hi', WebQueue.behind_of_lose hi hrow hstep⟩ hrest
      intro hacc'
      have heq := hacc'.handed
      omega

end Steps

end StoneRidge.Windows
