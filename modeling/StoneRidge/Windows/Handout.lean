import StoneRidge.Windows.WebQueue

/-!
# Whether the worker gets every row

The table keeps every message, and as long as no response with a row is lost the rows
reach the worker once each and in order. `get_next` marks a row before it responds
(`windows/srwebmq.py:23-26`), so a response that is lost takes its row with it.
-/

set_option autoImplicit false

namespace StoneRidge.Windows
open StoneRidge.Kit.AckQueue StoneRidge.Kit.Machine StoneRidge.Dispatch

/-! ### From the broker into the table -/

section Kept
variable {s s' : WebQueue} {a : Action}

/-- The message that the proxy works on has a row once it is inserted. -/
def Stored (rows : List Row) (m : RunMessage) (j : ProxyJob) : Prop :=
  j = .inserted → ∃ r ∈ rows, r.config = m

structure Proxied (s : WebQueue) : Prop where
  kept : s.Kept
  working : s.queue.Working (Stored s.rows)

theorem proxied_init : Proxied WebQueue.init := by
  refine ⟨?_, Queue.working_empty⟩
  intro m hm
  cases hm

theorem Proxied.frame (h : Proxied s) (hqueue : s'.queue = s.queue) (hrows : s'.rows = s.rows) :
    Proxied s' := by
  refine ⟨?_, ?_⟩
  · unfold WebQueue.Kept
    rw [hqueue, hrows]
    exact h.kept
  · rw [hqueue, hrows]
    exact h.working

theorem Proxied.insert (h : Proxied s) {t : Task RunMessage ProxyJob} (ht : s.queue.task = some t) :
    Proxied { s.insertRow t.msg with queue := s.queue.setJob .inserted } := by
  have hrows : (s.insertRow t.msg).rows = s.rows ++ [⟨s.runs.length + 1, t.msg⟩] :=
    s.rows_insertRow t.msg
  refine ⟨?_, ?_⟩
  · intro m hm
    rcases h.kept m hm with hm | ⟨r, hr, hconfig⟩
    · refine .inl ?_
      show m ∈ (s.queue.setJob .inserted).unacked
      rw [Queue.unacked_setJob]
      exact hm
    · refine .inr ⟨r, ?_, hconfig⟩
      show r ∈ (s.insertRow t.msg).rows
      rw [hrows]
      exact List.mem_append_left _ hr
  · refine Queue.Working.setJob ht ?_
    intro _
    refine ⟨⟨s.runs.length + 1, t.msg⟩, ?_, rfl⟩
    show _ ∈ (s.insertRow t.msg).rows
    rw [hrows]
    exact List.mem_append_right _ List.mem_cons_self

theorem Proxied.ack (h : Proxied s) {t : Task RunMessage ProxyJob} (ht : s.queue.task = some t)
    (hjob : t.job = .inserted) : Proxied { s with queue := s.queue.ack } := by
  refine ⟨?_, Queue.working_ack⟩
  intro m hm
  rcases h.kept m hm with hm | hm
  · rcases Queue.mem_unacked_of_ack ht hm with rfl | hm
    · exact .inr (h.working t ht hjob)
    · exact .inl hm
  · exact .inr hm

theorem proxied_step (h : Proxied s) (hstep : step a s = some s') : Proxied s' := by
  cases a with
  | publish m =>
    obtain rfl := Option.some.inj hstep
    refine ⟨?_, h.working⟩
    intro m' hm'
    show m' ∈ (s.queue.publish m).unacked ∨ _
    rw [Queue.unacked_publish]
    rcases List.mem_append.mp hm' with hm' | hm'
    · rcases h.kept m' hm' with hm' | hm'
      · exact .inl (List.mem_append_left _ hm')
      · exact .inr hm'
    · exact .inl (List.mem_append_right _ hm')
  | deliver i =>
    obtain ⟨q, hq, rfl⟩ := Option.map_eq_some_iff.mp hstep
    refine ⟨?_, Queue.Working.deliver hq fun m _ hj => by cases hj⟩
    have hpublished : q.published = s.queue.published := by
      obtain ⟨_, _, _, _, rfl⟩ := Queue.deliver_spec hq
      rfl
    intro m hm
    rcases h.kept m (hpublished ▸ hm) with hm | hm
    · exact .inl ((Queue.unacked_deliver hq).mem_iff.mpr hm)
    · exact .inr hm
  | insert =>
    simp only [step] at hstep
    split at hstep
    · rename_i htask
      obtain rfl := Option.some.inj hstep
      exact h.insert htask
    · cases hstep
  | ack =>
    simp only [step] at hstep
    split at hstep
    · rename_i htask
      obtain rfl := Option.some.inj hstep
      exact h.ack htask rfl
    · cases hstep
  | proxyCrash =>
    obtain rfl := Option.some.inj hstep
    exact ⟨h.kept, Queue.working_crash⟩
  | proxyDisconnect =>
    obtain rfl := Option.some.inj hstep
    refine ⟨?_, h.working.disconnect⟩
    intro m hm
    show m ∈ s.queue.disconnect.unacked ∨ _
    rw [Queue.unacked_disconnect]
    exact h.kept m hm
  | request =>
    cases hs : s.server <;> simp only [step, hs] at hstep <;> cases hstep
    exact h.frame rfl rfl
  | commit =>
    cases hs : s.server with
    | idle => simp [step, hs] at hstep
    | responding row => simp [step, hs] at hstep
    | selected row =>
      cases row with
      | none =>
        simp only [step, hs] at hstep
        cases hstep
        exact h.frame rfl rfl
      | some r =>
        simp only [step, hs] at hstep
        cases hstep
        exact h.frame rfl (s.rows_mark r.id)
  | serverCrash =>
    cases hs : s.server <;> simp only [step, hs] at hstep <;> cases hstep
    exact h.frame rfl rfl
  | arrive =>
    cases hs : s.server <;> simp only [step, hs] at hstep <;> cases hstep
    exact h.frame rfl rfl
  | lose =>
    cases hs : s.server <;> simp only [step, hs] at hstep <;> cases hstep
    exact h.frame rfl rfl

end Kept

/-! ### From the table to the worker -/

section Drains
variable {s s' t : WebQueue}

/-- A step of a poll whose response arrives. -/
def Polling (a : Action) : Prop := a = .request ∨ a = .commit ∨ a = .arrive

/-- From `s`, polls reach `t` without another row being inserted. -/
def Polls (s t : WebQueue) : Prop :=
  ∃ as, (∀ a ∈ as, Polling a) ∧ run step as s = some t ∧ t.rows = s.rows

theorem Polls.refl (s : WebQueue) : Polls s s := ⟨[], by simp, rfl, rfl⟩

theorem Polls.head {a : Action} (ha : Polling a) (hstep : step a s = some s')
    (hrows : s'.rows = s.rows) (h : Polls s' t) : Polls s t := by
  obtain ⟨as, has, hrun, htr⟩ := h
  refine ⟨a :: as, ?_, ?_, htr.trans hrows⟩
  · intro b hb
    rcases List.mem_cons.mp hb with rfl | hb
    · exact ha
    · exact has b hb
  · show (step a s).bind (run step as) = some t
    rw [hstep]
    exact hrun

/-- A poll at an idle server takes the first row that waits. -/
theorem polls_idle (hi : s.Inv) (hidle : s.server = .idle) : ∀ n, s.waiting.length = n →
    ∃ t, Polls s t ∧ t.server = .idle ∧ t.waiting = [] := by
  intro n
  induction n generalizing s with
  | zero =>
    intro hn
    exact ⟨s, Polls.refl s, hidle, List.length_eq_zero_iff.mp hn⟩
  | succ n ih =>
    intro hn
    obtain ⟨r, rest, hw⟩ := List.exists_cons_of_length_eq_add_one hn
    have hhead : s.waiting.head? = some r := by
      rw [hw]
      rfl
    have hwaiting := hi.waiting_mark hhead
    have hrequest : step .request s = some { s with server := .selected (some r) } := by
      simp only [step, hidle, hhead]
    have hi₁ := WebQueue.inv_change hi (change_of_step hrequest)
    have hcommit : step .commit { s with server := .selected (some r) } =
        some { s.mark r.id with server := .responding (some r) } := rfl
    have hi₂ := WebQueue.inv_change hi₁ (change_of_step hcommit)
    have harrive : step .arrive { s.mark r.id with server := .responding (some r) } =
        some { s.mark r.id with server := .idle, received := s.received ++ [r] } := rfl
    have hi₃ := WebQueue.inv_change hi₂ (change_of_step harrive)
    have hrest : (s.mark r.id).waiting.length = n := by
      have hlen := congrArg List.length hwaiting
      rw [List.length_cons] at hlen
      omega
    obtain ⟨t, hpolls, ht⟩ := ih hi₃ rfl hrest
    refine ⟨t, ?_, ht⟩
    refine Polls.head (.inl rfl) hrequest rfl ?_
    refine Polls.head (.inr (.inl rfl)) hcommit (s.rows_mark r.id) ?_
    exact Polls.head (.inr (.inr rfl)) harrive rfl hpolls

/-- Whatever the server is at, polls can bring every row that waits. -/
theorem polls_all (hi : s.Inv) : ∃ t, Polls s t ∧ t.server = .idle ∧ t.waiting = [] := by
  have harrive : ∀ u : WebQueue, u.Inv → (∃ row, u.server = .responding row) →
      ∃ t, Polls u t ∧ t.server = .idle ∧ t.waiting = [] := by
    intro u hu ⟨row, hrow⟩
    have hstep : step .arrive u =
        some { u with server := .idle, received := u.received ++ row.toList } := by
      simp only [step, hrow]
    obtain ⟨t, hpolls, ht⟩ :=
      polls_idle (WebQueue.inv_change hu (change_of_step hstep)) rfl _ rfl
    exact ⟨t, Polls.head (.inr (.inr rfl)) hstep rfl hpolls, ht⟩
  cases hs : s.server with
  | idle => exact polls_idle hi hs _ rfl
  | responding row => exact harrive s hi ⟨row, hs⟩
  | selected row =>
    cases row with
    | none =>
      have hstep : step .commit s = some { s with server := .responding none } := by
        simp only [step, hs]
      obtain ⟨t, hpolls, ht⟩ :=
        harrive _ (WebQueue.inv_change hi (change_of_step hstep)) ⟨none, rfl⟩
      exact ⟨t, Polls.head (.inr (.inl rfl)) hstep rfl hpolls, ht⟩
    | some r =>
      have hstep : step .commit s =
          some { s.mark r.id with server := .responding (some r) } := by
        simp only [step, hs]
      obtain ⟨t, hpolls, ht⟩ :=
        harrive _ (WebQueue.inv_change hi (change_of_step hstep)) ⟨some r, rfl⟩
      exact ⟨t, Polls.head (.inr (.inl rfl)) hstep (s.rows_mark r.id) hpolls, ht⟩

theorem lossless_of_polling {as : List Action} (h : ∀ a ∈ as, Polling a) (s : WebQueue) :
    Lossless as s := by
  induction as generalizing s with
  | nil => trivial
  | cons a as ih =>
    refine ⟨?_, fun s' _ => ih (fun b hb => h b (List.mem_cons_of_mem a hb)) s'⟩
    intro ha
    rcases h a List.mem_cons_self with h | h | h <;> cases ha.symm.trans h

theorem drains_of_accounted (hi : s.Inv) (h : s.Accounted) : s.Drains := by
  obtain ⟨t, ⟨as, has, hrun, hrows⟩, hidle, hwaiting⟩ := polls_all hi
  refine ⟨as, t, has, hrun, hrows, ?_⟩
  have hacc := (accounted_run_iff hi h hrun).mpr (lossless_of_polling has s)
  have hnone : t.inFlight = [] := by simp [WebQueue.inFlight, hidle]
  unfold WebQueue.Accounted at hacc
  rw [hnone, hwaiting, List.append_nil, List.append_nil] at hacc
  exact hacc.trans hrows

end Drains

/-- In every run, no message is lost before the table, and the worker gets each row
exactly once and in order exactly if no response that carries a row is lost. -/
theorem handsOut_iff_lossless {as : List Action} {s : WebQueue}
    (h : run step as .init = some s) : s.HandsOut ↔ Lossless as .init := by
  have hinv : s.Inv ∧ Proxied s := by
    refine @run_invariant _ _ _ _ _ _ (fun t => t.Inv ∧ Proxied t) (fun _ => True) ?_ ?_
      ⟨WebQueue.inv_init, proxied_init⟩ h
    · intro a t t' _ ht hstep
      exact ⟨WebQueue.inv_change ht.1 (change_of_step hstep), proxied_step ht.2 hstep⟩
    · intro a _
      trivial
  have hacc := accounted_run_iff WebQueue.inv_init rfl h
  constructor
  · intro hout
    exact hacc.mp hout.accounted
  · intro hl
    exact ⟨hinv.2.kept, hacc.mpr hl, drains_of_accounted hinv.1 (hacc.mpr hl)⟩

section Example

def windowsRun : RunMessage := ⟨"5e1", .gsm, 1000, "dev@example.com"⟩

def oneRow : List Action := [.publish windowsRun, .deliver 0, .insert, .ack, .request, .commit]

/-- A response that arrives. -/
theorem handsOut_iff_lossless_arrived :
    WebQueue.HandsOut ⟨⟨[windowsRun], [], none⟩, [(⟨1, windowsRun⟩, true)], .idle,
      [⟨1, windowsRun⟩]⟩ ↔ Lossless (oneRow ++ [.arrive]) .init :=
  handsOut_iff_lossless rfl

/-- The response is lost, and the row with it. -/
theorem row_lost_with_response :
    ¬ ∀ s, run step (oneRow ++ [.lose]) .init = some s → s.HandsOut := by
  intro h
  have hout := h ⟨⟨[windowsRun], [], none⟩, [(⟨1, windowsRun⟩, true)], .idle, []⟩ rfl
  have hacc : ([] : List Row) = [⟨1, windowsRun⟩] := hout.accounted
  cases hacc

end Example

end StoneRidge.Windows
