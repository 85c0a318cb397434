import StoneRidge.Worker.Recovery

/-!
# The shape of a whole run

`run_test` alternates stages with assignments to the flags. Read as a list of
steps it has, for each stage, the flags in force when the stage is started
(`plan`). A run that ends either went through the whole plan, or it stopped at
the first failing stage and appended the `Cleanup` for the flags in force there.
-/

set_option autoImplicit false

namespace StoneRidge.Worker
open StoneRidge.Kit.Exec

inductive Step where
  | call (c : Call)
  | assign (f : Flags → Flags)

def runSteps (run : Stage → List String → Action Unit) : List Step → Action Unit
  | [] => pure ()
  | .call c :: rest => do
    run c.1 c.2
    runSteps run rest
  | .assign f :: rest => do
    modify fun w => ⟨f w.toFlags, w.setting, w.procno, w.childlog, w.invoked⟩
    runSteps run rest

/-- The body of `run_test`, line by line. -/
def script : List Step := [
  .call (.downloader, []),
  .call (.unpacker, []),
  .call (.infogatherer, []),
  .call (.pcap, ["--start"]),
  .call (.dnsupdater, []),
  .assign fun fl => { fl with needDnsReset := true },
  .call (.dnscheck, []),
  .call (.arpfixer, []),
  .call (.runner, []),
  .assign fun fl => { fl with needDnsReset := false },
  .call restoreCall,
  .call (.dnscheck, ["--public"]),
  .call (.pcap, ["--stop"]),
  .call (.collator, []),
  .assign fun fl => { fl with archiveOnFailure := false },
  .call archiveCall,
  .assign fun fl => { fl with uploaded := true },
  .call uploadCall]

theorem runTest_eq_script (exit : ℕ → ℤ) (depth : ℕ) :
    runTest exit depth = runSteps (runProcess exit depth) script := by
  unfold runTest
  simp only [script, runSteps, bind_pure_unit, restoreCall, archiveCall, uploadCall]

/-- The stages of a list of steps with the flags in force at each. -/
def plan : List Step → Flags → List (Call × Flags)
  | [], _ => []
  | .call c :: rest, fl => (c, fl) :: plan rest fl
  | .assign f :: rest, fl => plan rest (f fl)

/-- `c`, with the flags `fl`, is the first stage of the plan that exits non-zero. -/
structure FirstFailure (exit : ℕ → ℤ) (k : ℕ) (ps : List (Call × Flags))
    (before : List (Call × Flags)) (c : Call) (fl : Flags) : Prop where
  splits : ∃ after, ps = before ++ (c, fl) :: after
  zeros : ∀ i < before.length, exit (k + i) = 0
  fails : exit (k + before.length) ≠ 0

/-- Where a run of a plan ended, and with which calls. -/
def Ended (exit : ℕ → ℤ) (k : ℕ) (ps : List (Call × Flags)) (xs : List Call) : Prop :=
  ((∀ i < ps.length, exit (k + i) = 0) ∧ xs = ps.map Prod.fst) ∨
  ∃ before c fl ys, FirstFailure exit k ps before c fl ∧
    Cleanup exit fl (k + before.length + 1) ys ∧ xs = before.map Prod.fst ++ c :: ys

section Shape
variable {cut : Prop} {exit : ℕ → ℤ} {d : ℕ}

theorem FirstFailure.cons {k : ℕ} {ps before : List (Call × Flags)} {p : Call × Flags}
    {c : Call} {fl : Flags} (h0 : exit k = 0)
    (h : FirstFailure exit (k + 1) ps before c fl) :
    FirstFailure exit k (p :: ps) (p :: before) c fl := by
  obtain ⟨after, rfl⟩ := h.splits
  refine ⟨⟨after, rfl⟩, ?_, ?_⟩
  · intro i hi
    cases i with
    | zero => exact h0
    | succ i =>
      have hz := h.zeros i (Nat.lt_of_succ_lt_succ hi)
      rwa [Nat.add_right_comm, Nat.add_assoc] at hz
  · have hf := h.fails
    rwa [Nat.add_right_comm, Nat.add_assoc] at hf

theorem Ended.cons {k : ℕ} {ps : List (Call × Flags)} {p : Call × Flags} {xs : List Call}
    (h0 : exit k = 0) (h : Ended exit (k + 1) ps xs) : Ended exit k (p :: ps) (p.1 :: xs) := by
  rcases h with ⟨hz, rfl⟩ | ⟨before, c, fl, ys, hf, hc, rfl⟩
  · refine .inl ⟨?_, rfl⟩
    intro i hi
    cases i with
    | zero => exact h0
    | succ i =>
      have hzi := hz i (Nat.lt_of_succ_lt_succ hi)
      rwa [Nat.add_right_comm, Nat.add_assoc] at hzi
  · refine .inr ⟨p :: before, c, fl, ys, hf.cons h0, ?_, rfl⟩
    rwa [List.length_cons, ← Nat.add_assoc, Nat.add_right_comm k]

/-- Depth `d` is enough for a plan if it exceeds the length of the `Cleanup` at
whichever stage fails first. -/
def EnoughFor (cut : Prop) (exit : ℕ → ℤ) (d k : ℕ) (ps : List (Call × Flags)) : Prop :=
  cut ∨ (0 < d ∧ ∀ before c fl, FirstFailure exit k ps before c fl →
    ∃ xs, Cleanup exit fl (k + before.length + 1) xs ∧ xs.length < d)

theorem EnoughFor.head {w : StoneRidgeWorker} {ps : List (Call × Flags)} {c : Call}
    (h : EnoughFor cut exit d w.invoked.length ((c, w.toFlags) :: ps)) :
    Enough cut exit d w := by
  rcases h with hc | ⟨hd, h⟩
  · exact .inl hc
  · by_cases h0 : exit w.invoked.length = 0
    · exact .inr (.inl ⟨h0, hd⟩)
    · obtain ⟨xs, hx⟩ := h [] c w.toFlags ⟨⟨ps, rfl⟩, fun _ hi => absurd hi (Nat.not_lt_zero _), h0⟩
      exact .inr (.inr ⟨xs, hx⟩)

theorem EnoughFor.tail {k : ℕ} {ps : List (Call × Flags)} {p : Call × Flags}
    (h : EnoughFor cut exit d k (p :: ps)) (h0 : exit k = 0) :
    EnoughFor cut exit d (k + 1) ps := by
  refine h.imp id fun ⟨hd, h⟩ => ⟨hd, fun before c fl hf => ?_⟩
  obtain ⟨xs, hc, hx⟩ := h (p :: before) c fl (hf.cons h0)
  refine ⟨xs, ?_, hx⟩
  rwa [List.length_cons, ← Nat.add_assoc, Nat.add_right_comm k] at hc

/-- The run ended, with the calls its plan says. -/
def Completed (exit : ℕ → ℤ) (w₀ : StoneRidgeWorker) (ps : List (Call × Flags))
    (w : StoneRidgeWorker) : Prop :=
  ∃ xs, Ended exit w₀.invoked.length ps xs ∧ Grew w₀ w xs

def CompletedOrCut (cut : Prop) (exit : ℕ → ℤ) (w₀ : StoneRidgeWorker)
    (ps : List (Call × Flags)) : Raised → StoneRidgeWorker → Prop
  | .tooDeep, _ => cut
  | .stoneRidgeException _, w => Completed exit w₀ ps w

theorem CompletedOrCut.imp {w₀ w₁ w : StoneRidgeWorker} {ps qs : List (Call × Flags)}
    {e : Raised} (h : CompletedOrCut cut exit w₁ qs e w)
    (hi : Completed exit w₁ qs w → Completed exit w₀ ps w) :
    CompletedOrCut cut exit w₀ ps e w := by
  cases e with
  | tooDeep => exact h
  | stoneRidgeException m => exact hi h

theorem Completed.cons {w₀ w₁ w : StoneRidgeWorker} {ps : List (Call × Flags)} {c : Call}
    {fl : Flags} (h : Completed exit w₁ ps w) (h0 : exit w₀.invoked.length = 0)
    (hg : Grew w₀ w₁ [c]) : Completed exit w₀ ((c, fl) :: ps) w := by
  obtain ⟨xs, he, hg'⟩ := h
  rw [hg.length] at he
  exact ⟨c :: xs, he.cons h0, hg.trans hg'⟩

theorem runSteps_sound (steps : List Step) (w₀ : StoneRidgeWorker)
    (hu : w₀.setting.unittest = false)
    (hd : EnoughFor cut exit d w₀.invoked.length (plan steps w₀.toFlags)) :
    Triple (· = w₀) (runSteps (runProcess exit d) steps)
      (fun _ => Completed exit w₀ (plan steps w₀.toFlags))
      (CompletedOrCut cut exit w₀ (plan steps w₀.toFlags)) := by
  induction steps generalizing w₀ with
  | nil =>
    refine Triple.of_pure ?_
    rintro w rfl
    exact ⟨[], .inl ⟨fun _ hi => absurd hi (Nat.not_lt_zero _), rfl⟩, .refl w⟩
  | cons step rest ih =>
    cases step with
    | assign f =>
      refine Triple.modify_bind (Triple.conseq
        (ih ⟨f w₀.toFlags, w₀.setting, w₀.procno, w₀.childlog, w₀.invoked⟩ hu hd)
        (fun _ h => h) ?_ fun _ _ h => h.imp ?_)
      · exact fun _ _ ⟨xs, he, hg⟩ => ⟨xs, he, hg.setting, hg.calls⟩
      · exact fun ⟨xs, he, hg⟩ => ⟨xs, he, hg.setting, hg.calls⟩
    | call c =>
      refine Triple.bind (M := Advanced exit w₀ c) ?_ fun _ => Triple.of_state ?_
      · refine Triple.conseq (runProcess_sound d c w₀ hu hd.head) (fun _ h => h)
          (fun _ _ h => h) ?_
        intro e w h
        cases e with
        | tooDeep => exact h
        | stoneRidgeException m =>
          obtain ⟨hne, -, xs, hc, hg⟩ := h
          refine ⟨c :: xs, .inr ⟨[], c, w₀.toFlags, xs, ⟨⟨_, rfl⟩, ?_, hne⟩, hc, rfl⟩, hg⟩
          exact fun _ hi => absurd hi (Nat.not_lt_zero _)
      · rintro w₁ ⟨h0, hf, hg⟩
        have hlen := hg.length
        simp only [List.length_singleton] at hlen
        have hd₁ : EnoughFor cut exit d w₁.invoked.length (plan rest w₁.toFlags) := by
          rw [hlen, hf]
          exact hd.tail h0
        have h₁ := ih w₁ (hg.unittest hu) hd₁
        rw [hf] at h₁
        exact Triple.conseq h₁ (fun _ h => h) (fun _ _ h => h.cons h0 hg)
          fun _ _ h => h.imp fun h => h.cons h0 hg

end Shape

/-! ### One `handle` -/

def startFlags : Flags := ⟨false, true, false⟩

/-- The fourteen stages of `run_test` with the flags in force at each. -/
def testPlan : List (Call × Flags) := plan script startFlags

theorem FirstFailure.take {exit : ℕ → ℤ} {k : ℕ} {ps before : List (Call × Flags)} {c : Call}
    {fl : Flags} (h : FirstFailure exit k ps before c fl) :
    before = ps.take before.length ∧
      ∃ hlt : before.length < ps.length, ps[before.length] = (c, fl) := by
  obtain ⟨after, rfl⟩ := h.splits
  refine ⟨by simp, ?_, by simp⟩
  simp only [List.length_append, List.length_cons]
  omega

theorem FirstFailure.length_eq {exit : ℕ → ℤ} {ps before : List (Call × Flags)} {c : Call}
    {fl : Flags} (h : FirstFailure exit 0 ps before c fl) {i : ℕ} (hz : ∀ j < i, exit j = 0)
    (hne : exit i ≠ 0) : before.length = i := by
  have hbz := h.zeros
  have hbf := h.fails
  simp only [Nat.zero_add] at hbz hbf
  rcases Nat.lt_trichotomy before.length i with hlt | heq | hgt
  · exact absurd (hz _ hlt) hbf
  · exact heq
  · exact absurd (hbz _ hgt) hne

theorem Ended.of_first_nonzero {exit : ℕ → ℤ} {ps : List (Call × Flags)} {xs : List Call}
    (h : Ended exit 0 ps xs) {i : ℕ} (hi : i < ps.length) (hz : ∀ j < i, exit j = 0)
    (hne : exit i ≠ 0) :
    ∃ ys, Cleanup exit (ps[i]).2 (i + 1) ys ∧
      xs = (ps.take i).map Prod.fst ++ (ps[i]).1 :: ys := by
  rcases h with ⟨hall, -⟩ | ⟨before, c, fl, ys, hf, hc, rfl⟩
  · have h0 := hall i hi
    rw [Nat.zero_add] at h0
    exact absurd h0 hne
  · obtain rfl := hf.length_eq hz hne
    rw [Nat.zero_add] at hc
    obtain ⟨hb, hlt, hget⟩ := hf.take
    rw [hget, ← hb]
    exact ⟨ys, hc, rfl⟩

/-- The stages at which `need_dns_reset` is set, and the flags there. -/
theorem testPlan_window (i : ℕ) (hi : i < testPlan.length) :
    if 5 ≤ i ∧ i ≤ 7 then (testPlan[i]).2 = ⟨true, true, false⟩
    else (testPlan[i]).2.needDnsReset = false := by
  revert i
  decide

theorem FirstFailure.flags {exit : ℕ → ℤ} {before : List (Call × Flags)} {c : Call}
    {fl : Flags} (h : FirstFailure exit 0 testPlan before c fl) :
    if 5 ≤ before.length ∧ before.length ≤ 7 then fl = ⟨true, true, false⟩
    else fl.needDnsReset = false := by
  obtain ⟨-, hlt, hget⟩ := h.take
  have hw := testPlan_window before.length hlt
  rwa [hget] at hw

/-- A `handle` that ends has gone through the plan, or to its first failing
stage and through the `Cleanup` there. -/
theorem runTest_sound {cut : Prop} {exit : ℕ → ℤ} {d : ℕ} (cfg : Setting)
    (hu : cfg.unittest = false) (hd : EnoughFor cut exit d 0 testPlan) :
    Triple (· = start cfg) (runTest exit d) (fun _ => Completed exit (start cfg) testPlan)
      (CompletedOrCut cut exit (start cfg) testPlan) := by
  rw [runTest_eq_script]
  exact runSteps_sound script (start cfg) hu hd

theorem handleStages_sound {cut : Prop} {exit : ℕ → ℤ} {d : ℕ} (cfg : Setting)
    (hu : cfg.unittest = false) (hd : EnoughFor cut exit d 0 testPlan) :
    Triple (· = start cfg) (handleStages exit d)
      (fun _ w => Ended exit 0 testPlan w.calls) (OnlyCut cut) := by
  refine ignoring_triple (Triple.conseq (runTest_sound cfg hu hd) (fun _ h => h) ?_
    fun _ _ h => h) ?_ fun _ h => h
  · rintro _ w ⟨xs, he, hg⟩
    rwa [hg.calls]
  · rintro m w ⟨xs, he, hg⟩
    rwa [hg.calls]

theorem handleStages_calls {exit : ℕ → ℤ} {d : ℕ} {cfg : Setting} {w : StoneRidgeWorker}
    (hu : cfg.unittest = false) (h : handleStages exit d (start cfg) = .ok () w) :
    Ended exit 0 testPlan w.calls := by
  have hs := handleStages_sound cfg hu (.inl trivial : EnoughFor True exit d 0 testPlan) _ rfl
  rwa [h] at hs

theorem runSteps_unittest {exit : ℕ → ℤ} {d : ℕ} (steps : List Step) (w : StoneRidgeWorker)
    (hu : w.setting.unittest = true) :
    ∃ w', runSteps (runProcess exit (d + 1)) steps w = .ok () w' ∧ w'.invoked = w.invoked := by
  induction steps generalizing w with
  | nil => exact ⟨w, rfl, rfl⟩
  | cons step rest ih =>
    cases step with
    | assign f => exact ih ⟨f w.toFlags, w.setting, w.procno, w.childlog, w.invoked⟩ hu
    | call c =>
      have hrun : runProcess exit (d + 1) c.1 c.2 w =
          .ok () { w with procno := w.procno + 1 } := by
        simp only [runProcess, bind_ok (get_apply w), hu, ite_true, modify_apply]
      obtain ⟨w', hw, hi⟩ := ih { w with procno := w.procno + 1 } hu
      refine ⟨w', ?_, hi⟩
      rw [runSteps, bind_ok hrun, hw]

theorem handleStages_unittest {exit : ℕ → ℤ} {d : ℕ} {cfg : Setting} {w : StoneRidgeWorker}
    (hu : cfg.unittest = true) (h : handleStages exit d (start cfg) = .ok () w) :
    w.calls = [] := by
  rw [handleStages, runTest_eq_script, ignoring, tryCatch_apply] at h
  cases d with
  | zero => cases h
  | succ d =>
    obtain ⟨w', hw, hi⟩ := @runSteps_unittest exit d script (start cfg) hu
    rw [hw] at h
    cases h
    rw [StoneRidgeWorker.calls, hi]
    rfl

end StoneRidge.Worker
