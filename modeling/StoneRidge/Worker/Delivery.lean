import StoneRidge.Worker.Script

/-!
# Archiving and uploading happen once

The archiver and the uploader are reachable from the normal path of `run_test`
and from every level of the failure handler. Restricted to these two stages, the
history of a `handle` that ends is always the same list.
-/

set_option autoImplicit false

namespace StoneRidge.Worker
open StoneRidge.Kit.Exec

/-- The stages that deliver the results of a run. -/
def Stage.delivers : Stage → Bool
  | .archiver | .uploader => true
  | _ => false

def deliveries (xs : List Call) : List Stage := (xs.map Prod.fst).filter Stage.delivers

@[simp] theorem deliveries_append (xs ys : List Call) :
    deliveries (xs ++ ys) = deliveries xs ++ deliveries ys := by
  simp only [deliveries, List.map_append, List.filter_append]

theorem deliveries_cons (c : Call) (xs : List Call) :
    deliveries (c :: xs) = deliveries [c] ++ deliveries xs :=
  deliveries_append [c] xs

/-- What the handler has still to deliver when the flags are `fl`. -/
def Flags.pending (fl : Flags) : List Stage :=
  (if fl.archiveOnFailure then [.archiver] else []) ++ (if fl.uploaded then [] else [.uploader])

theorem Attempt.deliveries_eq {exit : ℕ → ℤ} {need : Bool} {k : ℕ} {c : Call} {xs : List Call}
    (h : Attempt exit need k c xs) : deliveries xs = deliveries [c] := by
  induction h with
  | zero => rfl
  | outside => rfl
  | again c _ _ _ ih =>
    rw [deliveries_cons, ih]
    exact List.append_nil _

theorem Part.deliveries_eq {exit : ℕ → ℤ} {need due : Bool} {k : ℕ} {c : Call}
    {xs : List Call} (h : Part exit need due k c xs) :
    deliveries xs = if due then deliveries [c] else [] := by
  cases due with
  | false =>
    simp only [Part, Bool.false_eq_true, ite_false] at h
    rw [h]
    rfl
  | true =>
    simp only [Part, ite_true] at h
    exact h.deliveries_eq

theorem Cleanup.deliveries_eq {exit : ℕ → ℤ} {fl : Flags} {k : ℕ} {xs : List Call}
    (h : Cleanup exit fl k xs) : deliveries xs = fl.pending := by
  obtain ⟨r, s, t, rfl, hr, hs, ht⟩ := h
  rw [deliveries_append, deliveries_append, hr.deliveries_eq, hs.deliveries_eq,
    ht.deliveries_eq]
  obtain ⟨need, archive, uploaded⟩ := fl
  cases need <;> cases archive <;> cases uploaded <;> rfl

/-- At every stage of the plan, what has been delivered and what the handler
would still deliver add up to one archive and one upload. -/
theorem testPlan_balanced (i : ℕ) (hi : i < testPlan.length) :
    deliveries ((testPlan.take (i + 1)).map Prod.fst) ++ (testPlan[i]).2.pending =
      [.archiver, .uploader] := by
  revert i
  decide

theorem Ended.deliveries_eq {exit : ℕ → ℤ} {xs : List Call} (h : Ended exit 0 testPlan xs) :
    deliveries xs = [.archiver, .uploader] := by
  rcases h with ⟨-, rfl⟩ | ⟨before, c, fl, ys, hf, hc, rfl⟩
  · rfl
  · obtain ⟨hb, hlt, hget⟩ := hf.take
    have hplan := testPlan_balanced before.length hlt
    rw [List.take_succ_eq_append_getElem hlt, hget, ← hb] at hplan
    rw [deliveries_append, deliveries_cons, hc.deliveries_eq, ← hplan]
    simp

/-- Two elements that a filter leaves alone in this order stand in this order. -/
theorem idxOf_lt_of_filter {α : Type} [DecidableEq α] {p : α → Bool} {a b : α} (hab : a ≠ b)
    {l : List α} (h : l.filter p = [a, b]) : l.idxOf a < l.idxOf b := by
  induction l with
  | nil => cases h
  | cons x l ih =>
    cases hx : p x with
    | true =>
      rw [List.filter_cons_of_pos hx] at h
      obtain ⟨rfl, -⟩ := List.cons.inj h
      rw [List.idxOf_cons_self, List.idxOf_cons_ne _ hab]
      exact Nat.succ_pos _
    | false =>
      rw [List.filter_cons_of_neg (by simp [hx])] at h
      have hmem : ∀ y ∈ [a, b], x ≠ y := by
        rintro y hy rfl
        rw [← h] at hy
        exact absurd (List.of_mem_filter hy) (by simp [hx])
      rw [List.idxOf_cons_ne _ (hmem a (by simp)), List.idxOf_cons_ne _ (hmem b (by simp))]
      exact Nat.succ_lt_succ (ih h)

def StoneRidgeWorker.stages (w : StoneRidgeWorker) : List Stage :=
  w.invoked.map Invocation.stage

theorem calls_stages (w : StoneRidgeWorker) : w.calls.map Prod.fst = w.stages := by
  simp [StoneRidgeWorker.calls, StoneRidgeWorker.stages]

/-- Whichever stage fails first, and however many of the nested invocations fail
too, a `handle` that ends has run the archiver once and then the uploader once. -/
theorem archiver_then_uploader_once {cfg : Setting} {exit : ℕ → ℤ} {depth : ℕ}
    {w : StoneRidgeWorker} (hu : cfg.unittest = false)
    (h : handleStages exit depth (start cfg) = .ok () w) :
    w.stages.count .archiver = 1 ∧ w.stages.count .uploader = 1 ∧
      w.stages.idxOf .archiver < w.stages.idxOf .uploader := by
  have hd := (handleStages_calls hu h).deliveries_eq
  rw [deliveries, calls_stages] at hd
  refine ⟨?_, ?_, idxOf_lt_of_filter (by decide) hd⟩
  · rw [← List.count_filter (p := Stage.delivers) rfl, hd]
    rfl
  · rw [← List.count_filter (p := Stage.delivers) rfl, hd]
    rfl

/-- The runner fails, and so does the archiver that the handler starts. -/
theorem archiver_then_uploader_once_runner : ∃ w,
    handleStages (fun k => if k = 7 ∨ k = 9 then 1 else 0) 5
      (start ⟨"stoneridge.ini", false, "gsm", "out/logs", "out/run.ini"⟩) = .ok () w ∧
    w.stages.count .archiver = 1 ∧ w.stages.count .uploader = 1 ∧
      w.stages.idxOf .archiver < w.stages.idxOf .uploader := by
  have h : ∃ w, handleStages (fun k => if k = 7 ∨ k = 9 then 1 else 0) 5
      (start ⟨"stoneridge.ini", false, "gsm", "out/logs", "out/run.ini"⟩) = .ok () w := ⟨_, rfl⟩
  obtain ⟨w, hw⟩ := h
  exact ⟨w, hw, archiver_then_uploader_once rfl hw⟩

end StoneRidge.Worker
