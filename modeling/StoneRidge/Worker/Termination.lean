import StoneRidge.Worker.Script

/-!
# When the failure handler comes to an end

`need_dns_reset` is still set while the handler runs `dnsupdater --restore`, so a
restore that fails starts the handler again, and so on until one exits zero. The
worker therefore ends, within a common number of invocations, exactly for those
families of exit statuses in which the statuses after a failure inside the DNS
window contain three zeros that are not too far apart: one for the restore, one
for the archive attempt and one for the upload attempt.
-/

set_option autoImplicit false

namespace StoneRidge.Worker
open StoneRidge.Kit.Exec

/-- `run_test` returns or raises `StoneRidgeException`, after at most `bound`
subprocesses. -/
def FinishesWithin (cfg : Setting) (exit : ℕ → ℤ) (bound : ℕ) : Prop :=
  ∃ depth w, (runTest exit depth (start cfg) = .ok () w ∨
    ∃ m, runTest exit depth (start cfg) = .error (.stoneRidgeException m) w) ∧
      w.invoked.length ≤ bound

/-- From position `k` on, the first zero exit comes after at most `n` others, and
`k'` is the position behind it. -/
def ZeroWithin (exit : ℕ → ℤ) (n k k' : ℕ) : Prop :=
  ∃ m ≤ n, (∀ i < m, exit (k + i) ≠ 0) ∧ exit (k + m) = 0 ∧ k' = k + m + 1

/-- Three zero exits follow, with at most `n` others before each. -/
def HandlerSettles (exit : ℕ → ℤ) (n k : ℕ) : Prop :=
  ∃ k₁ k₂ k₃, ZeroWithin exit n k k₁ ∧ ZeroWithin exit n k₁ k₂ ∧ ZeroWithin exit n k₂ k₃

/-- If the first stage to fail is one of those inside the DNS window (`dnscheck`,
`arpfixer` or `runner`, the subprocesses 5 to 7), the handler settles. -/
def WindowSettles (exit : ℕ → ℤ) (n : ℕ) : Prop :=
  ∀ i, 5 ≤ i → i ≤ 7 → (∀ j < i, exit j = 0) → exit i ≠ 0 → HandlerSettles exit n (i + 1)

section Zeros
variable {exit : ℕ → ℤ} {n k : ℕ}

theorem Attempt.zeroWithin {need : Bool} {c : Call} {xs : List Call}
    (h : Attempt exit need k c xs) (hn : need = true) (hl : xs.length ≤ n + 1) :
    ZeroWithin exit n k (k + xs.length) := by
  induction h generalizing n with
  | zero c h0 => exact ⟨0, Nat.zero_le n, fun _ hi => absurd hi (Nat.not_lt_zero _), h0, rfl⟩
  | outside c hf => exact absurd (hf.symm.trans hn) Bool.false_ne_true
  | @again k xs c _ hne ht ih =>
    have hpos := ht.length_pos
    simp only [List.length_cons, Nat.add_le_add_iff_right] at hl
    obtain ⟨m, hm, hnz, h0, hk⟩ := ih (n := n - 1) (by omega)
    refine ⟨m + 1, by omega, ?_, ?_, by simp only [List.length_cons]; omega⟩
    · intro i hi
      cases i with
      | zero => exact hne
      | succ i =>
        have hi' := hnz i (Nat.lt_of_succ_lt_succ hi)
        rwa [Nat.add_right_comm, Nat.add_assoc] at hi'
    · rwa [Nat.add_right_comm, Nat.add_assoc] at h0

theorem ZeroWithin.attempt {k' : ℕ} (h : ZeroWithin exit n k k') (c : Call) :
    ∃ xs, Attempt exit true k c xs ∧ k' = k + xs.length ∧ xs.length ≤ n + 1 := by
  obtain ⟨m, hm, hnz, h0, rfl⟩ := h
  induction m generalizing n k c with
  | zero => exact ⟨[c], .zero c h0, rfl, by simp⟩
  | succ m ih =>
    have hnz' : ∀ i < m, exit (k + 1 + i) ≠ 0 := by
      intro i hi
      rw [Nat.add_right_comm, Nat.add_assoc]
      exact hnz (i + 1) (Nat.succ_lt_succ hi)
    have h0' : exit (k + 1 + m) = 0 := by
      rwa [Nat.add_right_comm, Nat.add_assoc]
    obtain ⟨xs, hx, hk, hl⟩ := ih (n := n - 1) restoreCall (by omega) hnz' h0'
    refine ⟨c :: xs, .again c rfl (hnz 0 (Nat.succ_pos m)) hx, ?_, ?_⟩
    · simp only [List.length_cons]
      omega
    · simp only [List.length_cons]
      omega

/-- Inside the window the handler's `Cleanup` exists exactly if it settles. -/
theorem HandlerSettles.cleanup (h : HandlerSettles exit n k) :
    ∃ xs, Cleanup exit ⟨true, true, false⟩ k xs ∧ xs.length ≤ 3 * (n + 1) := by
  obtain ⟨k₁, k₂, k₃, h₁, h₂, h₃⟩ := h
  obtain ⟨r, hr, rfl, hrl⟩ := h₁.attempt restoreCall
  obtain ⟨s, hs, rfl, hsl⟩ := h₂.attempt archiveCall
  obtain ⟨t, ht, rfl, htl⟩ := h₃.attempt uploadCall
  refine ⟨r ++ (s ++ t), ⟨r, s, t, rfl, ?_, ?_, ?_⟩, ?_⟩
  · simpa [Part] using hr
  · simpa [Part] using hs
  · simpa [Part] using ht
  · simp only [List.length_append]
    omega

theorem Cleanup.settles {xs : List Call} (h : Cleanup exit ⟨true, true, false⟩ k xs)
    (hl : xs.length ≤ n) : HandlerSettles exit n k := by
  obtain ⟨r, s, t, rfl, hr, hs, ht⟩ := h
  simp only [Part, Bool.not_false, ite_true] at hr hs ht
  simp only [List.length_append] at hl
  exact ⟨_, _, _, hr.zeroWithin rfl (by omega), hs.zeroWithin rfl (by omega),
    ht.zeroWithin rfl (by omega)⟩

/-- Outside the window every call of the handler is made once. -/
theorem cleanup_outside (fl : Flags) (hn : fl.needDnsReset = false) :
    ∃ xs, Cleanup exit fl k xs ∧ xs.length ≤ 2 := by
  refine ⟨[] ++ ((if fl.archiveOnFailure then [archiveCall] else []) ++
    (if fl.uploaded then [] else [uploadCall])), ⟨_, _, _, rfl, ?_, ?_, ?_⟩, ?_⟩
  · simp [Part, hn]
  · rw [hn]
    cases fl.archiveOnFailure with
    | false => simp [Part]
    | true => simpa [Part] using Attempt.outside archiveCall rfl
  · rw [hn]
    cases fl.uploaded with
    | true => simp [Part]
    | false => simpa [Part] using Attempt.outside uploadCall rfl
  · cases fl.archiveOnFailure <;> cases fl.uploaded <;> decide

theorem Cleanup.unique {fl : Flags} {xs ys : List Call} (hx : Cleanup exit fl k xs)
    (hy : Cleanup exit fl k ys) : xs = ys := by
  obtain ⟨r, s, t, rfl, hr, hs, ht⟩ := hx
  obtain ⟨r', s', t', rfl, hr', hs', ht'⟩ := hy
  obtain rfl := hr.unique hr'
  obtain rfl := hs.unique hs'
  rw [ht.unique ht']

end Zeros

/-- At whichever stage the run fails first, the `Cleanup` exists and is bounded. -/
theorem WindowSettles.cleanup {exit : ℕ → ℤ} {n : ℕ} (h : WindowSettles exit n)
    {before : List (Call × Flags)} {c : Call} {fl : Flags}
    (hf : FirstFailure exit 0 testPlan before c fl) :
    ∃ xs, Cleanup exit fl (0 + before.length + 1) xs ∧ xs.length ≤ 3 * (n + 1) := by
  have hfl := hf.flags
  split at hfl
  next hw =>
    subst hfl
    have hz := hf.zeros
    have hne := hf.fails
    simp only [Nat.zero_add] at hz hne ⊢
    exact (h before.length hw.1 hw.2 hz hne).cleanup
  next =>
    obtain ⟨xs, hx, hl⟩ := @cleanup_outside exit (0 + before.length + 1) fl hfl
    exact ⟨xs, hx, by omega⟩

theorem finishes_of_settles {cfg : Setting} {exit : ℕ → ℤ} {n : ℕ}
    (hu : cfg.unittest = false) (h : WindowSettles exit n) :
    FinishesWithin cfg exit (14 + 3 * (n + 1)) := by
  have hd : EnoughFor False exit (3 * (n + 1) + 1) 0 testPlan := by
    refine .inr ⟨Nat.succ_pos _, fun before c fl hf => ?_⟩
    obtain ⟨xs, hx, hl⟩ := h.cleanup hf
    exact ⟨xs, hx, Nat.lt_succ_of_le hl⟩
  have hbound : ∀ w, Completed exit (start cfg) testPlan w →
      w.invoked.length ≤ 14 + 3 * (n + 1) := by
    rintro w ⟨xs, he, hg⟩
    have hlen := hg.length
    change w.invoked.length = 0 + xs.length at hlen
    rcases he with ⟨-, rfl⟩ | ⟨before, c, fl, ys, hf, hc, rfl⟩
    · have h14 : (testPlan.map Prod.fst).length = 14 := rfl
      omega
    · obtain ⟨zs, hz, hl⟩ := h.cleanup hf
      obtain ⟨-, hlt, -⟩ := hf.take
      change before.length < 14 at hlt
      rw [hc.unique hz] at hlen
      simp only [List.length_append, List.length_map, List.length_cons] at hlen
      omega
  have hs := runTest_sound cfg hu hd _ rfl
  cases hr : runTest exit (3 * (n + 1) + 1) (start cfg) with
  | ok a w =>
    rw [hr] at hs
    exact ⟨_, w, .inl hr, hbound w hs⟩
  | error e w =>
    rw [hr] at hs
    cases e with
    | tooDeep => exact hs.elim
    | stoneRidgeException m => exact ⟨_, w, .inr ⟨m, hr⟩, hbound w hs⟩

theorem settles_of_finishes {cfg : Setting} {exit : ℕ → ℤ} {bound : ℕ}
    (hu : cfg.unittest = false) (h : FinishesWithin cfg exit bound) :
    WindowSettles exit bound := by
  obtain ⟨depth, w, hr, hlen⟩ := h
  intro i h5 h7 hz hne
  have hs := runTest_sound cfg hu (.inl trivial : EnoughFor True exit depth 0 testPlan) _ rfl
  have hcompl : Completed exit (start cfg) testPlan w := by
    rcases hr with hr | ⟨m, hr⟩
    · rwa [hr] at hs
    · rwa [hr] at hs
  obtain ⟨xs, he, hg⟩ := hcompl
  have h14 : i < testPlan.length := by
    show i < 14
    omega
  obtain ⟨ys, hc, rfl⟩ := Ended.of_first_nonzero he h14 hz hne
  have hw := testPlan_window i h14
  rw [if_pos ⟨h5, h7⟩] at hw
  rw [hw] at hc
  have hlen' := hg.length
  simp only [List.length_append, List.length_cons] at hlen'
  exact hc.settles (by omega)

/-- For any family of exit statuses: one bound on the number of invocations holds
for every member exactly if one distance between the zero exits does. -/
theorem runTest_bounded_iff_windowSettles (cfg : Setting) (family : Set (ℕ → ℤ)) :
    (∃ bound, ∀ exit ∈ family, FinishesWithin cfg exit bound) ↔
      cfg.unittest = true ∨ ∃ n, ∀ exit ∈ family, WindowSettles exit n := by
  cases hu : cfg.unittest with
  | false =>
    constructor
    · rintro ⟨bound, h⟩
      exact .inr ⟨bound, fun exit he => settles_of_finishes hu (h exit he)⟩
    · rintro (h | ⟨n, h⟩)
      · cases h
      · exact ⟨_, fun exit he => finishes_of_settles hu (h exit he)⟩
  | true =>
    refine ⟨fun _ => .inl rfl, fun _ => ⟨0, fun exit _ => ?_⟩⟩
    obtain ⟨w, hw, hi⟩ := @runSteps_unittest exit 0 script (start cfg) hu
    exact ⟨1, w, .inl ((runTest_eq_script exit 1).symm ▸ hw), by rw [hi]; exact Nat.le_refl 0⟩

/-- The runner fails, and so does every restore after it. -/
theorem failing_restores_never_finish : ¬ ∃ bound, FinishesWithin
    ⟨"stoneridge.ini", false, "gsm", "out/logs", "out/run.ini"⟩
    (fun k => if k < 7 then 0 else 1) bound := by
  rintro ⟨bound, h⟩
  obtain ⟨_, _, _, ⟨m, -, -, h0, -⟩, -⟩ := settles_of_finishes rfl h 7 (by decide) (by decide)
    (fun j hj => if_pos hj) (by decide)
  have h1 : (if 7 + 1 + m < 7 then (0 : ℤ) else 1) = 1 := if_neg (by omega)
  exact absurd (h1.symm.trans h0) (by decide)

end StoneRidge.Worker
