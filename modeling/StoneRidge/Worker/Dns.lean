import StoneRidge.Worker.Delivery
import StoneRidge.Worker.Termination

/-!
# DNS while results are delivered

`dnsupdater` asks the DNS daemon (`srdns.py`) to point the machine at the
private DNS server, or with `--restore` at the public one. The daemon has acted
before the updater reads its reply (`srdnsupdater.py:64-77`), so the stage can
exit non-zero with the change made. `need_dns_reset` is set only after the stage
has exited zero: a stage that switched and then failed is not undone.
-/

set_option autoImplicit false

namespace StoneRidge.Worker
open StoneRidge.Kit.Exec

inductive Dns where
  | publicDns
  | privateDns
  deriving DecidableEq, Repr

def setCall : Call := (.dnsupdater, [])

/-- The machine's DNS after a call that exited with `status`; `took` says
whether a `dnsupdater` had its effect although it may have failed. -/
def dnsStep (status : ℤ) (took : Bool) (c : Call) (d : Dns) : Dns :=
  if c = setCall then
    if took then .privateDns else d
  else if c = restoreCall then
    if status = 0 ∨ took then .publicDns else d
  else d

section History
variable (exit : ℕ → ℤ) (took : ℕ → Bool)

/-- DNS after the calls `xs`, the first of which is subprocess `k`. -/
def dnsAfter : ℕ → Dns → List Call → Dns
  | _, d, [] => d
  | k, d, c :: xs => dnsAfter (k + 1) (dnsStep (exit k) (took k) c d) xs

/-- No archiver and no uploader is started on private DNS. -/
def DeliversOnPublic : ℕ → Dns → List Call → Prop
  | _, _, [] => True
  | k, d, c :: xs => (c.1.delivers = true → d = .publicDns) ∧
      DeliversOnPublic (k + 1) (dnsStep (exit k) (took k) c d) xs

/-- Every `dnsupdater --restore` exits zero. -/
def RestoresSucceed : ℕ → List Call → Prop
  | _, [] => True
  | k, c :: xs => (c = restoreCall → exit k = 0) ∧ RestoresSucceed (k + 1) xs

/-- The worker's obligation for one `handle` started on public DNS. -/
def DnsSafe (cfg : Setting) : Prop :=
  ∀ depth w, handleStages exit depth (start cfg) = .ok () w → RestoresSucceed exit 0 w.calls →
    dnsAfter exit took 0 .publicDns w.calls = .publicDns ∧
      DeliversOnPublic exit took 0 .publicDns w.calls

end History

section Lemmas
variable {exit : ℕ → ℤ} {took : ℕ → Bool} {k : ℕ} {d : Dns} {xs ys : List Call}

theorem dnsAfter_append :
    dnsAfter exit took k d (xs ++ ys) =
      dnsAfter exit took (k + xs.length) (dnsAfter exit took k d xs) ys := by
  induction xs generalizing k d with
  | nil => rfl
  | cons c xs ih =>
    simp only [List.cons_append, dnsAfter, ih, List.length_cons, Nat.add_assoc,
      Nat.add_comm 1]

theorem deliversOnPublic_append :
    DeliversOnPublic exit took k d (xs ++ ys) ↔ DeliversOnPublic exit took k d xs ∧
      DeliversOnPublic exit took (k + xs.length) (dnsAfter exit took k d xs) ys := by
  induction xs generalizing k d with
  | nil => simp [DeliversOnPublic, dnsAfter]
  | cons c xs ih =>
    simp only [List.cons_append, DeliversOnPublic, dnsAfter, ih, List.length_cons, Nat.add_assoc,
      Nat.add_comm 1, and_assoc]

theorem restoresSucceed_append :
    RestoresSucceed exit k (xs ++ ys) ↔
      RestoresSucceed exit k xs ∧ RestoresSucceed exit (k + xs.length) ys := by
  induction xs generalizing k with
  | nil => simp [RestoresSucceed]
  | cons c xs ih =>
    simp only [List.cons_append, RestoresSucceed, ih, List.length_cons, Nat.add_assoc,
      Nat.add_comm 1, and_assoc]

/-- On public DNS, an attempt at anything but switching stays there. -/
theorem Attempt.stays_public {need : Bool} {c : Call} (h : Attempt exit need k c xs)
    (hc : c ≠ setCall) :
    DeliversOnPublic exit took k .publicDns xs ∧
      dnsAfter exit took k .publicDns xs = .publicDns := by
  have hstep : ∀ (c : Call) (k : ℕ), c ≠ setCall →
      dnsStep (exit k) (took k) c .publicDns = .publicDns := by
    intro c k hc
    rw [dnsStep, if_neg hc]
    split
    · split <;> rfl
    · rfl
  induction h with
  | zero c _ => exact ⟨⟨fun _ => rfl, trivial⟩, hstep c _ hc⟩
  | outside c _ => exact ⟨⟨fun _ => rfl, trivial⟩, hstep c _ hc⟩
  | again c _ _ _ ih =>
    obtain ⟨h₁, h₂⟩ := ih (by decide)
    rw [DeliversOnPublic, dnsAfter, hstep c _ hc]
    exact ⟨⟨fun _ => rfl, h₁⟩, h₂⟩

/-- The restore of the handler ends on public DNS. -/
theorem Attempt.restores {need : Bool} (h : Attempt exit need k restoreCall xs)
    (hr : RestoresSucceed exit k xs) :
    DeliversOnPublic exit took k d xs ∧ dnsAfter exit took k d xs = .publicDns := by
  have hstep : exit k = 0 → dnsStep (exit k) (took k) restoreCall d = .publicDns := by
    intro h0
    rw [dnsStep, if_neg (by decide), if_pos rfl, if_pos (.inl h0)]
  cases h with
  | zero _ h0 => exact ⟨⟨fun h => absurd h (by decide), trivial⟩, hstep h0⟩
  | outside _ _ => exact ⟨⟨fun h => absurd h (by decide), trivial⟩, hstep (hr.1 rfl)⟩
  | again _ _ hne _ => exact absurd (hr.1 rfl) hne

theorem Part.stays_public {need due : Bool} {c : Call} (h : Part exit need due k c xs)
    (hc : c ≠ setCall) :
    DeliversOnPublic exit took k .publicDns xs ∧
      dnsAfter exit took k .publicDns xs = .publicDns := by
  cases due with
  | false =>
    simp only [Part, Bool.false_eq_true, ite_false] at h
    subst h
    exact ⟨trivial, rfl⟩
  | true =>
    simp only [Part, ite_true] at h
    exact h.stays_public hc

/-- Where DNS is public, or `need_dns_reset` is set, the handler delivers on
public DNS and ends there. -/
theorem Cleanup.safe {fl : Flags} (h : Cleanup exit fl k xs)
    (hr : RestoresSucceed exit k xs) (hd : d = .publicDns ∨ fl.needDnsReset = true) :
    DeliversOnPublic exit took k d xs ∧ dnsAfter exit took k d xs = .publicDns := by
  obtain ⟨r, s, t, rfl, hpr, hps, hpt⟩ := h
  have hfirst : DeliversOnPublic exit took k d r ∧ dnsAfter exit took k d r = .publicDns := by
    rw [restoresSucceed_append] at hr
    cases hn : fl.needDnsReset with
    | false =>
      simp only [hn, Bool.false_eq_true, or_false] at hd
      subst hd
      exact hpr.stays_public (by decide)
    | true =>
      simp only [Part, hn, ite_true] at hpr
      exact hpr.restores hr.1
  have hs := @Part.stays_public exit took _ _ _ _ _ hps (by decide)
  have ht := @Part.stays_public exit took _ _ _ _ _ hpt (by decide)
  rw [deliversOnPublic_append, deliversOnPublic_append, dnsAfter_append, dnsAfter_append,
    hfirst.2, hs.2]
  exact ⟨⟨hfirst.1, hs.1, ht.1⟩, ht.2⟩

/-- Where the plan switches, restores and delivers. -/
theorem testPlan_calls (i : ℕ) (hi : i < testPlan.length) :
    ((testPlan[i]).1 = setCall ↔ i = 4) ∧ ((testPlan[i]).1 = restoreCall ↔ i = 8) ∧
      ((testPlan[i]).1.1.delivers = true ↔ 12 ≤ i) := by
  revert i
  decide

/-- The calls of the first `i` stages. -/
def firstCalls (i : ℕ) : List Call := (testPlan.take i).map Prod.fst

theorem firstCalls_succ (i : ℕ) (hi : i < testPlan.length) :
    firstCalls (i + 1) = firstCalls i ++ [(testPlan[i]).1] := by
  rw [firstCalls, List.take_succ_eq_append_getElem hi, List.map_append]
  rfl

theorem firstCalls_length (i : ℕ) (hi : i ≤ testPlan.length) : (firstCalls i).length = i := by
  simp only [firstCalls, List.length_map, List.length_take, Nat.min_eq_left hi]

/-- Through the plan DNS is public except between the switch and the restore. -/
theorem firstCalls_safe (i : ℕ) (hi : i ≤ testPlan.length)
    (hr : RestoresSucceed exit 0 (firstCalls i)) :
    DeliversOnPublic exit took 0 .publicDns (firstCalls i) ∧
      (i ≤ 4 ∨ 8 < i → dnsAfter exit took 0 .publicDns (firstCalls i) = .publicDns) := by
  induction i with
  | zero => exact ⟨trivial, fun _ => rfl⟩
  | succ i ih =>
    have hlt : i < testPlan.length := hi
    obtain ⟨hset, hrest, hdel⟩ := testPlan_calls i hlt
    have hlen := firstCalls_length i (Nat.le_of_succ_le hi)
    rw [firstCalls_succ i hlt, restoresSucceed_append, hlen, Nat.zero_add] at hr
    obtain ⟨hd, hp⟩ := ih (Nat.le_of_succ_le hi) hr.1
    rw [firstCalls_succ i hlt, deliversOnPublic_append, dnsAfter_append, hlen, Nat.zero_add]
    refine ⟨⟨hd, fun h => hp (.inr ?_), trivial⟩, fun h => ?_⟩
    · have := hdel.mp h
      omega
    · show dnsStep (exit i) (took i) (testPlan[i]).1 _ = .publicDns
      by_cases h8 : i = 8
      · have hre := hrest.mpr h8
        rw [dnsStep, if_neg (by rw [hset]; omega), if_pos hre, if_pos (.inl (hr.2.1 hre))]
      · rw [dnsStep, if_neg (by rw [hset]; omega), if_neg (by rwa [hrest])]
        exact hp (by omega)

/-- After the stage that fails first, either DNS is public or the handler will
restore it, unless that stage is the one that switched. -/
theorem firstFailure_safe {before : List (Call × Flags)} {c : Call} {fl : Flags}
    (hf : FirstFailure exit 0 testPlan before c fl)
    (hr : RestoresSucceed exit 0 (before.map Prod.fst ++ [c]))
    (hnot : ¬ (before.length = 4 ∧ took 4 = true)) :
    DeliversOnPublic exit took 0 .publicDns (before.map Prod.fst ++ [c]) ∧
      (dnsAfter exit took 0 .publicDns (before.map Prod.fst ++ [c]) = .publicDns ∨
        fl.needDnsReset = true) := by
  obtain ⟨hb, hlt, hget⟩ := hf.take
  have hcalls : before.map Prod.fst ++ [c] = firstCalls (before.length + 1) := by
    rw [firstCalls_succ _ hlt, hget, firstCalls, ← hb]
  rw [hcalls] at hr ⊢
  obtain ⟨hd, hp⟩ := @firstCalls_safe exit took _ hlt hr
  refine ⟨hd, ?_⟩
  have hfl := hf.flags
  split at hfl
  next =>
    subst hfl
    exact .inr rfl
  next hout =>
    left
    by_cases h4 : before.length = 4
    · have ht : took 4 = false := by simpa [h4] using hnot
      have hlen := firstCalls_length 4 (by decide)
      rw [h4, firstCalls_succ 4 (by decide), restoresSucceed_append] at hr
      have hp4 := (@firstCalls_safe exit took 4 (by decide) hr.1).2 (.inl (Nat.le_refl 4))
      rw [h4, firstCalls_succ 4 (by decide), dnsAfter_append, hlen, hp4]
      show dnsStep (exit (0 + 4)) (took (0 + 4)) setCall .publicDns = .publicDns
      rw [dnsStep, if_pos rfl, Nat.zero_add, ht, if_neg Bool.false_ne_true]
    · exact hp (by omega)

end Lemmas

theorem switch_failure_calls {exit : ℕ → ℤ} {xs : List Call} (he : Ended exit 0 testPlan xs)
    (hz : ∀ i < 4, exit i = 0) (hne : exit 4 ≠ 0) :
    xs = firstCalls 4 ++ [setCall, archiveCall, uploadCall] := by
  obtain ⟨ys, hc, rfl⟩ := he.of_first_nonzero (by decide) hz hne
  have hys : ys = [archiveCall, uploadCall] := by
    refine hc.unique ⟨[], [archiveCall], [uploadCall], rfl, rfl, ?_, ?_⟩
    · exact Attempt.outside archiveCall rfl
    · exact Attempt.outside uploadCall rfl
  rw [hys]
  rfl

/-- Such a run ends, on private DNS, with both deliveries made there. -/
theorem switch_failure_unsafe {cfg : Setting} {exit : ℕ → ℤ} {took : ℕ → Bool}
    (hu : cfg.unittest = false) (hz : ∀ i < 4, exit i = 0) (hne : exit 4 ≠ 0)
    (ht : took 4 = true) : ¬ DnsSafe exit took cfg := by
  intro hsafe
  have hd : EnoughFor False exit 3 0 testPlan := by
    refine .inr ⟨by decide, fun before c fl hf => ?_⟩
    have hlen := hf.length_eq hz hne
    have hfl := hf.flags
    rw [if_neg (by omega)] at hfl
    obtain ⟨xs, hx, hl⟩ := @cleanup_outside exit (0 + before.length + 1) fl hfl
    exact ⟨xs, hx, Nat.lt_succ_of_le hl⟩
  have hs := handleStages_sound cfg hu hd _ rfl
  cases hr : handleStages exit 3 (start cfg) with
  | error e w =>
    rw [hr] at hs
    exact hs.2
  | ok a w =>
    rw [hr] at hs
    have hcalls := switch_failure_calls hs hz hne
    have hlen := firstCalls_length 4 (by decide)
    have hrest : RestoresSucceed exit 0 w.calls := by
      rw [hcalls]
      simp [RestoresSucceed, firstCalls, testPlan, plan, script, startFlags, setCall,
        restoreCall, archiveCall, uploadCall]
    obtain ⟨-, hdel⟩ := hsafe 3 w hr hrest
    rw [hcalls, deliversOnPublic_append, hlen] at hdel
    have harch := hdel.2.2.1 rfl
    rw [dnsStep, if_pos rfl, Nat.zero_add, ht, if_pos rfl] at harch
    cases harch

/-- The worker keeps DNS public for every delivery and leaves it public, unless
the stage that sets DNS exits non-zero after it has switched. -/
theorem dnsSafe_iff_switch_not_lost (cfg : Setting) (exit : ℕ → ℤ) (took : ℕ → Bool) :
    DnsSafe exit took cfg ↔
      cfg.unittest = true ∨ ¬ ((∀ i < 4, exit i = 0) ∧ exit 4 ≠ 0 ∧ took 4 = true) := by
  cases hu : cfg.unittest with
  | true =>
    refine ⟨fun _ => .inl rfl, fun _ depth w h _ => ?_⟩
    rw [handleStages_unittest hu h]
    exact ⟨rfl, trivial⟩
  | false =>
    constructor
    · rintro hsafe
      exact .inr fun ⟨hz, hne, ht⟩ => switch_failure_unsafe hu hz hne ht hsafe
    · rintro (h | hnot) depth w h' hr
      · cases h
      rcases handleStages_calls hu h' with ⟨-, hcalls⟩ | ⟨before, c, fl, ys, hf, hc, hcalls⟩
      · rw [hcalls] at hr ⊢
        obtain ⟨hd, hp⟩ := @firstCalls_safe exit took 14 (Nat.le_refl 14) hr
        exact ⟨hp (.inr (by decide)), hd⟩
      · rw [List.append_cons] at hcalls
        rw [hcalls, restoresSucceed_append] at hr
        have hlen : (before.map Prod.fst ++ [c]).length = before.length + 1 := by simp
        obtain ⟨hd, hp⟩ := @firstFailure_safe exit took _ _ _ hf hr.1 (by
          rintro ⟨h4, ht⟩
          have hz := hf.zeros
          have hne := hf.fails
          simp only [Nat.zero_add, h4] at hz hne
          exact hnot ⟨hz, hne, ht⟩)
        have hk : 0 + before.length + 1 = 0 + (before.map Prod.fst ++ [c]).length := by
          rw [hlen, Nat.add_assoc]
        rw [hk] at hc
        obtain ⟨hd', hp'⟩ := hc.safe hr.2 hp
        rw [hcalls, dnsAfter_append, deliversOnPublic_append]
        exact ⟨hp', hd, hd'⟩

/-- `dnsupdater` switches DNS and exits non-zero; everything else exits zero. -/
theorem failed_switch_delivers_on_private :
    ¬ DnsSafe (fun k => if k = 4 then 1 else 0) (fun _ => true)
      ⟨"stoneridge.ini", false, "gsm", "out/logs", "out/run.ini"⟩ :=
  switch_failure_unsafe rfl (fun i hi => if_neg (by omega)) (by decide) rfl

end StoneRidge.Worker
