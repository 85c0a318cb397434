import StoneRidge.Worker.RunProcess

/-!
# What the failure handler does to the stage history

The handler is there to put DNS back, to archive and to upload, each at most
once and in this order. `Cleanup` says so for the exit statuses alone, without
the recursion and without the flags being saved and overwritten. The two results
of this module tie the worker to it: a failing `run_process` that ends leaves a
history that grew by a `Cleanup` (`runProcess_sound`), and where a `Cleanup`
exists the approximations deep enough for it do end (`runProcess_ends`).
-/

set_option autoImplicit false

namespace StoneRidge.Worker
open StoneRidge.Kit.Exec

abbrev Call := Stage × List String

def restoreCall : Call := (.dnsupdater, ["--restore"])
def archiveCall : Call := (.archiver, [])
def uploadCall : Call := (.uploader, [])

def StoneRidgeWorker.calls (w : StoneRidgeWorker) : List Call :=
  w.invoked.map fun i => (i.stage, i.args)

@[simp] theorem calls_length (w : StoneRidgeWorker) : w.calls.length = w.invoked.length := by
  simp only [StoneRidgeWorker.calls, List.length_map]

@[simp] theorem ran_calls (w : StoneRidgeWorker) (c : Call) :
    (w.ran c.1 c.2).calls = w.calls ++ [c] := by
  simp only [StoneRidgeWorker.calls, StoneRidgeWorker.ran, List.map_append, List.map_cons,
    List.map_nil]

@[simp] theorem ran_flags (w : StoneRidgeWorker) (stage : Stage) (args : List String) :
    (w.ran stage args).toFlags = w.toFlags := rfl

@[simp] theorem ran_setting (w : StoneRidgeWorker) (stage : Stage) (args : List String) :
    (w.ran stage args).setting = w.setting := rfl

/-! ### The abstract handler -/

/-- A call made by the handler, started as subprocess `k`. Inside the DNS window
a failing call is followed by restores until one of them exits zero. -/
inductive Attempt (exit : ℕ → ℤ) (need : Bool) : ℕ → Call → List Call → Prop
  | zero {k : ℕ} (c : Call) : exit k = 0 → Attempt exit need k c [c]
  | outside {k : ℕ} (c : Call) : need = false → Attempt exit need k c [c]
  | again {k : ℕ} {xs : List Call} (c : Call) : need = true → exit k ≠ 0 →
      Attempt exit need (k + 1) restoreCall xs → Attempt exit need k c (c :: xs)

/-- An attempt that is made only if `due`. -/
def Part (exit : ℕ → ℤ) (need due : Bool) (k : ℕ) (c : Call) (xs : List Call) : Prop :=
  if due then Attempt exit need k c xs else xs = []

/-- The calls the handler makes from subprocess `k` on. -/
def Cleanup (exit : ℕ → ℤ) (fl : Flags) (k : ℕ) (xs : List Call) : Prop :=
  ∃ r s t, xs = r ++ (s ++ t) ∧
    Part exit fl.needDnsReset fl.needDnsReset k restoreCall r ∧
    Part exit fl.needDnsReset fl.archiveOnFailure (k + r.length) archiveCall s ∧
    Part exit fl.needDnsReset (!fl.uploaded) (k + r.length + s.length) uploadCall t

section Abstract
variable {exit : ℕ → ℤ} {need : Bool} {k : ℕ} {c : Call} {xs ys : List Call}

theorem Attempt.unique (hx : Attempt exit need k c xs) (hy : Attempt exit need k c ys) :
    xs = ys := by
  induction hx generalizing ys with
  | zero c h =>
    cases hy with
    | zero => rfl
    | outside => rfl
    | again _ _ hne => exact absurd h hne
  | outside c h =>
    cases hy with
    | zero => rfl
    | outside => rfl
    | again _ ht => exact absurd (h.symm.trans ht) Bool.false_ne_true
  | again c hn hne _ ih =>
    cases hy with
    | zero _ h => exact absurd h hne
    | outside _ h => exact absurd (h.symm.trans hn) Bool.false_ne_true
    | again _ _ _ ht => rw [ih ht]

theorem Part.unique {due : Bool} (hx : Part exit need due k c xs)
    (hy : Part exit need due k c ys) : xs = ys := by
  cases due with
  | false =>
    simp only [Part, Bool.false_eq_true, ite_false] at hx hy
    rw [hx, hy]
  | true =>
    simp only [Part, ite_true] at hx hy
    exact hx.unique hy

theorem Attempt.length_pos (h : Attempt exit need k c xs) : 0 < xs.length := by
  cases h <;> simp

/-- What an attempt does after its first call failed is itself a `Cleanup` with
nothing to archive and nothing to upload. -/
theorem Attempt.of_cleanup (h : Cleanup exit ⟨need, false, true⟩ (k + 1) xs)
    (hne : exit k ≠ 0) : Attempt exit need k c (c :: xs) := by
  obtain ⟨r, s, t, rfl, hr, hs, ht⟩ := h
  simp only [Part, Bool.not_true, Bool.false_eq_true, ite_false] at hs ht
  subst hs ht
  cases need with
  | false =>
    simp only [Part, Bool.false_eq_true, ite_false] at hr
    subst hr
    exact .outside c rfl
  | true =>
    simp only [Part, ite_true] at hr
    simpa using Attempt.again c rfl hne hr

theorem Attempt.to_cleanup (h : Attempt exit need k c xs) (hne : exit k ≠ 0) :
    ∃ ys, xs = c :: ys ∧ Cleanup exit ⟨need, false, true⟩ (k + 1) ys := by
  cases h with
  | zero _ h0 => exact absurd h0 hne
  | outside _ hn =>
    subst hn
    exact ⟨[], rfl, [], [], [], rfl, by simp [Part], by simp [Part], by simp [Part]⟩
  | @again _ ys _ hn _ ht =>
    subst hn
    exact ⟨ys, rfl, ys, [], [], by simp, by simpa [Part] using ht, by simp [Part],
      by simp [Part]⟩

/-- A failing archive attempt with the upload still due: the nested handler
finishes the attempt and uploads. -/
theorem Attempt.of_cleanup_upload (h : Cleanup exit ⟨need, false, false⟩ (k + 1) xs)
    (hne : exit k ≠ 0) : ∃ s t, xs = s ++ t ∧ Attempt exit need k c (c :: s) ∧
      Attempt exit need (k + (c :: s).length) uploadCall t := by
  obtain ⟨r, s, t, rfl, hr, hs, ht⟩ := h
  simp only [Part, Bool.false_eq_true, ite_false] at hs
  subst hs
  refine ⟨r, t, by simp, ?_, ?_⟩
  · exact Attempt.of_cleanup ⟨r, [], [], by simp, hr, by simp [Part], by simp [Part]⟩ hne
  · have hk : k + (c :: r).length = k + 1 + r.length := by
      simp only [List.length_cons]
      omega
    rw [hk]
    simpa [Part] using ht

theorem Attempt.to_cleanup_upload {t : List Call} (h : Attempt exit need k c xs)
    (ht : Attempt exit need (k + xs.length) uploadCall t) (hne : exit k ≠ 0) :
    ∃ ys, xs = c :: ys ∧ Cleanup exit ⟨need, false, false⟩ (k + 1) (ys ++ t) := by
  obtain ⟨ys, rfl, r, s', t', hys, hr, hs', ht'⟩ := h.to_cleanup hne
  simp only [Part, Bool.not_true, Bool.false_eq_true, ite_false] at hs' ht'
  subst hs' ht'
  simp only [List.append_nil] at hys
  subst hys
  refine ⟨ys, rfl, ys, [], t, by simp, hr, by simp [Part], ?_⟩
  have hk : k + (c :: ys).length = k + 1 + ys.length + ([] : List Call).length := by
    simp only [List.length_cons, List.length_nil]
    omega
  rw [hk] at ht
  simpa [Part] using ht

end Abstract

/-! ### A run that ends has the abstract shape -/

/-- The history grew by `xs`, and nothing but the listed flags may have changed. -/
structure Grew (w₀ w : StoneRidgeWorker) (xs : List Call) : Prop where
  setting : w.setting = w₀.setting
  calls : w.calls = w₀.calls ++ xs

theorem Grew.refl (w : StoneRidgeWorker) : Grew w w [] := ⟨rfl, by simp⟩

theorem Grew.trans {w₀ w₁ w₂ : StoneRidgeWorker} {xs ys : List Call} (h : Grew w₀ w₁ xs)
    (h' : Grew w₁ w₂ ys) : Grew w₀ w₂ (xs ++ ys) :=
  ⟨h'.setting.trans h.setting, by rw [h'.calls, h.calls, List.append_assoc]⟩

theorem Grew.length {w₀ w : StoneRidgeWorker} {xs : List Call} (h : Grew w₀ w xs) :
    w.invoked.length = w₀.invoked.length + xs.length := by
  rw [← calls_length, h.calls, List.length_append, calls_length]

theorem Grew.unittest {w₀ w : StoneRidgeWorker} {xs : List Call} (h : Grew w₀ w xs)
    (hu : w₀.setting.unittest = false) : w.setting.unittest = false := by
  rw [h.setting, hu]

/-- `run_process` fell through: the subprocess exited zero. -/
def Advanced (exit : ℕ → ℤ) (w₀ : StoneRidgeWorker) (c : Call) (_ : Unit)
    (w : StoneRidgeWorker) : Prop :=
  exit w₀.invoked.length = 0 ∧ w.toFlags = w₀.toFlags ∧ Grew w₀ w [c]

/-- `run_process` raised: the subprocess failed and the handler has come to its
end, or (only if `cut`) the approximation was not deep enough. -/
def Recovered (cut : Prop) (exit : ℕ → ℤ) (w₀ : StoneRidgeWorker) (c : Call) :
    Raised → StoneRidgeWorker → Prop
  | .tooDeep, _ => cut
  | .stoneRidgeException _, w =>
    exit w₀.invoked.length ≠ 0 ∧ w.toFlags = ⟨w₀.needDnsReset, false, true⟩ ∧
      ∃ xs, Cleanup exit w₀.toFlags (w₀.invoked.length + 1) xs ∧ Grew w₀ w (c :: xs)

/-- Only the cut-off leaves the handler's own `try` blocks. -/
def OnlyCut (cut : Prop) (e : Raised) (_ : StoneRidgeWorker) : Prop := e = .tooDeep ∧ cut

/-- One call of `run_process` behaves as `Cleanup` says. -/
def SoundAt (cut : Prop) (exit : ℕ → ℤ) (run : Stage → List String → Action Unit) (c : Call)
    (w₀ : StoneRidgeWorker) : Prop :=
  Triple (· = w₀) (run c.1 c.2) (Advanced exit w₀ c) (Recovered cut exit w₀ c)

/-- Depth `d` is enough for the next call, unless a cut-off is admitted anyway. -/
def Enough (cut : Prop) (exit : ℕ → ℤ) (d : ℕ) (w : StoneRidgeWorker) : Prop :=
  cut ∨ (exit w.invoked.length = 0 ∧ 0 < d) ∨
    ∃ xs, Cleanup exit w.toFlags (w.invoked.length + 1) xs ∧ xs.length < d

theorem Enough.of_attempt {cut : Prop} {exit : ℕ → ℤ} {d : ℕ} {c : Call} {xs : List Call}
    {w : StoneRidgeWorker} (hf : w.toFlags = ⟨w.needDnsReset, false, true⟩)
    (h : Attempt exit w.needDnsReset w.invoked.length c xs) (hd : xs.length ≤ d) :
    Enough cut exit d w := by
  by_cases h0 : exit w.invoked.length = 0
  · exact .inr (.inl ⟨h0, h.length_pos.trans_le hd⟩)
  · obtain ⟨ys, rfl, hc⟩ := h.to_cleanup h0
    refine .inr (.inr ⟨ys, ?_, hd⟩)
    rw [hf]
    exact hc

theorem Enough.of_attempt_upload {cut : Prop} {exit : ℕ → ℤ} {d : ℕ} {c : Call}
    {xs t : List Call} {w : StoneRidgeWorker}
    (hf : w.toFlags = ⟨w.needDnsReset, false, false⟩)
    (h : Attempt exit w.needDnsReset w.invoked.length c xs)
    (ht : Attempt exit w.needDnsReset (w.invoked.length + xs.length) uploadCall t)
    (hd : xs.length + t.length ≤ d) : Enough cut exit d w := by
  by_cases h0 : exit w.invoked.length = 0
  · have hpos := h.length_pos
    exact .inr (.inl ⟨h0, by omega⟩)
  · obtain ⟨ys, rfl, hc⟩ := h.to_cleanup_upload ht h0
    refine .inr (.inr ⟨ys ++ t, ?_, ?_⟩)
    · rw [hf]
      exact hc
    · simp only [List.length_cons, List.length_append] at hd ⊢
      omega

theorem ignoring_triple {cut : Prop} {P : StoneRidgeWorker → Prop} {x : Action Unit}
    {Q : StoneRidgeWorker → Prop} {R : Raised → StoneRidgeWorker → Prop}
    (hx : Triple P x (fun _ => Q) R) (hr : ∀ m w, R (.stoneRidgeException m) w → Q w)
    (hc : ∀ w, R .tooDeep w → cut) : Triple P (ignoring x) (fun _ => Q) (OnlyCut cut) := by
  refine Triple.tryCatch hx fun e => ?_
  cases e with
  | stoneRidgeException m => exact Triple.of_pure (hr m)
  | tooDeep => exact Triple.of_throw fun w hw => ⟨rfl, hc w hw⟩

section Handler
variable {cut : Prop} {exit : ℕ → ℤ} {run : Stage → List String → Action Unit}

/-- A call with nothing to archive and nothing to upload is one `Attempt`. -/
theorem attempt_sound {c : Call} {w₀ : StoneRidgeWorker}
    (hf : w₀.toFlags = ⟨w₀.needDnsReset, false, true⟩) (hrun : SoundAt cut exit run c w₀) :
    Triple (· = w₀) (ignoring (run c.1 c.2))
      (fun _ w => w.toFlags = w₀.toFlags ∧
        ∃ xs, Attempt exit w₀.needDnsReset w₀.invoked.length c xs ∧ Grew w₀ w xs)
      (OnlyCut cut) := by
  refine ignoring_triple (Triple.conseq hrun (fun _ h => h) ?_ fun _ _ h => h) ?_
    fun _ h => h
  · rintro - w ⟨h0, hfl, hg⟩
    exact ⟨hfl, [c], .zero c h0, hg⟩
  · rintro m w ⟨hne, hfl, xs, hc, hg⟩
    rw [hf] at hc
    exact ⟨hfl.trans hf.symm, c :: xs, .of_cleanup hc hne, hg⟩

theorem restoreDns_sound {w₀ : StoneRidgeWorker}
    (hrun : w₀.needDnsReset = true →
      SoundAt cut exit run restoreCall { w₀ with archiveOnFailure := false, uploaded := true }) :
    Triple (· = w₀) (restoreDns run)
      (fun _ w => w.toFlags = w₀.toFlags ∧ ∃ r, Part exit w₀.needDnsReset w₀.needDnsReset
        w₀.invoked.length restoreCall r ∧ Grew w₀ w r)
      (OnlyCut cut) := by
  refine Triple.get_bind ?_
  cases hn : w₀.needDnsReset with
  | false =>
    rw [if_neg Bool.false_ne_true]
    refine Triple.of_pure ?_
    rintro w rfl
    exact ⟨rfl, [], by simp [Part], .refl w⟩
  | true =>
    rw [if_pos rfl]
    refine Triple.modify_bind (Triple.modify_bind ?_)
    refine Triple.bind (attempt_sound rfl (hrun hn)) fun _ => Triple.of_modify ?_
    rintro w ⟨hf, r, hr, hg⟩
    have hneed := congrArg Flags.needDnsReset hf
    refine ⟨?_, r, ?_, ⟨hg.setting, hg.calls⟩⟩
    · exact congrArg (fun n => Flags.mk n w₀.archiveOnFailure w₀.uploaded) hneed
    · simpa [Part, hn] using hr

theorem archiveOnce_sound {w₀ : StoneRidgeWorker}
    (hrun : w₀.archiveOnFailure = true →
      SoundAt cut exit run archiveCall { w₀ with archiveOnFailure := false }) :
    Triple (· = w₀) (archiveOnce run)
      (fun _ w => ∃ s t, Grew w₀ w (s ++ t) ∧ w.needDnsReset = w₀.needDnsReset ∧
        w.archiveOnFailure = false ∧
        Part exit w₀.needDnsReset w₀.archiveOnFailure w₀.invoked.length archiveCall s ∧
        ((t = [] ∧ w.uploaded = w₀.uploaded) ∨
          (w.uploaded = true ∧ Part exit w₀.needDnsReset (!w₀.uploaded)
            (w₀.invoked.length + s.length) uploadCall t)))
      (OnlyCut cut) := by
  refine Triple.get_bind ?_
  cases ha : w₀.archiveOnFailure with
  | false =>
    rw [if_neg Bool.false_ne_true]
    refine Triple.of_pure ?_
    rintro w rfl
    exact ⟨[], [], .refl w, rfl, ha, by simp [Part], .inl ⟨rfl, rfl⟩⟩
  | true =>
    rw [if_pos rfl]
    refine Triple.modify_bind ?_
    refine ignoring_triple (Triple.conseq (hrun ha) (fun _ h => h) ?_ fun _ _ h => h) ?_
      fun _ h => h
    · rintro - w ⟨h0, hf, hg⟩
      have hneed := congrArg Flags.needDnsReset hf
      have harch := congrArg Flags.archiveOnFailure hf
      have hupl := congrArg Flags.uploaded hf
      refine ⟨[archiveCall], [], ⟨hg.setting, hg.calls⟩, hneed, harch, ?_, .inl ⟨rfl, hupl⟩⟩
      simpa [Part] using Attempt.zero archiveCall h0
    · rintro m w ⟨hne, hf, xs, hc, hg⟩
      have hneed := congrArg Flags.needDnsReset hf
      have harch := congrArg Flags.archiveOnFailure hf
      have hupl := congrArg Flags.uploaded hf
      have hgrew : Grew w₀ w (archiveCall :: xs) := ⟨hg.setting, hg.calls⟩
      -- the nested handler uploads only if nothing has been uploaded yet
      cases hb : w₀.uploaded with
      | true =>
        refine ⟨archiveCall :: xs, [], by simpa using hgrew, hneed, harch, ?_,
          .inl ⟨rfl, hupl⟩⟩
        simp only [hb] at hc
        simpa [Part] using Attempt.of_cleanup hc hne
      | false =>
        simp only [hb] at hc
        obtain ⟨s, t, rfl, hs, ht⟩ := Attempt.of_cleanup_upload hc hne
        exact ⟨archiveCall :: s, t, hgrew, hneed, harch,
          by simpa [Part] using hs, .inr ⟨hupl, by simpa [Part] using ht⟩⟩

theorem uploadOnce_sound {w₀ : StoneRidgeWorker} (ha : w₀.archiveOnFailure = false)
    (hrun : w₀.uploaded = false →
      SoundAt cut exit run uploadCall { w₀ with uploaded := true }) :
    Triple (· = w₀) (uploadOnce run)
      (fun _ w => w.toFlags = ⟨w₀.needDnsReset, false, true⟩ ∧ ∃ t, Grew w₀ w t ∧
        Part exit w₀.needDnsReset (!w₀.uploaded) w₀.invoked.length uploadCall t)
      (OnlyCut cut) := by
  refine Triple.get_bind ?_
  cases hb : w₀.uploaded with
  | true =>
    rw [if_neg (by simp)]
    refine Triple.of_pure ?_
    rintro w rfl
    exact ⟨by rw [← ha, ← hb], [], .refl w, by simp [Part]⟩
  | false =>
    rw [if_pos (by simp)]
    refine Triple.modify_bind ?_
    refine Triple.conseq (attempt_sound (by rw [ha]) (hrun hb)) (fun _ h => h) ?_ fun _ _ h => h
    rintro - w ⟨hf, t, ht, hg⟩
    refine ⟨?_, t, ⟨hg.setting, hg.calls⟩, by simpa [Part] using ht⟩
    rw [hf, ← ha]

/-- How the handler ends: by raising, after the calls of a `Cleanup`. -/
def Handled (cut : Prop) (exit : ℕ → ℤ) (w₀ : StoneRidgeWorker) :
    Raised → StoneRidgeWorker → Prop
  | .tooDeep, _ => cut
  | .stoneRidgeException _, w => w.toFlags = ⟨w₀.needDnsReset, false, true⟩ ∧
    ∃ xs, Cleanup exit w₀.toFlags w₀.invoked.length xs ∧ Grew w₀ w xs

theorem OnlyCut.handled {w₀ w : StoneRidgeWorker} {e : Raised} (h : OnlyCut cut e w) :
    Handled cut exit w₀ e w := by
  obtain ⟨rfl, hc⟩ := h
  exact hc

/-- The whole handler, given that `run` is sound wherever depth `d` is enough. -/
theorem failureHandler_sound {d : ℕ} (stage : Stage) {w₀ : StoneRidgeWorker}
    (hu : w₀.setting.unittest = false)
    (hrun : ∀ c w, w.setting.unittest = false → Enough cut exit d w →
      SoundAt cut exit run c w)
    (hd : cut ∨ ∃ xs, Cleanup exit w₀.toFlags w₀.invoked.length xs ∧ xs.length ≤ d) :
    Triple (· = w₀) (failureHandler run stage) (fun _ _ => False) (Handled cut exit w₀) := by
  -- restore
  refine Triple.bind (Triple.conseq (restoreDns_sound fun hn => hrun _ _ hu ?_)
    (fun _ h => h) (fun _ _ h => h) fun _ _ h => h.handled) fun _ => Triple.of_state ?_
  · rcases hd with hc | ⟨_, ⟨r, s, t, rfl, hr, -, -⟩, hlen⟩
    · exact .inl hc
    · simp only [List.length_append] at hlen
      simp only [Part, hn, ite_true] at hr
      have hr' : Attempt exit w₀.needDnsReset w₀.invoked.length restoreCall r := by
        simpa [hn] using hr
      exact .of_attempt rfl hr' (by omega)
  rintro w₁ ⟨hf₁, r, hr, hg₁⟩
  have hneed₁ := congrArg Flags.needDnsReset hf₁
  have harch₁ := congrArg Flags.archiveOnFailure hf₁
  have hupl₁ := congrArg Flags.uploaded hf₁
  have hlen₁ := hg₁.length
  have hu₁ := hg₁.unittest hu
  have hd₁ : cut ∨ ∃ s t, r.length + (s.length + t.length) ≤ d ∧
      Part exit w₁.needDnsReset w₁.archiveOnFailure w₁.invoked.length archiveCall s ∧
      Part exit w₁.needDnsReset (!w₁.uploaded) (w₁.invoked.length + s.length) uploadCall t := by
    rcases hd with hc | ⟨_, ⟨r', s, t, rfl, hr', hs, ht⟩, hlen⟩
    · exact .inl hc
    · obtain rfl := hr.unique hr'
      simp only [List.length_append] at hlen
      rw [hneed₁, harch₁, hupl₁, hlen₁]
      exact .inr ⟨s, t, hlen, hs, ht⟩
  -- archive
  refine Triple.bind (Triple.conseq (archiveOnce_sound fun ha => hrun _ _ hu₁ ?_)
    (fun _ h => h) (fun _ _ h => h) fun _ _ h => h.handled) fun _ => Triple.of_state ?_
  · rcases hd₁ with hc | ⟨s, t, hlen, hs, ht⟩
    · exact .inl hc
    · simp only [Part, ha, ite_true] at hs
      cases hb : w₁.uploaded with
      | true =>
        exact .of_attempt rfl hs (by omega)
      | false =>
        simp only [Part, hb, Bool.not_false, ite_true] at ht
        exact .of_attempt_upload rfl hs ht (by omega)
  rintro w₂ ⟨s, t, hg₂, hneed₂, harch₂, hs, ht⟩
  have hu₂ := hg₂.unittest hu₁
  have hlen₂ := hg₂.length
  rw [hneed₁, harch₁, hlen₁] at hs
  rw [hneed₁, hupl₁, hlen₁] at ht
  -- upload
  refine Triple.bind (Triple.conseq (uploadOnce_sound harch₂ fun hb => hrun _ _ hu₂ ?_)
    (fun _ h => h) (fun _ _ h => h) fun _ _ h => h.handled) fun _ => Triple.of_state ?_
  · rcases ht with ⟨rfl, hupl₂⟩ | ⟨hupl₂, -⟩
    · rcases hd₁ with hc | ⟨s', t', hlen, hs', ht'⟩
      · exact .inl hc
      · rw [hneed₁, harch₁, hlen₁] at hs'
        obtain rfl := hs.unique hs'
        rw [hupl₁, ← hupl₂, ← hneed₂] at ht'
        simp only [Part, hb, Bool.not_false, ite_true] at ht'
        have ht₂ : Attempt exit w₂.needDnsReset w₂.invoked.length uploadCall t' := by
          rw [hlen₂]
          simpa using ht'
        exact .of_attempt (by simp only [harch₂]) ht₂ (by omega)
    · exact absurd (hupl₂.symm.trans hb) Bool.noConfusion
  rintro w₃ ⟨hf₃, t₃, hg₃, ht₃⟩
  -- the exception
  refine Triple.get_bind (Triple.of_throw ?_)
  rintro w rfl
  refine ⟨by rw [hf₃, hneed₂, hneed₁], r ++ (s ++ t) ++ t₃, ?_, (hg₁.trans hg₂).trans hg₃⟩
  rw [hneed₂, hneed₁] at ht₃
  rcases ht with ⟨rfl, hupl₂⟩ | ⟨hupl₂, ht⟩
  · refine ⟨r, s, t₃, by simp, hr, hs, ?_⟩
    rw [hupl₂, hlen₂, hlen₁] at ht₃
    simpa using ht₃
  · simp only [Part, hupl₂, Bool.not_true, Bool.false_eq_true, ite_false] at ht₃
    subst ht₃
    exact ⟨r, s, t, by simp, hr, hs, ht⟩

end Handler

/-- `run_process` at any depth: the subprocess runs, and if it fails the handler
performs a `Cleanup`. The approximation reaches the end of it whenever the depth
exceeds the number of calls the `Cleanup` makes. -/
theorem runProcess_sound {cut : Prop} {exit : ℕ → ℤ} (d : ℕ) (c : Call)
    (w : StoneRidgeWorker) (hu : w.setting.unittest = false) (hd : Enough cut exit d w) :
    SoundAt cut exit (runProcess exit d) c w := by
  induction d generalizing c w with
  | zero =>
    refine Triple.of_throw fun _ _ => ?_
    rcases hd with hc | ⟨-, h⟩ | ⟨_, -, h⟩
    · exact hc
    · exact absurd h (Nat.lt_irrefl 0)
    · exact absurd h (Nat.not_lt_zero _)
  | succ d ih =>
    refine Triple.get_bind ?_
    rw [if_neg (by simp [hu])]
    refine Triple.modify_bind ?_
    by_cases h0 : exit w.invoked.length = 0
    · rw [if_neg (by simpa using h0)]
      refine Triple.of_pure ?_
      rintro _ rfl
      exact ⟨h0, rfl, rfl, ran_calls w c⟩
    · rw [if_pos h0]
      refine Triple.modify_bind ?_
      have hlen : (w.ran c.1 c.2).invoked.length = w.invoked.length + 1 := by
        simp [StoneRidgeWorker.ran]
      have hd' : cut ∨ ∃ xs, Cleanup exit w.toFlags (w.ran c.1 c.2).invoked.length xs ∧
          xs.length ≤ d := by
        rcases hd with hc | ⟨h, -⟩ | ⟨xs, hx, hxd⟩
        · exact .inl hc
        · exact absurd h h0
        · exact .inr ⟨xs, by rwa [hlen], Nat.le_of_lt_succ hxd⟩
      refine Triple.conseq (@failureHandler_sound cut exit _ d c.1
        { w.ran c.1 c.2 with childlog := some (w.logfile c.1) } hu (fun c w => ih c w) hd')
        (fun _ h => h) (fun _ _ h => h.elim) ?_
      · intro e w' h
        cases e with
        | tooDeep => exact h
        | stoneRidgeException m =>
          obtain ⟨hf, xs, hx, hg⟩ := h
          rw [hlen] at hx
          refine ⟨h0, hf, xs, hx, hg.setting, ?_⟩
          have hcalls := ran_calls w c
          rw [hg.calls, List.append_cons, ← hcalls]
          rfl

end StoneRidge.Worker
