import StoneRidge.Daemon.Pidfile

/-!
# One daemon at a time

The lock is on the file, the init scripts and the next start go by its name. What
keeps the two together is that the name is never removed under a process that has
opened it and has yet to take the lock.
-/

set_option autoImplicit false

namespace StoneRidge.Daemon
open StoneRidge.Kit StoneRidge.Kit.Machine

namespace Daemons
variable (s : Daemons) (p q : ℕ) (ph : Phase) (f : LockFile ℕ)

@[simp] theorem enter_pidfile : (s.enter p ph f).pidfile = f := rfl

@[simp] theorem gone_pidfile : (s.gone p).pidfile = s.pidfile.release p := rfl

@[simp] theorem enter_phase_self : (s.enter p ph f).phase p = some ph := Function.update_self ..

@[simp] theorem gone_phase_self : (s.gone p).phase p = none := Function.update_self ..

variable {p q}

theorem enter_phase_of_ne (h : q ≠ p) : (s.enter p ph f).phase q = s.phase q :=
  Function.update_of_ne h ..

theorem gone_phase_of_ne (h : q ≠ p) : (s.gone p).phase q = s.phase q := Function.update_of_ne h ..

theorem phase_enter_eq {x : Phase} (h : (s.enter p ph f).phase q = some x) :
    q = p ∧ x = ph ∨ q ≠ p ∧ s.phase q = some x := by
  by_cases hq : q = p
  · subst hq
    rw [enter_phase_self] at h
    exact .inl ⟨rfl, (Option.some.inj h).symm⟩
  · rw [enter_phase_of_ne s ph f hq] at h
    exact .inr ⟨hq, h⟩

theorem phase_gone_eq {x : Phase} (h : (s.gone p).phase q = some x) :
    q ≠ p ∧ s.phase q = some x := by
  by_cases hq : q = p
  · subst hq
    rw [gone_phase_self] at h
    cases h
  · rw [gone_phase_of_ne s hq] at h
    exact ⟨hq, h⟩

end Daemons

/-- The file of a phase, whether the process is on its way in or out. -/
def Phase.any? : Phase → Option ℕ
  | .started => none
  | .opened i | .locked i | .written i | .serving i | .leaving i => some i

/-- Holds in every run. -/
structure Inv (s : Daemons) : Prop where
  lock_iff : ∀ i p, s.pidfile.holder i = some p ↔ ∃ ph, s.phase p = some ph ∧ ph.lock? = some i
  created : ∀ p ph i, s.phase p = some ph → ph.any? = some i → i < s.pidfile.created
  left : ∀ p i, s.phase p = some (.leaving i) → s.pidfile.entry ≠ some i

section Invariant
variable {s s' : Daemons} {p i : ℕ} {ph ph' : Phase} {f : LockFile ℕ}

theorem inv_boot (f : LockFile ℕ) : Inv (Daemons.boot f) where
  lock_iff i p := by
    constructor
    · intro h
      cases h
    · rintro ⟨ph, hph, -⟩
      cases hph
  created p ph i h := by cases h
  left p i h := by cases h

/-- A process goes on and locks nothing. -/
theorem Inv.enter (h : Inv s) (hholder : f.holder = s.pidfile.holder)
    (hcreated : s.pidfile.created ≤ f.created)
    (hlock : ∀ i, ph.lock? = some i ↔ ∃ x, s.phase p = some x ∧ x.lock? = some i)
    (hfile : ∀ i, ph.any? = some i → i < f.created)
    (hleft : ∀ q i, (s.enter p ph f).phase q = some (.leaving i) → f.entry ≠ some i) :
    Inv (s.enter p ph f) where
  lock_iff i q := by
    rw [Daemons.enter_pidfile, hholder, h.lock_iff]
    by_cases hq : q = p
    · subst hq
      rw [← hlock]
      constructor
      · exact fun hx => ⟨ph, Daemons.enter_phase_self .., hx⟩
      · rintro ⟨x, hx, hi⟩
        rw [Daemons.enter_phase_self] at hx
        obtain rfl := Option.some.inj hx
        exact hi
    · rw [Daemons.enter_phase_of_ne s ph f hq]
  created q x i hx hi := by
    rcases Daemons.phase_enter_eq s ph f hx with ⟨rfl, rfl⟩ | ⟨-, hold⟩
    · exact hfile i hi
    · have hlt := h.created q x i hold hi
      rw [Daemons.enter_pidfile]
      omega
  left := hleft

theorem Inv.gone (h : Inv s) (p : ℕ) : Inv (s.gone p) where
  lock_iff i q := by
    rw [Daemons.gone_pidfile, LockFile.release_holder_iff, h.lock_iff]
    constructor
    · rintro ⟨⟨ph, hph, hi⟩, hne⟩
      exact ⟨ph, (Daemons.gone_phase_of_ne s hne).trans hph, hi⟩
    · rintro ⟨ph, hph, hi⟩
      obtain ⟨hne, hold⟩ := Daemons.phase_gone_eq s hph
      exact ⟨⟨ph, hold, hi⟩, hne⟩
  created q ph i hph hi := h.created q ph i (Daemons.phase_gone_eq s hph).2 hi
  left q i hq := h.left q i (Daemons.phase_gone_eq s hq).2

/-- A process that has nothing locked takes the lock on the file it has open. -/
theorem Inv.locked (h : Inv s) (hp : s.phase p = some (.opened i))
    (hf : s.pidfile.lock i p = some f) : Inv (s.enter p (.locked i) f) := by
  obtain ⟨hfree, rfl⟩ := LockFile.lock_eq_some hf
  have hmine : ∀ j, s.pidfile.holder j ≠ some p := by
    intro j hj
    obtain ⟨x, hx, hi⟩ := (h.lock_iff j p).mp hj
    obtain rfl := Option.some.inj (hp.symm.trans hx)
    cases hi
  have hnone : s.pidfile.holder i = none := hfree.resolve_right (hmine i)
  constructor
  · intro j q
    by_cases hq : q = p
    · subst hq
      by_cases hj : j = i
      · subst hj
        simp [Phase.lock?]
      · have hother := hmine j
        simp [Phase.lock?, Function.update_of_ne hj, hother, Ne.symm hj]
    · rw [Daemons.enter_phase_of_ne s _ _ hq, ← h.lock_iff]
      by_cases hj : j = i
      · subst hj
        simp [hnone, Ne.symm hq]
      · simp [Function.update_of_ne hj]
  · intro q x j hx hj
    rcases Daemons.phase_enter_eq s _ _ hx with ⟨rfl, rfl⟩ | ⟨-, hold⟩
    · exact h.created q _ j hp hj
    · exact h.created q x j hold hj
  · intro q j hq
    rcases Daemons.phase_enter_eq s _ _ hq with ⟨-, hx⟩ | ⟨-, hold⟩
    · cases hx
    · exact h.left q j hold

theorem Inv.left_enter (h : Inv s) (hph : ∀ i, ph ≠ .leaving i)
    (hentry : ∀ i, i < s.pidfile.created → f.entry = some i → s.pidfile.entry = some i)
    {q : ℕ} (hq : (s.enter p ph f).phase q = some (.leaving i)) : f.entry ≠ some i := by
  rcases Daemons.phase_enter_eq s ph f hq with ⟨-, hx⟩ | ⟨-, hold⟩
  · exact absurd hx.symm (hph i)
  · intro hi
    exact h.left q i hold (hentry i (h.created q _ i hold rfl) hi)

theorem Inv.step {a : Action} (h : Inv s) (hstep : Step a s s') : Inv s' := by
  cases hstep with
  | fork hp =>
    refine h.enter rfl le_rfl ?_ (by simp [Phase.any?]) ?_
    · simp [hp, Phase.lock?]
    · exact fun q i hq => h.left_enter (by simp) (fun _ _ hi => hi) hq
  | openFile hp =>
    refine h.enter (by simp) LockFile.created_le_openTruncating ?_ ?_ ?_
    · simp [hp, Phase.lock?]
    · intro i hi
      obtain rfl := Option.some.inj hi
      exact LockFile.openTruncating_lt
    · refine fun q i hq => h.left_enter (by simp) ?_ hq
      intro j hj hentry
      obtain rfl := Option.some.inj (LockFile.openTruncating_entry.symm.trans hentry)
      exact LockFile.openTruncating_fresh hj
  | locked hp hf => exact h.locked hp hf
  | refused hp hf => exact h.gone _
  | write hp =>
    refine h.enter rfl le_rfl ?_ ?_ ?_
    · simp [hp, Phase.lock?]
    · exact fun i hi => h.created _ _ i hp hi
    · exact fun q i hq => h.left_enter (by simp) (fun _ _ hi => hi) hq
  | install hp =>
    refine h.enter rfl le_rfl ?_ ?_ ?_
    · simp [hp, Phase.lock?]
    · exact fun i hi => h.created _ _ i hp hi
    · exact fun q i hq => h.left_enter (by simp) (fun _ _ hi => hi) hq
  | unlink hp hf =>
    obtain ⟨-, rfl⟩ := LockFile.unlink_eq_some hf
    refine h.enter rfl le_rfl ?_ ?_ (by simp)
    · rcases hp with hp | hp <;> simp [hp, Phase.lock?]
    · intro i hi
      rcases hp with hp | hp <;> exact h.created _ _ i hp hi
  | missing hp hf => exact h.gone _
  | exit hp => exact h.gone _
  | die hp => exact h.gone _

end Invariant

/-! ### Orderly runs -/

/-- The pid file is not unlinked while another process has it open. -/
def Orderly (a : Action) (s : Daemons) : Prop :=
  ∀ p, a = .unlink p → ∀ q, q ≠ p → ∀ i, s.fileOf q = some i → s.pidfile.entry ≠ some i

/-- Who has the pid file open has the file that the name refers to. -/
def Named (s : Daemons) : Prop := ∀ p i, s.fileOf p = some i → s.pidfile.entry = some i

section Named
variable {s s' : Daemons} {p i : ℕ} {ph : Phase} {f : LockFile ℕ} {a : Action}

theorem fileOf_eq_some : s.fileOf p = some i ↔ ∃ ph, s.phase p = some ph ∧ ph.file? = some i :=
  Option.bind_eq_some_iff

theorem lockOf_eq_some : s.lockOf p = some i ↔ ∃ ph, s.phase p = some ph ∧ ph.lock? = some i :=
  Option.bind_eq_some_iff

theorem named_enter
    (hother : ∀ q i, q ≠ p → s.fileOf q = some i → f.entry = some i)
    (hself : ∀ i, ph.file? = some i → f.entry = some i) : Named (s.enter p ph f) := by
  intro q i hq
  obtain ⟨x, hx, hi⟩ := fileOf_eq_some.mp hq
  rcases Daemons.phase_enter_eq s ph f hx with ⟨rfl, rfl⟩ | ⟨hne, hold⟩
  · exact hself i hi
  · exact hother q i hne (fileOf_eq_some.mpr ⟨x, hold, hi⟩)

theorem Named.gone (h : Named s) (p : ℕ) : Named (s.gone p) := by
  intro q i hq
  obtain ⟨x, hx, hi⟩ := fileOf_eq_some.mp hq
  exact h q i (fileOf_eq_some.mpr ⟨x, (Daemons.phase_gone_eq s hx).2, hi⟩)

theorem Named.step (h : Named s) (ho : Orderly a s) (hstep : Step a s s') : Named s' := by
  have hphase : ∀ {p ph i}, s.phase p = some ph → ph.file? = some i → s.pidfile.entry = some i :=
    fun hp hi => h _ _ (fileOf_eq_some.mpr ⟨_, hp, hi⟩)
  cases hstep with
  | fork hp => exact named_enter (fun q i _ hq => h q i hq) nofun
  | openFile hp =>
    refine named_enter ?_ ?_
    · intro q i _ hq
      rw [LockFile.openTruncating_of_entry (h q i hq)]
      exact h q i hq
    · intro i hi
      obtain rfl := Option.some.inj hi
      exact LockFile.openTruncating_entry
  | locked hp hf =>
    obtain ⟨-, rfl⟩ := LockFile.lock_eq_some hf
    exact named_enter (fun q i _ hq => h q i hq) fun i hi => hphase hp hi
  | refused hp hf => exact h.gone _
  | write hp => exact named_enter (fun q i _ hq => h q i hq) fun i hi => hphase hp hi
  | install hp => exact named_enter (fun q i _ hq => h q i hq) fun i hi => hphase hp hi
  | unlink hp hf =>
    refine named_enter ?_ nofun
    intro q i hne hq
    exact absurd (h q i hq) (ho _ rfl q hne i hq)
  | missing hp hf => exact h.gone _
  | exit hp => exact h.gone _
  | die hp => exact h.gone _

end Named

section Runs
variable {f : LockFile ℕ} {as bs : List Action} {s s' : Daemons}

theorem inv_run (hrun : run step as (Daemons.boot f) = some s) : Inv s := by
  refine @run_invariant _ _ _ _ _ _ Inv (fun _ => True) ?_ ?_ (inv_boot f) hrun
  · intro a m m' _ hm hstep
    exact hm.step (step_sound hstep)
  · intro a _
    trivial

theorem named_run (hrun : run step as (Daemons.boot f) = some s)
    (ho : Through step Orderly as (Daemons.boot f)) : Named s := by
  have h0 : Named (Daemons.boot f) := fun p i hp => by cases hp
  exact through_invariant (fun _ _ _ ha hn hs => hn.step ha (step_sound hs)) ho h0 hrun

/-- Two processes never have the lock on one file. -/
theorem Inv.lock_unique {p q i : ℕ} (h : Inv s) (hp : s.lockOf p = some i)
    (hq : s.lockOf q = some i) : p = q := by
  have hfirst := (h.lock_iff i p).mpr (lockOf_eq_some.mp hp)
  have hsecond := (h.lock_iff i q).mpr (lockOf_eq_some.mp hq)
  exact Option.some.inj (hfirst.symm.trans hsecond)

/-- A boot that finds the pid file of an earlier one. -/
def stale : LockFile ℕ where
  entry := some 0
  created := 1
  entry_lt := by simp
  content _ := "4711".toList
  holder _ := none

def startOf (p : ℕ) : List Action := [.fork p, .openFile p, .lock p, .write p, .install p]

/-- A daemon is stopped, and only then another started. -/
def stopThenStart : List Action := startOf 1 ++ [.unlink 1, .exit 1] ++ startOf 2

theorem orderly_stopThenStart : Through step Orderly stopThenStart (Daemons.boot stale) := by
  simp only [stopThenStart, startOf, List.cons_append, List.nil_append, Through, step]
  simp +contextual [Orderly, Daemons.boot, Daemons.enter, Daemons.gone, Daemons.fileOf,
    LockFile.openTruncating, LockFile.lock, LockFile.unlink, LockFile.release,
    LockFile.writeAtStart, stale]

/-- `restart` does not wait: the new start opens the pid file before the old daemon unlinks
it, and the start after that finds no file. -/
def restartThenStart : List Action :=
  startOf 1 ++ [.fork 2, .openFile 2, .unlink 1, .exit 1, .lock 2, .write 2, .install 2] ++ startOf 3

example : (run step restartThenStart (Daemons.boot stale)).map (fun s => (s.phase 2, s.phase 3)) =
    some (some (.serving 0), some (.serving 1)) := by decide

/-- Whatever has happened, and whatever pid file has been left: where no daemon is active, the
next start comes to serve and its pid is on file. -/
theorem start_serves (hrun : run step as (Daemons.boot f) = some s) {p : ℕ}
    (hfree : s.phase p = none) (hnone : ∀ q, ¬ s.Active q) :
    ∃ s' i, run step (startOf p) s = some s' ∧ s'.phase p = some (.serving i) ∧
      s'.cat = some (pidText p) := by
  have hinv := inv_run hrun
  have hunlocked : s.pidfile.holder s.pidfile.openTruncating.1 = none := by
    by_contra hne
    obtain ⟨q, hq⟩ := Option.ne_none_iff_exists'.mp hne
    obtain ⟨ph, hph, hi⟩ := (hinv.lock_iff _ q).mp hq
    have hactive : ph.file? = some s.pidfile.openTruncating.1 → False := fun hfile =>
      hnone q ⟨_, fileOf_eq_some.mpr ⟨ph, hph, hfile⟩, lockOf_eq_some.mpr ⟨ph, hph, hi⟩⟩
    cases ph with
    | started => cases hi
    | opened j => cases hi
    | locked j => exact hactive hi
    | written j => exact hactive hi
    | serving j => exact hactive hi
    | leaving j =>
      obtain rfl := Option.some.inj hi
      exact hinv.left q _ hph (LockFile.openTruncating_fresh (hinv.created q _ _ hph rfl))
  obtain ⟨g, hg, hentry, hcontent⟩ : ∃ g,
      s.pidfile.openTruncating.2.lock s.pidfile.openTruncating.1 p = some g ∧
        g.entry = s.pidfile.openTruncating.2.entry ∧
        g.content = s.pidfile.openTruncating.2.content :=
    ⟨_, LockFile.lock_of_free (by rw [LockFile.openTruncating_holder, hunlocked]), rfl, rfl⟩
  let s₁ := s.enter p .started s.pidfile
  let s₂ := s₁.enter p (.opened s.pidfile.openTruncating.1) s.pidfile.openTruncating.2
  let s₃ := s₂.enter p (.locked s.pidfile.openTruncating.1) g
  let s₄ := s₃.enter p (.written s.pidfile.openTruncating.1)
    (g.writeAtStart s.pidfile.openTruncating.1 (pidText p))
  have h₁ : step (.fork p) s = some s₁ := by simp only [step, hfree, s₁]
  have h₂ : step (.openFile p) s₁ = some s₂ := by simp [step, s₁, s₂]
  have h₃ : step (.lock p) s₂ = some s₃ := by simp [step, s₂, s₃, hg]
  have h₄ : step (.write p) s₃ = some s₄ := by simp [step, s₃, s₄]
  have h₅ : step (.install p) s₄ =
      some (s₄.enter p (.serving s.pidfile.openTruncating.1) s₄.pidfile) := by simp [step, s₄]
  refine ⟨s₄.enter p (.serving s.pidfile.openTruncating.1) s₄.pidfile,
    s.pidfile.openTruncating.1, ?_, Daemons.enter_phase_self .., ?_⟩
  · simp only [startOf, run, h₁, h₂, h₃, h₄, h₅, Option.bind_some]
  · simp [Daemons.cat, s₄, hentry, hcontent, LockFile.openTruncating_entry]

theorem start_serves_after_crash : ∃ s,
    run step (startOf 1 ++ [.die 1]) (Daemons.boot stale) = some s ∧
      ∃ s' i, run step (startOf 2) s = some s' ∧ s'.phase 2 = some (.serving i) ∧
        s'.cat = some (pidText 2) := by
  have hrun : run step (startOf 1 ++ [.die 1]) (Daemons.boot stale) = some _ := rfl
  refine ⟨_, hrun, start_serves hrun rfl ?_⟩
  rintro q ⟨i, hfile, -⟩
  obtain ⟨ph, hph, -⟩ := fileOf_eq_some.mp hfile
  by_cases hq : q = 1
  · subst hq
    cases hph
  · simp [Daemons.gone, Daemons.enter, Daemons.boot] at hph

end Runs

end StoneRidge.Daemon
