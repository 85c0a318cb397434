import StoneRidge.Daemon.Exclusion

/-!
# What the pid file says

A start cuts the pid file to nothing before it tries the lock (`stoneridge.py:514-516`),
so one that comes while the daemon is there ends without a trace of its own and
leaves the daemon without its pid on file.
-/

set_option autoImplicit false

namespace StoneRidge.Daemon
open StoneRidge.Kit StoneRidge.Kit.Machine

/-- The action reaches `file(pidfile, 'w')`. -/
def Action.opens : Action → Bool
  | .openFile _ => true
  | _ => false

/-- The action takes process `p` off the pid file. -/
def Action.Leaves (p : ℕ) (a : Action) : Prop := a = .unlink p ∨ a = .die p

/-- The process has written its pid. -/
def Daemons.Wrote (s : Daemons) (p i : ℕ) : Prop :=
  s.phase p = some (.written i) ∨ s.phase p = some (.serving i)

section Content
variable {s s' : Daemons} {p i : ℕ} {a : Action} {as bs : List Action} {f : LockFile ℕ}

theorem Daemons.Wrote.file (h : s.Wrote p i) : s.fileOf p = some i := by
  rcases h with h | h <;> exact fileOf_eq_some.mpr ⟨_, h, rfl⟩

theorem Daemons.Wrote.lock (h : s.Wrote p i) : s.lockOf p = some i := by
  rcases h with h | h <;> exact lockOf_eq_some.mpr ⟨_, h, rfl⟩

theorem Daemons.Wrote.enter {q : ℕ} {ph : Phase} (h : s.Wrote p i) (hq : p ≠ q) :
    (s.enter q ph f).Wrote p i := by
  unfold Daemons.Wrote
  rw [Daemons.enter_phase_of_ne s ph f hq]
  exact h

theorem Daemons.Wrote.gone {q : ℕ} (h : s.Wrote p i) (hq : p ≠ q) : (s.gone q).Wrote p i := by
  unfold Daemons.Wrote
  rw [Daemons.gone_phase_of_ne s hq]
  exact h

/-- In another phase, another process. -/
theorem Daemons.Wrote.ne {q : ℕ} {ph : Phase} (h : s.Wrote p i) (hq : s.phase q = some ph)
    (hw : ph ≠ .written i) (hs : ph ≠ .serving i) : p ≠ q := by
  rintro rfl
  rcases h with h | h
  · exact hw (Option.some.inj (hq.symm.trans h))
  · exact hs (Option.some.inj (hq.symm.trans h))

/-- One step under a daemon that has written its pid and stays: only an open touches the file. -/
theorem wrote_step (hinv : Inv s) (hn : Named s) (ho : Orderly a s) (hw : s.Wrote p i)
    (hstay : ¬ a.Leaves p) (hstep : Step a s s') :
    s'.Wrote p i ∧ s'.pidfile.content i = if a.opens then [] else s.pidfile.content i := by
  have hentry : s.pidfile.entry = some i := hn p i hw.file
  cases hstep with
  | fork hp =>
    refine ⟨hw.enter ?_, rfl⟩
    rintro rfl
    rcases hw with hw | hw <;> exact nomatch hp.symm.trans hw
  | openFile hp =>
    refine ⟨hw.enter (hw.ne hp nofun nofun), ?_⟩
    rw [Daemons.enter_pidfile, LockFile.openTruncating_of_entry hentry]
    exact Function.update_self ..
  | locked hp hf =>
    obtain ⟨-, rfl⟩ := LockFile.lock_eq_some hf
    exact ⟨hw.enter (hw.ne hp nofun nofun), rfl⟩
  | refused hp hf => exact ⟨hw.gone (hw.ne hp nofun nofun), rfl⟩
  | @write _ q j hp =>
    have hne : p ≠ q := hw.ne hp nofun nofun
    refine ⟨hw.enter hne, ?_⟩
    have hij : i ≠ j := by
      rintro rfl
      exact hne (hinv.lock_unique hw.lock (lockOf_eq_some.mpr ⟨_, hp, rfl⟩))
    exact LockFile.writeAtStart_content_of_ne hij
  | @install _ q j hp =>
    refine ⟨?_, rfl⟩
    by_cases hq : p = q
    · subst hq
      obtain rfl : j = i := by
        rcases hw with hw | hw
        · cases hp.symm.trans hw
          rfl
        · cases hp.symm.trans hw
      exact .inr (Daemons.enter_phase_self ..)
    · exact hw.enter hq
  | @unlink _ q j g hp hf =>
    have hne : p ≠ q := fun hq => hstay (.inl (hq ▸ rfl))
    exact absurd hentry (ho q rfl p hne i hw.file)
  | @missing _ q j hp hf =>
    have hne : p ≠ q := fun hq => hstay (.inl (hq ▸ rfl))
    exact ⟨hw.gone hne, rfl⟩
  | exit hp => exact ⟨hw.gone (hw.ne hp nofun nofun), rfl⟩
  | @die _ q ph hp =>
    have hne : p ≠ q := fun hq => hstay (.inr (hq ▸ rfl))
    exact ⟨hw.gone hne, rfl⟩

theorem wrote_run (hinv : Inv s) (hn : Named s) (ho : Through step Orderly bs s)
    (hw : s.Wrote p i) (hstay : ∀ a ∈ bs, ¬ a.Leaves p) (hrun : run step bs s = some s') :
    s'.Wrote p i ∧ Named s' ∧
      s'.pidfile.content i = if bs.any Action.opens then [] else s.pidfile.content i := by
  induction bs generalizing s with
  | nil =>
    obtain rfl := Option.some.inj hrun
    exact ⟨hw, hn, rfl⟩
  | cons a bs ih =>
    obtain ⟨m, hm, hrest⟩ := run_cons hrun
    have hstep := step_sound hm
    obtain ⟨hw', hcontent⟩ := wrote_step hinv hn ho.1 hw (hstay a List.mem_cons_self) hstep
    obtain ⟨hlast, hnamed, htext⟩ := ih (hinv.step hstep) (hn.step ho.1 hstep) (ho.2 m hm) hw'
      (fun b hb => hstay b (List.mem_cons_of_mem a hb)) hrest
    refine ⟨hlast, hnamed, ?_⟩
    rw [htext, hcontent, List.any_cons]
    cases a.opens <;> simp

theorem cat_of_wrote (hn : Named s) (hw : s.Wrote p i) : s.cat = some (s.pidfile.content i) := by
  rw [Daemons.cat, hn p i hw.file, Option.map_some]

end Content

end StoneRidge.Daemon
