import StoneRidge.Cloner.Cloned

/-!
# Whom a failed run tells

The master acknowledges a request whose cloner failed (`srmaster.py:64-70`), so what
the cloner did before it exited decides whether anybody hears of the run again: a
deferrer tries it later, or its owner gets a mail (`srcloner.py:253-290`).
-/

set_option autoImplicit false

namespace StoneRidge.Cloner
open StoneRidge.Kit.Exec StoneRidge.Kit.PosixPath StoneRidge.Kit.Retention
open StoneRidgeCloner

section Telling
variable (c : StoneRidgeCloner) (env : Env)

/-- Between `w` and `t` a deferrer was started for the next attempt, which is allowed. -/
structure Deferred (w t : World) : Prop where
  deferrers : t.deferrers = w.deferrers ++ [c.deferArgs env.pidfile]
  mails : t.mails = w.mails
  attempts : c.attempt + 1 ≤ c.setting.attempts

/-- Between `w` and `t` the requester was sent the cancellation mail. -/
structure Mailed (w t : World) : Prop where
  deferrers : t.deferrers = w.deferrers
  mails : ∃ reason, t.mails = w.mails ++ [⟨c.ldap, cancelled, emailMessage c.ldap reason⟩]

/-- Exactly one of the two. -/
def Noticed (w t : World) : Prop :=
  (Deferred c env w t ∧ ¬ Mailed c w t) ∨ (Mailed c w t ∧ ¬ Deferred c env w t)

end Telling

section Exits
variable {c : StoneRidgeCloner} {env : Env} {w t : World} {e : Raised}

theorem Deferred.not_mailed (h : Deferred c env w t) : ¬ Mailed c w t := by
  intro h'
  have heq := h.deferrers.symm.trans h'.deferrers
  simp at heq

theorem noticed_iff : Noticed c env w t ↔ Deferred c env w t ∨ Mailed c w t := by
  unfold Noticed
  constructor
  · intro h
    exact h.imp And.left And.left
  · intro h
    rcases h with h | h
    · exact .inl ⟨h, h.not_mailed⟩
    · exact .inr ⟨h, fun h' => h'.not_mailed h⟩

theorem Untold.not_noticed (h : Untold w t) : ¬ Noticed c env w t := by
  rw [noticed_iff]
  intro h'
  rcases h' with h' | h'
  · have heq := h'.deferrers.symm.trans h.1
    simp at heq
  · obtain ⟨reason, hmails⟩ := h'.mails
    have heq := hmails.symm.trans h.2
    simp at heq

theorem email_then_exit (hl : c.ldap ≠ "") (reason : String)
    (h : (c.email reason >>= fun _ => (throw (.systemExit 1) : Action)) w = .error e t) :
    Mailed c w t := by
  unfold email at h
  rw [if_neg hl] at h
  cases h
  exact ⟨rfl, reason, rfl⟩

theorem exitAndMaybeDefer_noticed (hl : c.ldap ≠ "") (reason : String)
    (h : c.exitAndMaybeDefer env reason w = .error e t) : Noticed c env w t := by
  rw [noticed_iff]
  unfold exitAndMaybeDefer at h
  by_cases hlast : c.attempt + 1 > c.setting.attempts
  · rw [if_pos hlast] at h
    exact .inr (email_then_exit hl reason h)
  · rw [if_neg hlast] at h
    refine .inl ?_
    unfold defer at h
    by_cases hstatus : env.deferrerStatus = 0
    · rw [if_pos hstatus] at h
      cases h
      exact ⟨rfl, rfl, Int.not_lt.mp hlast⟩
    · rw [if_neg hstatus] at h
      cases h
      exact ⟨rfl, rfl, Int.not_lt.mp hlast⟩

theorem exitAndMaybeDefer_deferrers {reason : String}
    (h : c.exitAndMaybeDefer env reason w = .error e t) :
    t.deferrers = w.deferrers ∨ (t.deferrers = w.deferrers ++ [c.deferArgs env.pidfile] ∧
      c.attempt + 1 ≤ c.setting.attempts) := by
  unfold exitAndMaybeDefer at h
  by_cases hlast : c.attempt + 1 > c.setting.attempts
  · rw [if_pos hlast] at h
    unfold email at h
    by_cases hl : c.ldap = ""
    · rw [if_pos hl] at h
      cases h
      exact .inl rfl
    · rw [if_neg hl] at h
      cases h
      exact .inl rfl
  · rw [if_neg hlast] at h
    unfold defer at h
    by_cases hstatus : env.deferrerStatus = 0
    · rw [if_pos hstatus] at h
      cases h
      exact .inr ⟨rfl, Int.not_lt.mp hlast⟩
    · rw [if_neg hstatus] at h
      cases h
      exact .inr ⟨rfl, Int.not_lt.mp hlast⟩

/-- A run starts at most one deferrer, and only for an attempt that is allowed. -/
theorem run_deferrers (c : StoneRidgeCloner) (env : Env) (w : World) :
    (endState (c.run env w)).deferrers = w.deferrers ∨
      ((endState (c.run env w)).deferrers = w.deferrers ++ [c.deferArgs env.pidfile] ∧
        c.attempt + 1 ≤ c.setting.attempts) := by
  by_cases hlisted : SubdirsListed c env
  · by_cases hfiles : listing c env = []
    · cases hn : c.nightly with
      | true =>
        simp only [listing, hn, ite_true] at hfiles
        obtain ⟨_, e, t, hexit, hrun⟩ := @run_noFiles c env w hn hfiles
        rw [hrun]
        exact exitAndMaybeDefer_deferrers hexit
      | false =>
        simp only [listing, hn, Bool.false_eq_true, ite_false] at hfiles
        by_cases hsubdirs : c.subdirs = []
        · rw [run_noSubdirs hn hsubdirs]
          exact .inl rfl
        · rw [run_noDistFiles hn hlisted hsubdirs hfiles]
          unfold email
          split <;> exact .inl rfl
    · have hrun := @run_listed_exact c env w hlisted hfiles
      cases hend : c.run env w with
      | ok a t => exact .inl (hrun.ok hend).2.1.1
      | error e t => exact .inl (hrun.error hend).2.1
  · obtain ⟨_, e, t, hexit, hrun⟩ := @run_subdirMissing c env w hlisted
    rw [hrun]
    exact exitAndMaybeDefer_deferrers hexit

end Exits

section Failing

def tryCloner : StoneRidgeCloner :=
  ⟨setting, false, "5e1", ["linux"], ["gsm"], "dev@example.com", "abc123", 1⟩

/-- The run is there, but its directory lists no checksums. -/
def noChecksums : Env :=
  Env.healthy (fun path => if path = "/pub/try-builds/dev@example.com-abc123"
    then some ["try-linux64"] else some ["firefox-27.0a1.en-US.linux-x86_64.tar.bz2"]) fun _ => none

end Failing

end StoneRidge.Cloner
