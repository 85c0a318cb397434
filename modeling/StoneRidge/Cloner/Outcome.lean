import StoneRidge.Cloner.Completion

/-!
# How a run ends

The exits of `run` (`srcloner.py:292-347`), by what the listings show: a try
directory that is missing, no systems asked for, no distribution files, no nightly
files, and the run that goes on to clone.
-/

set_option autoImplicit false

namespace StoneRidge.Cloner
open StoneRidge.Kit.Exec StoneRidgeCloner

section Exits
variable {c : StoneRidgeCloner} {env : Env} {w : World}

theorem exitAndMaybeDefer_error (reason : String) :
    ∃ e t, c.exitAndMaybeDefer env reason w = .error e t := by
  unfold exitAndMaybeDefer
  by_cases hlast : c.attempt + 1 > c.setting.attempts
  · rw [if_pos hlast]
    unfold email
    by_cases hldap : c.ldap = ""
    · rw [if_pos hldap]
      exact ⟨_, _, rfl⟩
    · rw [if_neg hldap]
      exact ⟨_, _, rfl⟩
  · rw [if_neg hlast]
    unfold defer
    by_cases hstatus : env.deferrerStatus = 0
    · rw [if_pos hstatus]
      exact ⟨_, _, rfl⟩
    · rw [if_neg hstatus]
      exact ⟨_, _, rfl⟩

/-- The check of one build directory (`srcloner.py:309-312`). -/
def checkSubdir (c : StoneRidgeCloner) (env : Env) (d : String) : Action :=
  if d ∈ gatherFilelist env c.path then pure ()
  else c.exitAndMaybeDefer env ("Run " ++ d ++ " not available")

theorem checks_ok (l : List String) (h : ∀ d ∈ l, d ∈ gatherFilelist env c.path) :
    l.forM (checkSubdir c env) w = .ok () w := by
  induction l with
  | nil => rfl
  | cons d l ih =>
    have hd : checkSubdir c env d w = .ok () w := by
      unfold checkSubdir
      rw [if_pos (h d List.mem_cons_self)]
      rfl
    show (checkSubdir c env d >>= fun _ => l.forM (checkSubdir c env)) w = _
    rw [bind_ok hd]
    exact ih fun d' hd' => h d' (List.mem_cons_of_mem d hd')

/-- The first directory that is missing decides the exit. -/
theorem checks_missing (l : List String) (h : ∃ d ∈ l, d ∉ gatherFilelist env c.path) :
    ∃ reason e t, c.exitAndMaybeDefer env reason w = .error e t ∧
      l.forM (checkSubdir c env) w = .error e t := by
  induction l with
  | nil =>
    obtain ⟨d, hd, _⟩ := h
    cases hd
  | cons d l ih =>
    show ∃ reason e t, _ ∧ (checkSubdir c env d >>= fun _ => l.forM (checkSubdir c env)) w = _
    by_cases hd : d ∈ gatherFilelist env c.path
    · have hok : checkSubdir c env d w = .ok () w := by
        unfold checkSubdir
        rw [if_pos hd]
        rfl
      rw [bind_ok hok]
      apply ih
      obtain ⟨d', hd', hmissing⟩ := h
      rcases List.mem_cons.mp hd' with heq | hd'
      · exact absurd (heq ▸ hd) hmissing
      · exact ⟨d', hd', hmissing⟩
    · obtain ⟨e, t, hexit⟩ :=
        @exitAndMaybeDefer_error c env w ("Run " ++ d ++ " not available")
      refine ⟨_, e, t, hexit, bind_error ?_⟩
      unfold checkSubdir
      rw [if_neg hd]
      exact hexit

theorem run_of_findFiles_error {e : Raised} {t : World} (h : c.findFiles env w = .error e t) :
    c.run env w = .error e t := by
  rw [run_eq]
  exact bind_error h

theorem findFiles_nightly (hn : c.nightly = true) :
    c.findFiles env w = .ok (gatherFilelist env c.path) w := by
  unfold findFiles
  simp only [hn, ite_true]
  rfl

theorem findFiles_try (hn : c.nightly = false) :
    c.findFiles env = (c.subdirs.forM (checkSubdir c env) >>= fun _ =>
      match c.subdirs with
      | [] => throw .indexError
      | d :: _ =>
        if gatherFilelist env (c.path ++ "/" ++ d) = [] then do
          c.email ("No dist files found for srid " ++ c.srid)
          throw (.systemExit 1)
        else pure (gatherFilelist env (c.path ++ "/" ++ d))) := by
  unfold findFiles
  simp only [hn, Bool.false_eq_true, ite_false]
  rfl

theorem run_subdirMissing (h : ¬ SubdirsListed c env) :
    ∃ reason e t, c.exitAndMaybeDefer env reason w = .error e t ∧
      c.run env w = .error e t := by
  unfold SubdirsListed at h
  push Not at h
  obtain ⟨hn, hmissing⟩ := h
  obtain ⟨reason, e, t, hexit, hchecks⟩ := @checks_missing c env w c.subdirs hmissing
  refine ⟨reason, e, t, hexit, run_of_findFiles_error ?_⟩
  rw [findFiles_try hn]
  exact bind_error hchecks

/-- A try run for no operating system: there is no first directory. -/
theorem run_noSubdirs (hn : c.nightly = false) (h : c.subdirs = []) :
    c.run env w = .error .indexError w := by
  apply run_of_findFiles_error
  rw [findFiles_try hn, h]
  rfl

/-- A complete try run whose first directory lists nothing. -/
theorem run_noDistFiles (hn : c.nightly = false) (hlisted : SubdirsListed c env)
    (hne : c.subdirs ≠ []) (h : distFiles c env = []) :
    c.run env w = (c.email ("No dist files found for srid " ++ c.srid) >>= fun _ =>
      throw (.systemExit 1)) w := by
  obtain ⟨d, rest, hsubdirs⟩ := List.exists_cons_of_ne_nil hne
  have hfind : c.findFiles env w = .error (.systemExit 1)
      (endState (c.email ("No dist files found for srid " ++ c.srid) w)) := by
    have hdist : gatherFilelist env (c.path ++ "/" ++ d) = [] := by
      unfold distFiles at h
      rwa [hsubdirs] at h
    rw [findFiles_try hn, bind_ok (checks_ok c.subdirs (hlisted hn)), hsubdirs]
    simp only [if_pos hdist]
    unfold email
    by_cases hldap : c.ldap = ""
    · rw [if_pos hldap]
      rfl
    · rw [if_neg hldap]
      rfl
  rw [run_of_findFiles_error hfind]
  unfold email
  by_cases hldap : c.ldap = ""
  · rw [if_pos hldap]
    rfl
  · rw [if_neg hldap]
    rfl

theorem run_noFiles (hn : c.nightly = true) (h : gatherFilelist env c.path = []) :
    ∃ reason e t, c.exitAndMaybeDefer env reason w = .error e t ∧
      c.run env w = .error e t := by
  obtain ⟨e, t, hexit⟩ := @exitAndMaybeDefer_error c env w ("No files found for " ++ c.srid)
  refine ⟨_, e, t, hexit, ?_⟩
  rw [run_eq, bind_ok (findFiles_nightly hn), if_pos h]
  exact bind_error hexit

/-- Otherwise the run goes on with the listing. -/
theorem run_listed (hlisted : SubdirsListed c env) (h : listing c env ≠ []) :
    c.run env w = fromFiles c env (listing c env) w := by
  have hfind : c.findFiles env w = .ok (listing c env) w := by
    unfold listing at h ⊢
    cases hn : c.nightly with
    | true => exact findFiles_nightly hn
    | false =>
      simp only [hn, Bool.false_eq_true, ite_false] at h ⊢
      rw [findFiles_try hn, bind_ok (checks_ok c.subdirs (hlisted hn))]
      unfold distFiles at h ⊢
      cases hsubdirs : c.subdirs with
      | nil => simp [hsubdirs] at h
      | cons d rest =>
        simp only [hsubdirs] at h
        simp only [if_neg h]
        rfl
  rw [run_eq, bind_ok hfind, if_neg h]
  rfl

theorem needed_of_listed (h : listing c env ≠ []) : c.needed ≠ [] := by
  cases hn : c.nightly with
  | true => simp [needed, needs, hn]
  | false =>
    simp only [listing, hn, Bool.false_eq_true, ite_false, distFiles] at h
    cases hsubdirs : c.subdirs with
    | nil => simp [hsubdirs] at h
    | cons d rest =>
      obtain ⟨p, hp, _⟩ := (mem_subdirs c hn d).mp (by simp [hsubdirs])
      exact List.ne_nil_of_mem hp

theorem run_listed_exact (hlisted : SubdirsListed c env) (h : listing c env ≠ []) :
    Exact Untold (c.run env) w (∃ pre m ps, Complete c env w.outroot pre m ps)
      fun _ t => ∃ pre m ps, Complete c env w.outroot pre m ps ∧
        Left c env w.outroot pre m ps t := by
  have hrun := @fromFiles_exact c env w.outroot w (needed_of_listed h) rfl (listing c env)
  unfold Exact at hrun ⊢
  rw [run_listed hlisted h]
  cases hend : fromFiles c env (listing c env) w with
  | ok a t =>
    rw [hend] at hrun
    obtain ⟨⟨pre, m, ps, hpre, hclonable⟩, huntold, pre', m', ps', ⟨hpre', hclonable'⟩, hleft⟩ :=
      hrun
    exact ⟨⟨pre, m, ps, hlisted, h, hpre, hclonable⟩, huntold, pre', m', ps',
      ⟨hlisted, h, hpre', hclonable'⟩, hleft⟩
  | error e t =>
    rw [hend] at hrun
    refine ⟨?_, hrun.2⟩
    intro ⟨pre, m, ps, hcomplete⟩
    exact hrun.1 ⟨pre, m, ps, hcomplete.filePrefix, hcomplete.clonable⟩

theorem run_ok {t : World} (h : c.run env w = .ok () t) :
    ∃ pre m ps, Complete c env w.outroot pre m ps ∧ Left c env w.outroot pre m ps t := by
  by_cases hlisted : SubdirsListed c env
  · by_cases hfiles : listing c env = []
    · cases hn : c.nightly with
      | true =>
        simp only [listing, hn, ite_true] at hfiles
        obtain ⟨_, e, t', _, hrun⟩ := @run_noFiles c env w hn hfiles
        rw [hrun] at h
        cases h
      | false =>
        simp only [listing, hn, Bool.false_eq_true, ite_false] at hfiles
        by_cases hsubdirs : c.subdirs = []
        · rw [run_noSubdirs hn hsubdirs] at h
          cases h
        · rw [run_noDistFiles hn hlisted hsubdirs hfiles] at h
          unfold email at h
          split at h <;> cases h
    · exact ((run_listed_exact hlisted hfiles).ok h).2.2
  · obtain ⟨_, e, t', _, hrun⟩ := @run_subdirMissing c env w hlisted
    rw [hrun] at h
    cases h

theorem run_complete {pre : String} {m : ℤ} {ps : String → Option PlatformEntry}
    (h : Complete c env w.outroot pre m ps) :
    ∃ t, c.run env w = .ok () t ∧ Left c env w.outroot pre m ps t := by
  have hrun := @run_listed_exact c env w h.subdirs h.files
  cases hend : c.run env w with
  | error e t => exact absurd ⟨pre, m, ps, h⟩ (hrun.error hend).1
  | ok a t =>
    obtain ⟨_, _, pre', m', ps', h', hleft⟩ := hrun.ok hend
    obtain rfl := Option.some.inj (h.filePrefix.symm.trans h'.filePrefix)
    obtain ⟨rfl, rfl⟩ := Prod.mk.inj (Option.some.inj (h.clonable.base.symm.trans h'.clonable.base))
    exact ⟨t, rfl, hleft⟩

end Exits

end StoneRidge.Cloner
