import StoneRidge.Cleaner.Passes

/-!
# How long a build is kept

Cloners run one after another on one output root, each for its own srid, and each run that
gets to its end gives up the oldest directories (`srcloner.py:224-251`, `srcloner.py:292-347`).
However they end, all that a run does to the root is to write its own srid's entry and to
erase what its cleanup gives up.
-/

set_option autoImplicit false

namespace StoneRidge.Cloner
open StoneRidge.Kit.Exec StoneRidge.Kit.PosixPath StoneRidge.Kit.Retention
open StoneRidge.Cleaner StoneRidgeCloner

section Writes
variable {c : StoneRidgeCloner} {env : Env} {I : OutRoot → Prop}

abbrev On (I : OutRoot → Prop) (w : World) : Prop := I w.outroot

/-- A run may write the srid's entry and erase what its cleanup deletes. -/
structure Survives (c : StoneRidgeCloner) (env : Env) (I : OutRoot → Prop) : Prop where
  written : ∀ root e, I root → I (root.insert c.srid e)
  erased : ∀ root, I root → ∀ d ∈ givenUpNames c.setting.keep env root,
    ∀ root', I root' → I (root'.erase d)

theorem setEntry_keeps (h : Survives c env I) (e : OutEntry) :
    Keeps (On I) (c.setEntry e) fun _ => True :=
  fun w hw => ⟨trivial, h.written w.outroot e hw⟩

theorem email_keeps (failureMessage : String) :
    Keeps (On I) (c.email failureMessage) fun _ => True := by
  unfold email
  split
  · exact Keeps.of_pure trivial
  · exact fun w hw => ⟨trivial, hw⟩

theorem defer_keeps : Keeps (On I) (c.defer env) fun _ => True := by
  unfold defer
  refine Keeps.bind (Q := fun _ => True) (fun _ hw => ⟨trivial, hw⟩) fun _ _ => ?_
  split
  · exact Keeps.of_pure trivial
  · exact Keeps.of_throw

theorem exitAndMaybeDefer_keeps (reason : String) :
    Keeps (On I) (c.exitAndMaybeDefer env reason) fun _ => True := by
  unfold exitAndMaybeDefer
  dsimp only
  split
  · exact Keeps.bind (email_keeps reason) fun _ _ => Keeps.of_throw
  · exact Keeps.bind defer_keeps fun _ _ => Keeps.of_throw

theorem findFiles_keeps : Keeps (On I) (c.findFiles env) fun _ => True := by
  unfold findFiles
  split
  · exact Keeps.of_pure trivial
  · apply Keeps.bind (Q := fun _ => True)
    · apply Keeps.forM
      intro d _
      split
      · exact Keeps.of_pure trivial
      · exact exitAndMaybeDefer_keeps _
    · intro _ _
      split
      · exact Keeps.of_throw
      · dsimp only
        split
        · exact Keeps.bind (email_keeps _) fun _ _ => Keeps.of_throw
        · exact Keeps.of_pure trivial

/-- A part of the run that looks at the world first. -/
theorem get_keeps {f : World → Action} (h : ∀ w, Keeps (On I) (f w) fun _ => True) :
    Keeps (On I) (get >>= f) fun _ => True :=
  Keeps.bind (fun _ hw => ⟨trivial, hw⟩ : Keeps (On I) get fun _ => True) fun w _ => h w

theorem makeOutdir_keeps (h : Survives c env I) :
    Keeps (On I) (c.makeOutdir env) fun _ => True := by
  unfold makeOutdir
  apply get_keeps
  intro w
  split
  · exact Keeps.of_pure trivial
  · split
    · exact Keeps.of_throw
    · exact setEntry_keeps h _

theorem makePlatdir_keeps (h : Survives c env I) (platform : String) :
    Keeps (On I) (c.makePlatdir env platform) fun _ => True := by
  unfold makePlatdir
  apply get_keeps
  intro w
  split
  · split
    · exact Keeps.of_pure trivial
    · dsimp only
      split
      · exact Keeps.of_throw
      · exact setEntry_keeps h _
  · exact Keeps.of_throw

theorem writeFile_keeps (h : Survives c env I) (platform outfile : String) (content : Body) :
    Keeps (On I) (c.writeFile env platform outfile content) fun _ => True := by
  unfold writeFile
  apply get_keeps
  intro w
  split
  · exact Keeps.of_throw
  · split
    · split
      · exact setEntry_keeps h _
      · exact Keeps.of_throw
    · exact Keeps.of_throw

theorem dlToFile_keeps (h : Survives c env I) (url platform outfile : String) :
    Keeps (On I) (c.dlToFile env url platform outfile) fun _ => True := by
  unfold dlToFile
  split
  · exact Keeps.of_throw
  · exact writeFile_keeps h _ _ _

theorem clonePlatform_keeps (h : Survives c env I) (p : Platform) :
    Keeps (On I) (c.clonePlatform env p) fun _ => True := by
  have hensure : Keeps (On I) (c.ensureOutdir env p.dir) fun _ => True :=
    Keeps.bind (makeOutdir_keeps h) fun _ _ => makePlatdir_keeps h p.dir
  refine Keeps.bind hensure fun _ _ => ?_
  apply get_keeps
  intro w
  exact Keeps.bind (dlToFile_keeps h _ _ _) fun _ _ => dlToFile_keeps h _ _ _

theorem cleanup_keeps (h : Survives c env I) :
    Keeps (On I) (c.cleanupOldDirectories env) fun _ => True := by
  unfold cleanupOldDirectories
  apply Keeps.get_bind
  intro w hw
  have herase : Keeps (On I) ((givenUpNames c.setting.keep env w.outroot).forM (c.rmtree env))
      fun _ => True := by
    apply Keeps.forM
    intro d hd
    unfold rmtree
    split
    · exact Keeps.of_throw
    · exact fun w' hw' => ⟨trivial, h.erased w.outroot hw d hd w'.outroot hw'⟩
  rintro w' rfl
  exact herase w' hw

/-- Whatever such changes keep is kept by a run, however it ends. -/
theorem run_keeps (h : Survives c env I) : Keeps (On I) (c.run env) fun _ => True := by
  have hclone : Keeps (On I) (cloneInto c env) fun _ => True := by
    refine Keeps.bind (makeOutdir_keeps h) fun _ _ => ?_
    have hbuilds : Keeps (On I) (c.cloneBuilds env) fun _ => True := by
      rw [cloneBuilds_eq]
      exact Keeps.forM fun p _ => clonePlatform_keeps h p
    exact Keeps.bind hbuilds fun _ _ => cleanup_keeps h
  rw [run_eq]
  refine Keeps.bind findFiles_keeps fun files _ => ?_
  apply Keeps.bind (Q := fun _ => True)
  · split
    · exact exitAndMaybeDefer_keeps _
    · exact Keeps.of_pure trivial
  · intro _ _
    unfold fromFiles
    split
    · exact Keeps.of_throw
    · exact Keeps.bind (Q := fun _ => True) (fun w hw => ⟨trivial, hw⟩) fun _ _ => hclone

end Writes

/-! ### Runs one after another -/

/-- The output root after cloners have run on it, each with what it meets with. -/
def after (runs : List (StoneRidgeCloner × Env)) (root : OutRoot) : OutRoot :=
  runs.foldl (fun root r => (endState (r.1.run r.2 (World.start root))).outroot) root

def srids (runs : List (StoneRidgeCloner × Env)) : Finset String :=
  (runs.map fun r => r.1.srid).toFinset

/-- The directory of a build, and what may be newer than it. -/
structure Newest (s : String) (m : ℤ) (ps : String → Option PlatformEntry)
    (others : Finset String) (root : OutRoot) : Prop where
  here : root.lookup s = some (.dir m ps)
  older : ∀ d m' ps', root.lookup d = some (.dir m' ps') → d ≠ s → d ∉ others → m' < m

section Retained
variable {c : StoneRidgeCloner} {env : Env} {s : String} {m : ℤ}
  {ps : String → Option PlatformEntry} {others : Finset String} {root : OutRoot}

theorem times_names_nodup {names : List String} (h : names.Nodup) (f : String → Option OutEntry) :
    ((times names f).map Prod.fst).Nodup := by
  apply List.Nodup.map_on _ (times_nodup h f)
  intro x hx y hy hname
  obtain ⟨-, -, psx, hlookupx⟩ := mem_times.mp hx
  obtain ⟨-, -, psy, hlookupy⟩ := mem_times.mp hy
  rw [hname, hlookupy] at hlookupx
  obtain ⟨htime, -⟩ := OutEntry.dir.inj (Option.some.inj hlookupx)
  exact Prod.ext hname htime.symm

/-- What only `others` can be newer than comes after enough that is older. -/
theorem surplus_le_countP {l : List (String × ℤ)} {x : String × ℤ} {keep : ℤ}
    (hnames : (l.map Prod.fst).Nodup) (hfew : (others.card : ℤ) < keep)
    (holder : ∀ y ∈ l, y.1 ≠ x.1 → y.1 ∉ others → y.2 < x.2) :
    surplus keep l.length ≤ l.countP fun y => Before Prod.snd l y x := by
  have hlater : l.countP (fun y => ¬ Before Prod.snd l y x) ≤ others.card + 1 := by
    rw [List.countP_eq_length_filter]
    set later := l.filter fun y => ¬ Before Prod.snd l y x
    have hinsert : (later.map Prod.fst).toFinset ⊆ insert x.1 others := by
      intro d hd
      obtain ⟨y, hy, rfl⟩ := List.mem_map.mp (List.mem_toFinset.mp hd)
      obtain ⟨hmem, hafter⟩ := List.mem_filter.mp hy
      by_contra hout
      rw [Finset.mem_insert, not_or] at hout
      exact of_decide_eq_true hafter (.inl (holder y hmem hout.1 hout.2))
    have hcard := Finset.card_le_card hinsert
    have hsub : (later.map Prod.fst).Nodup := hnames.sublist (List.filter_sublist.map Prod.fst)
    rw [List.toFinset_card_of_nodup hsub, List.length_map] at hcard
    exact hcard.trans (Finset.card_insert_le x.1 others)
  have hsum := List.length_eq_countP_add_countP (fun y => decide (Before Prod.snd l y x)) (l := l)
  unfold surplus
  rw [if_pos (by omega)]
  simp only [decide_not, decide_eq_true_eq] at hlater hsum
  omega

/-- The cleanup passes over a directory that too few others can be newer than. -/
theorem Newest.not_deleted (h : Newest s m ps others root) {keep : ℤ}
    (hfew : (others.card : ℤ) < keep) : s ∉ givenUpNames keep env root := by
  intro hdeleted
  obtain ⟨x, hgiven, rfl⟩ := List.mem_map.mp hdeleted
  have hmem : x ∈ listed env root := givenUp_subset _ _ hgiven
  obtain ⟨-, -, _, hlookup⟩ := mem_times.mp hmem
  obtain ⟨htime, -⟩ := OutEntry.dir.inj (Option.some.inj (h.here.symm.trans hlookup))
  have hlt := (mem_givenUp_iff (listed_nodup env root) hmem keep).mp hgiven
  refine absurd hlt (Nat.not_lt.mpr ?_)
  apply surplus_le_countP (times_names_nodup (env.listdir_nodup _) _) hfew
  intro y hy hne hout
  obtain ⟨-, -, psy, hlookupy⟩ := mem_times.mp hy
  exact htime ▸ h.older y.1 y.2 psy hlookupy hne hout

theorem Newest.mono {others' : Finset String} (h : Newest s m ps others root)
    (hsub : others ⊆ others') : Newest s m ps others' root :=
  ⟨h.here, fun d m' ps' hd hne hout => h.older d m' ps' hd hne fun hin => hout (hsub hin)⟩

theorem Newest.survives (h : c.srid ∈ others) (hs : s ∉ others)
    (hfew : (others.card : ℤ) < c.setting.keep) : Survives c env (Newest s m ps others) where
  written root e hroot := by
    have hne : s ≠ c.srid := fun heq => hs (heq ▸ h)
    refine ⟨(AList.lookup_insert_ne hne).trans hroot.here, ?_⟩
    intro d m' ps' hd hds hdo
    have hdc : d ≠ c.srid := fun heq => hdo (heq ▸ h)
    rw [AList.lookup_insert_ne hdc] at hd
    exact hroot.older d m' ps' hd hds hdo
  erased root hroot d hd root' hroot' := by
    have hds : s ≠ d := fun heq => hroot.not_deleted hfew (heq ▸ hd)
    refine ⟨(AList.lookup_erase_ne hds).trans hroot'.here, ?_⟩
    intro d' m' ps' hd' hds' hdo'
    by_cases heq : d' = d
    · rw [heq, AList.lookup_erase] at hd'
      cases hd'
    · rw [AList.lookup_erase_ne heq] at hd'
      exact hroot'.older d' m' ps' hd' hds' hdo'

/-- A build stays as it is until as many others as are kept have been cloned for. -/
theorem Newest.after (h : Newest s m ps others root) (hs : s ∉ others) {keep : ℤ}
    (hfew : (others.card : ℤ) < keep) (runs : List (StoneRidgeCloner × Env))
    (hkeep : ∀ r ∈ runs, r.1.setting.keep = keep) (hothers : ∀ r ∈ runs, r.1.srid ∈ others) :
    Newest s m ps others (after runs root) := by
  induction runs generalizing root with
  | nil => exact h
  | cons r runs ih =>
    have hsurvives : Survives r.1 r.2 (Newest s m ps others) :=
      Newest.survives (hothers r List.mem_cons_self) hs
        (by rwa [hkeep r List.mem_cons_self])
    have hstep : Newest s m ps others (endState (r.1.run r.2 (World.start root))).outroot :=
      (run_keeps hsurvives).endState (s := World.start root) h
    exact ih hstep (fun r' hr' => hkeep r' (List.mem_cons_of_mem r hr'))
      fun r' hr' => hothers r' (List.mem_cons_of_mem r hr')

/-- A run changes no entry of another srid, except that it may erase it. -/
theorem run_others {d : String} (hd : d ≠ c.srid) (root : OutRoot) :
    (endState (c.run env (World.start root))).outroot.lookup d = root.lookup d ∨
      (endState (c.run env (World.start root))).outroot.lookup d = none := by
  have hsurvives : Survives c env fun root' => root'.lookup d = root.lookup d ∨ root'.lookup d = none := by
    constructor
    · intro root' e h
      rwa [AList.lookup_insert_ne hd]
    · intro _ _ d' _ root' h
      by_cases heq : d = d'
      · rw [heq, AList.lookup_erase]
        exact .inr rfl
      · rwa [AList.lookup_erase_ne heq]
  exact (run_keeps hsurvives).endState (s := World.start root) (.inl rfl)

theorem lastChange_new (m : ℤ) (hm : ∃ path, m = env.now path) :
    ∃ path, lastChange c env (fun _ => none) m = env.now path := by
  unfold lastChange
  induction c.needed generalizing m with
  | nil => exact hm
  | cons p l ih => exact ih _ ⟨_, rfl⟩

/-- The directory of a first clone is newer than all that were there. -/
theorem run_newest {t : World} (hrun : c.run env (World.start root) = .ok () t)
    (hnew : root.lookup c.srid = none)
    (hclock : ∀ d m' ps' path, root.lookup d = some (.dir m' ps') → m' < env.now path)
    (hkeep : 0 < c.setting.keep) :
    ∃ m psd, Newest c.srid m psd ∅ t.outroot ∧ ∀ p ∈ c.needed, Fetched c env t.filePrefix psd p ∧
      (env.http (c.packageUrl t.filePrefix p)).isSome ∧
      (env.http (c.testsUrl t.filePrefix p)).isSome := by
  obtain ⟨pre, m, ps, hcomplete, hpre, psd, hfetched, hlookup⟩ := run_ok hrun
  have hbase := hcomplete.clonable.base
  unfold base at hbase
  simp only [World.start, hnew, Option.ite_none_left_eq_some, Option.some.injEq,
    Prod.mk.injEq] at hbase
  obtain ⟨-, rfl, rfl⟩ := hbase
  obtain ⟨path, hlast⟩ : ∃ path, lastChange c env (fun _ => none) (env.now c.outdir) =
      env.now path := lastChange_new _ ⟨_, rfl⟩
  have hkept : Kept c env root (lastChange c env (fun _ => none) (env.now c.outdir)) := by
    have hnone : ((∅ : Finset String).card : ℤ) < c.setting.keep := by rwa [Finset.card_empty]
    refine .inr (surplus_le_countP (times_names_nodup (env.listdir_nodup _) _) hnone ?_)
    intro y hy hne _
    obtain ⟨-, -, psy, hlookupy⟩ := mem_times.mp hy
    rw [Function.update_of_ne hne] at hlookupy
    exact hlast ▸ hclock y.1 y.2 psy path hlookupy
  rw [World.start, if_neg (mem_removed_iff.not.mpr (not_not.mpr hkept))] at hlookup
  refine ⟨_, psd, ⟨hlookup, ?_⟩, ?_⟩
  · intro d m' ps' hd hne _
    have hothers := @run_others c env d hne root
    rw [hrun, endState_ok, hd] at hothers
    rcases hothers with hsame | hgone
    · exact hlast ▸ hclock d m' ps' path hsame.symm
    · cases hgone
  · intro p hp
    have hready := hcomplete.clonable.ready p hp
    rw [hpre]
    exact ⟨hfetched p hp, hready.package.1, hready.tests.1⟩

end Retained

end StoneRidge.Cloner
