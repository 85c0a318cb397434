import StoneRidge.Cloner.Download

/-!
# When a run ends normally, and what it leaves

`Complete` is the condition on the servers, the operating system and the output
root under which `run` ends normally (`srcloner.py:292-347`). A run that has found
the files tells nobody anything any more, however it ends.
-/

set_option autoImplicit false

namespace StoneRidge.Cloner
open StoneRidge.Kit.Exec StoneRidge.Kit.PosixPath StoneRidge.Kit.Retention
open StoneRidgeCloner

section Conditions
variable (c : StoneRidgeCloner) (env : Env)

def distFiles : List String :=
  match c.subdirs with
  | [] => []
  | d :: _ => gatherFilelist env (c.path ++ "/" ++ d)

/-- The files from whose names the prefix is taken. -/
def listing : List String := if c.nightly then gatherFilelist env c.path else distFiles c env

/-- The build directories that a try run needs are listed. -/
def SubdirsListed : Prop := c.nightly = false → ∀ d ∈ c.subdirs, d ∈ gatherFilelist env c.path

/-- The last change of `outdir` once the platforms have been cloned into it. -/
def lastChange (ps : String → Option PlatformEntry) (m : ℤ) : ℤ :=
  c.needed.foldl (stamp c env ps) m

/-- The directories that the cleanup looks at when `outdir` was last changed at `m`. -/
def candidates (root : OutRoot) (m : ℤ) : List (String × ℤ) :=
  times (env.listdir (insert c.srid root.keys.toFinset))
    (Function.update root.lookup c.srid (some (.dir m fun _ => none)))

/-- The directories that the cleanup then removes. -/
def removed (root : OutRoot) (m : ℤ) : List String :=
  (givenUp Prod.snd c.setting.keep (candidates c env root m)).map Prod.fst

/-- What the downloads and the cleanup need. -/
structure Clonable (root : OutRoot) (pre : String) (m : ℤ)
    (ps : String → Option PlatformEntry) : Prop where
  base : base c env root = some (m, ps)
  ready : ∀ p ∈ c.needed, Ready c env ps pre p
  removable : ∀ d ∈ removed c env root (lastChange c env ps m),
    env.rmtreeFails (join c.setting.output d) = false

structure Complete (root : OutRoot) (pre : String) (m : ℤ)
    (ps : String → Option PlatformEntry) : Prop where
  subdirs : SubdirsListed c env
  files : listing c env ≠ []
  filePrefix : getPrefix (listing c env) = some pre
  clonable : Clonable c env root pre m ps

/-- `run` once it has the prefix. -/
def cloneInto : Action := do
  c.makeOutdir env
  c.cloneBuilds env
  c.cleanupOldDirectories env

/-- `run` once it has the listing. -/
def fromFiles (files : List String) : Action :=
  match getPrefix files with
  | none => throw .indexError
  | some pre => (modify fun w => { w with filePrefix := pre }) >>= fun _ => cloneInto c env

end Conditions

theorem run_eq (c : StoneRidgeCloner) (env : Env) :
    c.run env = (c.findFiles env >>= fun files =>
      (if files = [] then c.exitAndMaybeDefer env ("No files found for " ++ c.srid)
        else pure ()) >>= fun _ => fromFiles c env files) := by
  unfold run fromFiles
  congr 1
  funext files
  by_cases h : files = []
  · simp only [if_pos h]
    cases getPrefix files <;> rfl
  · simp only [if_neg h, pure_bind]
    cases getPrefix files <;> rfl

theorem cloneBuilds_eq (c : StoneRidgeCloner) (env : Env) :
    c.cloneBuilds env = c.needed.forM (c.clonePlatform env) := by
  unfold cloneBuilds StoneRidgeCloner.needed cloneMac cloneLinux cloneWin
  cases hm : c.needs mac <;> cases hl : c.needs linux <;> cases hw : c.needs windows <;>
    simp [List.filter, hm, hl, hw]

theorem mem_needed {c : StoneRidgeCloner} {p : Platform} (hp : p ∈ c.needed) :
    p = mac ∨ p = linux ∨ p = windows := by
  have h := (List.mem_filter.mp hp).1
  simpa using h

theorem needed_outfile {c : StoneRidgeCloner} {p : Platform} (hp : p ∈ c.needed) :
    p.outfile ≠ testsZip := by
  rcases mem_needed hp with rfl | rfl | rfl <;> decide

theorem needed_dirs_nodup (c : StoneRidgeCloner) : (c.needed.map Platform.dir).Nodup := by
  have hsub : List.Sublist c.needed [mac, linux, windows] := List.filter_sublist
  exact (hsub.map Platform.dir).nodup (by decide)

section Downloads
variable {c : StoneRidgeCloner} {env : Env} {root : OutRoot} {pre : String} {m : ℤ}
  {ps : String → Option PlatformEntry} {w : World}

theorem Fetched.congr {ps' : String → Option PlatformEntry} {p : Platform}
    (h : Fetched c env pre ps p) (hd : ps' p.dir = ps p.dir) : Fetched c env pre ps' p := by
  unfold Fetched
  rwa [hd]

/-- The state of the loop over the platforms when it is through with `done`. -/
def Loop (c : StoneRidgeCloner) (env : Env) (root : OutRoot) (pre : String) (m : ℤ)
    (ps : String → Option PlatformEntry) (done : List Platform) (w : World) : Prop :=
  ∃ psd, Replaced c root pre (done.foldl (stamp c env ps) m) psd w ∧
    (∀ p ∈ done, Fetched c env pre psd p) ∧ ∀ d, d ∉ done.map Platform.dir → psd d = ps d

theorem Loop.step {done : List Platform} {p : Platform} (hout : p.outfile ≠ testsZip)
    (hp : p.dir ∉ done.map Platform.dir) (h : Loop c env root pre m ps done w) :
    Exact Untold (c.clonePlatform env p) w (Ready c env ps pre p)
      fun _ t => Loop c env root pre m ps (done ++ [p]) t := by
  obtain ⟨psd, hrep, hdone, hrest⟩ := h
  have hsame : psd p.dir = ps p.dir := hrest p.dir hp
  refine (clonePlatform_exact hrep p hout).conseq ?_ ?_
  · constructor
    · intro h
      exact ⟨hsame ▸ h.dir, h.package, h.tests⟩
    · intro h
      exact ⟨hsame ▸ h.dir, h.package, h.tests⟩
  · intro _ t _ ⟨ps', hrep', hfetched, hothers⟩
    refine ⟨ps', ?_, ?_, ?_⟩
    · rw [List.foldl_append]
      unfold stamp at hrep' ⊢
      rwa [hsame] at hrep'
    · intro q hq
      rcases List.mem_append.mp hq with hq | hq
      · refine (hdone q hq).congr (hothers q.dir ?_)
        intro heq
        exact hp (heq ▸ List.mem_map_of_mem hq)
      · rw [List.mem_singleton.mp hq]
        exact hfetched
    · intro d hd
      rw [List.map_append, List.mem_append, not_or] at hd
      rw [hothers d (fun h => hd.2 (by simp [h])), hrest d hd.1]

theorem cloneBuilds_exact (h : Replaced c root pre m ps w) :
    Exact Untold (c.cloneBuilds env) w (∀ p ∈ c.needed, Ready c env ps pre p)
      fun _ t => Loop c env root pre m ps c.needed t := by
  rw [cloneBuilds_eq]
  refine Exact.forM_of Untold.refl Untold.trans c.needed [] ?_ ?_
  · intro done p rest heq _ s hs
    have hmem : p ∈ c.needed := by
      rw [List.nil_append] at heq
      simp [heq]
    refine hs.step (needed_outfile hmem) ?_
    have hnodup := needed_dirs_nodup c
    rw [List.nil_append] at heq
    rw [heq, List.map_append, List.map_cons] at hnodup
    exact fun hp => (List.nodup_append.mp hnodup).2.2 _ hp _ List.mem_cons_self rfl
  · exact ⟨ps, h, by simp, by simp⟩

theorem makeOutdir_exact (hroot : w.outroot = root) (hpre : w.filePrefix = pre)
    (h : base c env root = some (m, ps)) :
    Exact Untold (c.makeOutdir env) w True fun _ t => Replaced c root pre m ps t := by
  subst hroot
  subst hpre
  unfold base at h
  apply Exact.get_bind
  unfold entry
  cases hentry : w.outroot.lookup c.srid with
  | none =>
    simp only [hentry, Option.ite_none_left_eq_some, Option.some.injEq, Prod.mk.injEq] at h
    obtain ⟨hmk, rfl, rfl⟩ := h
    simp only [Option.isSome_none, Bool.false_eq_true, ite_false, hmk]
    refine (Exact.of_modify ?_).conseq Iff.rfl ?_
    · exact ⟨rfl, rfl⟩
    · intro _ t _ ht
      subst ht
      refine ⟨AList.lookup_insert _, ?_, ?_, rfl⟩
      · intro d hd
        exact AList.lookup_insert_ne hd
      · ext d
        by_cases hd : d = c.srid
        · simp [hd]
        · simp [AList.keys_insert, hd, List.mem_erase_of_ne hd]
  | some e =>
    cases e with
    | file => simp [hentry] at h
    | dir m' ps' =>
      simp only [hentry, Option.some.injEq, Prod.mk.injEq] at h
      obtain ⟨rfl, rfl⟩ := h
      refine (Exact.of_pure Untold.refl ()).conseq Iff.rfl ?_
      intro _ t _ ht
      rw [ht.2]
      refine ⟨hentry, fun _ _ => rfl, ?_, rfl⟩
      have hmem : c.srid ∈ w.outroot.keys.toFinset := by
        rw [List.mem_toFinset, ← AList.mem_keys, ← AList.lookup_isSome, hentry]
        rfl
      exact (Finset.insert_eq_self.mpr hmem).symm

/-- With a file in the place of `outdir`, nothing can be cloned. -/
theorem clonePlatform_file (h : w.outroot.lookup c.srid = some .file) (p : Platform) :
    c.clonePlatform env p w = .error .osError w := by
  have hget : c.entry w = some .file := h
  have hout : c.makeOutdir env w = .ok () w := by
    unfold makeOutdir
    rw [bind_ok (get_apply w), hget]
    rfl
  have hplat : c.makePlatdir env p.dir w = .error .osError w := by
    unfold makePlatdir
    rw [bind_ok (get_apply w), hget]
    rfl
  have hensure : c.ensureOutdir env p.dir w = .error .osError w := by
    unfold ensureOutdir
    rw [bind_ok hout]
    exact hplat
  exact bind_error hensure

theorem makeOutdir_none (hne : c.needed ≠ []) (hroot : w.outroot = root)
    (h : base c env root = none) :
    ∃ e, (c.makeOutdir env >>= fun _ => c.cloneBuilds env) w = .error e w := by
  subst hroot
  unfold base at h
  cases hentry : w.outroot.lookup c.srid with
  | none =>
    simp only [hentry, ite_eq_left_iff, Bool.not_eq_true, reduceCtorEq, imp_false,
      Bool.not_eq_false] at h
    refine ⟨.osError, bind_error ?_⟩
    unfold makeOutdir entry
    rw [bind_ok (get_apply w), hentry, h]
    rfl
  | some e =>
    cases e with
    | dir m' ps' => simp [hentry] at h
    | file =>
      refine ⟨.osError, ?_⟩
      have hout : c.makeOutdir env w = .ok () w := by
        unfold makeOutdir entry
        rw [bind_ok (get_apply w), hentry]
        rfl
      obtain ⟨p, rest, hneeded⟩ := List.exists_cons_of_ne_nil hne
      rw [bind_ok hout, cloneBuilds_eq, hneeded]
      exact bind_error (clonePlatform_file hentry p)

theorem times_congr {names : List String} {f g : String → Option OutEntry}
    (h : ∀ d, (match f d with | some (.dir m _) => some m | _ => none) =
      match g d with | some (.dir m _) => some m | _ => none) :
    times names f = times names g := by
  unfold times
  congr 1
  funext d
  have hd := h d
  split at hd <;> split at hd <;> simp_all

theorem candidates_eq (h : Replaced c root pre m ps w) :
    times (env.listdir w.outroot.keys.toFinset) w.outroot.lookup = candidates c env root m := by
  unfold candidates
  rw [h.keys]
  apply times_congr
  intro d
  by_cases hd : d = c.srid
  · rw [hd, h.entry, Function.update_self]
  · rw [h.others d hd, Function.update_of_ne hd]

theorem rmtrees_exact (c : StoneRidgeCloner) (env : Env) (ds : List String) (w : World) :
    Exact Untold (ds.forM (c.rmtree env)) w
      (∀ d ∈ ds, env.rmtreeFails (join c.setting.output d) = false)
      fun _ t => t.filePrefix = w.filePrefix ∧
        ∀ d, t.outroot.lookup d = if d ∈ ds then none else w.outroot.lookup d := by
  refine Exact.forM_of (I := fun done t => t.filePrefix = w.filePrefix ∧
    ∀ d, t.outroot.lookup d = if d ∈ done then none else w.outroot.lookup d)
    Untold.refl Untold.trans _ [] ?_ ?_
  · intro done d _ _ _ s hs
    unfold rmtree
    cases env.rmtreeFails (join c.setting.output d) with
    | true => exact (Exact.of_throw Untold.refl _).conseq (by simp) fun _ _ _ h => h
    | false =>
      refine (Exact.of_modify ?_).conseq (by simp) ?_
      · exact ⟨rfl, rfl⟩
      · intro _ t _ ht
        subst ht
        refine ⟨hs.1, ?_⟩
        intro d'
        by_cases hd : d' = d
        · subst hd
          simp
        · simp [AList.lookup_erase_ne hd, hs.2 d', hd]
  · exact ⟨rfl, by simp⟩

theorem cleanup_exact (h : Replaced c root pre m ps w) :
    Exact Untold (c.cleanupOldDirectories env) w
      (∀ d ∈ removed c env root m, env.rmtreeFails (join c.setting.output d) = false)
      fun _ t => t.filePrefix = pre ∧
        ∀ d, t.outroot.lookup d = if d ∈ removed c env root m then none else w.outroot.lookup d := by
  apply Exact.get_bind
  change Exact Untold (((givenUp Prod.snd c.setting.keep
    (times (env.listdir w.outroot.keys.toFinset) w.outroot.lookup)).map Prod.fst).forM
    (c.rmtree env)) w _ _
  rw [candidates_eq h, ← h.filePrefix]
  exact rmtrees_exact c env _ w

/-- What the downloads and the cleanup leave of the srid's directory. -/
def Left (c : StoneRidgeCloner) (env : Env) (root : OutRoot) (pre : String) (m : ℤ)
    (ps : String → Option PlatformEntry) (w : World) : Prop :=
  w.filePrefix = pre ∧ ∃ psd, (∀ p ∈ c.needed, Fetched c env pre psd p) ∧
    w.outroot.lookup c.srid = if c.srid ∈ removed c env root (lastChange c env ps m) then none
      else some (.dir (lastChange c env ps m) psd)

theorem cloneAndCleanup_exact (h : Replaced c root pre m ps w) :
    Exact Untold (c.cloneBuilds env >>= fun _ => c.cleanupOldDirectories env) w
      ((∀ p ∈ c.needed, Ready c env ps pre p) ∧
        ∀ d ∈ removed c env root (lastChange c env ps m),
          env.rmtreeFails (join c.setting.output d) = false)
      fun _ t => Left c env root pre m ps t := by
  refine Exact.bind Untold.trans (cloneBuilds_exact h) ?_
  intro _ t ⟨psd, hrep, hfetched, _⟩
  refine (cleanup_exact hrep).conseq Iff.rfl ?_
  intro _ u _ ⟨hpre, hlookup⟩
  refine ⟨hpre, psd, hfetched, ?_⟩
  rw [hlookup c.srid, hrep.entry]
  rfl

end Downloads

section Runs
variable {c : StoneRidgeCloner} {env : Env} {root : OutRoot} {w : World}

theorem cloneInto_exact {pre : String} (hne : c.needed ≠ []) (hroot : w.outroot = root)
    (hpre : w.filePrefix = pre) :
    Exact Untold (cloneInto c env) w (∃ m ps, Clonable c env root pre m ps)
      fun _ t => ∃ m ps, Clonable c env root pre m ps ∧ Left c env root pre m ps t := by
  unfold cloneInto
  cases hbase : base c env root with
  | none =>
    obtain ⟨e, herr⟩ := makeOutdir_none hne hroot hbase
    have hrun : (do c.makeOutdir env; c.cloneBuilds env; c.cleanupOldDirectories env) w =
        .error e w := by
      rw [← bind_assoc]
      exact bind_error herr
    refine (Exact.of_error hrun (Untold.refl w)).conseq ?_ fun _ _ _ h => h
    refine iff_of_false id ?_
    intro ⟨m, ps, h⟩
    exact absurd (hbase ▸ h.base) (by simp)
  | some mps =>
    obtain ⟨m, ps⟩ := mps
    have hseq := Exact.bind Untold.trans (makeOutdir_exact hroot hpre hbase)
      (f := fun _ => c.cloneBuilds env >>= fun _ => c.cleanupOldDirectories env)
      fun _ t ht => cloneAndCleanup_exact ht
    refine hseq.and_ready.conseq ?_ ?_
    · constructor
      · intro ⟨_, hready, hremovable⟩
        exact ⟨m, ps, hbase, hready, hremovable⟩
      · intro ⟨m', ps', h⟩
        obtain ⟨rfl, rfl⟩ := Prod.mk.inj (Option.some.inj (hbase.symm.trans h.base))
        exact ⟨trivial, h.ready, h.removable⟩
    · intro _ t _ ⟨⟨_, hready, hremovable⟩, hleft⟩
      exact ⟨m, ps, ⟨hbase, hready, hremovable⟩, hleft⟩

theorem fromFiles_exact (hne : c.needed ≠ []) (hroot : w.outroot = root) (files : List String) :
    Exact Untold (fromFiles c env files) w (∃ pre m ps, getPrefix files = some pre ∧ Clonable c env root pre m ps)
      fun _ t => ∃ pre m ps, (getPrefix files = some pre ∧ Clonable c env root pre m ps) ∧
        Left c env root pre m ps t := by
  unfold fromFiles
  cases hpre : getPrefix files with
  | none =>
    refine (Exact.of_throw Untold.refl _).conseq ?_ fun _ _ _ h => h
    refine iff_of_false id ?_
    intro ⟨pre, m, ps, h, _⟩
    cases h
  | some pre =>
    have huntold : Untold w { w with filePrefix := pre } := ⟨rfl, rfl⟩
    have hclone := @cloneInto_exact c env root { w with filePrefix := pre } pre hne hroot rfl
    refine (Exact.modify_bind Untold.trans huntold hclone).conseq ?_ ?_
    · constructor
      · intro ⟨m, ps, h⟩
        exact ⟨pre, m, ps, rfl, h⟩
      · intro ⟨pre', m, ps, hpre', h⟩
        obtain rfl := Option.some.inj hpre'
        exact ⟨m, ps, h⟩
    · intro _ t _ ⟨m, ps, h, hleft⟩
      exact ⟨pre, m, ps, ⟨rfl, h⟩, hleft⟩

end Runs

end StoneRidge.Cloner
