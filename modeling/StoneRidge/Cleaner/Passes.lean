import StoneRidge.Cloner.Cloned

/-!
# Two cleanup passes

`StoneRidgeCloner._cleanup_old_directories` (`srcloner.py:224-251`) and the loop of
`StoneRidgeCleaner.run` (`srcleaner.py:20-43`) list, filter and sort in the same way. The
cloner takes the names out of the pairs that it has sorted, the cleaner hands the pairs
themselves to `shutil.rmtree`.
-/

set_option autoImplicit false

namespace StoneRidge.Cleaner
open StoneRidge.Kit.Exec StoneRidge.Kit.PosixPath StoneRidge.Kit.Retention StoneRidge.Cloner

inductive Raised where
  | osError
  | typeError
  deriving DecidableEq, Repr

/-- What is passed to `shutil.rmtree`. -/
inductive RmtreeArg where
  | path (name : String)
  | pair (t : String × ℤ)

structure StoneRidgeCleaner where
  workdir : String
  keep : ℤ

abbrev Action := EStateM Raised OutRoot Unit

namespace StoneRidgeCleaner
variable (c : StoneRidgeCloner) (cleaner : StoneRidgeCleaner) (env : Env)

/-- `os.lstat` of a pair raises `TypeError`, which `rmtree` does not catch. -/
def rmtree (arg : RmtreeArg) : Action :=
  match arg with
  | .pair _ => throw .typeError
  | .path d =>
    if env.rmtreeFails (join cleaner.workdir d) then throw .osError
    else modify fun workdir => workdir.erase d

/-- The body of the loop, up to the sleep. -/
def pass : Action := do
  let workdir ← get
  let listing := env.listdir workdir.keys.toFinset
  let deleteUs := givenUp Prod.snd cleaner.keep
    (StoneRidgeCloner.times listing workdir.lookup)
  deleteUs.forM fun d => cleaner.rmtree env (.pair d)

end StoneRidgeCleaner

/-! ### What a pass is for -/

section Purpose
variable (root : OutRoot)

def mtime (d : String) : ℤ :=
  match root.lookup d with
  | some (.dir m _) => m
  | _ => 0

def isDirectory (d : String) : Bool :=
  match root.lookup d with
  | some (.dir _ _) => true
  | _ => false

/-- The names of the directories that do not begin with a dot. -/
def directoryNames : Finset String :=
  root.keys.toFinset.filter fun d => d.toList.head? ≠ some '.' ∧ isDirectory root d = true

/-- As many of the directories as may be kept remain, none older than one that is gone,
and nothing else changes. -/
def Retained (keep : ℤ) (before after : OutRoot) : Prop :=
  ∃ kept ⊆ directoryNames before,
    kept.card = min (directoryNames before).card keep.toNat ∧
    (∀ a ∈ kept, ∀ b ∈ directoryNames before \ kept, mtime before b ≤ mtime before a) ∧
    ∀ d, after.lookup d = if d ∈ directoryNames before \ kept then none else before.lookup d

end Purpose

section Listing
variable {root : OutRoot} {env : Env} {x : String × ℤ}

/-- The pairs that both passes sort. -/
def listed (env : Env) (root : OutRoot) : List (String × ℤ) :=
  StoneRidgeCloner.times (env.listdir root.keys.toFinset) root.lookup

theorem mem_directoryNames {d : String} :
    d ∈ directoryNames root ↔ d.toList.head? ≠ some '.' ∧ isDirectory root d = true := by
  unfold directoryNames
  rw [Finset.mem_filter, and_iff_right_of_imp]
  intro ⟨_, hdir⟩
  rw [List.mem_toFinset, ← AList.mem_keys, ← AList.lookup_isSome]
  unfold isDirectory at hdir
  split at hdir
  · rename_i h
    rw [h]
    rfl
  · cases hdir

theorem mem_listed : x ∈ listed env root ↔ x.1 ∈ directoryNames root ∧ x.2 = mtime root x.1 := by
  unfold listed
  rw [mem_times, env.mem_listdir, List.mem_toFinset, mem_directoryNames]
  unfold isDirectory mtime
  constructor
  · intro ⟨_, hdot, ps, hdir⟩
    rw [hdir]
    exact ⟨⟨hdot, rfl⟩, rfl⟩
  · intro ⟨⟨hdot, hdir⟩, htime⟩
    split at hdir
    · rename_i m ps h
      rw [h] at htime
      refine ⟨?_, hdot, ps, ?_⟩
      · rw [← AList.mem_keys, ← AList.lookup_isSome, h]
        rfl
      · rw [h, htime]
    · cases hdir

theorem listed_nodup (env : Env) (root : OutRoot) : (listed env root).Nodup :=
  times_nodup (env.listdir_nodup _) _

theorem names_nodup {l : List (String × ℤ)} (hl : l.Nodup)
    (hsub : ∀ x ∈ l, x ∈ listed env root) : (l.map Prod.fst).Nodup := by
  refine List.Nodup.map_on ?_ hl
  intro x hx y hy hname
  have hxt := (mem_listed.mp (hsub x hx)).2
  have hyt := (mem_listed.mp (hsub y hy)).2
  exact Prod.ext hname (by rw [hxt, hyt, hname])

theorem listed_names (env : Env) (root : OutRoot) :
    ((listed env root).map Prod.fst).toFinset = directoryNames root := by
  ext d
  rw [List.mem_toFinset, List.mem_map]
  constructor
  · rintro ⟨x, hx, rfl⟩
    exact (mem_listed.mp hx).1
  · intro hd
    exact ⟨(d, mtime root d), mem_listed.mpr ⟨hd, rfl⟩, rfl⟩

theorem length_listed (env : Env) (root : OutRoot) :
    (listed env root).length = (directoryNames root).card := by
  rw [← listed_names env root,
    List.toFinset_card_of_nodup (names_nodup (listed_nodup env root) fun _ h => h), List.length_map]

/-- The names of the directories that are given up. -/
def givenUpNames (keep : ℤ) (env : Env) (root : OutRoot) : List String :=
  (givenUp Prod.snd keep (listed env root)).map Prod.fst

/-- To remove what is given up is to keep the newest. -/
theorem retained_of_lookup {keep : ℤ} (hkeep : 0 < keep) {after : OutRoot}
    (h : ∀ d, after.lookup d =
      if d ∈ givenUpNames keep env root then none else root.lookup d) :
    Retained keep root after := by
  have hsub : ∀ x ∈ givenUp Prod.snd keep (listed env root), x ∈ listed env root :=
    givenUp_subset keep
  have hgiven : (givenUpNames keep env root).toFinset ⊆ directoryNames root := by
    intro d hd
    obtain ⟨x, hx, rfl⟩ := List.mem_map.mp (List.mem_toFinset.mp hd)
    exact (mem_listed.mp (hsub x hx)).1
  have hcard : (givenUpNames keep env root).toFinset.card =
      (directoryNames root).card - keep.toNat := by
    unfold givenUpNames
    rw [List.toFinset_card_of_nodup (names_nodup (givenUp_nodup (listed_nodup env root) keep) hsub),
      List.length_map, length_givenUp hkeep, length_listed]
  refine ⟨directoryNames root \ (givenUpNames keep env root).toFinset, Finset.sdiff_subset, ?_, ?_, ?_⟩
  · rw [Finset.card_sdiff_of_subset hgiven, hcard]
    omega
  · intro a ha b hb
    rw [Finset.sdiff_sdiff_eq_self hgiven, List.mem_toFinset] at hb
    obtain ⟨y, hy, rfl⟩ := List.mem_map.mp hb
    obtain ⟨ha, hkept⟩ := Finset.mem_sdiff.mp ha
    have hmem : (a, mtime root a) ∈ listed env root := mem_listed.mpr ⟨ha, rfl⟩
    have hle := givenUp_le hy hmem fun hg => hkept
      (List.mem_toFinset.mpr (List.mem_map_of_mem (f := Prod.fst) hg))
    rw [(mem_listed.mp (hsub y hy)).2] at hle
    exact hle
  · intro d
    rw [h d, Finset.sdiff_sdiff_eq_self hgiven]
    simp only [List.mem_toFinset]

end Listing

/-- Three directories of runs, the oldest first. -/
def three : OutRoot :=
  ((AList.singleton "1" (.dir 10 fun _ => none)).insert "2" (.dir 20 fun _ => none)).insert "3"
    (.dir 30 fun _ => none)

/-! ### The two passes -/

section Passes
variable {c : StoneRidgeCloner} {cleaner : StoneRidgeCleaner} {env : Env} {root : OutRoot}

theorem cloner_pass (hkeep : 0 < c.setting.keep) (hrm : ∀ p, env.rmtreeFails p = false)
    (w : World) : ∃ w', c.cleanupOldDirectories env w = .ok () w' ∧
      Retained c.setting.keep w.outroot w'.outroot := by
  have hexact : Exact Untold (c.cleanupOldDirectories env) w _ _ :=
    Exact.get_bind (rmtrees_exact c env (givenUpNames c.setting.keep env w.outroot) w)
  cases hrun : c.cleanupOldDirectories env w with
  | error e t => exact absurd (fun d _ => hrm _) (hexact.error hrun).1
  | ok u t =>
    obtain ⟨-, -, -, hlookup⟩ := hexact.ok hrun
    exact ⟨t, rfl, retained_of_lookup hkeep hlookup⟩

theorem cleaner_pass_eq (cleaner : StoneRidgeCleaner) (env : Env) (root : OutRoot) :
    cleaner.pass env root = if givenUp Prod.snd cleaner.keep (listed env root) = [] then .ok () root
      else .error .typeError root := by
  unfold StoneRidgeCleaner.pass
  rw [bind_ok (get_apply root)]
  change ((givenUp Prod.snd cleaner.keep (listed env root)).forM
    fun d => cleaner.rmtree env (.pair d) : Action) root = _
  cases givenUp Prod.snd cleaner.keep (listed env root) with
  | nil => rfl
  | cons x l => rfl

/-- The cleaner's pass falls through only where it has nothing to remove. -/
theorem cleaner_pass_iff (cleaner : StoneRidgeCleaner) (hkeep : 0 < cleaner.keep) :
    (∃ after, cleaner.pass env root = .ok () after ∧ Retained cleaner.keep root after) ↔
      (directoryNames root).card ≤ cleaner.keep.toNat := by
  have hlen : (givenUp Prod.snd cleaner.keep (listed env root)).length =
      (listed env root).length - cleaner.keep.toNat := length_givenUp hkeep _
  rw [length_listed] at hlen
  rw [cleaner_pass_eq]
  by_cases hnil : givenUp Prod.snd cleaner.keep (listed env root) = []
  · rw [if_pos hnil]
    have hlookup : ∀ d, root.lookup d =
        if d ∈ givenUpNames cleaner.keep env root then none else root.lookup d := by
      intro d
      unfold givenUpNames
      rw [hnil, List.map_nil, if_neg List.not_mem_nil]
    refine iff_of_true ⟨root, rfl, retained_of_lookup hkeep hlookup⟩ ?_
    rw [hnil, List.length_nil] at hlen
    omega
  · rw [if_neg hnil]
    have hpos := List.length_pos_iff.mpr hnil
    refine iff_of_false ?_ (by omega)
    rintro ⟨after, h, -⟩
    cases h

/-- The cloner keeps the newest directories whatever is listed; both passes do exactly
where there are no more directories than are kept. -/
theorem passes_retain_iff (c : StoneRidgeCloner) (cleaner : StoneRidgeCleaner) (env : Env)
    (w : World) (hkeep : 0 < c.setting.keep) (hsame : cleaner.keep = c.setting.keep)
    (hrm : ∀ p, env.rmtreeFails p = false) :
    (∃ w', c.cleanupOldDirectories env w = .ok () w' ∧
      Retained c.setting.keep w.outroot w'.outroot) ∧
    ((∃ after, cleaner.pass env w.outroot = .ok () after ∧
      Retained cleaner.keep w.outroot after) ↔
        (directoryNames w.outroot).card ≤ cleaner.keep.toNat) := by
  refine ⟨cloner_pass hkeep hrm w, cleaner_pass_iff cleaner ?_⟩
  rwa [hsame]

end Passes

/-- An output root that keeps two of its three directories. -/
theorem passes_retain_iff_three :
    (∃ w', ({ nightlyCloner with setting := { setting with keep := 2 } } :
        StoneRidgeCloner).cleanupOldDirectories notFound (World.start three) = .ok () w' ∧
      Retained 2 three w'.outroot) ∧
    ((∃ after, (⟨"/srv/work", 2⟩ : StoneRidgeCleaner).pass notFound three = .ok () after ∧
      Retained 2 three after) ↔ (directoryNames three).card ≤ 2) :=
  passes_retain_iff { nightlyCloner with setting := { setting with keep := 2 } } ⟨"/srv/work", 2⟩
    notFound (World.start three) (by decide) rfl fun _ => rfl

/-- Three directories and one to keep: the cleaner raises. -/
theorem cleaner_raises :
    ¬ ∃ after, (⟨"/srv/work", 1⟩ : StoneRidgeCleaner).pass notFound three = .ok () after ∧
      Retained 1 three after := by
  intro h
  have hcard : (directoryNames three).card ≤ 1 :=
    (cleaner_pass_iff ⟨"/srv/work", 1⟩ (by decide)).mp h
  exact absurd hcard (by decide)

end StoneRidge.Cleaner
