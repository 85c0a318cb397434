import StoneRidge.Cloner.Run
import StoneRidge.Kit.Exact

/-!
# When the downloads succeed, and what they leave

For each part of `run` after the listings: the exact condition on the servers, on
the operating system and on the output root under which it falls through, and the
entry of the srid then. None of these parts starts a deferrer or sends a mail.
-/

set_option autoImplicit false

namespace StoneRidge.Cloner
open StoneRidge.Kit.Exec StoneRidge.Kit.PosixPath StoneRidge.Kit.Retention

/-- Nobody has been told anything in between. -/
def Untold (w w' : World) : Prop := w'.deferrers = w.deferrers ∧ w'.mails = w.mails

theorem Untold.refl (w : World) : Untold w w := ⟨rfl, rfl⟩

theorem Untold.trans (w w' w'' : World) (h : Untold w w') (h' : Untold w' w'') : Untold w w'' :=
  ⟨h'.1.trans h.1, h'.2.trans h.2⟩

/-- What `http` answers for the URL. -/
def Env.content (env : Env) (url : String) : Option Body := (env.http url).map Response.content

section Parts
variable (c : StoneRidgeCloner) (env : Env)

/-- The output root with the srid's entry replaced. -/
structure Replaced (root : OutRoot) (pre : String) (m : ℤ) (ps : String → Option PlatformEntry)
    (w : World) : Prop where
  entry : w.outroot.lookup c.srid = some (.dir m ps)
  others : ∀ d, d ≠ c.srid → w.outroot.lookup d = root.lookup d
  keys : w.outroot.keys.toFinset = insert c.srid root.keys.toFinset
  filePrefix : w.filePrefix = pre

/-- The srid's directory before the platforms are cloned. -/
def base (root : OutRoot) : Option (ℤ × (String → Option PlatformEntry)) :=
  match root.lookup c.srid with
  | some (.dir m ps) => some (m, ps)
  | some .file => none
  | none => if env.mkdirFails c.outdir then none else some (env.now c.outdir, fun _ => none)

def CanWrite (p : Platform) (outfile : String) : Prop :=
  env.writeFails (join (join c.outdir p.dir) outfile) = false

/-- The package and the tests of `p` can be stored in a directory that is there or can
be made. -/
structure Ready (ps : String → Option PlatformEntry) (pre : String) (p : Platform) : Prop where
  dir : (∃ files, ps p.dir = some (.dir files)) ∨
    (ps p.dir = none ∧ env.mkdirFails (join c.outdir p.dir) = false)
  package : (env.http (c.packageUrl pre p)).isSome ∧ CanWrite c env p p.outfile
  tests : (env.http (c.testsUrl pre p)).isSome ∧ CanWrite c env p testsZip

/-- The time of the last change of `outdir` after `p` has been cloned into it. -/
def stamp (ps : String → Option PlatformEntry) (m : ℤ) (p : Platform) : ℤ :=
  if (ps p.dir).isSome then m else env.now (join c.outdir p.dir)

end Parts

section Specs
variable {c : StoneRidgeCloner} {env : Env} {root : OutRoot} {pre : String} {m : ℤ}
  {ps : String → Option PlatformEntry} {w : World}

theorem Replaced.set (h : Replaced c root pre m ps w) (m' : ℤ)
    (ps' : String → Option PlatformEntry) :
    Exact Untold (c.setEntry (.dir m' ps')) w True fun _ t => Replaced c root pre m' ps' t := by
  refine (Exact.of_modify ?_).conseq Iff.rfl ?_
  · exact ⟨rfl, rfl⟩
  · rintro _ t - rfl
    refine ⟨AList.lookup_insert _, ?_, ?_, h.filePrefix⟩
    · intro d hd
      rw [AList.lookup_insert_ne hd]
      exact h.others d hd
    · have hmem : c.srid ∈ w.outroot.keys.toFinset := by
        rw [h.keys]
        exact Finset.mem_insert_self _ _
      ext d
      rw [← h.keys]
      by_cases hd : d = c.srid
      · subst hd
        simpa using hmem
      · simp [AList.keys_insert, hd, List.mem_erase_of_ne hd]

theorem makeOutdir_some (h : Replaced c root pre m ps w) :
    Exact Untold (c.makeOutdir env) w True fun _ t => t = w := by
  apply Exact.get_bind
  rw [StoneRidgeCloner.entry, h.entry]
  exact (Exact.of_pure Untold.refl _).conseq Iff.rfl fun _ _ _ h => h.2

theorem makePlatdir_exact (h : Replaced c root pre m ps w) (p : Platform) :
    Exact Untold (c.makePlatdir env p.dir) w
      ((ps p.dir).isSome ∨ env.mkdirFails (join c.outdir p.dir) = false)
      fun _ t => Replaced c root pre (stamp c env ps m p)
        (Function.update ps p.dir (some ((ps p.dir).getD (.dir fun _ => none)))) t := by
  apply Exact.get_bind
  simp only [StoneRidgeCloner.entry, h.entry, stamp]
  cases hp : ps p.dir with
  | some e =>
    simp only [Option.isSome_some, ite_true, true_or, Option.getD_some]
    refine (Exact.of_pure Untold.refl ()).conseq Iff.rfl ?_
    rintro _ t' - ⟨-, rfl⟩
    rwa [← hp, Function.update_eq_self]
  | none =>
    simp only [Option.isSome_none, Bool.false_eq_true, ite_false, false_or, Option.getD_none]
    cases env.mkdirFails (join c.outdir p.dir) with
    | true => exact (Exact.of_throw Untold.refl _).conseq (by simp) fun _ _ _ h => h
    | false => exact (h.set _ _).conseq (by simp) fun _ _ _ h => h

theorem ensureOutdir_exact (h : Replaced c root pre m ps w) (p : Platform) :
    Exact Untold (c.ensureOutdir env p.dir) w
      ((ps p.dir).isSome ∨ env.mkdirFails (join c.outdir p.dir) = false)
      fun _ t => Replaced c root pre (stamp c env ps m p)
        (Function.update ps p.dir (some ((ps p.dir).getD (.dir fun _ => none)))) t := by
  have hseq := Exact.bind Untold.trans (@makeOutdir_some c env root pre m ps w h)
    (f := fun _ => c.makePlatdir env p.dir) (fun _ t ht => ht ▸ makePlatdir_exact h p)
  exact hseq.conseq (and_iff_right trivial) fun _ _ _ h => h

theorem dlToFile_exact {e : PlatformEntry} (h : Replaced c root pre m ps w) (p : Platform)
    (hp : ps p.dir = some e) (url outfile : String) :
    Exact Untold (c.dlToFile env url p.dir outfile) w
      ((∃ files, e = .dir files) ∧ (env.http url).isSome ∧ CanWrite c env p outfile)
      fun _ t => ∃ files, e = .dir files ∧ Replaced c root pre m (Function.update ps p.dir
        (some (.dir (Function.update files outfile (env.content url))))) t := by
  unfold StoneRidgeCloner.dlToFile Env.content CanWrite
  cases hurl : env.http url with
  | none => exact (Exact.of_throw Untold.refl _).conseq (by simp) fun _ _ _ h => h
  | some resp =>
    apply Exact.get_bind
    cases env.writeFails (join (join c.outdir p.dir) outfile) with
    | true => exact (Exact.of_throw Untold.refl _).conseq (by simp) fun _ _ _ h => h
    | false =>
      simp only [StoneRidgeCloner.entry, h.entry, hp]
      cases e with
      | file => exact (Exact.of_throw Untold.refl _).conseq (by simp) fun _ _ _ h => h
      | dir files =>
        exact (h.set _ _).conseq (by simp) fun _ _ _ h => ⟨files, rfl, h⟩

/-- The two files of `p` hold what was answered for their URLs. -/
def Fetched (c : StoneRidgeCloner) (env : Env) (pre : String)
    (ps : String → Option PlatformEntry) (p : Platform) : Prop :=
  ∃ files, ps p.dir = some (.dir files) ∧ files p.outfile = env.content (c.packageUrl pre p) ∧
    files testsZip = env.content (c.testsUrl pre p)

theorem downloadBoth_exact {e : PlatformEntry} (h : Replaced c root pre m ps w) (p : Platform)
    (hp : ps p.dir = some e) (hout : p.outfile ≠ testsZip) :
    Exact Untold (c.downloadBoth env p) w
      (((∃ files, e = .dir files) ∧
          (env.http (c.packageUrl pre p)).isSome ∧ CanWrite c env p p.outfile) ∧
        (env.http (c.testsUrl pre p)).isSome ∧ CanWrite c env p testsZip)
      fun _ t => ∃ ps', Replaced c root pre m ps' t ∧ Fetched c env pre ps' p ∧
        ∀ d, d ≠ p.dir → ps' d = ps d := by
  apply Exact.get_bind
  rw [h.filePrefix]
  refine Exact.bind Untold.trans (dlToFile_exact h p hp _ _) ?_
  rintro _ t ⟨files, rfl, ht⟩
  refine (dlToFile_exact ht p (Function.update_self _ _ _) _ _).conseq ?_ ?_
  · exact and_iff_right ⟨_, rfl⟩
  · rintro _ u - ⟨files', heq, hu⟩
    obtain rfl := PlatformEntry.dir.inj heq
    refine ⟨_, hu, ⟨_, Function.update_self _ _ _, ?_, Function.update_self _ _ _⟩, ?_⟩
    · rw [Function.update_of_ne hout, Function.update_self]
    · intro d hd
      rw [Function.update_of_ne hd, Function.update_of_ne hd]

theorem clonePlatform_exact (h : Replaced c root pre m ps w) (p : Platform)
    (hout : p.outfile ≠ testsZip) :
    Exact Untold (c.clonePlatform env p) w (Ready c env ps pre p)
      fun _ t => ∃ ps', Replaced c root pre (stamp c env ps m p) ps' t ∧
        Fetched c env pre ps' p ∧ ∀ d, d ≠ p.dir → ps' d = ps d := by
  have hseq := Exact.bind Untold.trans (@ensureOutdir_exact c env root pre m ps w h p)
    (f := fun _ => c.downloadBoth env p)
    fun _ t ht => downloadBoth_exact ht p (Function.update_self _ _ _) hout
  refine hseq.conseq ?_ ?_
  · constructor
    · rintro ⟨hdir, ⟨⟨files, hfiles⟩, hpkg⟩, htests⟩
      refine ⟨?_, hpkg, htests⟩
      cases hps : ps p.dir with
      | none =>
        rw [hps] at hdir
        exact .inr ⟨rfl, hdir.resolve_left Bool.false_ne_true⟩
      | some e =>
        rw [hps, Option.getD_some] at hfiles
        exact .inl ⟨files, congrArg some hfiles⟩
    · rintro ⟨⟨files, hfiles⟩ | ⟨hnone, hmk⟩, hpkg, htests⟩
      · rw [hfiles]
        exact ⟨.inl rfl, ⟨⟨files, rfl⟩, hpkg⟩, htests⟩
      · rw [hnone]
        exact ⟨.inr hmk, ⟨⟨_, rfl⟩, hpkg⟩, htests⟩
  · rintro _ t - ⟨ps', hrep, hfetched, hothers⟩
    refine ⟨ps', hrep, hfetched, fun d hd => ?_⟩
    rw [hothers d hd, Function.update_of_ne hd]

end Specs

end StoneRidge.Cloner
