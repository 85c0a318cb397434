import StoneRidge.Cloner.Outcome

/-!
# What the tests are scheduled on

The master schedules tests when the cloner exits normally (`srmaster.py:64-90`).
Nothing between the listings and that exit looks at the status of a response, and
the cleanup at the end may give up the directory that was just written
(`srcloner.py:147-155`, `srcloner.py:224-251`).
-/

set_option autoImplicit false

namespace StoneRidge.Cloner
open StoneRidge.Kit.Exec StoneRidge.Kit.PosixPath StoneRidge.Kit.Retention
open StoneRidgeCloner

section Purpose
variable (c : StoneRidgeCloner) (env : Env)

/-- The file holds the body of a response with status 200 for the URL. -/
def Holds (files : String → Option Body) (outfile url : String) : Prop :=
  ∃ resp, env.http url = some resp ∧ resp.statusCode = 200 ∧ files outfile = some resp.content

/-- Every platform that the request needs has its package and its tests. -/
def Cloned (w : World) : Prop :=
  ∃ m ps, c.entry w = some (.dir m ps) ∧ ∀ p ∈ c.needed, ∃ files, ps p.dir = some (.dir files) ∧
    Holds env files p.outfile (c.packageUrl w.filePrefix p) ∧
    Holds env files testsZip (c.testsUrl w.filePrefix p)

def Status200 (url : String) : Prop := ∃ resp, env.http url = some resp ∧ resp.statusCode = 200

/-- The cleanup does not look at the srid, or at least as many directories as it gives
up come before it. -/
def Kept (root : OutRoot) (m : ℤ) : Prop :=
  c.srid.toList.head? = some '.' ∨
    surplus c.setting.keep (candidates c env root m).length ≤
      (candidates c env root m).countP fun d => Before Prod.snd (candidates c env root m) d (c.srid, m)

end Purpose

section Cleanup
variable {c : StoneRidgeCloner} {env : Env} {root : OutRoot} {m : ℤ}

theorem mem_times {names : List String} {f : String → Option OutEntry} {x : String × ℤ} :
    x ∈ times names f ↔
      x.1 ∈ names ∧ x.1.toList.head? ≠ some '.' ∧ ∃ ps, f x.1 = some (.dir x.2 ps) := by
  obtain ⟨d, m⟩ := x
  unfold times
  rw [List.mem_filterMap]
  constructor
  · intro ⟨l, hl, h⟩
    cases hf : f l with
    | none => simp [hf] at h
    | some e =>
      cases e with
      | file => simp [hf] at h
      | dir m' ps =>
        simp only [hf, Option.ite_none_left_eq_some, Option.some.injEq, Prod.mk.injEq] at h
        obtain ⟨hdot, rfl, rfl⟩ := h
        exact ⟨hl, hdot, ps, hf⟩
  · intro ⟨hl, hdot, ps, hf⟩
    refine ⟨d, hl, ?_⟩
    simp only at hf hdot
    simp only [hf, if_neg hdot]

theorem times_nodup {names : List String} (h : names.Nodup) (f : String → Option OutEntry) :
    (times names f).Nodup := by
  unfold times
  refine h.filterMap ?_
  intro d d' x hx hx'
  simp only [Option.mem_def] at hx hx'
  split at hx <;> split at hx' <;> simp_all
  exact congrArg Prod.fst (hx.2.trans hx'.2.symm)

theorem mem_candidates_srid {m' : ℤ} :
    (c.srid, m') ∈ candidates c env root m ↔ c.srid.toList.head? ≠ some '.' ∧ m' = m := by
  unfold candidates
  rw [mem_times]
  simp only [env.mem_listdir, Finset.mem_insert_self, Function.update_self, Option.some.injEq,
    OutEntry.dir.injEq, true_and]
  constructor
  · intro ⟨hdot, _, h, _⟩
    exact ⟨hdot, h.symm⟩
  · intro ⟨hdot, h⟩
    exact ⟨hdot, _, h.symm, rfl⟩

theorem mem_removed_iff : c.srid ∈ removed c env root m ↔ ¬ Kept c env root m := by
  have hnodup : (candidates c env root m).Nodup := times_nodup (env.listdir_nodup _) _
  unfold removed Kept
  rw [List.mem_map]
  push Not
  constructor
  · intro ⟨⟨d, m'⟩, hgiven, hd⟩
    simp only at hd
    subst hd
    have hmem := givenUp_subset _ _ hgiven
    obtain ⟨hdot, rfl⟩ := mem_candidates_srid.mp hmem
    exact ⟨hdot, (mem_givenUp_iff hnodup hmem _).mp hgiven⟩
  · intro ⟨hdot, hlt⟩
    have hmem : (c.srid, m) ∈ candidates c env root m := mem_candidates_srid.mpr ⟨hdot, rfl⟩
    exact ⟨_, (mem_givenUp_iff hnodup hmem _).mpr hlt, rfl⟩

end Cleanup

section Results
variable {c : StoneRidgeCloner} {env : Env} {root : OutRoot} {pre : String} {m : ℤ}
  {ps : String → Option PlatformEntry} {w : World}

theorem holds_iff {files : String → Option Body} {outfile url : String}
    (h : files outfile = env.content url) : Holds env files outfile url ↔ Status200 env url := by
  unfold Holds Status200
  constructor
  · intro ⟨resp, hresp, hstatus, _⟩
    exact ⟨resp, hresp, hstatus⟩
  · intro ⟨resp, hresp, hstatus⟩
    refine ⟨resp, hresp, hstatus, ?_⟩
    rw [h, Env.content, hresp]
    rfl

theorem Fetched.holds_iff {p : Platform} (h : Fetched c env pre ps p) :
    (∃ files, ps p.dir = some (.dir files) ∧ Holds env files p.outfile (c.packageUrl pre p) ∧
      Holds env files testsZip (c.testsUrl pre p)) ↔
      Status200 env (c.packageUrl pre p) ∧ Status200 env (c.testsUrl pre p) := by
  obtain ⟨files, hfiles, hpackage, htests⟩ := h
  have hpkg := Cloner.holds_iff hpackage
  have htst := Cloner.holds_iff htests
  constructor
  · intro ⟨files', hfiles', h⟩
    obtain rfl := PlatformEntry.dir.inj (Option.some.inj (hfiles.symm.trans hfiles'))
    exact ⟨hpkg.mp h.1, htst.mp h.2⟩
  · intro h
    exact ⟨files, hfiles, hpkg.mpr h.1, htst.mpr h.2⟩

/-- Of what a run leaves, the status of the responses and the cleanup decide. -/
theorem Left.cloned_iff (h : Left c env root pre m ps w) :
    Cloned c env w ↔
      (∀ p ∈ c.needed, Status200 env (c.packageUrl pre p) ∧ Status200 env (c.testsUrl pre p)) ∧
        Kept c env root (lastChange c env ps m) := by
  obtain ⟨hpre, psd, hfetched, hlookup⟩ := h
  rw [← not_iff_not.mpr mem_removed_iff |>.trans not_not]
  unfold Cloned entry
  rw [hlookup, hpre]
  by_cases hremoved : c.srid ∈ removed c env root (lastChange c env ps m)
  · simp [hremoved]
  · rw [if_neg hremoved]
    constructor
    · intro ⟨m', ps', hdir, hall⟩
      simp only [Option.some.injEq, OutEntry.dir.injEq] at hdir
      obtain ⟨_, rfl⟩ := hdir
      exact ⟨fun p hp => (hfetched p hp).holds_iff.mp (hall p hp), hremoved⟩
    · intro ⟨hall, _⟩
      exact ⟨_, psd, rfl, fun p hp => (hfetched p hp).holds_iff.mpr (hall p hp)⟩

/-- A run that ends normally leaves the builds in their entry of the output root exactly if
every answer had status 200 and the cleanup keeps the directory. -/
theorem run_cloned_iff (c : StoneRidgeCloner) (env : Env) (root : OutRoot)
    (hout : c.setting.output ≠ "") (hsrid : c.PlainSrid) :
    IsEntry c.setting.output c.srid c.outdir ∧
      ((∀ t, c.run env (World.start root) = .ok () t → Cloned c env t) ↔
        ∀ pre m ps, Complete c env root pre m ps →
          (∀ p ∈ c.needed, Status200 env (c.packageUrl pre p) ∧
            Status200 env (c.testsUrl pre p)) ∧
          Kept c env root (lastChange c env ps m)) := by
  refine ⟨c.isEntry_outdir hout hsrid, ?_⟩
  constructor
  · intro h pre m ps hcomplete
    obtain ⟨t, hrun, hleft⟩ := @run_complete c env (World.start root) pre m ps hcomplete
    exact hleft.cloned_iff.mp (h t hrun)
  · intro h t hrun
    obtain ⟨pre, m, ps, hcomplete, hleft⟩ := run_ok hrun
    exact hleft.cloned_iff.mpr (h pre m ps hcomplete)

end Results

section Failing

/-- Servers that answer, on a machine on which nothing else fails. -/
def Env.healthy (ftp : String → Option (List String)) (http : String → Option Response) : Env where
  ftp := ftp
  http := http
  mkdirFails _ := false
  writeFails _ := false
  rmtreeFails _ := false
  now _ := 0
  listdir s := s.sort (· ≤ ·)
  listdir_nodup s := s.sort_nodup (· ≤ ·)
  mem_listdir _ _ := Finset.mem_sort (· ≤ ·)
  pidfile := "/tmp/pid"
  pidfile_head := rfl
  deferrerStatus := 0

def setting : Setting :=
  { host := "ftp.mozilla.org", root := "/pub", output := "/srv/builds", attempts := 3,
    configFile := "/etc/stoneridge.ini" }

def nightlyCloner : StoneRidgeCloner :=
  ⟨setting, true, "5e1", ["windows", "linux", "mac"], ["broadband", "umts", "gsm"], "", "", 1⟩

/-- The listing shows a build, and the downloads answer with an error page. -/
def notFound : Env :=
  Env.healthy (fun _ => some ["firefox-27.0a1.en-US.mac.checksums.asc"])
    fun _ => some ⟨404, [60, 33]⟩

theorem notFound_complete : Complete nightlyCloner notFound ∅ "firefox-27.0a1.en-US" 0
    fun _ => none := by
  refine ⟨fun h => absurd h (by decide), by decide, by decide, rfl, ?_, ?_⟩
  · intro p hp
    exact ⟨.inr ⟨rfl, rfl⟩, ⟨rfl, rfl⟩, rfl, rfl⟩
  · intro d _
    rfl

theorem run_cloned_iff_nightly :
    IsEntry "/srv/builds" "5e1" nightlyCloner.outdir ∧
      ((∀ t, nightlyCloner.run notFound (World.start ∅) = .ok () t →
          Cloned nightlyCloner notFound t) ↔
        ∀ pre m ps, Complete nightlyCloner notFound ∅ pre m ps →
          (∀ p ∈ nightlyCloner.needed, Status200 notFound (nightlyCloner.packageUrl pre p) ∧
            Status200 notFound (nightlyCloner.testsUrl pre p)) ∧
          Kept nightlyCloner notFound ∅ (lastChange nightlyCloner notFound ps m)) :=
  run_cloned_iff nightlyCloner notFound ∅ (by decide) (by decide)

/-- The error page of a nightly is stored and the run ends normally. -/
theorem error_page_stored :
    ¬ ∀ t, nightlyCloner.run notFound (World.start ∅) = .ok () t →
      Cloned nightlyCloner notFound t := by
  intro h
  obtain ⟨t, hrun, _⟩ := @run_complete nightlyCloner notFound (World.start ∅) _ _ _
    notFound_complete
  obtain ⟨m, ps, _, hall⟩ := h t hrun
  obtain ⟨files, _, ⟨resp, hresp, hstatus, _⟩, _⟩ := hall mac (by decide)
  obtain rfl := Option.some.inj hresp
  exact absurd hstatus (by decide)

end Failing

end StoneRidge.Cloner
