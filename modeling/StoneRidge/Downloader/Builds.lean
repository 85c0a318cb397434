import StoneRidge.Cloner.Retained

/-!
# From the cloner to the clients

`StoneRidgeDownloader` (`srdownloader.py:12-56`) on a client, and the file server that it
asks, which serves the cloner's output root. The server is not part of the repository; what
it is trusted with is to answer for a file below the root with its content, and for
anything else without status 200.
-/

set_option autoImplicit false

namespace StoneRidge.Downloader
open StoneRidge.Kit.Exec StoneRidge.Cloner

structure StoneRidgeDownloader where
  server : String
  downloadroot : String
  downloadPlatform : String
  downloadSuffix : String
  srid : String
  deriving DecidableEq

/-- What a downloader meets with on the network and on its own machine. -/
structure Env where
  /-- The answer to `requests.get`, or nothing if it raises. -/
  http : String → Option Response
  mkdirFails : Bool
  writeFails : String → Bool

/-- What there is at `self.downloaddir`. -/
abbrev Downloaddir := Option PlatformEntry

inductive Raised where
  | osError
  | requestException
  /-- `Exception('Error downloading %s: %s')`: the file and the status. -/
  | errorDownloading (filename : String) (statusCode : ℕ)

abbrev Action := EStateM Raised Downloaddir Unit

namespace StoneRidgeDownloader
variable (dl : StoneRidgeDownloader) (env : Env)

def url (filename : String) : String :=
  "http://" ++ dl.server ++ "/" ++ dl.downloadroot ++ "/" ++ dl.srid ++ "/" ++
    dl.downloadPlatform ++ "/" ++ filename

/-- `file(filename, 'wb')` in the download directory. -/
def writeFile (filename : String) (content : Body) : Action := do
  let there ← get
  match there with
  | some (.dir files) =>
    if env.writeFails filename then throw .osError
    else set (some (PlatformEntry.dir (Function.update files filename (some content))))
  | _ => throw .osError

def downloadFile (filename : String) : Action :=
  match env.http (dl.url filename) with
  | none => throw .requestException
  | some r =>
    if r.statusCode ≠ 200 then throw (.errorDownloading filename r.statusCode)
    else writeFile env filename r.content

def package : String := "firefox." ++ dl.downloadSuffix

def run : Action := do
  let there ← get
  match there with
  | none =>
    if env.mkdirFails then throw .osError
    else set (some (PlatformEntry.dir fun _ => none))
  -- `os.chdir`
  | some .file => throw .osError
  | some (.dir _) => pure ()
  dl.downloadFile env dl.package
  dl.downloadFile env testsZip

end StoneRidgeDownloader

/-! ### The file server -/

/-- A name that stands for itself in the path of a URL. -/
structure Plain (name : String) : Prop where
  unreserved : ∀ ch ∈ name.toList, ch.isAlphanum = true ∨ ch ∈ ['-', '.', '_', '~']
  segment : name ∉ ["", ".", ".."]

instance (name : String) : Decidable (Plain name) :=
  decidable_of_iff (_ ∧ _) ⟨fun h => ⟨h.1, h.2⟩, fun h => ⟨h.unreserved, h.segment⟩⟩

/-- The file with this name in a platform's directory of a build. -/
def stored (root : OutRoot) (srid platform filename : String) : Option Body :=
  match root.lookup srid with
  | some (.dir _ platforms) =>
    match platforms platform with
    | some (.dir files) => files filename
    | _ => none
  | _ => none

/-- `http` serves the output root below `server` and `downloadroot`. -/
def Serves (http : String → Option Response) (server downloadroot : String) (root : OutRoot) :
    Prop :=
  ∀ srid platform filename, Plain srid → Plain platform → Plain filename →
    let answer := http ("http://" ++ server ++ "/" ++ downloadroot ++ "/" ++ srid ++ "/" ++
      platform ++ "/" ++ filename)
    match stored root srid platform filename with
    | some content => answer = some ⟨200, content⟩
    | none => ∀ r, answer = some r → r.statusCode ≠ 200

/-- A file server for the output root. -/
def serve (server downloadroot : String) (root : OutRoot) (url : String) : Option Response :=
  let base := ("http://" ++ server ++ "/" ++ downloadroot ++ "/").toList
  if base <+: url.toList then
    match (url.toList.drop base.length).splitOn '/' with
    | [srid, platform, filename] =>
      match stored root (String.ofList srid) (String.ofList platform) (String.ofList filename) with
      | some content => some ⟨200, content⟩
      | none => some ⟨404, []⟩
    | _ => some ⟨404, []⟩
  else none

theorem Plain.not_slash {name : String} (h : Plain name) : '/' ∉ name.toList := by
  intro hmem
  rcases h.unreserved '/' hmem with halnum | hother
  · exact absurd halnum (by decide)
  · exact absurd hother (by decide)

theorem serve_serves (server downloadroot : String) (root : OutRoot) :
    Serves (serve server downloadroot root) server downloadroot root := by
  intro srid platform filename hsrid hplatform hfilename
  have hsplit : ('/' :: []).intercalate [srid.toList, platform.toList, filename.toList] =
      srid.toList ++ '/' :: (platform.toList ++ '/' :: filename.toList) := by
    simp [List.intercalate]
  have hslash : ∀ l ∈ [srid.toList, platform.toList, filename.toList], '/' ∉ l := by
    simpa using ⟨hsrid.not_slash, hplatform.not_slash, hfilename.not_slash⟩
  have hparts := List.splitOn_intercalate '/' hslash (List.cons_ne_nil _ _)
  rw [hsplit] at hparts
  have hurl : ("http://" ++ server ++ "/" ++ downloadroot ++ "/" ++ srid ++ "/" ++ platform ++
      "/" ++ filename).toList = ("http://" ++ server ++ "/" ++ downloadroot ++ "/").toList ++
        (srid.toList ++ '/' :: (platform.toList ++ '/' :: filename.toList)) := by
    simp [String.toList_append]
  unfold serve
  simp only [hurl, List.prefix_append, if_true, List.drop_left, hparts, String.ofList_toList]
  cases stored root srid platform filename with
  | none => exact fun r hr => by cases hr; decide
  | some content => rfl

/-! ### What a client gets -/

/-- The client's machine lets the two files be stored. -/
structure Storable (dl : StoneRidgeDownloader) (env : Env) (there : Downloaddir) : Prop where
  directory : there ≠ some .file
  made : there = none → env.mkdirFails = false
  package : env.writeFails dl.package = false
  tests : env.writeFails testsZip = false

section Clients
variable {dl : StoneRidgeDownloader} {env : Env} {there : Downloaddir} {content : Body}
  {files : String → Option Body} {filename : String}

abbrev Any (_ _ : Downloaddir) : Prop := True

theorem downloadFile_exact (hanswer : env.http (dl.url filename) = some ⟨200, content⟩) :
    Exact Any (dl.downloadFile env filename) (some (.dir files))
      (env.writeFails filename = false)
      fun _ t => t = some (.dir (Function.update files filename (some content))) := by
  unfold StoneRidgeDownloader.downloadFile
  rw [hanswer]
  change Exact Any (StoneRidgeDownloader.writeFile env filename content) _ _ _
  cases hfails : env.writeFails filename with
  | true =>
    apply Exact.get_bind
    simp only [hfails]
    exact (Exact.of_throw (fun _ => trivial) _).conseq (by simp) fun _ _ _ h => h
  | false =>
    have hset : Exact Any (StoneRidgeDownloader.writeFile env filename content) (some (.dir files))
        True fun _ t => t = some (.dir (Function.update files filename (some content))) := by
      apply Exact.get_bind
      simp only [hfails]
      exact Exact.of_ok rfl trivial rfl
    exact hset.conseq (iff_of_true trivial rfl) fun _ _ _ h => h

/-- Both files arrive as they are served, or the run raises. -/
theorem run_exact {package tests : Body} (hne : dl.package ≠ testsZip)
    (hpackage : env.http (dl.url dl.package) = some ⟨200, package⟩)
    (htests : env.http (dl.url testsZip) = some ⟨200, tests⟩) :
    Exact Any (dl.run env) there (Storable dl env there) fun _ t =>
      ∃ files, t = some (.dir files) ∧ files dl.package = some package ∧
        files testsZip = some tests := by
  have hboth : ∀ files : String → Option Body, Exact Any
      (dl.downloadFile env dl.package >>= fun _ => dl.downloadFile env testsZip)
      (some (.dir files))
      (env.writeFails dl.package = false ∧ env.writeFails testsZip = false) fun _ t =>
        ∃ files, t = some (.dir files) ∧ files dl.package = some package ∧
          files testsZip = some tests := by
    intro files
    refine Exact.bind (fun _ _ _ _ _ => trivial) (downloadFile_exact hpackage) ?_
    intro _ t ht
    subst ht
    refine (downloadFile_exact htests).conseq Iff.rfl ?_
    intro _ u _ hu
    refine ⟨_, hu, ?_, Function.update_self _ _ _⟩
    rw [Function.update_of_ne hne, Function.update_self]
  unfold StoneRidgeDownloader.run
  apply Exact.get_bind
  match there with
  | some .file =>
    refine (Exact.of_error rfl trivial).conseq ?_ fun _ _ _ h => h
    exact iff_of_false id fun h => h.directory rfl
  | some (.dir files) =>
    refine (hboth files).conseq ?_ fun _ _ _ h => h
    exact ⟨fun h => ⟨nofun, nofun, h.1, h.2⟩, fun h => ⟨h.package, h.tests⟩⟩
  | none =>
    cases hfails : env.mkdirFails with
    | true =>
      refine (Exact.of_error (e := .osError) (t := none) ?_ trivial).conseq ?_ fun _ _ _ h => h
      · exact bind_error rfl
      · exact iff_of_false id fun h => absurd (h.made rfl) (by simp [hfails])
    | false =>
      have hmade : Exact Any
          ((set (some (PlatformEntry.dir fun _ => none)) : Action) >>= fun _ =>
            dl.downloadFile env dl.package >>= fun _ => dl.downloadFile env testsZip) none
          (True ∧ env.writeFails dl.package = false ∧ env.writeFails testsZip = false) _ :=
        Exact.bind (P := fun _ t => t = some (.dir fun _ => none)) (fun _ _ _ _ _ => trivial)
          (Exact.of_ok rfl trivial rfl) fun _ t ht => ht ▸ hboth fun _ => none
      refine hmade.conseq ?_ fun _ _ _ h => h
      exact ⟨fun h => ⟨nofun, fun _ => hfails, h.2.1, h.2.2⟩,
        fun h => ⟨trivial, h.package, h.tests⟩⟩

theorem Serves.answer {http : String → Option Response} {root : OutRoot} {filename : String}
    (h : Serves http dl.server dl.downloadroot root) (hsrid : Plain dl.srid)
    (hplatform : Plain dl.downloadPlatform) (hfilename : Plain filename)
    (hstored : stored root dl.srid dl.downloadPlatform filename = some content) :
    http (dl.url filename) = some ⟨200, content⟩ := by
  have hanswer := h dl.srid dl.downloadPlatform filename hsrid hplatform hfilename
  rwa [hstored] at hanswer

theorem stored_of_lookup {root : OutRoot} {srid platform : String} {m : ℤ}
    {ps : String → Option PlatformEntry} (hroot : root.lookup srid = some (.dir m ps))
    (hplatform : ps platform = some (.dir files)) (filename : String) :
    stored root srid platform filename = files filename := by
  unfold stored
  rw [hroot]
  simp only [hplatform]

theorem plain_needed {c : StoneRidgeCloner} {p : Platform} (hp : p ∈ c.needed) :
    Plain p.dir ∧ Plain p.outfile := by
  rcases mem_needed hp with rfl | rfl | rfl <;> decide

end Clients

/-- What a client downloads for a run is, byte for byte, what the cloner was answered for
it, as long as fewer other runs than are kept have been cloned for since. -/
theorem builds_reach_clients {c : StoneRidgeCloner} {cenv : Cloner.Env} {root : OutRoot}
    {t : World} {runs : List (StoneRidgeCloner × Cloner.Env)} {p : Platform}
    {dl : StoneRidgeDownloader} {env : Env} {there : Downloaddir}
    (hrun : c.run cenv (World.start root) = .ok () t) (hnew : root.lookup c.srid = none)
    (hclock : ∀ d m ps path, root.lookup d = some (.dir m ps) → m < cenv.now path)
    (hruns : ∀ r ∈ runs, r.1.setting = c.setting ∧ r.1.srid ≠ c.srid ∧ r.1.PlainSrid)
    (hfew : ((srids runs).card : ℤ) < c.setting.keep) (hp : p ∈ c.needed)
    (hsrid : dl.srid = c.srid) (hplain : Plain c.srid) (hplatform : dl.downloadPlatform = p.dir)
    (hsuffix : dl.package = p.outfile)
    (hserves : Serves env.http dl.server dl.downloadroot (after runs t.outroot)) :
    ∃ package tests, cenv.content (c.packageUrl t.filePrefix p) = some package ∧
      cenv.content (c.testsUrl t.filePrefix p) = some tests ∧
      ((∃ there', dl.run env there = .ok () there') ↔ Storable dl env there) ∧
      ∀ there', dl.run env there = .ok () there' →
        ∃ files, there' = some (.dir files) ∧ files dl.package = some package ∧
          files testsZip = some tests := by
  obtain ⟨m, ps, hnewest, hfetched⟩ :=
    run_newest hrun hnew hclock (lt_of_le_of_lt (Int.natCast_nonneg _) hfew)
  obtain ⟨⟨files, hdir, hpackage, htests⟩, hsome, hsome'⟩ := hfetched p hp
  obtain ⟨package, hcontent⟩ : ∃ package, cenv.content (c.packageUrl t.filePrefix p) = some package :=
    Option.isSome_iff_exists.mp ((Option.isSome_map ..).trans hsome)
  obtain ⟨tests, hcontent'⟩ : ∃ tests, cenv.content (c.testsUrl t.filePrefix p) = some tests :=
    Option.isSome_iff_exists.mp ((Option.isSome_map ..).trans hsome')
  have hout : c.srid ∉ srids runs := by
    intro hmem
    obtain ⟨r, hr, heq⟩ := List.mem_map.mp (List.mem_toFinset.mp hmem)
    exact (hruns r hr).2.1 heq
  have hkept := (hnewest.mono (Finset.empty_subset _)).after hout hfew runs
    (fun r hr => by rw [(hruns r hr).1])
    fun r hr => List.mem_toFinset.mpr (List.mem_map_of_mem hr)
  have hstored : ∀ filename, stored (after runs t.outroot) dl.srid dl.downloadPlatform filename =
      files filename := by
    rw [hsrid, hplatform]
    exact stored_of_lookup hkept.here hdir
  obtain ⟨hplaindir, hplainout⟩ := plain_needed hp
  have hexact := @run_exact dl env there package tests
    (by rw [hsuffix]; exact needed_outfile hp)
    (hserves.answer (hsrid ▸ hplain) (hplatform ▸ hplaindir) (hsuffix ▸ hplainout)
      (by rw [hstored, hsuffix, hpackage, hcontent]))
    (hserves.answer (hsrid ▸ hplain) (hplatform ▸ hplaindir) (by decide)
      (by rw [hstored, htests, hcontent']))
  refine ⟨package, tests, hcontent, hcontent', ?_, fun there' hok => (hexact.ok hok).2.2⟩
  constructor
  · intro ⟨there', hok⟩
    exact (hexact.ok hok).1
  · intro hstorable
    cases hend : dl.run env there with
    | ok _ there' => exact ⟨there', rfl⟩
    | error e there' => exact absurd hstorable (hexact.error hend).1

section Nightly

/-- A listing of a nightly build whose files can all be downloaded. -/
def nightlyBuild : Cloner.Env :=
  Cloner.Env.healthy (fun _ => some ["firefox-27.0a1.en-US.mac.checksums.asc"])
    fun _ => some ⟨200, [80, 75]⟩

theorem nightlyBuild_complete : Complete nightlyCloner nightlyBuild ∅ "firefox-27.0a1.en-US" 0
    fun _ => none := by
  refine ⟨fun h => absurd h (by decide), by decide, by decide, rfl, ?_, ?_⟩
  · intro p _
    exact ⟨.inr ⟨rfl, rfl⟩, ⟨rfl, rfl⟩, rfl, rfl⟩
  · intro d _
    rfl

def linuxClient : StoneRidgeDownloader := ⟨"localhost:8080", "srbuilds", "linux64", "tar.bz2", "5e1"⟩

/-- The next nightly does not come between a client and its build. -/
theorem builds_reach_clients_nightly : ∃ t, nightlyCloner.run nightlyBuild (World.start ∅) = .ok () t ∧
    ∃ package tests, nightlyBuild.content (nightlyCloner.packageUrl t.filePrefix linux) = some package ∧
      nightlyBuild.content (nightlyCloner.testsUrl t.filePrefix linux) = some tests ∧
      let env : Env := ⟨serve "localhost:8080" "srbuilds"
        (after [({ nightlyCloner with srid := "5e2" }, nightlyBuild)] t.outroot), false, fun _ => false⟩
      ((∃ there, linuxClient.run env none = .ok () there) ↔ Storable linuxClient env none) ∧
      ∀ there, linuxClient.run env none = .ok () there →
        ∃ files, there = some (.dir files) ∧ files linuxClient.package = some package ∧
          files testsZip = some tests := by
  obtain ⟨t, hrun, -⟩ := @run_complete nightlyCloner nightlyBuild (World.start ∅) _ _ _
    nightlyBuild_complete
  refine ⟨t, hrun, builds_reach_clients hrun rfl ?_ ?_ (by decide) (by decide) rfl (by decide) rfl
    (by decide) (serve_serves _ _ _)⟩
  · intro d m ps path h
    cases h
  · simp only [List.forall_mem_singleton]
    decide

end Nightly

end StoneRidge.Downloader
