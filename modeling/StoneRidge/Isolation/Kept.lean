import StoneRidge.Isolation.Owned

/-!
# The stages keep what a handling owns

One lemma for each operation and each stage. Only the collator and the uploader look for
files by a pattern, and so only these two need an out directory whose name is not a
pattern itself.
-/

set_option autoImplicit false

namespace StoneRidge.Isolation
open StoneRidge.Kit.Exec StoneRidge.Kit.Files StoneRidge.Kit.PyText StoneRidge.Kit.PosixPath
open StoneRidge.Kit.PosixTree StoneRidge.Kit.PosixDisk
open StoneRidge.Config (Text)
open StoneRidge.Dispatch (RunMessage)
open StoneRidge.Results (suite uploadFilename collate)
open StoneRidge.Worker (Call)

theorem Name.ofString (n : String) (hslash : '/' ∉ n.toList) (hname : IsName n.toList) :
    ∃ name : Name, name.toString = n :=
  ⟨⟨n.toList, hslash, hname⟩, String.ofList_toList⟩

section Values
variable {client : Client} {h : Handling client}

@[simp] theorem value_ok (v : Option Text) : value (.ok v) = pure v := rfl

@[simp] theorem pathValue_ok (p : String) : pathValue (.ok (some p.toList)) = pure p := by
  unfold pathValue
  simp only [value_ok, pure_bind, String.ofList_toList]

@[simp] theorem told_out : h.told.out = .ok (some h.srout.toList) := rfl

@[simp] theorem told_info : h.told.info = .ok (some (join h.srout "info.json").toList) := rfl

@[simp] theorem told_metadata :
    h.told.metadata = .ok (some (join h.srout "metadata.zip").toList) := rfl

@[simp] theorem told_srid : h.told.srid = .ok (some h.run.srid.toList) := rfl

@[simp] theorem told_netconfig :
    h.told.netconfig = .ok (some h.run.netconfig.name.toList) := rfl

@[simp] theorem told_ldap :
    h.told.ldap = .ok (if h.run.ldap = "" then none else some h.run.ldap.toList) := rfl

theorem intValue_tstamp : intValue h.told.tstamp = pure h.run.tstamp := by
  unfold intValue Handling.told toldFor
  simp only [value_ok, pure_bind, String.ofList_toList, int?_toString, Option.getD_some]

end Values

section Operations
variable {client : Client} {h : Handling client} {world : World} {p : String}

theorem operation_keeps : Keeps (Owned h) (operation world) fun _ => True := by
  refine Keeps.get_bind fun s hs => ?_
  rintro s rfl
  rw [bind_ok (set_apply _ _)]
  by_cases hfails : world.fails s.operations = true
  · rw [if_pos hfails]
    exact hs.operations _
  · rw [if_neg hfails]
    exact ⟨trivial, hs.operations _⟩

theorem operation_disk (P : Disk File → Prop) :
    Triple (fun s => Owned h s ∧ P s.disk) (operation world) (fun _ s => Owned h s ∧ P s.disk)
      fun _ => Owned h := by
  intro s hs
  unfold operation
  rw [bind_ok (get_apply s), bind_ok (set_apply _ _)]
  by_cases hfails : world.fails s.operations = true
  · rw [if_pos hfails]
    exact hs.1.operations _
  · rw [if_neg hfails]
    exact ⟨hs.1.operations _, hs.2⟩

/-- What a file that the handling has written holds. -/
def Holds (h : Handling client) (p : String) (Q : Content → Prop) (d : Disk File) : Prop :=
  ∀ f, d.read p = some f → f.writer = h.number ∧ Q f.content

theorem readFile_triple {Q : Content → Prop} :
    Triple (fun s => Owned h s ∧ Holds h p Q s.disk) (readFile world p)
      (fun content s => Q content ∧ Owned h s) fun _ => Owned h := by
  refine Triple.bind (operation_disk (Holds h p Q)) fun _ => ?_
  rintro s ⟨ho, hholds⟩
  rw [bind_ok (get_apply s)]
  cases hread : s.disk.read p with
  | none => exact ho
  | some f =>
    obtain ⟨hwriter, hcontent⟩ := hholds f hread
    refine ⟨hcontent, ho.read ?_⟩
    intro w hw
    rwa [List.mem_singleton.mp hw]

theorem readFile_keeps {Q : Content → Prop} (hread : ∀ s, Owned h s → Holds h p Q s.disk) :
    Keeps (Owned h) (readFile world p) Q :=
  Triple.conseq readFile_triple (fun s hs => ⟨hs, hread s hs⟩) (fun _ _ hs => hs) fun _ _ hs => hs

theorem readEntry_keeps (name : Name) :
    Keeps (Owned h) (readFile world (join h.srout name.toString)) (Proper h name) :=
  readFile_keeps fun _ hs _ hf => hs.entry hf

theorem loadEntry_keeps (name : Name) : Keeps (Owned h)
    (loadJson world (join h.srout name.toString)) fun j => Proper h name (.json j) := by
  refine Keeps.bind (readEntry_keeps name) fun content hcontent => ?_
  cases content with
  | json j => exact Keeps.of_pure hcontent
  | text t => exact Keeps.of_throw
  | zip members => exact Keeps.of_throw

/-- A file with a fixed name is to hold what its name says. -/
def Fits (h : Handling client) (p : String) (content : Content) : Prop :=
  ∀ (name : Name) (cs : List (List Char)), revComponents p = name.text :: cs →
    Proper h name content

theorem writeFile_triple {content : Content} (hfits : Fits h p content) :
    Triple (Owned h) (writeFile world p content)
      (fun _ s => Owned h s ∧ s.disk.read p = some ⟨content, h.number⟩) fun _ => Owned h := by
  refine Triple.bind operation_keeps fun _ => ?_
  rintro s ⟨-, ho⟩
  rw [bind_ok (get_apply s)]
  cases hwrite : s.disk.write p ⟨content, s.handling⟩ with
  | none => exact ho
  | some d =>
    have hread := read_of_write hwrite
    obtain ⟨l, name, hl, hlocate, rfl⟩ := write_eq_some hwrite
    obtain ⟨cs, hcs⟩ := locate_components hlocate
    refine ⟨ho.insert hl fun _ => hfits name cs hcs, ?_⟩
    rw [← ho.handling]
    exact hread

theorem writeFile_keeps {content : Content} (hfits : Fits h p content) :
    Keeps (Owned h) (writeFile world p content) fun _ => True :=
  Triple.conseq (writeFile_triple hfits) (fun _ hs => hs) (fun _ _ hs => ⟨trivial, hs.1⟩)
    fun _ _ hs => hs

theorem fits_entry {n : String} (hslash : '/' ∉ n.toList) (hname : IsName n.toList)
    {content : Content} (hproper : ∀ name : Name, name.toString = n → Proper h name content) :
    Fits h (join h.srout n) content := by
  intro name cs hcs
  obtain ⟨cs', hentry, _⟩ := (isEntry_join h.srout_entry.ne_empty hslash hname).components
  rw [hentry] at hcs
  apply hproper
  unfold Name.toString
  rw [← (List.cons.inj hcs).1, String.ofList_toList]

theorem components_ending (a : String) {ending : String} (hslash : '/' ∉ ending.toList) :
    ∃ c cs, revComponents (a ++ ending) = (c ++ ending.toList) :: cs := by
  by_cases hmem : '/' ∈ a.toList
  · obtain ⟨x, y, hxy, hy⟩ := List.eq_append_cons_of_mem (List.mem_reverse.mpr hmem)
    have ha : a.toList = y.reverse ++ '/' :: x.reverse := by
      rw [← List.reverse_reverse a.toList, hxy]
      simp
    have hno : '/' ∉ x.reverse ++ ending.toList := by simp [hy, hslash]
    refine ⟨x.reverse, (components y.reverse).reverse, ?_⟩
    rw [revComponents, String.toList_append, ha, List.append_assoc, List.cons_append,
      components_append_slash, components_of_no_slash hno, List.reverse_append]
    rfl
  · refine ⟨a.toList, [], ?_⟩
    rw [revComponents, String.toList_append, components_of_no_slash]
    · rfl
    · simp [hmem, hslash]

theorem fits_ending {content : Content} (ending : String) (hslash : '/' ∉ ending.toList)
    (hlen : ending.toList.length ≤ 5) (hini : endsWith "run.ini" ending = false)
    (hjson : endsWith ".json" ending = false) (a b : String) :
    Fits h (join a (b ++ ending)) content := by
  obtain ⟨x, hx⟩ : ∃ x, join a (b ++ ending) = x ++ ending := by
    unfold join
    split
    · exact ⟨b, rfl⟩
    · split
      · exact ⟨a ++ b, String.append_assoc.symm⟩
      · exact ⟨a ++ "/" ++ b, String.append_assoc.symm⟩
  intro name cs hcs
  obtain ⟨c, cs', hcomponents⟩ := components_ending x hslash
  rw [hx, hcomponents] at hcs
  have hends : endsWith name.toString ending = true := by
    rw [endsWith_iff, name.toString_toList, ← (List.cons.inj hcs).1]
    exact List.suffix_append _ _
  exact proper_of_ending hends hlen hini hjson

theorem existsFile_keeps : Keeps (Owned h) (existsFile p) fun _ => True :=
  Keeps.get_bind fun s hs => by
    rintro s rfl
    exact ⟨trivial, hs⟩

theorem makeDirectory_keeps : Keeps (Owned h) (makeDirectory world p) fun _ => True := by
  refine Keeps.bind operation_keeps fun _ _ => Keeps.get_bind fun s hs => ?_
  rintro s rfl
  cases hmk : mkdir p s.disk.tree with
  | ok u t =>
    exact ⟨trivial, hs.setTree (mkdir_grown hmk)⟩
  | error e t =>
    exact hs

theorem globFiles_keeps (hplain : Kit.Glob.hasMagic h.srout = false) (pre post : String)
    (hpre : Kit.Glob.hasMagic pre = false) (hpost : Kit.Glob.hasMagic post = false)
    (hvisible : isHidden pre = false) (hslash : '/' ∉ (pre ++ "*" ++ post).toList) :
    Keeps (Owned h) (globFiles world (join h.srout (pre ++ "*" ++ post))) fun found =>
      ∀ filename ∈ found, ∃ name : Name, filename = join h.srout name.toString ∧
        globbed pre post name.toString = true := by
  refine Keeps.bind operation_keeps fun _ _ => Keeps.get_bind fun s hs => ?_
  rintro s rfl
  cases hglob : Kit.Glob.glob (s.disk.access world.listing) (join h.srout (pre ++ "*" ++ post)) with
  | none =>
    exact hs
  | some found =>
    exact ⟨glob_star hs.has h.srout_entry.ne_empty h.srout_last hplain hpre hpost hvisible hslash
      hglob, hs⟩

theorem walkFiles_keeps : Keeps (Owned h) (walkFiles world h.srout) fun _ => True := by
  refine Keeps.bind operation_keeps fun _ _ => Keeps.get_bind fun s hs => ?_
  rintro s rfl
  refine ⟨trivial, hs.read ?_⟩
  intro w hw
  obtain ⟨⟨l, name, f⟩, hmem, rfl⟩ := List.mem_map.mp hw
  obtain ⟨hbelow, hlookup⟩ := mem_filesBelow hmem hs.has
  rw [hs.place] at hbelow
  exact hs.written l name f ((work_suffix_out h).trans hbelow) hlookup

end Operations

section Stages
variable {client : Client} {h : Handling client} {world : World}

theorem infogatherer_keeps : Keeps (Owned h) (infogatherer world h.told) fun _ => True := by
  have hwrite : Keeps (Owned h) (writeFile world (join h.srout "info.json")
      (.json (.info ⟨h.run.tstamp, world.gathered⟩))) fun _ => True := by
    refine writeFile_keeps (fits_entry (by decide) (by decide) fun name hname => ⟨?_, ?_, ?_⟩)
    · intro heq
      rw [hname] at heq
      exact absurd heq (by decide)
    · exact fun _ => ⟨_, rfl, rfl⟩
    · intro hglob
      rw [hname] at hglob
      exact absurd hglob (by decide)
  unfold infogatherer
  rw [intValue_tstamp]
  simp only [told_out, pathValue_ok, pure_bind]
  refine Keeps.bind existsFile_keeps fun found _ => ?_
  by_cases hfound : found = true
  · rw [if_neg (by simp [hfound])]
    exact hwrite
  · rw [if_pos (by simpa using hfound)]
    exact Keeps.bind makeDirectory_keeps fun _ _ => hwrite

theorem stopPcap_keeps : Keeps (Owned h) (stopPcap world h.told) fun _ => True := by
  unfold stopPcap
  simp only [told_out, pathValue_ok, pure_bind]
  cases world.captured with
  | none => exact Keeps.of_pure trivial
  | some captured =>
    refine Keeps.bind (writeFile_keeps ?_) fun _ _ => writeFile_keeps ?_
    · exact fits_ending ".out" (by decide) (by decide) (by decide) (by decide) _ "tcpdump"
    · exact fits_ending ".pcap" (by decide) (by decide) (by decide) (by decide) _ "traffic"

theorem runOne_keeps (test : String) :
    Keeps (Owned h) (runOne world h.srout test) fun _ => True := by
  have hfits : ∀ (content : Content) (b : String), Fits h (join h.srout (b ++ ".out")) content :=
    fun _ b => fits_ending ".out" (by decide) (by decide) (by decide) (by decide) _ b
  refine Keeps.bind (writeFile_keeps ?_) fun _ _ => ?_
  · have hprocess := hfits (.text []) (test ++ ".process")
    rwa [String.append_assoc] at hprocess
  · cases world.outcome test with
    | none => exact Keeps.of_pure trivial
    | some content => exact writeFile_keeps (hfits content test)

theorem runner_keeps : Keeps (Owned h) (runner world h.told) fun _ => True := by
  unfold runner
  simp only [told_out, pathValue_ok, pure_bind]
  exact Keeps.forM fun test _ => runOne_keeps test

theorem loadInfo_keeps : Keeps (Owned h) (loadInfo world (join h.srout "info.json")) fun i =>
    i.date = h.run.tstamp := by
  obtain ⟨name, hname⟩ := Name.ofString "info.json" (by decide) (by decide)
  rw [← hname]
  refine Keeps.bind (loadEntry_keeps name) fun j hj => ?_
  cases j with
  | info i =>
    obtain ⟨i', heq, hdate⟩ := hj.info hname
    cases heq
    exact Keeps.of_pure hdate
  | out recorded => exact Keeps.of_throw
  | upload u => exact Keeps.of_throw

theorem loadOut_keeps (name : Name) :
    Keeps (Owned h) (loadOut world (join h.srout name.toString)) fun _ => True := by
  refine Keeps.bind (loadEntry_keeps name) fun j _ => ?_
  cases j with
  | info i => exact Keeps.of_throw
  | out recorded => exact Keeps.of_pure trivial
  | upload u => exact Keeps.of_throw

theorem basename_entry (name : Name) : Kit.Glob.basename (join h.srout name.toString) = name.toString := by
  have hslash : '/' ∉ name.toString.toList := by
    rw [name.toString_toList]
    exact name.plain
  exact Kit.Glob.basename_join _ hslash

theorem suite_plain {n : String} (h : '/' ∉ n.toList) :
    '/' ∉ (uploadFilename (suite n)).toList ∧ IsName (uploadFilename (suite n)).toList := by
  have hlist : (uploadFilename (suite n)).toList =
      'u' :: "pload_".toList ++ (n.toList.takeWhile (· ≠ '.') ++ ".json".toList) := by
    simp [uploadFilename, suite]
  have hsuite : '/' ∉ n.toList.takeWhile (· ≠ '.') :=
    fun hmem => h ((List.takeWhile_sublist _).subset hmem)
  rw [hlist]
  refine ⟨?_, by simp, by simp, by simp⟩
  simp only [List.mem_append, List.mem_cons, not_or]
  exact ⟨⟨by decide, by decide⟩, hsuite, by decide⟩

theorem collateFile_keeps {info : Info} (hdate : info.date = h.run.tstamp) (name : Name) :
    Keeps (Owned h) (collateFile world h.told h.srout info (join h.srout name.toString))
      fun _ => True := by
  unfold collateFile
  rw [basename_entry]
  simp only [told_ldap, value_ok, pure_bind]
  refine Keeps.bind (loadOut_keeps name) fun testinfo _ => ?_
  split
  · exact Keeps.of_throw
  next u hu =>
    have hdated : u.date = h.run.tstamp := by
      unfold collate at hu
      obtain ⟨own, _, rfl⟩ := Option.map_eq_some_iff.mp hu
      exact hdate
    have hslash : '/' ∉ name.toString.toList := by
      rw [name.toString_toList]
      exact name.plain
    obtain ⟨hsuite, hisName⟩ := suite_plain hslash
    refine writeFile_keeps (fits_entry hsuite hisName fun name' hname' => ⟨?_, ?_, ?_⟩)
    · intro heq
      rw [hname', ← String.toList_inj] at heq
      simp [uploadFilename] at heq
    · intro heq
      rw [hname', ← String.toList_inj] at heq
      simp [uploadFilename] at heq
    · exact fun _ => ⟨u, rfl, hdated⟩

theorem collator_keeps (hplain : Kit.Glob.hasMagic h.srout = false) :
    Keeps (Owned h) (collator world h.told) fun _ => True := by
  unfold collator
  simp only [told_out, told_info, pathValue_ok, pure_bind]
  refine Keeps.bind (globFiles_keeps hplain "" ".js.out" (by decide) (by decide) (by decide)
    (by decide)) fun jsfiles hjsfiles => ?_
  refine Keeps.bind (globFiles_keeps hplain "" ".page.out" (by decide) (by decide) (by decide)
    (by decide)) fun pagefiles hpagefiles => ?_
  refine Keeps.bind loadInfo_keeps fun info hdate => Keeps.forM fun ofile hofile => ?_
  have hname : ∃ name : Name, ofile = join h.srout name.toString := by
    rcases List.mem_append.mp hofile with hmem | hmem
    · obtain ⟨name, heq, _⟩ := hjsfiles ofile hmem
      exact ⟨name, heq⟩
    · obtain ⟨name, heq, _⟩ := hpagefiles ofile hmem
      exact ⟨name, heq⟩
  obtain ⟨name, rfl⟩ := hname
  exact collateFile_keeps hdate name

theorem archiver_keeps : Keeps (Owned h) (archiver client world h.told) fun _ => True := by
  have hzip : ∀ (a b : String) (content : Content), Fits h (join a (b ++ ".zip")) content :=
    fun a b _ => fits_ending ".zip" (by decide) (by decide) (by decide) (by decide) a b
  unfold archiver
  simp only [told_out, told_info, told_metadata, told_srid, told_netconfig, pathValue_ok, value_ok,
    pure_bind]
  refine Keeps.bind loadInfo_keeps fun info _ => Keeps.bind existsFile_keeps fun found _ => ?_
  have hzipped : Keeps (Owned h) (do
      let members ← walkFiles world h.srout
      writeFile world (join client.archives (arcname info (some h.run.srid.toList)
        (some h.run.netconfig.name.toList) ++ ".zip")) (.zip members)
      let zipped ← readFile world (join client.archives (arcname info (some h.run.srid.toList)
        (some h.run.netconfig.name.toList) ++ ".zip"))
      writeFile world (join h.srout "metadata.zip") zipped) fun _ => True := by
    refine Keeps.bind walkFiles_keeps fun members _ => ?_
    -- the archive lies elsewhere, and is what has just been written
    refine Triple.bind (writeFile_triple (hzip _ _ _)) fun _ => ?_
    refine Triple.bind (Triple.conseq (readFile_triple (Q := fun _ => True)) ?_ (fun _ _ hs => hs)
      fun _ _ hs => hs) fun zipped => ?_
    · rintro s ⟨ho, hread⟩
      refine ⟨ho, fun f hf => ?_⟩
      rw [hread] at hf
      rw [← Option.some.inj hf]
      exact ⟨rfl, trivial⟩
    · exact Triple.conseq (writeFile_keeps (hzip h.srout "metadata" zipped)) (fun _ hs => hs.2)
        (fun _ _ hs => hs) fun _ _ hs => hs
  by_cases hfound : found = true
  · rw [if_neg (by simp [hfound])]
    exact hzipped
  · rw [if_pos (by simpa using hfound)]
    exact Keeps.bind makeDirectory_keeps fun _ _ => hzipped

theorem loadMetadata_keeps :
    Keeps (Owned h) (loadMetadata world (join h.srout "metadata.zip")) fun _ => True := by
  obtain ⟨name, hname⟩ := Name.ofString "metadata.zip" (by decide) (by decide)
  refine Keeps.bind existsFile_keeps fun found _ => ?_
  by_cases hfound : found = true
  · rw [if_pos hfound, ← hname]
    exact Keeps.bind (readEntry_keeps name) fun _ _ => Keeps.of_pure trivial
  · rw [if_neg hfound]
    exact Keeps.of_pure trivial

/-- The uploads of the run. -/
def Dated (h : Handling client) (results : Directory Json) : Prop :=
  ∀ name j, results.lookup name = some j → ∃ up, j = .upload up ∧ up.date = h.run.tstamp

theorem loadResult_keeps {results : Directory Json} (hdated : Dated h results) {name : Name}
    (hname : globbed "upload_" ".json" name.toString = true) :
    Keeps (Owned h) (loadResult world results (join h.srout name.toString)) (Dated h) := by
  refine Keeps.bind (loadEntry_keeps name) fun j hj => Keeps.of_pure ?_
  intro k j' hlookup
  rw [basename_entry] at hlookup
  by_cases hk : k = name.toString
  · rw [hk, AList.lookup_insert] at hlookup
    rw [← Option.some.inj hlookup]
    obtain ⟨u, heq, hdate⟩ := hj.upload hname
    cases heq
    exact ⟨u, rfl, hdate⟩
  · rw [AList.lookup_insert_ne hk] at hlookup
    exact hdated k j' hlookup

theorem enqueue_keeps {results : Directory Json} (hdated : Dated h results)
    (metadata : Option Content) (operatingSystem : String) :
    Keeps (Owned h) (enqueue world ⟨some h.run.srid.toList, results, metadata,
      some h.run.netconfig.name.toList, operatingSystem,
      if h.run.ldap = "" then none else some h.run.ldap.toList⟩) fun _ => True := by
  refine Keeps.bind operation_keeps fun _ _ s ho => ?_
  refine ⟨trivial, ho.has, ho.place, ho.written, ho.proper, ho.ini, ho.sources, ho.run,
    ho.handling, ?_⟩
  intro u hu
  rcases List.mem_append.mp hu with hu | hu
  · exact ho.sent u hu
  · rw [List.mem_singleton.mp hu]
    refine .inr ⟨ho.run, ?_, ?_, ?_, ?_, ?_⟩
    · exact congrArg (fun m : RunMessage => some m.srid.toList) ho.run.symm
    · exact congrArg (fun m : RunMessage => some m.netconfig.name.toList) ho.run.symm
    · exact congrArg (fun m : RunMessage => if m.ldap = "" then none else some m.ldap.toList)
        ho.run.symm
    · intro k j hlookup
      obtain ⟨up, heq, hdate⟩ := hdated k j hlookup
      exact ⟨up, heq, hdate.trans (congrArg RunMessage.tstamp ho.run.symm)⟩
    · exact fun w hw => (ho.sources w hw).trans ho.handling.symm

theorem uploader_keeps (hplain : Kit.Glob.hasMagic h.srout = false) :
    Keeps (Owned h) (uploader client world h.told) fun _ => True := by
  have hempty : Dated h ∅ := by
    intro k j hlookup
    rw [AList.lookup_empty] at hlookup
    cases hlookup
  unfold uploader
  simp only [told_out, told_metadata, told_srid, told_netconfig, told_ldap, pathValue_ok, value_ok,
    pure_bind]
  refine Keeps.bind (globFiles_keeps hplain "upload_" ".json" (by decide) (by decide) (by decide)
    (by decide)) fun files hfiles => ?_
  refine Keeps.bind (Keeps.foldlM hempty fun results hdated filename hmem => ?_)
    fun results hdated => Keeps.bind loadMetadata_keeps fun metadata _ => enqueue_keeps hdated _ _
  obtain ⟨name, rfl, hname⟩ := hfiles filename hmem
  exact loadResult_keeps hdated hname

/-- The calls that look for files by a pattern. -/
def Globs (c : Call) : Prop := c.1 = .collator ∨ c.1 = .uploader

theorem runScript_keeps {c : Call} (hplain : Globs c → Kit.Glob.hasMagic h.srout = false) :
    Keeps (Owned h) (runScript client world h.told c) fun _ => True := by
  obtain ⟨stage, args⟩ := c
  cases stage with
  | infogatherer => exact infogatherer_keeps
  | pcap =>
    unfold runScript
    simp only
    split
    · exact stopPcap_keeps
    · exact Keeps.of_pure trivial
  | runner => exact runner_keeps
  | collator => exact collator_keeps (hplain (.inl rfl))
  | archiver => exact archiver_keeps
  | uploader => exact uploader_keeps (hplain (.inr rfl))
  | downloader | unpacker | dnsupdater | dnscheck | arpfixer => exact Keeps.of_pure trivial

end Stages

section Handling
variable {client : Client} {h : Handling client} {world : World} {s : Machine}

theorem runStage_eq (ho : Owned h s) (k : ℕ) (c : Call) :
    runStage client world h.srout k c s = endState (runScript client world h.told c
      { s with
        disk := (world.elsewhere k).foldl (doScribble h.srout s.handling) s.disk
        sources := s.sources ++ [h.number] }) :=
  congrArg endState (bind_ok (readConfig_owned (ho.scribbles (world.elsewhere k))))

theorem runStage_owned (ho : Owned h s) {c : Call}
    (hplain : Globs c → Kit.Glob.hasMagic h.srout = false) (k : ℕ) :
    Owned h (runStage client world h.srout k c s) := by
  rw [runStage_eq ho]
  refine (runScript_keeps hplain).endState ((ho.scribbles (world.elsewhere k)).read ?_)
  intro w hw
  exact List.mem_singleton.mp hw

theorem runStages_owned (ho : Owned h s) {cs : List Call}
    (hplain : ∀ c ∈ cs, Globs c → Kit.Glob.hasMagic h.srout = false) (k : ℕ) :
    Owned h (runStages client world h.srout k cs s) := by
  induction cs generalizing k s with
  | nil => exact ho
  | cons c cs ih =>
    exact ih (runStage_owned ho (hplain c List.mem_cons_self) k)
      (fun c' hc' => hplain c' (List.mem_cons_of_mem c hc')) (k + 1)

end Handling

end StoneRidge.Isolation
