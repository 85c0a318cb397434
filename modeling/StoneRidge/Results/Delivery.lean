import StoneRidge.Kit.Glob
import StoneRidge.Results.Collator

/-!
# From the test files to the outgoing queue

The names that a test's results go through: `StoneRidgeRunner._build_testlist` and `run`
(`srrunner.py:33-143`), `StoneRidgeCollator.run` (`srcollator.py:21-96`) and
`StoneRidgeUploader.run` (`sruploader.py:22-35`). The out directory of a run is empty at
first; its path is part of the patterns that look for the files in it. A requested name is
one of a file in the test root, not of one elsewhere.
-/

set_option autoImplicit false

namespace StoneRidge.Results
open StoneRidge.Kit.Files StoneRidge.Kit.PosixPath StoneRidge.Kit.PyText
open StoneRidge.Kit.Glob (Access basename hasMagic split)

/-- What the files of the out directory hold. -/
inductive File (I : Type) where
  | process
  | out (recorded : Recorded)
  | upload (u : Upload I)

abbrev OutDir (I : Type) := Directory (File I)

def buildTestlist (listing : Listing) (testroot : List String) (enabled : Bool)
    (requested : List String) : List String :=
  if requested = [] then
    if enabled then if "fake.js" ∈ testroot then ["fake.js"] else []
    else
      (glob listing "" ".js" testroot).erase "fake.js" ++ glob listing "" ".page" testroot
  else requested.filter fun candidate => endsWith candidate ".js" && decide (candidate ∈ testroot)

/-- What is written while a test runs; `outputs` gives the results of those that have any. -/
def testWrites {I : Type} (outputs : String → Option Properties) (test : String) :
    List (String × File I) :=
  (test ++ ".process.out", .process) ::
    (outputs test).toList.map fun own => (test ++ ".out", .out (some own))

def runTests {I : Type} (outputs : String → Option Properties) (tests : List String) : OutDir I :=
  writeAll ∅ (tests.flatMap (testWrites outputs))

def uploadFilename (suite : String) : String := "upload_" ++ suite ++ ".json"

/-- Where a run works (`srworker.py:28-35`), and what there is besides its out directory. -/
structure Place (I : Type) where
  srwork : String
  listing : Listing
  elsewhere : Access
  others : String → Option (File I)

section Place
variable {I : Type} (place : Place I)

def Place.outdir : String := join place.srwork "out"

/-- The name that a path has in the out directory. -/
def Place.name? (p : String) : Option String :=
  if (split p).1 = place.outdir then some (split p).2 else none

def Place.access (d : OutDir I) : Access where
  listdir dirname :=
    if dirname = place.outdir then some (place.listing.order d.keys)
    else place.elsewhere.listdir dirname
  lexists p :=
    match place.name? p with
    | some name => decide (name ∈ d)
    | none => place.elsewhere.lexists p
  isdir := place.elsewhere.isdir

def Place.read (d : OutDir I) (p : String) : Option (File I) :=
  match place.name? p with
  | some name => d.lookup name
  | none => place.others p

def Place.write (d : OutDir I) (p : String) (f : File I) : OutDir I :=
  match place.name? p with
  | some name => d.insert name f
  | none => d

end Place

section Collator
variable {I : Type} (order : DictOrder) (info : Info I) (ldap : Option String) (place : Place I)

/-- Nothing where loading the JSON or reading its items raises. -/
def collateFile (d : OutDir I) (ofile : String) : Option (OutDir I) :=
  match place.read d ofile with
  | some (.out testinfo) =>
    let fname := basename ofile
    (collate order info ldap fname testinfo).map fun u =>
      place.write d (join place.outdir (uploadFilename (suite fname))) (.upload u)
  | _ => none

def outfiles (d : OutDir I) : Option (List String) := do
  let outfiles ← Kit.Glob.glob (place.access d) (join place.outdir "*.js.out")
  let pagefiles ← Kit.Glob.glob (place.access d) (join place.outdir "*.page.out")
  pure (outfiles ++ pagefiles)

def collateAll (d : OutDir I) : Option (OutDir I) := do
  (← outfiles place d).foldlM (collateFile order info ldap place) d

end Collator

section Uploader
variable {I : Type} (place : Place I) (d : OutDir I)

/-- `results[fname] = json.load(f)`. -/
def loadUpload (results : Directory (File I)) (filename : String) : Option (Directory (File I)) :=
  match place.read d filename with
  | some .process => none
  | some file => some (results.insert (basename filename) file)
  | none => none

def uploadResults : Option (Directory (File I)) := do
  (← Kit.Glob.glob (place.access d) (join place.outdir "upload_*.json")).foldlM
    (loadUpload place d) ∅

end Uploader

/-! ### Paths in the out directory -/

section Paths
variable {I : Type} {place : Place I} {d : OutDir I} {name pre post : String}

theorem Place.outdir_ne_empty : place.outdir ≠ "" := by
  intro h
  have hname : basename place.outdir = "out" := Kit.Glob.basename_join place.srwork (by decide)
  rw [h] at hname
  exact absurd hname (by decide)

theorem Place.outdir_last : place.outdir.toList.getLast? ≠ some '/' := by
  obtain ⟨x, _, hx⟩ := join_eq_append place.srwork "out" (by decide)
  unfold Place.outdir
  have hlast : "out".toList.getLast? = some 't' := by decide
  rw [hx, String.toList_append, List.getLast?_append, hlast, Option.some_or]
  decide

theorem Place.name?_join (hname : '/' ∉ name.toList) :
    place.name? (join place.outdir name) = some name := by
  unfold Place.name?
  rw [Kit.Glob.split_join _ hname, Kit.Glob.dirPart_eq place.outdir_ne_empty place.outdir_last,
    if_pos rfl]

theorem Place.read_join (hname : '/' ∉ name.toList) :
    place.read d (join place.outdir name) = d.lookup name := by
  unfold Place.read
  rw [Place.name?_join hname]

theorem Place.write_join (hname : '/' ∉ name.toList) (f : File I) :
    place.write d (join place.outdir name) f = d.insert name f := by
  unfold Place.write
  rw [Place.name?_join hname]

/-- A pattern in an out directory that is none itself. -/
theorem Place.glob_join (hplace : hasMagic place.outdir = false) (hpre : hasMagic pre = false)
    (hpost : hasMagic post = false) (hvisible : isHidden pre = false)
    (hslash : '/' ∉ (pre ++ "*" ++ post).toList) :
    Kit.Glob.glob (place.access d) (join place.outdir (pre ++ "*" ++ post)) =
      some ((glob place.listing pre post d.keys).map (join place.outdir)) := by
  have hlist : (place.access d).listdir place.outdir = some (place.listing.order d.keys) :=
    if_pos rfl
  rw [Kit.Glob.glob_entry place.outdir_ne_empty place.outdir_last hplace hslash
      (Kit.Glob.hasMagic_star pre post),
    Kit.Glob.glob1_star hpre hpost hvisible place.outdir_ne_empty hlist]
  rfl

end Paths

/-! ### Names -/

def isTest (name : String) : Prop := endsWith name ".js" = true ∨ endsWith name ".page" = true

theorem buildTestlist_isTest {listing : Listing} {testroot : List String} {enabled : Bool}
    {requested : List String} {test : String}
    (h : test ∈ buildTestlist listing testroot enabled requested) : isTest test := by
  unfold buildTestlist at h
  split_ifs at h with hreq henabled hfake
  · rw [List.mem_singleton.mp h]
    exact Or.inl (by decide)
  · cases h
  · rcases List.mem_append.mp h with hjs | hpage
    · exact Or.inl (globbed_endsWith (mem_glob.mp (List.mem_of_mem_erase hjs)).2)
    · exact Or.inr (globbed_endsWith (mem_glob.mp hpage).2)
  · have hmem := (List.mem_filter.mp h).2
    rw [Bool.and_eq_true] at hmem
    exact Or.inl hmem.1

theorem mem_of_mem_buildTestlist {listing : Listing} {testroot : List String} {enabled : Bool}
    {requested : List String} {test : String}
    (h : test ∈ buildTestlist listing testroot enabled requested) : test ∈ testroot := by
  unfold buildTestlist at h
  split_ifs at h with hreq henabled hfake
  · rwa [List.mem_singleton.mp h]
  · cases h
  · rcases List.mem_append.mp h with hjs | hpage
    · exact (mem_glob.mp (List.mem_of_mem_erase hjs)).1
    · exact (mem_glob.mp hpage).1
  · have hmem := (List.mem_filter.mp h).2
    rw [Bool.and_eq_true, decide_eq_true_eq] at hmem
    exact hmem.2

section Names
variable {s t : String}

theorem isTest_ne_empty (h : isTest t) : t ≠ "" := by
  intro heq
  subst heq
  rcases h with h | h <;> revert h <;> decide

theorem dot_mem_of_isTest (h : isTest t) : '.' ∈ t.toList := by
  rcases h with h | h
  · exact (endsWith_iff.mp h).subset (by decide)
  · exact (endsWith_iff.mp h).subset (by decide)

theorem suite_append (h : isTest t) (s : String) : suite (t ++ s) = suite t := by
  unfold suite
  rw [String.toList_append, List.takeWhile_append, if_neg]
  intro hall
  have hdot := List.mem_takeWhile_imp
    ((List.takeWhile_prefix (· ≠ '.')).eq_of_length hall ▸ dot_mem_of_isTest h)
  simp at hdot

theorem out_inj (h : s ++ ".out" = t ++ ".out") : s = t :=
  (String.append_left_inj ".out").mp h

theorem out_ne_process (h : isTest t) : t ++ ".out" ≠ s ++ ".process.out" := by
  intro heq
  have hs : t = s ++ ".process" := by
    apply (String.append_left_inj ".out").mp
    rw [heq, String.append_assoc]
    rfl
  subst hs
  rcases h with h | h
  · rw [endsWith_append_iff (by decide)] at h
    exact absurd h (by decide)
  · rw [endsWith_append_iff (by decide)] at h
    exact absurd h (by decide)

theorem uploadFilename_ne_out : uploadFilename s ≠ t ++ ".out" := by
  intro heq
  have hends := endsWith_append t ".out"
  rw [← heq] at hends
  unfold uploadFilename at hends
  rw [endsWith_append_iff (by decide)] at hends
  exact absurd hends (by decide)

theorem uploadFilename_inj (h : uploadFilename s = uploadFilename t) : s = t := by
  unfold uploadFilename at h
  have hlist := congrArg String.toList ((String.append_left_inj _).mp h)
  rw [String.toList_append, String.toList_append] at hlist
  exact String.toList_inj.mp (List.append_cancel_left hlist)

theorem suite_eq_empty_iff (h : t ≠ "") : suite t = "" ↔ isHidden t = true := by
  unfold suite isHidden
  rw [← String.toList_eq_nil_iff, String.toList_ofList, decide_eq_true_eq]
  cases hlist : t.toList with
  | nil => exact absurd (String.toList_eq_nil_iff.mp hlist) h
  | cons c cs =>
    by_cases hc : c = '.' <;> simp [hc]

theorem isPlain_append (hs : '/' ∉ s.toList) (ht : '/' ∉ t.toList) : '/' ∉ (s ++ t).toList := by
  rw [String.toList_append, List.mem_append, not_or]
  exact ⟨hs, ht⟩

theorem suite_plain (h : '/' ∉ t.toList) : '/' ∉ (suite t).toList := by
  unfold suite
  rw [String.toList_ofList]
  intro hmem
  exact h ((List.takeWhile_prefix _).subset hmem)

theorem uploadFilename_plain (h : '/' ∉ s.toList) : '/' ∉ (uploadFilename s).toList :=
  isPlain_append (isPlain_append (by decide) h) (by decide)

end Names

/-! ### What each stage leaves -/

section Stages
variable {I : Type} {order : DictOrder} {info : Info I} {ldap : Option String} {place : Place I}
  {listing : Listing} {outputs : String → Option Properties} {tests : List String}

/-- The tests that produced an output file. -/
def produced (outputs : String → Option Properties) (tests : List String) : List String :=
  tests.filter fun t => (outputs t).isSome

theorem mem_produced {t : String} :
    t ∈ produced outputs tests ↔ t ∈ tests ∧ ∃ own, outputs t = some own := by
  unfold produced
  rw [List.mem_filter, Option.isSome_iff_exists]

theorem runTests_origin {k : String} {f : File I}
    (h : (runTests outputs tests).lookup k = some f) :
    (∃ t ∈ tests, k = t ++ ".process.out" ∧ f = .process) ∨
      ∃ t ∈ tests, ∃ own, outputs t = some own ∧ k = t ++ ".out" ∧ f = .out (some own) := by
  rcases writeAll_origin h with hempty | hmem
  · rw [AList.lookup_empty] at hempty
    cases hempty
  · obtain ⟨t, ht, hw⟩ := List.mem_flatMap.mp hmem
    rcases List.mem_cons.mp hw with heq | hout
    · exact Or.inl ⟨t, ht, congrArg Prod.fst heq, congrArg Prod.snd heq⟩
    · obtain ⟨own, hown, heq⟩ := List.mem_map.mp hout
      rw [Option.mem_toList] at hown
      cases heq
      exact Or.inr ⟨t, ht, own, hown, rfl, rfl⟩

theorem runTests_out (htests : ∀ t ∈ tests, isTest t) {t : String} {own : Properties}
    (ht : t ∈ tests) (hown : outputs t = some own) :
    (runTests (I := I) outputs tests).lookup (t ++ ".out") = some (.out (some own)) := by
  apply lookup_writeAll_of_agree
  · refine List.mem_flatMap.mpr ⟨t, ht, List.mem_cons_of_mem _ ?_⟩
    exact List.mem_map_of_mem (Option.mem_toList.mpr hown)
  · intro w hw hkey
    obtain ⟨t', ht', hw'⟩ := List.mem_flatMap.mp hw
    rcases List.mem_cons.mp hw' with heq | hout
    · rw [heq] at hkey
      exact absurd hkey.symm (out_ne_process (htests t ht))
    · obtain ⟨own', hown', heq⟩ := List.mem_map.mp hout
      rw [← heq] at hkey ⊢
      rw [Option.mem_toList, out_inj hkey, hown] at hown'
      cases hown'
      rfl

theorem globbed_out {t : String} (ht : isTest t) :
    (globbed "" ".js.out" (t ++ ".out") = true ∨ globbed "" ".page.out" (t ++ ".out") = true) ↔
      isHidden t = false := by
  have hjs : ".js.out" = ".js" ++ ".out" := by decide
  have hpage : ".page.out" = ".page" ++ ".out" := by decide
  rw [globbed_star, globbed_star, hidden_append (isTest_ne_empty ht), hjs, hpage,
    endsWith_append_append, endsWith_append_append]
  unfold isTest at ht
  cases isHidden t <;> simp [ht]

theorem not_globbed_process {t : String} :
    ¬ (globbed "" ".js.out" (t ++ ".process.out") = true ∨
      globbed "" ".page.out" (t ++ ".process.out") = true) := by
  intro h
  rcases h with h | h
  · have hends := globbed_endsWith h
    rw [endsWith_append_iff (by decide)] at hends
    exact absurd hends (by decide)
  · have hends := globbed_endsWith h
    rw [endsWith_append_iff (by decide)] at hends
    exact absurd hends (by decide)

/-- The names of the output files that the collator finds. -/
def outNames (listing : Listing) (d : OutDir I) : List String :=
  glob listing "" ".js.out" d.keys ++ glob listing "" ".page.out" d.keys

theorem outfiles_eq (hplace : hasMagic place.outdir = false) (d : OutDir I) :
    outfiles place d = some ((outNames place.listing d).map (join place.outdir)) := by
  have hjs : "*.js.out" = "" ++ "*" ++ ".js.out" := by decide
  have hpage : "*.page.out" = "" ++ "*" ++ ".page.out" := by decide
  unfold outfiles outNames
  rw [hjs, hpage, Place.glob_join hplace (by decide) (by decide) (by decide) (by decide),
    Place.glob_join hplace (by decide) (by decide) (by decide) (by decide), List.map_append]
  rfl

theorem mem_outNames (htests : ∀ t ∈ tests, isTest t) {ofile : String} :
    ofile ∈ outNames listing (runTests (I := I) outputs tests) ↔
      ∃ t ∈ produced outputs tests, isHidden t = false ∧ ofile = t ++ ".out" := by
  unfold outNames
  rw [List.mem_append, mem_glob, mem_glob, ← and_or_left, ← AList.mem_keys,
    ← AList.lookup_isSome, Option.isSome_iff_exists]
  constructor
  · intro ⟨⟨f, hf⟩, hglob⟩
    rcases runTests_origin hf with ⟨t, _, rfl, _⟩ | ⟨t, ht, own, hown, rfl, _⟩
    · exact absurd hglob not_globbed_process
    · exact ⟨t, mem_produced.mpr ⟨ht, own, hown⟩, (globbed_out (htests t ht)).mp hglob, rfl⟩
  · intro ⟨t, ht, hvisible, heq⟩
    obtain ⟨hmem, own, hown⟩ := mem_produced.mp ht
    subst heq
    exact ⟨⟨_, runTests_out htests hmem hown⟩, (globbed_out (htests t hmem)).mpr hvisible⟩

/-- The upload that is made from an output file. -/
def uploadOf (order : DictOrder) (info : Info I) (ldap : Option String)
    (outputs : String → Option Properties) (t : String) : File I :=
  .upload {
    info := info.rest
    date := info.date
    suite := suite (t ++ ".out")
    ldap := ldap.getD "nightly"
    collated := collateItems (order.items ((outputs t).getD [])) }

theorem foldlM_collateFile {l : List String} {d : OutDir I} (hplain : ∀ t ∈ l, '/' ∉ t.toList)
    (hl : ∀ t ∈ l, ∃ own, outputs t = some own ∧ d.lookup (t ++ ".out") = some (.out (some own))) :
    ((l.map (· ++ ".out")).map (join place.outdir)).foldlM
        (collateFile order info ldap place) d =
      some (writeAll d (l.map fun t =>
        (uploadFilename (suite (t ++ ".out")), uploadOf order info ldap outputs t))) := by
  induction l generalizing d with
  | nil => rfl
  | cons t l ih =>
    obtain ⟨own, hown, hlookup⟩ := hl t List.mem_cons_self
    have hout : '/' ∉ (t ++ ".out").toList :=
      isPlain_append (hplain t List.mem_cons_self) (by decide)
    have hstep : collateFile order info ldap place d (join place.outdir (t ++ ".out")) =
        some (d.insert (uploadFilename (suite (t ++ ".out")))
          (uploadOf order info ldap outputs t)) := by
      unfold collateFile uploadOf
      rw [Place.read_join hout, hlookup, hown, Kit.Glob.basename_join _ hout]
      simp only [Place.write_join (uploadFilename_plain (suite_plain hout))]
      rfl
    rw [List.map_cons, List.map_cons, List.foldlM_cons, hstep]
    apply ih fun t' ht' => hplain t' (List.mem_cons_of_mem _ ht')
    intro t' ht'
    obtain ⟨own', hown', hlookup'⟩ := hl t' (List.mem_cons_of_mem _ ht')
    refine ⟨own', hown', ?_⟩
    rw [AList.lookup_insert_ne uploadFilename_ne_out.symm, hlookup']

theorem foldlM_loadUpload {l : List String} {d results : OutDir I}
    (hplain : ∀ name ∈ l, '/' ∉ name.toList)
    (hl : ∀ name ∈ l, ∃ u, d.lookup name = some (.upload u)) :
    (l.map (join place.outdir)).foldlM (loadUpload place d) results =
      some (writeAll results (l.map fun name => (name, (d.lookup name).getD .process))) := by
  induction l generalizing results with
  | nil => rfl
  | cons name l ih =>
    obtain ⟨u, hu⟩ := hl name List.mem_cons_self
    have hname := hplain name List.mem_cons_self
    have hstep : loadUpload place d results (join place.outdir name) =
        some (results.insert name (.upload u)) := by
      unfold loadUpload
      rw [Place.read_join hname, hu, Kit.Glob.basename_join _ hname]
    rw [List.map_cons, List.foldlM_cons, hstep, List.map_cons, hu]
    exact ih (fun name' h => hplain name' (List.mem_cons_of_mem _ h))
      fun name' h => hl name' (List.mem_cons_of_mem _ h)

/-- What the collator writes, one file for each output file that it finds. -/
def collatedWrites (order : DictOrder) (info : Info I) (ldap : Option String)
    (outputs : String → Option Properties) (l : List String) : List (String × File I) :=
  l.map fun t => (uploadFilename (suite (t ++ ".out")), uploadOf order info ldap outputs t)

theorem mem_collatedWrites {l : List String} (htests : ∀ t ∈ l, isTest t) {k : String}
    {f : File I} : (k, f) ∈ collatedWrites order info ldap outputs l ↔
      ∃ t ∈ l, k = uploadFilename (suite t) ∧ f = uploadOf order info ldap outputs t := by
  unfold collatedWrites
  rw [List.mem_map]
  refine exists_congr fun t => and_congr_right fun ht => ?_
  rw [suite_append (htests t ht), Prod.mk.injEq]
  exact and_congr eq_comm eq_comm

theorem collateAll_eq (order : DictOrder) (info : Info I) (ldap : Option String)
    (hplace : hasMagic place.outdir = false) (outputs : String → Option Properties)
    (htests : ∀ t ∈ tests, isTest t) (hplain : ∀ t ∈ tests, '/' ∉ t.toList) :
    ∃ l, (∀ t, t ∈ l ↔ t ∈ produced outputs tests ∧ isHidden t = false) ∧
      collateAll order info ldap place (runTests outputs tests) =
        some (writeAll (runTests outputs tests) (collatedWrites order info ldap outputs l)) := by
  have hrange : outNames place.listing (runTests (I := I) outputs tests) ∈
      Set.range (List.map fun t : String => t ++ ".out") := by
    rw [Set.range_list_map]
    intro ofile hofile
    obtain ⟨t, _, _, heq⟩ := (mem_outNames htests).mp hofile
    exact ⟨t, heq.symm⟩
  obtain ⟨l, hl⟩ := hrange
  have hmem : ∀ t, t ∈ l ↔ t ∈ produced outputs tests ∧ isHidden t = false := by
    intro t
    have hout : t ∈ l ↔ t ++ ".out" ∈ outNames place.listing (runTests (I := I) outputs tests) := by
      rw [← hl]
      exact (List.mem_map_of_injective fun _ _ => out_inj).symm
    rw [hout, mem_outNames htests]
    constructor
    · intro ⟨t', ht', hvisible, heq⟩
      rw [out_inj heq]
      exact ⟨ht', hvisible⟩
    · intro ⟨ht, hvisible⟩
      exact ⟨t, ht, hvisible, rfl⟩
  refine ⟨l, hmem, ?_⟩
  unfold collateAll
  rw [outfiles_eq hplace, ← hl]
  apply foldlM_collateFile fun t ht => hplain t (mem_produced.mp ((hmem t).mp ht).1).1
  intro t ht
  obtain ⟨hin, own, hown⟩ := mem_produced.mp ((hmem t).mp ht).1
  exact ⟨own, hown, runTests_out htests hin hown⟩

/-- What the uploader globs for is what the collator has written. -/
theorem globbed_upload {order : DictOrder} {info : Info I} {ldap : Option String}
    {outputs : String → Option Properties} {l : List String} (hl : ∀ t ∈ l, isTest t)
    (hplain : ∀ t ∈ l, '/' ∉ t.toList) {outdir : OutDir I}
    (houtdir : outdir =
      writeAll (runTests outputs tests) (collatedWrites order info ldap outputs l))
    {name : String} (hname : name ∈ glob place.listing "upload_" ".json" outdir.keys) :
    '/' ∉ name.toList ∧ ∃ u, outdir.lookup name = some (.upload u) := by
  obtain ⟨hkeys, hglob⟩ := mem_glob.mp hname
  obtain ⟨f, hf⟩ := Option.isSome_iff_exists.mp
    (AList.lookup_isSome.mpr (AList.mem_keys.mpr hkeys))
  have hends := globbed_endsWith hglob
  subst houtdir
  rcases writeAll_origin hf with hran | hwrite
  · rcases runTests_origin hran with ⟨t, _, rfl, _⟩ | ⟨t, _, own, _, rfl, _⟩
    · rw [endsWith_append_iff (by decide)] at hends
      exact absurd hends (by decide)
    · have hout := endsWith_of_endsWith hends (endsWith_append t ".out") (by decide)
      exact absurd hout (by decide)
  · obtain ⟨t, ht, rfl, rfl⟩ := (mem_collatedWrites hl).mp hwrite
    exact ⟨uploadFilename_plain (suite_plain (hplain t ht)), _, hf⟩

theorem uploadResults_eq (order : DictOrder) (info : Info I) (ldap : Option String)
    (hplace : hasMagic place.outdir = false) (outputs : String → Option Properties)
    {l : List String} (hl : ∀ t ∈ l, isTest t) (hplain : ∀ t ∈ l, '/' ∉ t.toList)
    {outdir : OutDir I}
    (houtdir : outdir =
      writeAll (runTests outputs tests) (collatedWrites order info ldap outputs l)) :
    ∃ results, uploadResults place outdir = some results ∧
      (∀ k f, results.lookup k = some f → outdir.lookup k = some f) ∧
      ∀ s f, outdir.lookup (uploadFilename s) = some f →
        results.lookup (uploadFilename s) = some f := by
  have hload := fun name (hname : name ∈ glob place.listing "upload_" ".json" outdir.keys) =>
    globbed_upload hl hplain houtdir hname
  have hresults : uploadResults place outdir =
      some (writeAll ∅ ((glob place.listing "upload_" ".json" outdir.keys).map fun name =>
        (name, (outdir.lookup name).getD .process))) := by
    have hpattern : "upload_*.json" = "upload_" ++ "*" ++ ".json" := by decide
    unfold uploadResults
    rw [hpattern, Place.glob_join hplace (by decide) (by decide) (by decide) (by decide)]
    exact foldlM_loadUpload (fun name h => (hload name h).1) fun name h => (hload name h).2
  refine ⟨_, hresults, ?_, ?_⟩
  · intro k f hk
    rcases writeAll_origin hk with hempty | hmem
    · rw [AList.lookup_empty] at hempty
      cases hempty
    · obtain ⟨name, hname, heq⟩ := List.mem_map.mp hmem
      obtain ⟨_, u, hu⟩ := hload name hname
      cases heq
      rw [hu]
      rfl
  · intro s f hf
    have hname : uploadFilename s ∈ glob place.listing "upload_" ".json" outdir.keys := by
      rw [mem_glob]
      refine ⟨?_, globbed_fill (by decide) (by decide) s⟩
      rw [← AList.mem_keys, ← AList.lookup_isSome, hf]
      rfl
    apply lookup_writeAll_of_agree
    · refine List.mem_map.mpr ⟨_, hname, ?_⟩
      rw [hf]
      rfl
    · intro w hw hkey
      obtain ⟨name, _, heq⟩ := List.mem_map.mp hw
      rw [← heq] at hkey ⊢
      change name = _ at hkey
      rw [hkey, hf]
      rfl

end Stages

/-! ### From the tests to the queue -/

section Uploaded
variable {I : Type} (order : DictOrder) (info : Info I) (ldap : Option String)

/-- Each test that produced output has an upload file to itself, which holds its results
and is put on the queue. -/
def Uploaded (outputs : String → Option Properties) (tests : List String)
    (outdir results : OutDir I) : Prop :=
  ∃ place : String → String, Set.InjOn place {t | t ∈ produced outputs tests} ∧
    ∀ t ∈ produced outputs tests, ∃ own u, outputs t = some own ∧
      collate order info ldap (t ++ ".out") (some own) = some u ∧
      outdir.lookup (place t) = some (.upload u) ∧ results.lookup (place t) = some (.upload u)

variable {order info ldap} {outputs : String → Option Properties} {tests l : List String}
  {outdir results : OutDir I}

theorem uploaded_of_injOn (htests : ∀ t ∈ tests, isTest t)
    (hl : ∀ t, t ∈ l ↔ t ∈ produced outputs tests ∧ isHidden t = false)
    (houtdir : outdir =
      writeAll (runTests outputs tests) (collatedWrites order info ldap outputs l))
    (hresults : ∀ s f, outdir.lookup (uploadFilename s) = some f →
      results.lookup (uploadFilename s) = some f)
    (hvisible : ∀ t ∈ produced outputs tests, isHidden t = false)
    (hinj : Set.InjOn suite {t | t ∈ produced outputs tests}) :
    Uploaded order info ldap outputs tests outdir results := by
  have hltests : ∀ t ∈ l, isTest t := fun t ht =>
    htests t (mem_produced.mp ((hl t).mp ht).1).1
  refine ⟨fun t => uploadFilename (suite t), ?_, ?_⟩
  · intro t ht t' ht' heq
    exact hinj ht ht' (uploadFilename_inj heq)
  · intro t ht
    obtain ⟨_, own, hown⟩ := mem_produced.mp ht
    have hlookup : outdir.lookup (uploadFilename (suite t)) =
        some (uploadOf order info ldap outputs t) := by
      subst houtdir
      apply lookup_writeAll_of_agree
      · exact (mem_collatedWrites hltests).mpr ⟨t, (hl t).mpr ⟨ht, hvisible t ht⟩, rfl, rfl⟩
      · intro ⟨k, f⟩ hw hk
        obtain ⟨t', ht', hk', hf⟩ := (mem_collatedWrites hltests).mp hw
        have heq : t' = t :=
          hinj ((hl t').mp ht').1 ht (uploadFilename_inj (hk'.symm.trans hk))
        rw [← heq]
        exact hf
    unfold uploadOf at hlookup
    rw [hown] at hlookup
    exact ⟨own, _, hown, rfl, hlookup, hresults _ _ hlookup⟩

theorem uploaded_place (hltests : ∀ t ∈ l, isTest t)
    (houtdir : outdir =
      writeAll (runTests outputs tests) (collatedWrites order info ldap outputs l))
    {k : String} {u : Upload I} (h : outdir.lookup k = some (.upload u)) :
    k = uploadFilename u.suite ∧ ∃ t ∈ l, u.suite = suite t := by
  subst houtdir
  rcases writeAll_origin h with hran | hwrite
  · rcases runTests_origin hran with ⟨t, _, _, hf⟩ | ⟨t, _, own, _, _, hf⟩
    · cases hf
    · cases hf
  · obtain ⟨t, ht, hk, hu⟩ := (mem_collatedWrites hltests).mp hwrite
    unfold uploadOf at hu
    cases hu
    rw [suite_append (hltests t ht)]
    exact ⟨hk, t, ht, rfl⟩

theorem run_uploaded_iff {place : Place I} (hplace : hasMagic place.outdir = false)
    (htests : ∀ t ∈ tests, isTest t) (hplain : ∀ t ∈ tests, '/' ∉ t.toList) :
    (∃ outdir results,
      collateAll order info ldap place (runTests outputs tests) = some outdir ∧
      uploadResults place outdir = some results ∧
      Uploaded order info ldap outputs tests outdir results) ↔
      (∀ t ∈ produced outputs tests, isHidden t = false) ∧
      Set.InjOn suite {t | t ∈ produced outputs tests} := by
  obtain ⟨l, hl, hcollate⟩ := collateAll_eq order info ldap hplace outputs htests hplain
  have hltests : ∀ t ∈ l, isTest t := fun t ht =>
    htests t (mem_produced.mp ((hl t).mp ht).1).1
  obtain ⟨results, hresults, _, hkept⟩ := uploadResults_eq order info ldap hplace outputs hltests
    (fun t ht => hplain t (mem_produced.mp ((hl t).mp ht).1).1) rfl
  constructor
  · intro ⟨outdir, results', hcollate', _, place, hinj, hplace⟩
    rw [hcollate, Option.some_inj] at hcollate'
    have hsuite : ∀ t ∈ produced outputs tests,
        place t = uploadFilename (suite t) ∧ ∃ t' ∈ l, suite t = suite t' := by
      intro t ht
      obtain ⟨own, u, hown, hu, hlookup, _⟩ := hplace t ht
      have hu' : u.suite = suite t := by
        unfold collate at hu
        cases hu
        exact suite_append (htests t (mem_produced.mp ht).1) _
      rw [← hu']
      exact uploaded_place hltests hcollate'.symm hlookup
    constructor
    · intro t ht
      obtain ⟨_, t', ht', heq⟩ := hsuite t ht
      have hvisible := ((hl t').mp ht').2
      by_contra hhidden
      rw [Bool.not_eq_false,
        ← suite_eq_empty_iff (isTest_ne_empty (htests t (mem_produced.mp ht).1)), heq,
        suite_eq_empty_iff (isTest_ne_empty (hltests t' ht')), hvisible] at hhidden
      cases hhidden
    · intro t ht t' ht' heq
      apply hinj ht ht'
      rw [(hsuite t ht).1, (hsuite t' ht').1, heq]
  · intro ⟨hvisible, hinj⟩
    exact ⟨_, results, hcollate, hresults, uploaded_of_injOn htests hl rfl hkept hvisible hinj⟩

end Uploaded

/-- The uploads of all tests with output are kept apart and delivered exactly if none of
these tests is hidden and the parts of their names before the first dot differ. -/
theorem uploaded_iff {I : Type} (order : DictOrder) (info : Info I) (ldap : Option String)
    (place : Place I) (hplace : hasMagic place.outdir = false) (testroot : List String)
    (hroot : ∀ n ∈ testroot, '/' ∉ n.toList) (enabled : Bool) (requested : List String)
    (outputs : String → Option Properties) :
    (∃ outdir results,
      collateAll order info ldap place
        (runTests outputs (buildTestlist place.listing testroot enabled requested)) =
          some outdir ∧
      uploadResults place outdir = some results ∧
      Uploaded order info ldap outputs (buildTestlist place.listing testroot enabled requested)
        outdir results) ↔
      (∀ t ∈ produced outputs (buildTestlist place.listing testroot enabled requested),
        isHidden t = false) ∧
      Set.InjOn suite
        {t | t ∈ produced outputs (buildTestlist place.listing testroot enabled requested)} :=
  run_uploaded_iff hplace (fun _ ht => buildTestlist_isTest ht)
    fun t ht => hroot t (mem_of_mem_buildTestlist ht)

/-- A run of the nightly job with nothing but its out directory to be found. -/
def nightlyPlace : Place Unit where
  srwork := "/work/5e1/broadband"
  listing := ⟨id, List.Perm.refl⟩
  elsewhere := ⟨fun _ => none, fun _ => false, fun _ => false⟩
  others _ := none

/-- Two tests with different stems. -/
theorem uploaded_two : ∃ outdir results,
    collateAll ⟨id, fun _ => .refl _⟩ ⟨0, ()⟩ none nightlyPlace
      (runTests (fun _ => some [("k", [⟨0, 1, 1⟩])])
        (buildTestlist nightlyPlace.listing ["a.js", "b.page"] false [])) = some outdir ∧
    uploadResults nightlyPlace outdir = some results ∧
    Uploaded ⟨id, fun _ => .refl _⟩ ⟨0, ()⟩ none (fun _ => some [("k", [⟨0, 1, 1⟩])])
      (buildTestlist nightlyPlace.listing ["a.js", "b.page"] false []) outdir results := by
  have htests : produced (fun _ => some [("k", [⟨0, 1, 1⟩])])
      (buildTestlist nightlyPlace.listing ["a.js", "b.page"] false []) = ["a.js", "b.page"] := by
    decide
  apply (uploaded_iff _ _ none nightlyPlace (by decide) ["a.js", "b.page"] (by decide) false []
    _).mpr
  rw [htests]
  constructor
  · decide
  · intro t ht t' ht' heq
    simp only [List.mem_cons, List.not_mem_nil, or_false, Set.mem_ofPred_eq] at ht ht'
    rcases ht with rfl | rfl <;> rcases ht' with rfl | rfl
    · rfl
    · exact absurd heq (by decide)
    · exact absurd heq (by decide)
    · rfl

/-- The same stem in both kinds of test: one upload file for two tests. -/
theorem shared_upload :
    ¬ ∃ outdir results,
      collateAll ⟨id, fun _ => .refl _⟩ ⟨0, ()⟩ none nightlyPlace
        (runTests (fun _ => some [("k", [⟨0, 1, 1⟩])])
          (buildTestlist nightlyPlace.listing ["a.js", "a.page"] false [])) = some outdir ∧
      uploadResults nightlyPlace outdir = some results ∧
      Uploaded ⟨id, fun _ => .refl _⟩ ⟨0, ()⟩ none (fun _ => some [("k", [⟨0, 1, 1⟩])])
        (buildTestlist nightlyPlace.listing ["a.js", "a.page"] false []) outdir results := by
  rw [run_uploaded_iff (by decide) (fun _ ht => buildTestlist_isTest ht) (by decide)]
  intro ⟨_, hinj⟩
  have heq : "a.js" = "a.page" := hinj (by decide) (by decide) (by decide)
  exact absurd heq (by decide)

end StoneRidge.Results
