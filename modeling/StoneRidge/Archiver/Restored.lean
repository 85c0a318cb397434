import StoneRidge.Kit.ZipFile

/-!
# The archive of a run

`StoneRidgeArchiver.run` (`srarchiver.py:16-68`): the files below the out directory go into a
zip file under the name of that file, which is stored in the archives and copied to where
the uploader finds it.
-/

set_option autoImplicit false

namespace StoneRidge.Archiver
open StoneRidge.Kit.Exec StoneRidge.Kit.FileTree StoneRidge.Kit.PosixPath StoneRidge.Kit.ZipFile

variable {F : Type}

/-- What the archiver reads from the info file and the configuration. -/
structure StoneRidgeArchiver where
  outdir : String
  date : String
  machine : String
  revision : String
  srid : String
  netconfig : String

/-- `s.replace(old, new, 1)` -/
def replaceOnce (old new : List Char) : List Char → List Char
  | [] => if old = [] then new else []
  | c :: cs =>
    if old <+: c :: cs then new ++ (c :: cs).drop old.length else c :: replaceOnce old new cs

structure World (F : Type) where
  /-- The files in the archive directory, if that is there. -/
  archives : Option (String → Option (List (ZipInfo F)))
  metadata : Option (List (ZipInfo F))

namespace StoneRidgeArchiver
variable (a : StoneRidgeArchiver)

def arcname : String :=
  "stoneridge_" ++ a.date ++ "_" ++ a.machine ++ "_" ++ a.revision ++ "_" ++ a.srid ++ "_" ++
    a.netconfig

/-- The body of the loop over `os.walk`. -/
def addDirectory (w : Walked F) : Option (List (ZipInfo F)) := do
  let dirname := String.ofList (replaceOnce a.outdir.toList a.arcname.toList w.dirpath.toList)
  let dirs ← w.dirs.mapM fun d => write (join dirname d).toList none
  let files ← w.files.mapM fun f => write (join dirname f.1).toList (some f.2)
  pure (dirs ++ files)

def zipTree (out : Contents F) : Option (List (ZipInfo F)) := do
  let parts ← (walk a.outdir out).mapM a.addDirectory
  pure parts.flatten

def run (out : Contents F) (w : World F) : Option (World F) := do
  let archives := w.archives.getD fun _ => none
  let zfile ← a.zipTree out
  pure ⟨some (Function.update archives (a.arcname ++ ".zip") (some zfile)), some zfile⟩

end StoneRidgeArchiver

/-! ### Names -/

/-- A text that is joined to a name with a slash in between. -/
structure Joins (s : List Char) : Prop where
  ne_nil : s ≠ []
  getLast : s.getLast? ≠ some '/'

section Names
variable {s : String} {n : String} {ns : List String}

theorem toList_join (hs : Joins s.toList) (hn : Ordinary n) :
    (join s n).toList = s.toList ++ '/' :: n.toList := by
  unfold join
  rw [isAbs_eq_false_of_no_slash hn.slash, if_neg Bool.false_ne_true,
    if_neg (not_or.mpr ⟨hs.ne_nil, hs.getLast⟩)]
  simp

theorem joins_append (s : List Char) (hn : Ordinary n) : Joins (s ++ '/' :: n.toList) := by
  constructor
  · simp
  · intro h
    rw [List.getLast?_append_of_ne_nil _ (List.cons_ne_nil _ _),
      List.getLast?_cons_of_ne_nil hn.isName.1] at h
    exact hn.slash (List.mem_of_getLast? h)

/-- What comes behind the top directory in the path of one below it. -/
def suffix (ns : List String) : List Char := ns.flatMap fun n => '/' :: n.toList

theorem suffix_concat (ns : List String) (n : String) :
    suffix (ns ++ [n]) = suffix ns ++ '/' :: n.toList := by
  simp [suffix]

theorem joins_suffix {s : List Char} (hs : Joins s) (h : ∀ n ∈ ns, Ordinary n) :
    Joins (s ++ suffix ns) := by
  rcases List.eq_nil_or_concat ns with rfl | ⟨ns, n, rfl⟩
  · simpa [suffix] using hs
  · rw [List.concat_eq_append] at h ⊢
    rw [suffix_concat, ← List.append_assoc]
    exact joins_append _ (h n (List.mem_append_right ns List.mem_cons_self))

theorem slashed_eq (n : String) (ns : List String) : slashed (n :: ns) = n.toList ++ suffix ns := by
  induction ns generalizing n with
  | nil => simp [suffix]
  | cons m ns ih =>
    rw [slashed_cons n (List.cons_ne_nil m ns), ih]
    rfl

theorem joins_ordinary (hn : Ordinary n) : Joins n.toList :=
  ⟨hn.isName.1, fun h => hn.slash (List.mem_of_getLast? h)⟩

theorem replaceOnce_prefix {old : List Char} (hold : old ≠ []) (new rest : List Char) :
    replaceOnce old new (old ++ rest) = new ++ rest := by
  obtain ⟨c, cs, rfl⟩ := List.exists_cons_of_ne_nil hold
  rw [List.cons_append, replaceOnce, if_pos (by rw [← List.cons_append]; exact List.prefix_append _ _),
    ← List.cons_append, List.drop_left]

theorem mapM_eq_some {α β : Type} {f : α → Option β} {g : α → β} {l : List α}
    (h : ∀ x ∈ l, f x = some (g x)) : l.mapM f = some (l.map g) := by
  induction l with
  | nil => rfl
  | cons x l ih =>
    rw [List.mapM_cons, h x List.mem_cons_self, ih fun y hy => h y (List.mem_cons_of_mem x hy)]
    rfl

end Names

section Archive
variable {a : StoneRidgeArchiver} {t : Contents F} {ns : List String}

/-- What the archiver is told makes a name, and the out directory does not end in a slash. The
name is a unicode text, so all of it is ASCII. -/
structure WellNamed (a : StoneRidgeArchiver) : Prop where
  outdir : Joins a.outdir.toList
  outdir_ascii : ∀ c ∈ a.outdir.toList, c.toNat < 128
  fields : ∀ s ∈ [a.date, a.machine, a.revision, a.srid, a.netconfig],
    '/' ∉ s.toList ∧ '\x00' ∉ s.toList ∧ ∀ c ∈ s.toList, c.toNat < 128

theorem toList_arcname (a : StoneRidgeArchiver) : a.arcname.toList = "stoneridge_".toList ++
    a.date.toList ++ "_".toList ++ a.machine.toList ++ "_".toList ++ a.revision.toList ++
      "_".toList ++ a.srid.toList ++ "_".toList ++ a.netconfig.toList := by
  unfold StoneRidgeArchiver.arcname
  iterate 9 rw [String.toList_append]

theorem mem_arcname {ch : Char} (h : ch ∈ a.arcname.toList) :
    ch ∈ "stoneridge_".toList ∨ ch ∈ "_".toList ∨
      ∃ s ∈ [a.date, a.machine, a.revision, a.srid, a.netconfig], ch ∈ s.toList := by
  rw [toList_arcname] at h
  simp only [List.mem_append] at h
  simp only [List.exists_mem_cons_iff]
  tauto

theorem WellNamed.not_mem (h : WellNamed a) {ch : Char} (hch : ch = '/' ∨ ch = '\x00') :
    ch ∉ a.arcname.toList := by
  intro hmem
  rcases mem_arcname hmem with hliteral | hliteral | ⟨s, hs, hin⟩
  · rcases hch with rfl | rfl <;> exact absurd hliteral (by decide)
  · rcases hch with rfl | rfl <;> exact absurd hliteral (by decide)
  · rcases hch with rfl | rfl
    · exact (h.fields s hs).1 hin
    · exact (h.fields s hs).2.1 hin

theorem WellNamed.ascii (h : WellNamed a) : ∀ c ∈ a.arcname.toList, c.toNat < 128 := by
  have hliteral : ∀ c ∈ "stoneridge_".toList, c.toNat < 128 := by decide
  have hunderscore : ∀ c ∈ "_".toList, c.toNat < 128 := by decide
  intro c hmem
  rcases mem_arcname hmem with hin | hin | ⟨s, hs, hin⟩
  · exact hliteral c hin
  · exact hunderscore c hin
  · exact (h.fields s hs).2.2 c hin

theorem WellNamed.ordinary (h : WellNamed a) : Ordinary a.arcname := by
  have hlength : 11 ≤ a.arcname.toList.length := by
    rw [toList_arcname]
    simp only [List.length_append]
    have hliteral : "stoneridge_".toList.length = 11 := by decide
    omega
  refine ⟨⟨?_, ?_, ?_⟩, h.not_mem (.inl rfl), h.not_mem (.inr rfl), h.ascii⟩ <;>
    · intro heq
      rw [heq] at hlength
      exact absurd hlength (by decide)

theorem addDirectory_eq (h : WellNamed a) (hns : ∀ n ∈ ns, Ordinary n) {w : Walked F}
    (hpath : w.dirpath.toList = a.outdir.toList ++ suffix ns) (hdirs : ∀ d ∈ w.dirs, Ordinary d)
    (hfiles : ∀ f ∈ w.files, Ordinary f.1) :
    a.addDirectory w =
      some ((here ns w.dirs w.files).map fun x => member (a.arcname :: x.1) x.2) := by
  have hdirname : replaceOnce a.outdir.toList a.arcname.toList w.dirpath.toList =
      slashed (a.arcname :: ns) := by
    rw [hpath, replaceOnce_prefix h.outdir.ne_nil, slashed_eq]
  have hjoins : Joins (slashed (a.arcname :: ns)) := by
    rw [slashed_eq]
    exact joins_suffix (joins_ordinary h.ordinary) hns
  have hjoin : ∀ n, Ordinary n →
      (join (String.ofList (slashed (a.arcname :: ns))) n).toList =
        slashed (a.arcname :: (ns ++ [n])) := by
    intro n hn
    rw [toList_join (by rwa [String.toList_ofList]) hn, String.toList_ofList, slashed_eq,
      slashed_eq, suffix_concat, List.append_assoc]
  have hordinary : ∀ n, Ordinary n → ∀ m ∈ a.arcname :: (ns ++ [n]), Ordinary m := by
    intro n hn
    rw [List.forall_mem_cons, List.forall_mem_append]
    exact ⟨h.ordinary, hns, List.forall_mem_singleton.mpr hn⟩
  unfold StoneRidgeArchiver.addDirectory
  simp only [hdirname]
  have hd := mapM_eq_some (l := w.dirs) (f := fun d => write (F := F)
      (join (String.ofList (slashed (a.arcname :: ns))) d).toList none)
    (g := fun d => member (a.arcname :: (ns ++ [d])) .dir) fun d hd => by
      rw [hjoin d (hdirs d hd)]
      exact write_slashed (List.cons_ne_nil _ _) (hordinary d (hdirs d hd)) .dir
  have hf := mapM_eq_some (l := w.files) (f := fun f => write
      (join (String.ofList (slashed (a.arcname :: ns))) f.1).toList (some f.2))
    (g := fun f => member (a.arcname :: (ns ++ [f.1])) (.file f.2)) fun f hf => by
      rw [hjoin f.1 (hfiles f hf)]
      exact write_slashed (List.cons_ne_nil _ _) (hordinary f.1 (hfiles f hf)) (.file f.2)
  rw [hd, hf]
  simp [here, Function.comp_def]

theorem ordinary_dirNames (ht : AllOrdinary t) : ∀ d ∈ t.dirNames, Ordinary d := by
  induction t with
  | nil => exact nofun
  | file n c rest ih => exact ih ht.2
  | dir n entries rest _ ih => exact List.forall_mem_cons.mpr ⟨ht.1, ih ht.2.2⟩

theorem ordinary_files (ht : AllOrdinary t) : ∀ f ∈ files t, Ordinary f.1 := by
  induction t with
  | nil => exact nofun
  | file n c rest ih => exact List.forall_mem_cons.mpr ⟨ht.1, ih ht.2⟩
  | dir n entries rest _ ih => exact ih ht.2.2

theorem subwalks_eq (h : WellNamed a) (ht : AllOrdinary t) (hns : ∀ n ∈ ns, Ordinary n)
    {top : String} (htop : top.toList = a.outdir.toList ++ suffix ns) :
    ∃ parts, (subwalks top t).mapM a.addDirectory = some parts ∧
      parts.flatten = (below ns t).map fun x => member (a.arcname :: x.1) x.2 := by
  induction t generalizing ns top with
  | nil => exact ⟨[], rfl, rfl⟩
  | file n c rest ih => exact ih ht.2 hns htop
  | dir n entries rest ihe ih =>
    obtain ⟨hn, hentries, hrest⟩ := ht
    have hjoins : Joins top.toList := by
      rw [htop]
      exact joins_suffix h.outdir hns
    have hsub : (join top n).toList = a.outdir.toList ++ suffix (ns ++ [n]) := by
      rw [toList_join hjoins hn, htop, suffix_concat, List.append_assoc]
    have hnsub : ∀ m ∈ ns ++ [n], Ordinary m :=
      List.forall_mem_append.mpr ⟨hns, List.forall_mem_singleton.mpr hn⟩
    obtain ⟨inner, hinner, hinnerEq⟩ := ihe hentries hnsub hsub
    obtain ⟨outer, houter, houterEq⟩ := ih hrest hns htop
    have hdir := addDirectory_eq (w := ⟨join top n, entries.dirNames, files entries⟩) h hnsub hsub
      (ordinary_dirNames hentries) (ordinary_files hentries)
    refine ⟨((here (ns ++ [n]) entries.dirNames (files entries)).map fun x =>
      member (a.arcname :: x.1) x.2) :: inner ++ outer, ?_, ?_⟩
    · rw [subwalks, List.cons_append, List.mapM_cons, List.mapM_append, hinner, houter, hdir]
      rfl
    · rw [List.cons_append, List.flatten_cons, List.flatten_append, hinnerEq, houterEq, below,
        List.map_append, List.map_append, List.append_assoc]

/-- The members are the entries of the tree, under the name of the archive. -/
theorem zipTree_eq (h : WellNamed a) (ht : AllOrdinary t) :
    a.zipTree t = some ((listing t).map fun x => member (a.arcname :: x.1) x.2) := by
  have hroot : a.outdir.toList = a.outdir.toList ++ suffix [] := (List.append_nil _).symm
  have hnone : ∀ n ∈ ([] : List String), Ordinary n := List.forall_mem_nil _
  obtain ⟨parts, hparts, hflatten⟩ := @subwalks_eq F a t [] h ht hnone a.outdir hroot
  have htop := addDirectory_eq (w := ⟨a.outdir, t.dirNames, files t⟩) h hnone hroot
    (ordinary_dirNames ht) (ordinary_files ht)
  unfold StoneRidgeArchiver.zipTree walk
  rw [List.mapM_cons, htop, hparts]
  simp [listing, hflatten]

end Archive

theorem listing_eq_nil {t : Contents F} : listing t = [] ↔ t = .nil := by
  cases t with
  | nil => exact iff_of_true rfl rfl
  | file n c rest => simp [listing, here, files]
  | dir n entries rest => simp [listing, here, Contents.dirNames]

/-- The archive of a run is stored and handed to the uploader, and to extract it anywhere
gives the out directory again, under the name of the archive. -/
theorem archive_restores {a : StoneRidgeArchiver} (ha : WellNamed a) (out : DirTree F)
    (hout : AllOrdinary out.contents) (w : World F) {before : FileSystem F} {path : Path}
    (hpath : before.entry path = some .dir) (hordinary : ∀ m ∈ path, Ordinary m)
    (hnew : before.entry (path ++ [a.arcname]) = none) :
    ∃ zfile archives, a.run out.contents w = some ⟨some archives, some zfile⟩ ∧
      archives (a.arcname ++ ".zip") = some zfile ∧
      (∀ n, n ≠ a.arcname ++ ".zip" → archives n = (w.archives.getD fun _ => none) n) ∧
      ∃ fs, extractall path zfile before = .ok () fs ∧
        (out.contents = .nil → fs.entry = before.entry) ∧
        (out.contents ≠ .nil →
          fs.entry = overlay before.entry (mounted (path ++ [a.arcname]) out.contents)) := by
  obtain ⟨fs, hextract, hfs⟩ := extractall_listing out hpath hnew ha.ordinary hordinary hout
  have hzip := zipTree_eq ha hout
  refine ⟨_, Function.update (w.archives.getD fun _ => none) (a.arcname ++ ".zip") (some _), ?_,
    Function.update_self _ _ _, ?_, fs, hextract, ?_, ?_⟩
  · unfold StoneRidgeArchiver.run
    rw [hzip]
    rfl
  · intro n hn
    exact Function.update_of_ne hn _ _
  · intro hnil
    rw [hfs, if_pos (listing_eq_nil.mpr hnil)]
  · intro hne
    rw [hfs, if_neg (listing_eq_nil.not.mpr hne)]

def sampleArchiver : StoneRidgeArchiver :=
  ⟨"/srv/work/5e1/out", "1382400000", "client1", "0a1b2c", "5e1", "broadband"⟩

/-- A results file in a directory of its own. -/
def sampleOut : DirTree ℕ where
  contents := .dir "json" (.file "fake.js.out" 7 .nil) (.file "info.json" 8 .nil)
  distinct := by simp [Contents.Distinct, Contents.names]

theorem archive_restores_sample :
    ∃ zfile archives, sampleArchiver.run sampleOut.contents ⟨none, none⟩ =
        some ⟨some archives, some zfile⟩ ∧
      archives (sampleArchiver.arcname ++ ".zip") = some zfile ∧
      (∀ n, n ≠ sampleArchiver.arcname ++ ".zip" →
        archives n = (none.getD fun _ => none : String → Option (List (ZipInfo ℕ))) n) ∧
      ∃ fs, extractall [] zfile (DirTree.fileSystem ⟨.nil, trivial⟩) = .ok () fs ∧
        (sampleOut.contents = .nil → fs.entry = (DirTree.fileSystem ⟨.nil, trivial⟩).entry) ∧
        (sampleOut.contents ≠ .nil → fs.entry = overlay (DirTree.fileSystem ⟨.nil, trivial⟩).entry
          (mounted ([] ++ [sampleArchiver.arcname]) sampleOut.contents)) :=
  archive_restores ⟨⟨by decide, by decide⟩, by decide, by decide⟩ sampleOut
    ⟨⟨by decide, by decide, by decide, by decide⟩,
      ⟨⟨by decide, by decide, by decide, by decide⟩, trivial⟩,
      ⟨by decide, by decide, by decide, by decide⟩, trivial⟩ ⟨none, none⟩ rfl
    (List.forall_mem_nil _) rfl

end StoneRidge.Archiver
