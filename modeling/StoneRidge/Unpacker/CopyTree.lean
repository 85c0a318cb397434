import StoneRidge.Kit.Exact
import StoneRidge.Kit.FileTree

/-!
# Merging trees into the bin directory

`StoneRidgeUnpacker._copy_tree` and its four calls in `run` (`srunpacker.py:51-113`).
Paths begin at the bin directory. Of a directory's entries a file is copied over what is
there, while a directory goes through `copytree`, which wants a place where there is
nothing.
-/

set_option autoImplicit false

namespace StoneRidge.Unpacker
open StoneRidge.Kit.Exec StoneRidge.Kit.FileTree

variable {F : Type}

/-- The loop of `_copy_tree` over the files of `srcdir`, which go to `d`. -/
def copyAll : Contents F → Path → Command F Unit
  | .nil, _ => pure ()
  | .file f content rest, d => do
    copyfile d f content
    copyAll rest d
  | .dir f entries rest, d => do
    copytree entries d f
    copyAll rest d

def copyTree (srcdir : Contents F) (name : String) : Command F Unit := do
  let bin ← get
  if (bin.entry [name]).isNone then mkdir [] name
  copyAll srcdir [name]

/-- The directories that `run` merges into the bin directory. -/
structure Sources (F : Type) where
  components : DirTree F
  plugins : DirTree F
  pageloaderComponents : DirTree F
  pageloaderChrome : DirTree F

namespace Sources

def copyTrees (s : Sources F) : Command F Unit := do
  copyTree s.components.contents "components"
  copyTree s.plugins.contents "plugins"
  copyTree s.pageloaderComponents.contents "components"
  copyTree s.pageloaderChrome.contents "chrome"

/-- What each source has at a path of the bin directory, in the order of the calls. -/
def mounts (s : Sources F) : List (Path → Option (Entry F)) :=
  [mounted ["components"] s.components.contents, mounted ["plugins"] s.plugins.contents,
    mounted ["components"] s.pageloaderComponents.contents,
    mounted ["chrome"] s.pageloaderChrome.contents]

/-- The firefox tree with the sources laid over it. -/
def overlaid (s : Sources F) (firefox : DirTree F) : Path → Option (Entry F) :=
  s.mounts.foldl overlay firefox.entry

end Sources

/-- No path is a file in one of them and a directory in another. -/
def Compatible (trees : List (Path → Option (Entry F))) : Prop :=
  ∀ a ∈ trees, ∀ b ∈ trees, ∀ p c, a p = some (.file c) → b p ≠ some .dir

/-- What is there stays there, be it with other contents. -/
def Grows (fs fs' : FileSystem F) : Prop := ∀ p, (fs.entry p).isSome → (fs'.entry p).isSome

theorem Grows.refl (fs : FileSystem F) : Grows fs fs := fun _ h => h

theorem Grows.trans (s t u : FileSystem F) (h : Grows s t) (h' : Grows t u) : Grows s u :=
  fun p hp => h' p (h p hp)

theorem grows_update {fs fs' : FileSystem F} {q : Path} {e : Entry F}
    (h : fs'.entry = Function.update fs.entry q (some e)) : Grows fs fs' := by
  intro p hp
  rw [h]
  by_cases hpq : p = q
  · subst hpq
    rw [Function.update_self]
    rfl
  · rwa [Function.update_of_ne hpq]

theorem grows_overlay {fs fs' : FileSystem F} {top : Path → Option (Entry F)}
    (h : fs'.entry = overlay fs.entry top) : Grows fs fs' := by
  intro p hp
  rw [h, overlay, Option.isSome_or, hp, Bool.or_true]

section Calls
variable {fs : FileSystem F} {d : Path} {n : String} {c : F} {t entries : Contents F}

theorem mkdir_exact (hd : fs.entry d = some .dir) (h : fs.entry (d ++ [n]) = none) :
    Exact Grows (mkdir d n) fs True fun _ fs' =>
      fs'.entry = Function.update fs.entry (d ++ [n]) (some .dir) := by
  obtain ⟨fs', hrun, hfs'⟩ := mkdir_new hd h
  exact Exact.of_ok hrun (grows_update hfs') hfs'

theorem copyfile_exact (hd : fs.entry d = some .dir) (h : fs.entry (d ++ [n]) ≠ some .dir) :
    Exact Grows (copyfile d n c) fs True fun _ fs' =>
      fs'.entry = Function.update fs.entry (d ++ [n]) (some (.file c)) := by
  obtain ⟨fs', hrun, hfs'⟩ := @copyfile_ok F fs d n c hd h
  exact Exact.of_ok hrun (grows_update hfs') hfs'

theorem copytree_exact (ht : entries.Distinct) (hd : fs.entry d = some .dir) :
    Exact Grows (copytree entries d n) fs (fs.entry (d ++ [n]) = none) fun _ fs' =>
      fs'.entry = overlay fs.entry (mounted (d ++ [n]) entries) := by
  by_cases hnew : fs.entry (d ++ [n]) = none
  · obtain ⟨fs', hrun, hfs'⟩ := copytree_ok ht hd hnew
    exact (Exact.of_ok hrun (grows_overlay hfs') hfs').conseq (by simp [hnew]) fun _ _ _ h => h
  · have hrun := @copytree_exist F fs d n entries hd (Option.isSome_iff_ne_none.mpr hnew)
    exact (Exact.of_error hrun (Grows.refl fs)).conseq (by simp [hnew]) fun _ _ _ h => h

/-- The loop needs that none of the subdirectories is there yet. -/
theorem copyAll_exact (ht : t.Distinct) (hd : fs.entry d = some .dir)
    (hfile : ∀ n ∈ t.fileNames, fs.entry (d ++ [n]) ≠ some .dir) :
    Exact Grows (copyAll t d) fs (∀ n ∈ t.dirNames, fs.entry (d ++ [n]) = none) fun _ fs' =>
      fs'.entry = overlay fs.entry (mounted d t) := by
  induction t generalizing fs with
  | nil =>
    refine (Exact.of_pure Grows.refl ()).conseq (by simp [Contents.dirNames]) ?_
    rintro _ fs' - ⟨-, rfl⟩
    exact (overlay_nil hd).symm
  | file n c rest ih =>
    obtain ⟨hn, hrest⟩ := ht
    refine (Exact.bind Grows.trans (copyfile_exact hd (hfile n List.mem_cons_self)) ?_).conseq
      (and_iff_right trivial) fun _ _ _ h => h
    intro _ fs₁ hfs₁
    have hother : ∀ m ∈ rest.names, fs₁.entry (d ++ [m]) = fs.entry (d ++ [m]) := by
      intro m hm
      have hne : m ≠ n := fun h => hn (h ▸ hm)
      rw [hfs₁, Function.update_of_ne (by simp [hne])]
    have hd₁ : fs₁.entry d = some .dir := by
      rw [hfs₁, Function.update_of_ne (by simp), hd]
    refine (ih hrest hd₁ ?_).conseq ?_ ?_
    · intro m hm
      rw [hother m (Contents.fileNames_subset rest hm)]
      exact hfile m (List.mem_cons_of_mem n hm)
    · refine forall₂_congr fun m hm => ?_
      rw [hother m (Contents.dirNames_subset rest hm)]
    · intro _ fs₂ _ hfs₂
      rw [hfs₂, hfs₁, overlay_file hn]
  | dir n entries rest _ ih =>
    obtain ⟨hn, hentries, hrest⟩ := ht
    have hcond : (fs.entry (d ++ [n]) = none ∧ ∀ m ∈ rest.dirNames, fs.entry (d ++ [m]) = none) ↔
        ∀ m ∈ (Contents.dir n entries rest).dirNames, fs.entry (d ++ [m]) = none := by
      rw [Contents.dirNames, List.forall_mem_cons]
    refine (Exact.bind Grows.trans (copytree_exact hentries hd) ?_).conseq hcond fun _ _ _ h => h
    intro _ fs₁ hfs₁
    have hother : ∀ m ∈ rest.names, fs₁.entry (d ++ [m]) = fs.entry (d ++ [m]) := by
      intro m hm
      have hne : m ≠ n := fun h => hn (h ▸ hm)
      rw [hfs₁, overlay, mounted_child, if_neg hne, Option.none_or]
    have hd₁ : fs₁.entry d = some .dir := by
      rw [hfs₁, overlay, mounted_of_outside (child_not_above d n), hd]
      rfl
    refine (ih hrest hd₁ ?_).conseq ?_ ?_
    · intro m hm
      rw [hother m (Contents.fileNames_subset rest hm)]
      exact hfile m hm
    · refine forall₂_congr fun m hm => ?_
      rw [hother m (Contents.dirNames_subset rest hm)]
    · intro _ fs₂ _ hfs₂
      rw [hfs₂, hfs₁, overlay_dir hn]

/-- One call: nothing at the place of any subdirectory, and no file where a directory is
wanted or the other way round. -/
theorem copyTree_exact {name : String} (ht : t.Distinct)
    (hdir : ∀ c, fs.entry [name] ≠ some (.file c))
    (hfile : ∀ n ∈ t.fileNames, fs.entry [name, n] ≠ some .dir) :
    Exact Grows (copyTree t name) fs (∀ n ∈ t.dirNames, fs.entry [name, n] = none) fun _ fs' =>
      fs'.entry = overlay fs.entry (mounted [name] t) := by
  refine Exact.get_bind ?_
  cases h : fs.entry [name] with
  | some e =>
    cases e with
    | file c => exact absurd h (hdir c)
    | dir => exact copyAll_exact ht h hfile
  | none =>
    refine (Exact.bind Grows.trans (mkdir_exact fs.root h) ?_).conseq (and_iff_right trivial)
      fun _ _ _ h => h
    intro _ fs₁ hfs₁
    change fs₁.entry = Function.update fs.entry [name] (some .dir) at hfs₁
    have hchild : ∀ n, fs₁.entry ([name] ++ [n]) = fs.entry [name, n] := by
      intro n
      rw [hfs₁, Function.update_of_ne (by simp)]
      rfl
    refine (copyAll_exact ht (by rw [hfs₁, Function.update_self]) ?_).conseq ?_ ?_
    · intro n hn
      rw [hchild]
      exact hfile n hn
    · exact forall₂_congr fun n _ => by rw [hchild]
    · intro _ fs₂ _ hfs₂
      rw [hfs₂, hfs₁, overlay_update_dir]

end Calls

section Merging
variable {base top : Path → Option (Entry F)} {rest : List (Path → Option (Entry F))}
  {fs : FileSystem F} {name : String} {t : DirTree F}

/-- Laying one tree over the first keeps the trees compatible. -/
theorem Compatible.laid (h : Compatible (base :: top :: rest)) :
    Compatible (overlay base top :: rest) := by
  have horigin : ∀ a ∈ overlay base top :: rest, ∀ p e, a p = some e →
      ∃ b ∈ base :: top :: rest, b p = some e := by
    intro a ha p e hp
    rcases List.mem_cons.mp ha with rfl | ha
    · rcases Option.or_eq_some_iff.mp hp with hp | ⟨-, hp⟩
      · exact ⟨top, by simp, hp⟩
      · exact ⟨base, by simp, hp⟩
    · exact ⟨a, by simp [ha], hp⟩
  intro a ha b hb p c hfile hdir
  obtain ⟨a', ha', hfile'⟩ := horigin a ha p _ hfile
  obtain ⟨b', hb', hdir'⟩ := horigin b hb p _ hdir
  exact h a' ha' b' hb' p c hfile' hdir'

/-- One of the calls, from a bin directory with the entries `base`. -/
theorem copyTree_of_compatible (hfs : fs.entry = base)
    (h : Compatible (base :: mounted [name] t.contents :: rest)) :
    Exact Grows (copyTree t.contents name) fs (∀ n ∈ t.contents.dirNames, base [name, n] = none)
      fun _ fs' => fs'.entry = overlay base (mounted [name] t.contents) := by
  subst hfs
  have hmem : mounted [name] t.contents ∈ fs.entry :: mounted [name] t.contents :: rest := by simp
  refine copyTree_exact t.distinct ?_ ?_
  · intro c hc
    exact h _ List.mem_cons_self _ hmem [name] c hc (mounted_self [name] t.contents)
  · intro n hn hdir
    obtain ⟨c, hc⟩ := t.contents.entry_file t.distinct hn
    have hfile : mounted [name] t.contents [name, n] = some (.file c) :=
      (mounted_append [name] [n] t.contents).trans hc
    exact h _ hmem _ List.mem_cons_self [name, n] c hfile hdir

theorem overlay_same (t : DirTree F) (d n : String) :
    overlay base (mounted [d] t.contents) [d, n] = none ↔
      base [d, n] = none ∧ t.entry [n] = none := by
  have hm : mounted [d] t.contents [d, n] = t.entry [n] := mounted_append [d] [n] t.contents
  rw [overlay, hm, Option.or_eq_none_iff, and_comm]

/-- What is laid over one directory does not show in another. -/
theorem overlay_other (t : DirTree F) {d d' n : String} (h : d ≠ d') :
    overlay base (mounted [d] t.contents) [d', n] = base [d', n] := by
  rw [overlay, mounted_of_outside (by simp [h])]
  rfl

/-- No subdirectory of a source has something at its place when its turn comes. -/
structure Sources.Clear (s : Sources F) (firefox : DirTree F) : Prop where
  components : ∀ n ∈ s.components.contents.dirNames, firefox.entry ["components", n] = none
  plugins : ∀ n ∈ s.plugins.contents.dirNames, firefox.entry ["plugins", n] = none
  pageloaderComponents : ∀ n ∈ s.pageloaderComponents.contents.dirNames,
    firefox.entry ["components", n] = none ∧ s.components.entry [n] = none
  pageloaderChrome : ∀ n ∈ s.pageloaderChrome.contents.dirNames, firefox.entry ["chrome", n] = none

theorem copyTrees_exact {s : Sources F} {firefox : DirTree F}
    (h : Compatible (firefox.entry :: s.mounts)) :
    Exact Grows s.copyTrees firefox.fileSystem (s.Clear firefox) fun _ fs' =>
      fs'.entry = s.overlaid firefox := by
  have h₁ := h.laid
  have h₂ := h₁.laid
  have h₃ := h₂.laid
  have hfirst := @copyTree_of_compatible F firefox.entry _ firefox.fileSystem _ s.components rfl h
  have hseq := Exact.bind Grows.trans hfirst fun _ _ hfs₁ =>
    Exact.bind Grows.trans (copyTree_of_compatible (t := s.plugins) hfs₁ h₁) fun _ _ hfs₂ =>
      Exact.bind Grows.trans (copyTree_of_compatible (t := s.pageloaderComponents) hfs₂ h₂)
        fun _ _ hfs₃ => copyTree_of_compatible (t := s.pageloaderChrome) hfs₃ h₃
  refine hseq.conseq ?_ fun _ _ _ h => h
  constructor
  · rintro ⟨hcomp, hplug, hpl, hchrome⟩
    refine ⟨hcomp, ?_, ?_, ?_⟩
    · intro n hn
      rw [← hplug n hn, overlay_other _ (by decide)]
    · intro n hn
      have hnone := hpl n hn
      rwa [overlay_other _ (by decide), overlay_same] at hnone
    · intro n hn
      rw [← hchrome n hn, overlay_other _ (by decide), overlay_other _ (by decide),
        overlay_other _ (by decide)]
  · rintro ⟨hcomp, hplug, hpl, hchrome⟩
    refine ⟨hcomp, ?_, ?_, ?_⟩
    · intro n hn
      rw [overlay_other _ (by decide)]
      exact hplug n hn
    · intro n hn
      rw [overlay_other _ (by decide), overlay_same]
      exact hpl n hn
    · intro n hn
      rw [overlay_other _ (by decide), overlay_other _ (by decide), overlay_other _ (by decide)]
      exact hchrome n hn

/-- The four calls complete with the overlay exactly if no subdirectory of a source is in
the way of another. -/
theorem copyTrees_overlay_iff (s : Sources F) (firefox : DirTree F)
    (h : Compatible (firefox.entry :: s.mounts)) :
    (∃ bin, s.copyTrees firefox.fileSystem = .ok () bin ∧ bin.entry = s.overlaid firefox) ↔
      s.Clear firefox := by
  have hexact := copyTrees_exact h
  cases hrun : s.copyTrees firefox.fileSystem with
  | ok u bin =>
    obtain ⟨hclear, -, hbin⟩ := hexact.ok hrun
    exact ⟨fun _ => hclear, fun _ => ⟨bin, rfl, hbin⟩⟩
  | error e bin =>
    have hbad := (hexact.error hrun).1
    exact ⟨fun ⟨_, hok, _⟩ => (nomatch hok), fun hclear => absurd hclear hbad⟩

end Merging

/-! ### One subdirectory in two trees -/

/-- The directory `sub` with one file. -/
def subTree (name : String) : DirTree Unit where
  contents := .dir "sub" (.file name () .nil) .nil
  distinct := by simp [Contents.Distinct, Contents.names]

def emptyTree : DirTree Unit := ⟨.nil, trivial⟩

def firefoxTree : DirTree Unit where
  contents := .dir "components" (subTree "a").contents .nil
  distinct := by simp [Contents.Distinct, Contents.names, subTree]

/-- Files stand at the third level only, and directories above it. -/
def Leveled (a : Path → Option (Entry Unit)) : Prop :=
  ∀ p, (∀ c, a p = some (.file c) → p.length = 3) ∧ (a p = some .dir → p.length < 3)

theorem compatible_of_leveled {trees : List (Path → Option (Entry Unit))}
    (h : ∀ a ∈ trees, Leveled a) : Compatible trees := by
  intro a ha b hb p c hfile hdir
  have hlen := (h a ha p).1 c hfile
  have hlt := (h b hb p).2 hdir
  omega

theorem leveled_mounted {t : DirTree Unit} (h : ∀ q, (∀ c, t.entry q = some (.file c) → q.length = 2) ∧
    (t.entry q = some .dir → q.length < 2)) (d : String) : Leveled (mounted [d] t.contents) := by
  intro p
  by_cases hp : [d] <+: p
  · obtain ⟨q, rfl⟩ := hp
    rw [mounted_append, List.length_append, List.length_singleton]
    refine ⟨fun c hc => ?_, fun hc => ?_⟩
    · have hlen := (h q).1 c hc
      omega
    · have hlen := (h q).2 hc
      omega
  · rw [mounted_of_outside hp]
    exact ⟨nofun, nofun⟩

theorem leveled_subTree (name d : String) : Leveled (mounted [d] (subTree name).contents) := by
  refine leveled_mounted (fun q => ?_) d
  rcases q with _ | ⟨x, _ | ⟨y, _ | ⟨z, q⟩⟩⟩ <;>
    simp [DirTree.entry, subTree, Contents.entry]

theorem leveled_emptyTree (d : String) : Leveled (mounted [d] emptyTree.contents) := by
  refine leveled_mounted (fun q => ?_) d
  cases q <;> simp [DirTree.entry, emptyTree, Contents.entry]

theorem leveled_firefoxTree : Leveled firefoxTree.entry := by
  intro p
  cases p with
  | nil => exact ⟨nofun, fun _ => by decide⟩
  | cons x p =>
    have hmount : firefoxTree.entry (x :: p) =
        mounted ["components"] (subTree "a").contents (x :: p) := by
      have hchild := mounted_child [] "components" x p (subTree "a").contents
      rw [List.nil_append, List.nil_append] at hchild
      rw [hchild]
      rfl
    rw [hmount]
    exact leveled_subTree "a" "components" (x :: p)

/-- The test components and firefox both have a directory `components/sub`. -/
def clashing : Sources Unit := ⟨subTree "b", emptyTree, emptyTree, emptyTree⟩

theorem clashing_raises : Compatible (firefoxTree.entry :: clashing.mounts) ∧
    ¬ ∃ bin, clashing.copyTrees firefoxTree.fileSystem = .ok () bin ∧
      bin.entry = clashing.overlaid firefoxTree := by
  have hcompat : Compatible (firefoxTree.entry :: clashing.mounts) := by
    apply compatible_of_leveled
    simp [Sources.mounts, clashing, leveled_firefoxTree, leveled_subTree, leveled_emptyTree]
  refine ⟨hcompat, ?_⟩
  rintro ⟨bin, hrun, -⟩
  have hclear := ((copyTrees_exact hcompat).ok hrun).1
  have hnone := hclear.components "sub" (by decide)
  revert hnone
  decide

/-- A directory `sub` among the test plugins meets none in firefox. -/
def separate : Sources Unit := ⟨emptyTree, subTree "b", emptyTree, emptyTree⟩

theorem copyTrees_overlay_iff_separate : ∃ bin,
    separate.copyTrees firefoxTree.fileSystem = .ok () bin ∧
      bin.entry = separate.overlaid firefoxTree := by
  have hcompat : Compatible (firefoxTree.entry :: separate.mounts) := by
    apply compatible_of_leveled
    simp [Sources.mounts, separate, leveled_firefoxTree, leveled_subTree, leveled_emptyTree]
  refine (copyTrees_overlay_iff separate firefoxTree hcompat).mpr ⟨?_, ?_, ?_, ?_⟩
  · intro n hn
    cases hn
  · intro n hn
    rfl
  · intro n hn
    cases hn
  · intro n hn
    cases hn

end StoneRidge.Unpacker
