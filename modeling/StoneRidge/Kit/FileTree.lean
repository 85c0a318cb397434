import StoneRidge.Kit.Exec

/-!
# Files in directories

A file system without links gives the entry at each path, the first name first. What is
copied is the contents of a directory in the order in which it is listed. `makedirs`
follows `os.makedirs`, and `copytree` follows `shutil.copytree`
(`python/src/Lib/shutil.py:145-206`); modes and times are left out.
-/

set_option autoImplicit false

namespace StoneRidge.Kit.FileTree
open StoneRidge.Kit.Exec

variable {F : Type}

abbrev Path := List String

inductive Entry (F : Type) where
  | file (content : F)
  | dir

/-- What a directory holds. -/
inductive Contents (F : Type) where
  | nil
  | file (name : String) (content : F) (rest : Contents F)
  | dir (name : String) (entries rest : Contents F)

namespace Contents

def names : Contents F → List String
  | .nil => []
  | .file n _ rest => n :: rest.names
  | .dir n _ rest => n :: rest.names

def dirNames : Contents F → List String
  | .nil => []
  | .file _ _ rest => rest.dirNames
  | .dir n _ rest => n :: rest.dirNames

def fileNames : Contents F → List String
  | .nil => []
  | .file n _ rest => n :: rest.fileNames
  | .dir _ _ rest => rest.fileNames

theorem dirNames_subset (t : Contents F) : t.dirNames ⊆ t.names := by
  induction t with
  | nil => exact List.Subset.refl _
  | file n _ rest ih => exact List.subset_cons_of_subset n ih
  | dir n _ rest _ ih => exact List.cons_subset_cons n ih

theorem fileNames_subset (t : Contents F) : t.fileNames ⊆ t.names := by
  induction t with
  | nil => exact List.Subset.refl _
  | file n _ rest ih => exact List.cons_subset_cons n ih
  | dir n _ rest _ ih => exact List.subset_cons_of_subset n ih

/-- No directory lists a name twice. -/
def Distinct : Contents F → Prop
  | .nil => True
  | .file n _ rest => n ∉ rest.names ∧ rest.Distinct
  | .dir n entries rest => n ∉ rest.names ∧ entries.Distinct ∧ rest.Distinct

def entry : Contents F → Path → Option (Entry F)
  | _, [] => some .dir
  | .nil, _ :: _ => none
  | .file n c rest, m :: p => if m = n then if p = [] then some (.file c) else none
    else rest.entry (m :: p)
  | .dir n entries rest, m :: p => if m = n then entries.entry p else rest.entry (m :: p)

end Contents

instance (o : Option (Entry F)) : Decidable (o = some .dir) :=
  match o with
  | none => .isFalse nofun
  | some (.file _) => .isFalse nofun
  | some .dir => .isTrue rfl

structure FileSystem (F : Type) where
  entry : Path → Option (Entry F)
  root : entry [] = some .dir
  closed : ∀ p n, (entry (p ++ [n])).isSome → entry p = some .dir

/-- Entry `n` of the directory `d` becomes `e`; a directory stays one. -/
def FileSystem.put (fs : FileSystem F) (d : Path) (n : String) (e : Entry F)
    (hd : fs.entry d = some .dir) (he : e = .dir ∨ fs.entry (d ++ [n]) ≠ some .dir) :
    FileSystem F where
  entry := Function.update fs.entry (d ++ [n]) (some e)
  root := by
    rw [Function.update_of_ne (by simp)]
    exact fs.root
  closed p m h := by
    by_cases hm : p ++ [m] = d ++ [n]
    · obtain rfl := List.append_inj_left' hm rfl
      rw [Function.update_of_ne (by simp)]
      exact hd
    · rw [Function.update_of_ne hm] at h
      have hp := fs.closed p m h
      by_cases hpd : p = d ++ [n]
      · subst hpd
        rw [Function.update_self, he.resolve_right (not_not.mpr hp)]
      · rwa [Function.update_of_ne hpd]

inductive Errno where
  | exist
  | isDirectory
  | noDirectory
  deriving DecidableEq, Repr

inductive Raised where
  | os (e : Errno)
  /-- `shutil.Error`: where something went wrong, and what. -/
  | shutil (errors : List (Path × Errno))

abbrev Command (F α : Type) := EStateM Raised (FileSystem F) α

def mkdir (d : Path) (n : String) : Command F Unit := do
  let fs ← get
  if (fs.entry (d ++ [n])).isSome then throw (.os .exist)
  else if hd : fs.entry d = some .dir then set (fs.put d n .dir hd (.inl rfl))
  else throw (.os .noDirectory)

/-- Opening for writing truncates a file and makes one where there is nothing. -/
def copyfile (d : Path) (n : String) (content : F) : Command F Unit := do
  let fs ← get
  if he : fs.entry (d ++ [n]) = some .dir then throw (.os .isDirectory)
  else if hd : fs.entry d = some .dir then set (fs.put d n (.file content) hd (.inr he))
  else throw (.os .noDirectory)

def ignoringExist (m : Command F Unit) : Command F Unit :=
  tryCatch m fun e =>
    match e with
    | .os .exist => pure ()
    | e => throw e

/-- `os.makedirs` for entry `n` of the directory with the names `up`, the last one first. -/
def makedirsAt : List String → String → Command F Unit
  | [], n => mkdir [] n
  | c :: up, n => do
    let fs ← get
    if (fs.entry (c :: up).reverse).isNone then ignoringExist (makedirsAt up c)
    mkdir (c :: up).reverse n

def makedirs (d : Path) (n : String) : Command F Unit := makedirsAt d.reverse n

/-- The errors of `m`, which `copytree` notes before it goes on with the next entry. -/
def collecting (dst : Path) (m : Command F Unit) : Command F (List (Path × Errno)) :=
  tryCatch (do m; pure []) fun e =>
    match e with
    | .os e => pure [(dst, e)]
    | .shutil errors => pure errors

def raiseErrors (errors : List (Path × Errno)) : Command F Unit :=
  if errors.isEmpty then pure () else throw (.shutil errors)

/-- The loop of `copytree` over the entries of a directory that go to `d`. -/
def copyEntries : Contents F → Path → Command F (List (Path × Errno))
  | .nil, _ => pure []
  | .file n c rest, d => do
    let here ← collecting (d ++ [n]) (copyfile d n c)
    let others ← copyEntries rest d
    pure (here ++ others)
  | .dir n entries rest, d => do
    let here ← collecting (d ++ [n]) do
      makedirs d n
      let errors ← copyEntries entries (d ++ [n])
      raiseErrors errors
    let others ← copyEntries rest d
    pure (here ++ others)

def copytree (entries : Contents F) (d : Path) (n : String) : Command F Unit := do
  makedirs d n
  let errors ← copyEntries entries (d ++ [n])
  raiseErrors errors

/-! ### Overlays -/

/-- The entries of `t` where its directory is at `d`. -/
def mounted (d : Path) (t : Contents F) (p : Path) : Option (Entry F) :=
  if d <+: p then t.entry (p.drop d.length) else none

/-- Where both have something, `top` counts. -/
def overlay (base top : Path → Option (Entry F)) (p : Path) : Option (Entry F) :=
  (top p).or (base p)

section Overlays
variable {d p : Path} {n m : String} {c : F} {t entries rest : Contents F}
  {base : Path → Option (Entry F)}

@[simp] theorem Contents.entry_nil (t : Contents F) : t.entry [] = some .dir := by
  cases t <;> rfl

theorem Contents.entry_cons_eq_none (h : n ∉ t.names) (p : Path) : t.entry (n :: p) = none := by
  induction t with
  | nil => rfl
  | file m c rest ih =>
    obtain ⟨hm, hrest⟩ := List.ne_and_not_mem_of_not_mem_cons h
    rw [Contents.entry, if_neg hm, ih hrest]
  | dir m entries rest _ ih =>
    obtain ⟨hm, hrest⟩ := List.ne_and_not_mem_of_not_mem_cons h
    rw [Contents.entry, if_neg hm, ih hrest]

/-- What is above an entry is a directory. -/
theorem Contents.entry_closed (t : Contents F) (p : Path) (n : String)
    (h : (t.entry (p ++ [n])).isSome) : t.entry p = some .dir := by
  induction t generalizing p with
  | nil =>
    cases p with
    | nil => rfl
    | cons m p => cases h
  | file k c rest ih =>
    cases p with
    | nil => rfl
    | cons m p =>
      rw [List.cons_append, Contents.entry] at h
      rw [Contents.entry]
      split at h
      · rw [if_neg (by simp)] at h
        cases h
      next hm =>
        rw [if_neg hm]
        exact ih (m :: p) h
  | dir k entries rest ihe ih =>
    cases p with
    | nil => rfl
    | cons m p =>
      rw [List.cons_append, Contents.entry] at h
      rw [Contents.entry]
      split at h
      next hm =>
        rw [if_pos hm]
        exact ihe p h
      next hm =>
        rw [if_neg hm]
        exact ih (m :: p) h

theorem Contents.entry_file (t : Contents F) (ht : t.Distinct) (h : n ∈ t.fileNames) :
    ∃ c, t.entry [n] = some (.file c) := by
  induction t with
  | nil => cases h
  | file m c rest ih =>
    rcases List.mem_cons.mp h with rfl | h
    · exact ⟨c, by rw [Contents.entry, if_pos rfl, if_pos rfl]⟩
    · have hne : n ≠ m := fun heq => ht.1 (heq ▸ rest.fileNames_subset h)
      rw [Contents.entry, if_neg hne]
      exact ih ht.2 h
  | dir m entries rest _ ih =>
    have hne : n ≠ m := fun heq => ht.1 (heq ▸ rest.fileNames_subset h)
    rw [Contents.entry, if_neg hne]
    exact ih ht.2.2 h

@[simp] theorem mounted_append (d q : Path) (t : Contents F) : mounted d t (d ++ q) = t.entry q := by
  rw [mounted, if_pos (List.prefix_append d q), List.drop_left]

@[simp] theorem mounted_self (d : Path) (t : Contents F) : mounted d t d = some .dir := by
  have h := mounted_append d [] t
  rwa [List.append_nil, Contents.entry_nil] at h

theorem mounted_of_outside (h : ¬ d <+: p) : mounted d t p = none := if_neg h

theorem child_not_above (d : Path) (n : String) : ¬ d ++ [n] <+: d := by
  intro h
  have hlen := h.length_le
  rw [List.length_append, List.length_singleton] at hlen
  omega

theorem mounted_child (d : Path) (n m : String) (q : Path) (t : Contents F) :
    mounted (d ++ [n]) t (d ++ m :: q) = if m = n then t.entry q else none := by
  by_cases h : m = n
  · subst h
    have hq := mounted_append (d ++ [m]) q t
    rw [List.append_assoc, List.singleton_append] at hq
    rw [hq, if_pos rfl]
  · rw [if_neg h, mounted_of_outside]
    rw [List.prefix_append_right_inj, List.cons_prefix_cons]
    exact fun hp => h hp.1.symm

theorem overlay_ext {base' top top' : Path → Option (Entry F)}
    (hout : ∀ p, ¬ d <+: p → overlay base top p = overlay base' top' p)
    (hself : overlay base top d = overlay base' top' d)
    (hin : ∀ m q, overlay base top (d ++ m :: q) = overlay base' top' (d ++ m :: q)) :
    overlay base top = overlay base' top' := by
  funext p
  by_cases hp : d <+: p
  · obtain ⟨q, rfl⟩ := hp
    cases q with
    | nil => rwa [List.append_nil]
    | cons m q => exact hin m q
  · exact hout p hp

theorem overlay_nil (h : base d = some .dir) : overlay base (mounted d .nil) = base := by
  funext p
  by_cases hp : d <+: p
  · obtain ⟨q, rfl⟩ := hp
    cases q with
    | nil =>
      rw [overlay, List.append_nil, mounted_self, h]
      rfl
    | cons m q =>
      rw [overlay, mounted_append]
      rfl
  · rw [overlay, mounted_of_outside hp]
    rfl

theorem update_of_outside {e : Option (Entry F)} (h : ¬ d <+: p) :
    Function.update base (d ++ [n]) e p = base p := by
  rw [Function.update_of_ne]
  rintro rfl
  exact h (List.prefix_append _ _)

theorem overlay_file (hn : n ∉ rest.names) : overlay base (mounted d (.file n c rest)) =
    overlay (Function.update base (d ++ [n]) (some (.file c))) (mounted d rest) := by
  apply overlay_ext (d := d)
  · intro p hp
    rw [overlay, overlay, mounted_of_outside hp, mounted_of_outside hp, update_of_outside hp]
  · rw [overlay, overlay, mounted_self, mounted_self]
    rfl
  · intro m q
    rw [overlay, overlay, mounted_append, mounted_append, Contents.entry]
    by_cases hm : m = n
    · subst hm
      rw [if_pos rfl, Contents.entry_cons_eq_none hn]
      cases q with
      | nil => simp
      | cons m' q => simp [Function.update_of_ne]
    · rw [if_neg hm, Function.update_of_ne (by simp [hm])]

theorem overlay_dir (hn : n ∉ rest.names) : overlay base (mounted d (.dir n entries rest)) =
    overlay (overlay base (mounted (d ++ [n]) entries)) (mounted d rest) := by
  apply overlay_ext (d := d)
  · intro p hp
    have hpn : ¬ d ++ [n] <+: p := fun h => hp ((List.prefix_append _ _).trans h)
    simp only [overlay, mounted_of_outside hp, mounted_of_outside hpn, Option.none_or]
  · rw [overlay, overlay, mounted_self, mounted_self]
    rfl
  · intro m q
    simp only [overlay, mounted_append, mounted_child, Contents.entry]
    by_cases hm : m = n
    · subst hm
      rw [if_pos rfl, if_pos rfl, Contents.entry_cons_eq_none hn, Option.none_or]
    · rw [if_neg hm, if_neg hm, Option.none_or]

/-- That a directory is made first does not show once it is filled. -/
theorem overlay_update_dir : overlay (Function.update base d (some .dir)) (mounted d t) =
    overlay base (mounted d t) := by
  funext p
  simp only [overlay]
  by_cases hp : p = d
  · subst hp
    rw [mounted_self]
    rfl
  · rw [Function.update_of_ne hp]

end Overlays

section Copying
variable {fs : FileSystem F} {d : Path} {n : String} {c : F} {t entries : Contents F}

theorem FileSystem.entry_eq_none (h : fs.entry (d ++ [n]) = none) (q : Path) :
    fs.entry (d ++ n :: q) = none := by
  induction q using List.reverseRecOn with
  | nil => exact h
  | append_singleton q m ih =>
    by_contra hne
    have hdir := fs.closed (d ++ n :: q) m (by
      rw [List.append_assoc, List.cons_append]
      exact Option.ne_none_iff_isSome.mp hne)
    rw [ih] at hdir
    cases hdir

theorem mkdir_exist (h : (fs.entry (d ++ [n])).isSome) : mkdir d n fs = .error (.os .exist) fs := by
  unfold mkdir
  rw [bind_apply, get_apply]
  simp only [h, if_true, throw_apply]

theorem mkdir_new (hd : fs.entry d = some .dir) (h : fs.entry (d ++ [n]) = none) : ∃ fs',
    mkdir d n fs = .ok () fs' ∧ fs'.entry = Function.update fs.entry (d ++ [n]) (some .dir) := by
  refine ⟨fs.put d n .dir hd (.inl rfl), ?_, rfl⟩
  unfold mkdir
  rw [bind_apply, get_apply]
  simp only [h, hd, Option.isSome_none, Bool.false_eq_true, if_false, dite_true, set_apply]

theorem makedirs_eq (hd : fs.entry d = some .dir) : makedirs d n fs = mkdir d n fs := by
  unfold makedirs
  cases h : d.reverse with
  | nil =>
    rw [List.reverse_eq_nil_iff.mp h]
    rfl
  | cons x up =>
    have hx : (x :: up).reverse = d := by rw [← h, List.reverse_reverse]
    rw [makedirsAt, bind_apply, get_apply]
    simp only [hx, hd, Option.isNone_some, Bool.false_eq_true, if_false]

theorem copyfile_ok (hd : fs.entry d = some .dir) (h : fs.entry (d ++ [n]) ≠ some .dir) : ∃ fs',
    copyfile d n c fs = .ok () fs' ∧
      fs'.entry = Function.update fs.entry (d ++ [n]) (some (.file c)) := by
  refine ⟨fs.put d n (.file c) hd (.inr h), ?_, rfl⟩
  unfold copyfile
  rw [bind_apply, get_apply]
  simp only [h, hd, dite_false, dite_true, set_apply]

theorem collecting_ok {m : Command F Unit} {fs' : FileSystem F} (h : m fs = .ok () fs') :
    collecting d m fs = .ok [] fs' := by
  unfold collecting
  rw [tryCatch_apply, bind_ok h]
  rfl

/-- What `copyEntries` does for the entries of a directory, `copytree` does for it. -/
theorem copytree_of_copyEntries (hd : fs.entry d = some .dir) (hnew : fs.entry (d ++ [n]) = none)
    (h : ∀ fs₁ : FileSystem F, fs₁.entry (d ++ [n]) = some .dir →
      (∀ m ∈ entries.names, fs₁.entry (d ++ [n] ++ [m]) = none) →
        ∃ fs₂, copyEntries entries (d ++ [n]) fs₁ = .ok [] fs₂ ∧
          fs₂.entry = overlay fs₁.entry (mounted (d ++ [n]) entries)) :
    ∃ fs₂, copytree entries d n fs = .ok () fs₂ ∧
      fs₂.entry = overlay fs.entry (mounted (d ++ [n]) entries) := by
  obtain ⟨fs₁, hmk, hfs₁⟩ := mkdir_new hd hnew
  have hempty : ∀ m ∈ entries.names, fs₁.entry (d ++ [n] ++ [m]) = none := by
    intro m _
    rw [hfs₁, Function.update_of_ne (by simp), List.append_assoc]
    exact fs.entry_eq_none hnew [m]
  obtain ⟨fs₂, hcopy, hfs₂⟩ := h fs₁ (by rw [hfs₁, Function.update_self]) hempty
  refine ⟨fs₂, ?_, ?_⟩
  · unfold copytree
    rw [bind_ok ((makedirs_eq hd).trans hmk), bind_ok hcopy]
    rfl
  · rw [hfs₂, hfs₁, overlay_update_dir]

theorem copyEntries_ok (ht : t.Distinct) (hd : fs.entry d = some .dir)
    (hnew : ∀ n ∈ t.names, fs.entry (d ++ [n]) = none) :
    ∃ fs', copyEntries t d fs = .ok [] fs' ∧ fs'.entry = overlay fs.entry (mounted d t) := by
  induction t generalizing d fs with
  | nil => exact ⟨fs, rfl, (overlay_nil hd).symm⟩
  | file n c rest ih =>
    obtain ⟨hn, hrest⟩ := ht
    have hnone : fs.entry (d ++ [n]) = none := hnew n List.mem_cons_self
    obtain ⟨fs₁, hcopy, hfs₁⟩ := @copyfile_ok F fs d n c hd (by rw [hnone]; nofun)
    have hd₁ : fs₁.entry d = some .dir := by
      rw [hfs₁, Function.update_of_ne (by simp), hd]
    have hnew₁ : ∀ m ∈ rest.names, fs₁.entry (d ++ [m]) = none := by
      intro m hm
      have hne : m ≠ n := fun h => hn (h ▸ hm)
      rw [hfs₁, Function.update_of_ne (by simp [hne])]
      exact hnew m (List.mem_cons_of_mem n hm)
    obtain ⟨fs₂, hcopy₂, hfs₂⟩ := ih hrest hd₁ hnew₁
    refine ⟨fs₂, ?_, ?_⟩
    · rw [copyEntries, bind_ok (collecting_ok hcopy), bind_ok hcopy₂]
      rfl
    · rw [hfs₂, hfs₁, overlay_file hn]
  | dir n entries rest ihe ih =>
    obtain ⟨hn, hentries, hrest⟩ := ht
    have hnone : fs.entry (d ++ [n]) = none := hnew n List.mem_cons_self
    obtain ⟨fs₁, hcopy, hfs₁⟩ :=
      copytree_of_copyEntries hd hnone fun fs₁ hd₁ hempty => ihe hentries hd₁ hempty
    have hd₁ : fs₁.entry d = some .dir := by
      rw [hfs₁, overlay, mounted_of_outside (child_not_above d n), hd]
      rfl
    have hnew₁ : ∀ m ∈ rest.names, fs₁.entry (d ++ [m]) = none := by
      intro m hm
      have hne : m ≠ n := fun h => hn (h ▸ hm)
      rw [hfs₁, overlay, mounted_child, if_neg hne, Option.none_or]
      exact hnew m (List.mem_cons_of_mem n hm)
    obtain ⟨fs₂, hcopy₂, hfs₂⟩ := ih hrest hd₁ hnew₁
    refine ⟨fs₂, ?_, ?_⟩
    · rw [copyEntries]
      change (collecting (d ++ [n]) (copytree entries d n) >>= _) fs = _
      rw [bind_ok (collecting_ok hcopy), bind_ok hcopy₂]
      rfl
    · rw [hfs₂, hfs₁, overlay_dir hn]

theorem copytree_ok (ht : entries.Distinct) (hd : fs.entry d = some .dir)
    (hnew : fs.entry (d ++ [n]) = none) :
    ∃ fs', copytree entries d n fs = .ok () fs' ∧
      fs'.entry = overlay fs.entry (mounted (d ++ [n]) entries) :=
  copytree_of_copyEntries hd hnew fun _ => copyEntries_ok ht

theorem copytree_exist (hd : fs.entry d = some .dir) (h : (fs.entry (d ++ [n])).isSome) :
    copytree entries d n fs = .error (.os .exist) fs := by
  unfold copytree
  rw [bind_error ((makedirs_eq hd).trans (mkdir_exist h))]

end Copying

/-- A directory with everything below it. -/
structure DirTree (F : Type) where
  contents : Contents F
  distinct : contents.Distinct

namespace DirTree

def entry (t : DirTree F) : Path → Option (Entry F) := t.contents.entry

/-- The file system that consists of the tree. -/
def fileSystem (t : DirTree F) : FileSystem F where
  entry := t.entry
  root := t.contents.entry_nil
  closed := t.contents.entry_closed

end DirTree

end StoneRidge.Kit.FileTree
