import StoneRidge.Kit.Glob
import StoneRidge.Kit.PosixTree

/-!
# Files in a tree of directories

A disk is a tree of directories with files in them, and no file is outside of the tree.
`locate` gives the directory and the name that a path leads to, whether or not there is
a file yet.
-/

set_option autoImplicit false

namespace StoneRidge.Kit.PosixDisk
open StoneRidge.Kit.Files StoneRidge.Kit.PosixPath StoneRidge.Kit.PosixTree

/-- The name of an entry. -/
structure Name where
  text : List Char
  plain : '/' ∉ text
  isName : IsName text
  deriving DecidableEq

def Name.of? (c : List Char) : Option Name :=
  if h : '/' ∉ c ∧ IsName c then some ⟨c, h.1, h.2⟩ else none

def Name.toString (name : Name) : String := String.ofList name.text

structure Disk (F : Type) where
  tree : Tree
  files : Location → AList fun _ : Name => F
  held : ∀ l, l ∉ tree.dirs → files l = ∅

namespace Disk
variable {F : Type}

def locate (d : Disk F) (p : String) : Option (Location × Name) :=
  match revComponents p with
  | [] => none
  | c :: cs =>
    (Name.of? c).bind fun name => (d.tree.walk (d.tree.start p) cs).map fun l => (l, name)

def read (d : Disk F) (p : String) : Option F :=
  (d.locate p).bind fun e => (d.files e.1).lookup e.2

def insert (d : Disk F) (l : Location) (h : l ∈ d.tree.dirs) (name : Name) (f : F) : Disk F where
  tree := d.tree
  files := Function.update d.files l ((d.files l).insert name f)
  held x hx := by
    rw [Function.update_of_ne]
    · exact d.held x hx
    · intro heq
      exact hx (heq ▸ h)

def write (d : Disk F) (p : String) (f : F) : Option (Disk F) :=
  (d.locate p).bind fun e =>
    if h : e.1 ∈ d.tree.dirs then some (d.insert e.1 h e.2 f) else none

def erase (d : Disk F) (l : Location) (name : Name) : Disk F where
  tree := d.tree
  files := Function.update d.files l ((d.files l).erase name)
  held x hx := by
    by_cases heq : x = l
    · rw [heq, Function.update_self, d.held l (heq ▸ hx)]
      rfl
    · rw [Function.update_of_ne heq]
      exact d.held x hx

def unlink (d : Disk F) (p : String) : Option (Disk F) :=
  (d.locate p).map fun e => d.erase e.1 e.2

/-- The directories are changed; the files in a directory go with it. -/
def setTree (d : Disk F) (t : Tree) : Disk F where
  tree := t
  files l := if l ∈ t.dirs then d.files l else ∅
  held _ hl := if_neg hl

def subdir? (l : Location) : Location → Option Name
  | [] => none
  | c :: l' => if l' = l then Name.of? c else none

/-- The names in a directory, of files and of other directories. -/
def names (d : Disk F) (l : Location) : List Name :=
  (d.files l).keys ++ d.tree.dirs.filterMap (subdir? l)

def listdir (listing : Listing) (d : Disk F) (p : String) : Option (List String) :=
  if p = "" then none
  else (d.tree.walk (d.tree.start p) (revComponents p)).map fun l =>
    listing.order ((d.names l).map Name.toString)

/-- `os.path.exists`. -/
def exists? (d : Disk F) (p : String) : Bool := d.tree.exists? p || (d.read p).isSome

def access (listing : Listing) (d : Disk F) : Glob.Access where
  listdir := d.listdir listing
  lexists := d.exists?
  isdir := d.tree.exists?

/-- The files in a directory and in those below it. -/
def filesBelow (d : Disk F) (p : String) : List (Location × Name × F) :=
  match d.tree.walk (d.tree.start p) (revComponents p) with
  | none => []
  | some l => (d.tree.dirs.filter (l.isSuffixOf ·)).flatMap fun x =>
      (d.files x).entries.map fun e => (x, e.1, e.2)

end Disk

section Entries
variable {F : Type} {d d' : Disk F} {l x : Location} {name name' : Name} {f : F} {p q n : String}

theorem Name.of?_eq {c : List Char} (hplain : '/' ∉ c) (hname : IsName c) :
    Name.of? c = some ⟨c, hplain, hname⟩ := dif_pos ⟨hplain, hname⟩

theorem Name.of?_text {c : List Char} (h : Name.of? c = some name) : name.text = c := by
  unfold Name.of? at h
  split at h
  · rw [← Option.some.inj h]
  · cases h

theorem Name.toString_toList (name : Name) : name.toString.toList = name.text :=
  String.toList_ofList

theorem Name.isEntry_join (name : Name) (hp : p ≠ "") :
    IsEntry p name.toString (join p name.toString) := by
  apply PosixPath.isEntry_join hp
  · rw [name.toString_toList]
    exact name.plain
  · rw [name.toString_toList]
    exact name.isName

theorem not_mem_below {t : Tree} (hl : l ∉ t.dirs) (h : l <:+ x) : x ∉ t.dirs := by
  obtain ⟨cs, rfl⟩ := h
  induction cs with
  | nil => exact hl
  | cons c cs ih => exact fun hmem => ih (t.closed c _ hmem)

theorem walk_location {t : Tree} (h : t.Has p) :
    t.walk (t.start p) (revComponents p) = some (t.location p) := by
  rw [Tree.walk_eq (t.start_mem p)]
  exact if_pos h

theorem locate_entry (h : IsEntry p name.toString q) (hp : d.tree.Has p) :
    d.locate q = some (d.tree.location p, name) := by
  obtain ⟨cs, hq, hstart, hlex, hsub⟩ := entry_split (t := d.tree) h
  unfold Disk.locate
  rw [hq, name.toString_toList]
  simp only [Name.of?_eq name.plain name.isName, Option.bind_some, hstart]
  rw [Tree.walk_eq (d.tree.start_mem p), if_pos fun x hx => hp x (hsub x hx), hlex]
  rfl

theorem locate_components (h : d.locate p = some (l, name)) :
    ∃ cs, revComponents p = name.text :: cs := by
  unfold Disk.locate at h
  cases hp : revComponents p with
  | nil =>
    rw [hp] at h
    cases h
  | cons c cs =>
    rw [hp] at h
    obtain ⟨name', hname, hrest⟩ := Option.bind_eq_some_iff.mp h
    obtain ⟨l', _, heq⟩ := Option.map_eq_some_iff.mp hrest
    obtain ⟨-, rfl⟩ := Prod.mk.inj heq
    exact ⟨cs, by rw [Name.of?_text hname]⟩

theorem lookup_insert (hl : l ∈ d.tree.dirs) : ((d.insert l hl name f).files x).lookup name' =
    if x = l ∧ name' = name then some f else (d.files x).lookup name' := by
  by_cases hx : x = l
  · subst hx
    change (Function.update d.files x _ x).lookup name' = _
    rw [Function.update_self]
    by_cases hname : name' = name
    · subst hname
      rw [AList.lookup_insert, if_pos ⟨rfl, rfl⟩]
    · rw [AList.lookup_insert_ne hname, if_neg fun h => hname h.2]
  · change (Function.update d.files l _ x).lookup name' = _
    rw [Function.update_of_ne hx, if_neg fun h => hx h.1]

theorem lookup_erase (h : ((d.erase l name).files x).lookup name' = some f) :
    (d.files x).lookup name' = some f := by
  change (Function.update d.files l _ x).lookup name' = _ at h
  by_cases hx : x = l
  · subst hx
    rw [Function.update_self] at h
    by_cases hname : name' = name
    · subst hname
      rw [AList.lookup_erase] at h
      cases h
    · rwa [AList.lookup_erase_ne hname] at h
  · rwa [Function.update_of_ne hx] at h

theorem lookup_setTree {t : Tree} (h : ((d.setTree t).files x).lookup name = some f) :
    (d.files x).lookup name = some f := by
  change (if x ∈ t.dirs then d.files x else ∅ : AList _).lookup name = _ at h
  split at h
  · exact h
  · rw [AList.lookup_empty] at h
    cases h

theorem write_eq_some (h : d.write p f = some d') :
    ∃ l name hl, d.locate p = some (l, name) ∧ d' = d.insert l hl name f := by
  obtain ⟨⟨l, name⟩, hlocate, hwrite⟩ := Option.bind_eq_some_iff.mp h
  split at hwrite
  next hl => exact ⟨l, name, hl, hlocate, (Option.some.inj hwrite).symm⟩
  next => cases hwrite

theorem read_of_write (h : d.write p f = some d') : d'.read p = some f := by
  obtain ⟨l, name, hl, hlocate, rfl⟩ := write_eq_some h
  have hlocate' : (d.insert l hl name f).locate p = some (l, name) := hlocate
  unfold Disk.read
  rw [hlocate', Option.bind_some, lookup_insert, if_pos ⟨rfl, rfl⟩]

theorem read_entry (h : IsEntry p name.toString q) (hp : d.tree.Has p) :
    d.read q = (d.files (d.tree.location p)).lookup name := by
  unfold Disk.read
  rw [locate_entry h hp, Option.bind_some]

theorem write_entry (h : IsEntry p name.toString q) (hp : d.tree.Has p) :
    ∃ hl, d.write q f = some (d.insert (d.tree.location p) hl name f) := by
  refine ⟨hp.location_mem, ?_⟩
  unfold Disk.write
  rw [locate_entry h hp, Option.bind_some, dif_pos]

theorem mem_filesBelow (h : (x, name, f) ∈ d.filesBelow p) (hp : d.tree.Has p) :
    d.tree.location p <:+ x ∧ (d.files x).lookup name = some f := by
  unfold Disk.filesBelow at h
  rw [walk_location hp] at h
  obtain ⟨x', hx', hmem⟩ := List.mem_flatMap.mp h
  obtain ⟨e, he, heq⟩ := List.mem_map.mp hmem
  cases heq
  exact ⟨List.isSuffixOf_iff_suffix.mp (List.mem_filter.mp hx').2, AList.mem_lookup_iff.mpr he⟩

theorem glob_star {listing : Listing} {pre post : String} {found : List String}
    (hp : d.tree.Has p) (hne : p ≠ "") (hlast : p.toList.getLast? ≠ some '/')
    (hmagic : Glob.hasMagic p = false) (hpre : Glob.hasMagic pre = false)
    (hpost : Glob.hasMagic post = false) (hvisible : isHidden pre = false)
    (hslash : '/' ∉ (pre ++ "*" ++ post).toList)
    (h : Glob.glob (d.access listing) (join p (pre ++ "*" ++ post)) = some found) :
    ∀ filename ∈ found, ∃ name : Name, filename = join p name.toString ∧
      globbed pre post name.toString = true := by
  have hlist : (d.access listing).listdir p =
      some (listing.order ((d.names (d.tree.location p)).map Name.toString)) := by
    change d.listdir listing p = _
    unfold Disk.listdir
    rw [if_neg hne, walk_location hp]
    rfl
  rw [Glob.glob_entry hne hlast hmagic hslash (Glob.hasMagic_star pre post),
    Glob.glob1_star hpre hpost hvisible hne hlist] at h
  obtain rfl := Option.some.inj h
  intro filename hfilename
  obtain ⟨x, hx, rfl⟩ := List.mem_map.mp hfilename
  obtain ⟨hx, hglobbed⟩ := List.mem_filter.mp hx
  obtain ⟨name, _, rfl⟩ := List.mem_map.mp ((listing.perm _).mem_iff.mp hx)
  exact ⟨name, rfl, hglobbed⟩

end Entries

end StoneRidge.Kit.PosixDisk
