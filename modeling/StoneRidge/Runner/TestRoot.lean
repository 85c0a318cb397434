import StoneRidge.Runner.TestList

/-!
# An ordinary test root

A test root whose path is not a pattern and that holds what it lists. There the requested
names that go wrong are of three kinds, and the tests are those of a plain list of names. A
directory of a disk is such a root.
-/

set_option autoImplicit false

namespace StoneRidge.Runner
open StoneRidge.Kit.Files StoneRidge.Kit.PyText StoneRidge.Kit.PosixPath StoneRidge.Kit.Glob
open StoneRidge.Kit.PosixTree StoneRidge.Kit.PosixDisk

structure Ordinary (fs : FileSystem) (testroot dirname : String) (names : List String) :
    Prop where
  looked : fs.looked testroot = some [dirname]
  names_eq : fs.names dirname = names
  nodup : names.Nodup
  entries : ∀ n : String, '/' ∉ n.toList → IsName n.toList →
    (fs.exists? (join testroot n) = true ↔ n ∈ names)

section Ordinary
variable {fs : FileSystem} {testroot dirname c : String} {names : List String}
  {enabled : Option String} {requested : List String}

theorem Ordinary.listed (h : Ordinary fs testroot dirname names) : listed fs [dirname] = names := by
  unfold Runner.listed
  rw [List.flatMap_singleton, h.names_eq]

theorem isName_of_js (h : endsWith c ".js" = true) : IsName c.toList := by
  have hlen := (endsWith_iff.mp h).length_le
  refine ⟨?_, ?_, ?_⟩
  · intro heq
    rw [heq] at hlen
    exact absurd hlen (by decide)
  · intro heq
    rw [heq] at hlen
    exact absurd hlen (by decide)
  · intro heq
    rw [heq] at hlen
    exact absurd hlen (by decide)

theorem unalike_ordinary_iff (h : Ordinary fs testroot dirname names) :
    Unalike fs testroot [dirname] c ↔
      (c ∈ names ∧ isHidden c = false ∧ endsWith c ".page" = true) ∨
        (c = "fake.js" ∧ c ∈ names) ∨
        ((isHidden c = true ∨ '/' ∈ c.toList) ∧ endsWith c ".js" = true ∧
          fs.exists? (join testroot c) = true) := by
  have hentries : ∀ n : String, endsWith n ".js" = true → '/' ∉ n.toList →
      (fs.exists? (join testroot n) = true ↔ n ∈ names) :=
    fun n hn hplain => h.entries n hplain (isName_of_js hn)
  have hfake := hentries "fake.js" (by decide) (by decide)
  have hcount : (listed fs [dirname]).count "fake.js" ≤ 1 := by
    rw [h.listed]
    exact List.nodup_iff_count_le_one.mp h.nodup _
  constructor
  · intro hunalike
    cases hunalike with
    | page hc hvisible hends =>
      rw [h.listed] at hc
      exact .inl ⟨hc, hvisible, hends⟩
    | fake hiff => exact .inr (.inl ⟨rfl, hfake.mp (hiff.mpr hcount)⟩)
    | path hpath hends hexists => exact .inr (.inr ⟨hpath, hends, hexists⟩)
    | unlisted hc hvisible hplain hne hends hexists =>
      rw [h.listed] at hc
      exact absurd ((hentries c hends hplain).mp hexists) hc
    | dangling hc hvisible hne hends hexists =>
      have hthere := (hentries c hends (listed_plain hc)).mpr (h.listed ▸ hc)
      rw [hexists] at hthere
      cases hthere
  · intro hkinds
    rcases hkinds with ⟨hc, hvisible, hends⟩ | ⟨rfl, hc⟩ | ⟨hpath, hends, hexists⟩
    · exact .page (h.listed.symm ▸ hc) hvisible hends
    · exact .fake ⟨fun _ => hcount, fun _ => hfake.mpr hc⟩
    · exact .path hpath hends hexists

theorem buildTestlist_ordinary (h : Ordinary fs testroot dirname names)
    (hplain : ∀ candidate ∈ requested, '/' ∉ candidate.toList) :
    buildTestlist fs ⟨requested, testroot, enabled⟩ =
      some (Results.buildTestlist ⟨id, fun _ => .refl _⟩ names (testMode enabled) requested) := by
  unfold Results.buildTestlist
  by_cases hne : requested = []
  · subst hne
    rw [if_pos rfl]
    cases hmode : testMode enabled with
    | true =>
      have hfake := h.entries "fake.js" (by decide) (isName_of_js (by decide))
      unfold buildTestlist
      rw [if_pos rfl, if_pos hmode, if_pos rfl]
      simp only [hfake]
    | false =>
      rw [buildTestlist_looked fs testroot hmode, h.looked, Option.map_some, found]
      unfold Access.matching
      rw [List.flatMap_singleton, List.flatMap_singleton, h.names_eq]
      rfl
  · unfold buildTestlist
    rw [if_neg hne, if_neg hne]
    congr 1
    apply List.filter_congr
    intro candidate hmem
    cases hends : endsWith candidate ".js" with
    | false => rfl
    | true =>
      rw [Bool.true_and, Bool.true_and, Bool.eq_iff_iff, decide_eq_true_eq]
      exact h.entries candidate (hplain candidate hmem) (isName_of_js hends)

end Ordinary

/-! ### A directory of a disk -/

section Disk
variable {F : Type} {d : Disk F} {listing : Listing} {p : String}

def ofDisk (listing : Listing) (d : Disk F) : FileSystem where
  toAccess := d.access listing
  exists? := d.exists?
  plain dirname names hlist n hn := by
    change d.listdir listing dirname = some names at hlist
    unfold Disk.listdir at hlist
    split at hlist
    · cases hlist
    · obtain ⟨l, _, rfl⟩ := Option.map_eq_some_iff.mp hlist
      obtain ⟨name, _, rfl⟩ := List.mem_map.mp ((listing.perm _).mem_iff.mp hn)
      rw [name.toString_toList]
      exact name.plain

theorem Name.toString_injective {a b : Name} (h : a.toString = b.toString) : a = b := by
  have htext : a.text = b.text := by rw [← a.toString_toList, ← b.toString_toList, h]
  cases a
  cases b
  cases htext
  rfl

theorem mem_names_iff (name : Name) (l : Location) :
    name ∈ d.names l ↔ ((d.files l).lookup name).isSome ∨ name.text :: l ∈ d.tree.dirs := by
  unfold Disk.names
  rw [List.mem_append, List.mem_filterMap, AList.lookup_isSome]
  apply or_congr_right
  constructor
  · intro ⟨l', hl', hsub⟩
    cases l' with
    | nil => cases hsub
    | cons c l'' =>
      change (if l'' = l then Name.of? c else none) = some name at hsub
      by_cases heq : l'' = l
      · rw [if_pos heq] at hsub
        rw [Name.of?_text hsub, ← heq]
        exact hl'
      · rw [if_neg heq] at hsub
        cases hsub
  · intro hmem
    have hsub : Disk.subdir? l (name.text :: l) = Name.of? name.text := if_pos rfl
    exact ⟨name.text :: l, hmem, hsub.trans (Name.of?_eq name.plain name.isName)⟩

theorem exists_entry_iff (name : Name) (hp : d.tree.Has p) (hne : p ≠ "") :
    d.exists? (join p name.toString) = true ↔ name ∈ d.names (d.tree.location p) := by
  have hentry := name.isEntry_join hne
  have htree := exists?_entry_iff hentry hp
  rw [name.toString_toList] at htree
  rw [mem_names_iff, or_comm, ← htree, ← read_entry hentry hp]
  unfold Disk.exists?
  rw [Bool.or_eq_true]

theorem ordinary_disk (hp : d.tree.Has p) (hne : p ≠ "") (hlast : p.toList.getLast? ≠ some '/')
    (hmagic : hasMagic p = false) (hnodup : (d.names (d.tree.location p)).Nodup) :
    Ordinary (ofDisk listing d) p p
      (listing.order ((d.names (d.tree.location p)).map Name.toString)) := by
  refine ⟨?_, ?_, ?_, ?_⟩
  · unfold Access.looked
    rw [dirPart_eq hne hlast, if_neg hne, hmagic]
    rfl
  · unfold Access.names
    rw [if_neg hne]
    change (d.listdir listing p).getD [] = _
    unfold Disk.listdir
    rw [if_neg hne, walk_location hp]
    rfl
  · rw [(listing.perm _).nodup_iff]
    exact hnodup.map fun _ _ => Name.toString_injective
  · intro n hplain hname
    have hmem := exists_entry_iff ⟨n.toList, hplain, hname⟩ hp hne
    have hstring : (⟨n.toList, hplain, hname⟩ : Name).toString = n := String.ofList_toList
    rw [hstring] at hmem
    rw [(listing.perm _).mem_iff, List.mem_map]
    change d.exists? (join p n) = true ↔ _
    rw [hmem]
    constructor
    · exact fun hn => ⟨_, hn, hstring⟩
    · intro ⟨name, hn, heq⟩
      have hsame : name = ⟨n.toList, hplain, hname⟩ := Name.toString_injective (heq.trans hstring.symm)
      exact hsame ▸ hn

end Disk

end StoneRidge.Runner
