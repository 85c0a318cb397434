import Mathlib.Data.List.TakeWhile
import StoneRidge.Kit.FileTree
import StoneRidge.Kit.PosixPath

/-!
# Zip files

A zip file is the list of its members: `ZipFile.write` appends one, and `extractall` makes
files of them (`python/src/Lib/zipfile.py:278-292`, `python/src/Lib/zipfile.py:954-1001`,
`python/src/Lib/zipfile.py:1026-1108`). Paths are POSIX paths. How the members are laid out
in bytes, compression and times are left out.
-/

set_option autoImplicit false

namespace StoneRidge.Kit.ZipFile
open StoneRidge.Kit.Exec StoneRidge.Kit.FileTree StoneRidge.Kit.PosixPath

variable {F : Type}

/-! ### Path names -/

def initialSlashes : List Char → ℕ
  | '/' :: '/' :: '/' :: _ => 1
  | '/' :: '/' :: _ => 2
  | '/' :: _ => 1
  | _ => 0

/-- One round of the loop of `posixpath.normpath` (`python/src/Lib/posixpath.py:312-338`). -/
def normComp (rooted : Bool) (newComps : List (List Char)) (comp : List Char) :
    List (List Char) :=
  if comp = [] ∨ comp = ['.'] then newComps
  else if comp ≠ ['.', '.'] ∨ (rooted = false ∧ newComps = []) ∨
      newComps.getLast? = some ['.', '.'] then newComps ++ [comp]
  else newComps.dropLast

def normComps (rooted : Bool) (comps : List (List Char)) : List (List Char) :=
  comps.foldl (normComp rooted) []

def normpath (path : List Char) : List Char :=
  if path = [] then ['.']
  else
    let slashes := initialSlashes path
    let comps := normComps (decide (slashes ≠ 0)) (components path)
    let path := List.replicate slashes '/' ++ ['/'].intercalate comps
    if path = [] then ['.'] else path

/-- A name that an entry of a directory can have, in ASCII, so that it can be joined with texts
of either kind. -/
structure Ordinary (n : String) : Prop where
  isName : IsName n.toList
  slash : '/' ∉ n.toList
  null : '\x00' ∉ n.toList
  ascii : ∀ c ∈ n.toList, c.toNat < 128

/-- The path with these components. -/
def slashed (ns : List String) : List Char := ['/'].intercalate (ns.map String.toList)

section Names
variable {n : String} {ns : List String}

theorem slashed_cons (n : String) (hne : ns ≠ []) :
    slashed (n :: ns) = n.toList ++ '/' :: slashed ns := by
  obtain ⟨m, ms, rfl⟩ := List.exists_cons_of_ne_nil hne
  simp [slashed, List.intercalate_cons_cons]

@[simp] theorem slashed_singleton (n : String) : slashed [n] = n.toList := by
  simp [slashed]

theorem components_slashed (hne : ns ≠ []) (h : ∀ n ∈ ns, Ordinary n) :
    components (slashed ns) = ns.map String.toList := by
  induction ns with
  | nil => exact absurd rfl hne
  | cons n ns ih =>
    have hn := (h n List.mem_cons_self).slash
    by_cases hns : ns = []
    · subst hns
      rw [slashed_singleton, components_of_no_slash hn]
      rfl
    · rw [slashed_cons n hns, components_append_slash, components_of_no_slash hn,
        ih hns fun m hm => h m (List.mem_cons_of_mem n hm)]
      rfl

theorem normComps_names (rooted : Bool) (done : List (List Char)) {cs : List (List Char)}
    (h : ∀ c ∈ cs, IsName c) : cs.foldl (normComp rooted) done = done ++ cs := by
  induction cs generalizing done with
  | nil => rw [List.foldl_nil, List.append_nil]
  | cons c cs ih =>
    obtain ⟨hempty, hdot, hdots⟩ := h c List.mem_cons_self
    have hc : normComp rooted done c = done ++ [c] := by
      unfold normComp
      rw [if_neg (not_or.mpr ⟨hempty, hdot⟩), if_pos (.inl hdots)]
    rw [List.foldl_cons, hc, ih _ fun d hd => h d (List.mem_cons_of_mem c hd), List.append_assoc]
    rfl

end Names

/-! ### Members -/

/-- A member; that of a directory has no content, and its name ends in a slash. -/
structure ZipInfo (F : Type) where
  filename : List Char
  content : Option F

/-- The name under which `ZipFile.write` puts `arcname`; nothing where it raises
`IndexError`. -/
def memberName (arcname : List Char) (isdir : Bool) : Option (List Char) :=
  let arcname := (normpath arcname).dropWhile (· = '/')
  if arcname = [] then none
  else
    let arcname := if isdir then arcname ++ ['/'] else arcname
    some (arcname.takeWhile (· ≠ '\x00'))

def write (arcname : List Char) (content : Option F) : Option (ZipInfo F) :=
  (memberName arcname content.isNone).map fun filename => ⟨filename, content⟩

/-- The components of the path to which `_extract_member` extracts a member. -/
def targetpath (path : Path) (filename : List Char) : Path :=
  let filename := if filename.head? = some '/' then filename.tail else filename
  -- `os.path.join` forgets `path` before a name that begins with another slash
  let above := if filename.head? = some '/' then [] else path.map String.toList
  (normComps true (above ++ components filename)).map String.ofList

/-- All upper directories, if they are not there. -/
def makeUpperdirs (upperdirs : Path) : Command F Unit := do
  let fs ← get
  match upperdirs.getLast? with
  | none => pure ()
  | some n =>
    if (fs.entry upperdirs).isSome then pure ()
    else makedirs upperdirs.dropLast n

def extractMember (path : Path) (member : ZipInfo F) : Command F Unit := do
  let target := targetpath path member.filename
  makeUpperdirs target.dropLast
  let fs ← get
  match target.getLast?, member.content with
  | some n, some content => copyfile target.dropLast n content
  | some n, none =>
    if fs.entry target = some .dir then pure () else mkdir target.dropLast n
  | none, some _ => throw (.os .isDirectory)
  | none, none => pure ()

def extractall (path : Path) (members : List (ZipInfo F)) : Command F Unit :=
  members.forM (extractMember path)

/-- The member for the entry with this path. -/
def member (ns : List String) (e : Entry F) : ZipInfo F :=
  match e with
  | .file content => ⟨slashed ns, some content⟩
  | .dir => ⟨slashed ns ++ ['/'], none⟩

section Members
variable {ns : List String} {path : Path}

theorem slashed_head (hne : ns ≠ []) (h : ∀ n ∈ ns, Ordinary n) :
    ∃ c cs, slashed ns = c :: cs ∧ c ≠ '/' := by
  obtain ⟨n, ms, rfl⟩ := List.exists_cons_of_ne_nil hne
  have hn := h n List.mem_cons_self
  obtain ⟨c, cs, hc⟩ := List.exists_cons_of_ne_nil hn.isName.1
  have hslash : c ≠ '/' := fun heq => hn.slash (by rw [hc, heq]; exact List.mem_cons_self)
  by_cases hms : ms = []
  · subst hms
    exact ⟨c, cs, by rw [slashed_singleton, hc], hslash⟩
  · exact ⟨c, cs ++ '/' :: slashed ms, by rw [slashed_cons n hms, hc]; rfl, hslash⟩

theorem null_not_mem_slashed (h : ∀ n ∈ ns, Ordinary n) : '\x00' ∉ slashed ns := by
  induction ns with
  | nil => simp [slashed]
  | cons n ns ih =>
    have hn := (h n List.mem_cons_self).null
    by_cases hns : ns = []
    · subst hns
      rwa [slashed_singleton]
    · rw [slashed_cons n hns]
      have hrest := ih fun m hm => h m (List.mem_cons_of_mem n hm)
      simp only [List.mem_append, List.mem_cons, not_or]
      exact ⟨hn, by decide, hrest⟩

theorem normpath_slashed (hne : ns ≠ []) (h : ∀ n ∈ ns, Ordinary n) :
    normpath (slashed ns) = slashed ns := by
  obtain ⟨c, cs, hc, hslash⟩ := slashed_head hne h
  have hslashes : initialSlashes (slashed ns) = 0 := by
    rw [hc]
    unfold initialSlashes
    split <;> simp_all
  have hnames : ∀ c ∈ ns.map String.toList, IsName c := by
    intro c hc
    obtain ⟨n, hn, rfl⟩ := List.mem_map.mp hc
    exact (h n hn).isName
  have hnonempty : slashed ns ≠ [] := by
    rw [hc]
    exact List.cons_ne_nil c cs
  unfold normpath
  rw [if_neg hnonempty]
  simp only [hslashes, components_slashed hne h, normComps, normComps_names _ [] hnames,
    List.replicate_zero, List.nil_append]
  exact if_neg hnonempty

/-- Ordinary names go into the file as they are. -/
theorem write_slashed (hne : ns ≠ []) (h : ∀ n ∈ ns, Ordinary n) (e : Entry F) :
    write (slashed ns) (match e with | .file content => some content | .dir => none) =
      some (member ns e) := by
  obtain ⟨c, cs, hc, hslash⟩ := slashed_head hne h
  have hnull := null_not_mem_slashed h
  have hdrop : (slashed ns).dropWhile (· = '/') = slashed ns := by
    rw [hc, List.dropWhile_cons_of_neg (by simpa using hslash)]
  have htake : ∀ l : List Char, '\x00' ∉ l → l.takeWhile (· ≠ '\x00') = l := by
    intro l hl
    rw [List.takeWhile_eq_self_iff]
    intro d hd
    simpa using fun heq : d = '\x00' => hl (heq ▸ hd)
  have hnonempty : slashed ns ≠ [] := by
    rw [hc]
    exact List.cons_ne_nil c cs
  unfold write memberName
  rw [normpath_slashed hne h, hdrop]
  cases e with
  | file content =>
    simp only [if_neg hnonempty, Option.isNone_some, Bool.false_eq_true, if_false,
      htake _ hnull, Option.map_some]
    rfl
  | dir =>
    have hslashed : '\x00' ∉ slashed ns ++ ['/'] := by
      simp only [List.mem_append, List.mem_singleton, not_or]
      exact ⟨hnull, by decide⟩
    simp only [if_neg hnonempty, Option.isNone_none, if_true, htake _ hslashed, Option.map_some]
    rfl

/-- They come out of it below the directory to which it is extracted. -/
theorem targetpath_member (hne : ns ≠ []) (h : ∀ n ∈ ns, Ordinary n)
    (hpath : ∀ n ∈ path, Ordinary n) (e : Entry F) :
    targetpath path (member ns e).filename = path ++ ns := by
  obtain ⟨c, cs, hc, hslash⟩ := slashed_head hne h
  have hnames : ∀ c ∈ path.map String.toList ++ ns.map String.toList, IsName c := by
    intro c hc
    rw [← List.map_append] at hc
    obtain ⟨n, hn, rfl⟩ := List.mem_map.mp hc
    rcases List.mem_append.mp hn with hn | hn
    · exact (hpath n hn).isName
    · exact (h n hn).isName
  have hback : (path.map String.toList ++ ns.map String.toList).map String.ofList = path ++ ns := by
    simp [Function.comp_def]
  have hfold : (normComps true (path.map String.toList ++ ns.map String.toList)).map
      String.ofList = path ++ ns := by
    unfold normComps
    rw [normComps_names true [] hnames, List.nil_append, hback]
  unfold targetpath member
  cases e with
  | file content =>
    simp only [hc, List.head?_cons, Option.some.injEq, if_neg hslash]
    rw [← hc, components_slashed hne h, hfold]
  | dir =>
    -- the slash at the end leaves an empty component
    have hcomponents : components (c :: cs ++ ['/']) = ns.map String.toList ++ [[]] := by
      rw [← hc, components_append_slash, components_slashed hne h]
      rfl
    simp only [hc, List.cons_append, List.head?_cons, Option.some.injEq, if_neg hslash]
    rw [← List.cons_append, hcomponents, ← List.append_assoc, normComps, List.foldl_append,
      List.foldl_cons, List.foldl_nil, normComp, if_pos (.inl rfl)]
    exact hfold

end Members

/-! ### Extraction -/

/-- Each entry comes after the directory that it is in, `made` being there already. -/
def TopDown : List Path → List (Path × Entry F) → Prop
  | _, [] => True
  | made, x :: l => (∃ up n, x.1 = up ++ [n] ∧ up ∈ made) ∧ TopDown (x.1 :: made) l

/-- The entries of `t` with the paths `made` have been put below `base`, and nothing else
has changed. -/
structure Filled (before : FileSystem F) (base : Path) (t : Contents F) (made : List Path)
    (fs : FileSystem F) : Prop where
  inside : ∀ p ∈ made, fs.entry (base ++ p) = t.entry p
  outside : ∀ q, (∀ p ∈ made, q ≠ base ++ p) → fs.entry q = before.entry q

section Extraction
variable {before fs : FileSystem F} {path base : Path} {t : Contents F} {made : List Path}
  {arc : String}

theorem Filled.put {fs' : FileSystem F} {p : Path} {e : Entry F} (h : Filled before base t made fs)
    (hp : t.entry p = some e) (hfs' : fs'.entry = Function.update fs.entry (base ++ p) (some e)) :
    Filled before base t (p :: made) fs' := by
  constructor
  · intro q hq
    rw [hfs']
    by_cases heq : q = p
    · rw [heq, Function.update_self, hp]
    · rw [Function.update_of_ne (by simpa using heq)]
      exact h.inside q ((List.mem_cons.mp hq).resolve_left heq)
  · intro q hq
    rw [hfs', Function.update_of_ne (hq p List.mem_cons_self)]
    exact h.outside q fun p' hp' => hq p' (List.mem_cons_of_mem p hp')

theorem Filled.same {p : Path} (h : Filled before base t made fs) (hp : p ∈ made) :
    Filled before base t (p :: made) fs :=
  ⟨fun q hq => h.inside q (by rcases List.mem_cons.mp hq with rfl | hq; exacts [hp, hq]),
    fun q hq => h.outside q fun p' hp' => hq p' (List.mem_cons_of_mem p hp')⟩

theorem makeUpperdirs_there {up : Path} (h : (fs.entry up).isSome) :
    makeUpperdirs up fs = .ok () fs := by
  unfold makeUpperdirs
  rw [bind_ok (get_apply fs)]
  cases up.getLast? with
  | none => rfl
  | some n =>
    simp only [h, if_true]
    rfl

/-- The entry `up ++ [n]` of the tree, whose directory has been made. -/
structure Next (before : FileSystem F) (path : Path) (arc : String) (t : Contents F)
    (made : List Path) (up : Path) (n : String) (e : Entry F) : Prop where
  entry : t.entry (up ++ [n]) = some e
  directory : up ∈ made
  ordinary : ∀ m ∈ up ++ [n], Ordinary m
  pathOrdinary : ∀ m ∈ path, Ordinary m
  arcOrdinary : Ordinary arc
  new : before.entry (path ++ [arc]) = none

section Step
variable {up : Path} {n : String} {e : Entry F}

theorem Next.target (h : Next before path arc t made up n e) :
    targetpath path (member (arc :: (up ++ [n])) e).filename = path ++ [arc] ++ up ++ [n] := by
  have hordinary : ∀ m ∈ arc :: (up ++ [n]), Ordinary m :=
    List.forall_mem_cons.mpr ⟨h.arcOrdinary, h.ordinary⟩
  rw [targetpath_member (List.cons_ne_nil _ _) hordinary h.pathOrdinary]
  simp

theorem Next.there (h : Next before path arc t made up n e)
    (hfs : Filled before (path ++ [arc]) t made fs) :
    fs.entry (path ++ [arc] ++ up) = some .dir := by
  rw [hfs.inside up h.directory]
  exact t.entry_closed up n (by rw [h.entry]; rfl)

/-- What is at the place of the entry: itself, if it has been extracted already. -/
theorem Next.place (h : Next before path arc t made up n e)
    (hfs : Filled before (path ++ [arc]) t made fs) :
    (up ++ [n] ∈ made ∧ fs.entry (path ++ [arc] ++ up ++ [n]) = some e) ∨
      fs.entry (path ++ [arc] ++ up ++ [n]) = none := by
  by_cases hmade : up ++ [n] ∈ made
  · left
    refine ⟨hmade, ?_⟩
    rw [List.append_assoc _ up, hfs.inside _ hmade, h.entry]
  · right
    rw [hfs.outside _ (fun p hp heq => hmade ?_)]
    · have hnone := before.entry_eq_none h.new (up ++ [n])
      simpa using hnone
    · rw [List.append_assoc _ up] at heq
      rwa [List.append_cancel_left heq]

theorem extractMember_ok (h : Next before path arc t made up n e)
    (hfs : Filled before (path ++ [arc]) t made fs) :
    ∃ fs', extractMember path (member (arc :: (up ++ [n])) e) fs = .ok () fs' ∧
      Filled before (path ++ [arc]) t ((up ++ [n]) :: made) fs' := by
  have hthere := h.there hfs
  have hupper : makeUpperdirs (path ++ [arc] ++ up) fs = .ok () fs :=
    makeUpperdirs_there (by rw [hthere]; rfl)
  have hput : ∀ fs' : FileSystem F,
      fs'.entry = Function.update fs.entry (path ++ [arc] ++ up ++ [n]) (some e) →
        Filled before (path ++ [arc]) t ((up ++ [n]) :: made) fs' :=
    fun fs' hfs' => hfs.put h.entry (by rw [hfs', List.append_assoc _ up])
  unfold extractMember
  simp only [h.target, List.dropLast_concat, List.getLast?_concat]
  rw [bind_ok hupper, bind_ok (get_apply fs)]
  cases e with
  | file content =>
    have hfree : fs.entry (path ++ [arc] ++ up ++ [n]) ≠ some .dir := by
      intro hdir
      rcases h.place hfs with ⟨-, hfile⟩ | hnone
      · rw [hfile] at hdir
        cases hdir
      · rw [hnone] at hdir
        cases hdir
    obtain ⟨fs', hcopy, hfs'⟩ := @copyfile_ok F fs _ n content hthere hfree
    exact ⟨fs', hcopy, hput fs' hfs'⟩
  | dir =>
    simp only [member]
    rcases h.place hfs with ⟨hmade, hdir⟩ | hnone
    · rw [if_pos hdir]
      exact ⟨fs, rfl, hfs.same hmade⟩
    · have hfree : fs.entry (path ++ [arc] ++ up ++ [n]) ≠ some .dir := by
        intro hdir
        rw [hnone] at hdir
        cases hdir
      rw [if_neg hfree]
      obtain ⟨fs', hmk, hfs'⟩ := mkdir_new hthere hnone
      exact ⟨fs', hmk, hput fs' hfs'⟩

end Step

theorem extractall_cons (member : ZipInfo F) (members : List (ZipInfo F)) :
    extractall path (member :: members) = (extractMember path member >>= fun _ =>
      extractall path members) := rfl

/-- What the members are that are extracted, and where. -/
structure Wanted (before : FileSystem F) (path : Path) (arc : String) (t : Contents F)
    (l : List (Path × Entry F)) : Prop where
  entries : ∀ x ∈ l, t.entry x.1 = some x.2
  ordinary : ∀ x ∈ l, ∀ m ∈ x.1, Ordinary m
  pathOrdinary : ∀ m ∈ path, Ordinary m
  arcOrdinary : Ordinary arc
  new : before.entry (path ++ [arc]) = none

theorem Wanted.tail {x : Path × Entry F} {l : List (Path × Entry F)}
    (h : Wanted before path arc t (x :: l)) : Wanted before path arc t l :=
  ⟨fun y hy => h.entries y (List.mem_cons_of_mem x hy),
    fun y hy => h.ordinary y (List.mem_cons_of_mem x hy), h.pathOrdinary, h.arcOrdinary, h.new⟩

theorem Wanted.next {x : Path × Entry F} {l : List (Path × Entry F)} {up : Path} {n : String}
    (h : Wanted before path arc t (x :: l)) (hx : x.1 = up ++ [n]) (hup : up ∈ made) :
    Next before path arc t made up n x.2 := by
  refine ⟨?_, hup, ?_, h.pathOrdinary, h.arcOrdinary, h.new⟩
  · rw [← hx]
    exact h.entries x List.mem_cons_self
  · rw [← hx]
    exact h.ordinary x List.mem_cons_self

/-- Once the directory of the archive is there, all members come into it. -/
theorem extractall_filled {l : List (Path × Entry F)} (h : Wanted before path arc t l)
    (htop : TopDown made l) (hfs : Filled before (path ++ [arc]) t made fs) :
    ∃ fs', extractall path (l.map fun x => member (arc :: x.1) x.2) fs = .ok () fs' ∧
      Filled before (path ++ [arc]) t ((l.map Prod.fst).reverse ++ made) fs' := by
  induction l generalizing made fs with
  | nil => exact ⟨fs, rfl, hfs⟩
  | cons x l ih =>
    obtain ⟨⟨up, n, hx, hup⟩, hl⟩ := htop
    obtain ⟨fs₁, hstep, hfs₁⟩ := extractMember_ok (h.next hx hup) hfs
    rw [← hx] at hstep hfs₁
    obtain ⟨fs', hrest, hfs'⟩ := ih h.tail hl hfs₁
    refine ⟨fs', ?_, ?_⟩
    · rw [List.map_cons, extractall_cons, bind_ok hstep, hrest]
    · simpa using hfs'

/-- The first member makes the directory of the archive. -/
theorem extractall_new {x : Path × Entry F} {l : List (Path × Entry F)}
    (h : Wanted before path arc t (x :: l)) (htop : TopDown [[]] (x :: l))
    (hpath : before.entry path = some .dir) :
    ∃ fs', extractall path ((x :: l).map fun x => member (arc :: x.1) x.2) before = .ok () fs' ∧
      Filled before (path ++ [arc]) t (((x :: l).map Prod.fst).reverse ++ [[]]) fs' := by
  obtain ⟨fs₁, hmk, hfs₁⟩ := mkdir_new hpath h.new
  have hfilled : Filled before (path ++ [arc]) t [[]] fs₁ := by
    have hroot : fs₁.entry (path ++ [arc]) = some .dir := by rw [hfs₁, Function.update_self]
    constructor
    · intro p hp
      rw [List.mem_singleton.mp hp, List.append_nil, hroot, t.entry_nil]
    · intro q hq
      rw [hfs₁, Function.update_of_ne (by simpa using hq)]
  obtain ⟨fs', hall, hfs'⟩ := extractall_filled h htop hfilled
  refine ⟨fs', ?_, hfs'⟩
  obtain ⟨⟨up, n, hx, hup⟩, -⟩ := htop
  have hnext := h.next hx hup
  rw [List.mem_singleton.mp hup] at hnext hx
  have htarget := hnext.target
  rw [← hx] at htarget
  rw [List.map_cons, extractall_cons] at hall ⊢
  have hsame : extractMember path (member (arc :: x.1) x.2) before =
      extractMember path (member (arc :: x.1) x.2) fs₁ := by
    have hmade : makeUpperdirs (path ++ [arc]) before = .ok () fs₁ := by
      unfold makeUpperdirs
      rw [bind_ok (get_apply before)]
      simp only [List.getLast?_concat, List.dropLast_concat, h.new, Option.isSome_none,
        Bool.false_eq_true, if_false]
      rw [makedirs_eq hpath, hmk]
    have hthere : makeUpperdirs (path ++ [arc]) fs₁ = .ok () fs₁ := by
      apply makeUpperdirs_there
      rw [hfs₁, Function.update_self]
      rfl
    unfold extractMember
    simp only [htarget, List.append_nil, List.dropLast_concat]
    rw [bind_ok hmade, bind_ok hthere]
  rw [bind_apply, hsame]
  exact hall

/-- Nothing but the tree has come to where nothing was. -/
theorem Filled.overlaid (h : Filled before base t made fs) (hnew : base = path ++ [arc])
    (hnone : before.entry base = none) (hall : ∀ p, (t.entry p).isSome → p ∈ made) :
    fs.entry = overlay before.entry (mounted base t) := by
  subst hnew
  have hbelow : ∀ p, before.entry (path ++ [arc] ++ p) = none := by
    intro p
    rw [List.append_assoc]
    exact before.entry_eq_none hnone p
  funext q
  unfold overlay
  by_cases hq : path ++ [arc] <+: q
  · obtain ⟨p, rfl⟩ := hq
    rw [mounted_append, hbelow, Option.or_none]
    by_cases hp : p ∈ made
    · exact h.inside p hp
    · have hout : ∀ p' ∈ made, path ++ [arc] ++ p ≠ path ++ [arc] ++ p' := by
        intro p' hp' heq
        rw [← List.append_cancel_left heq] at hp'
        exact hp hp'
      rw [h.outside _ hout, hbelow]
      exact (Option.not_isSome_iff_eq_none.mp fun hsome => hp (hall p hsome)).symm
  · rw [mounted_of_outside hq, Option.none_or]
    exact h.outside q fun p _ heq => hq (heq ▸ List.prefix_append _ p)

end Extraction

/-! ### Walks -/

def files : Contents F → List (String × F)
  | .nil => []
  | .file n c rest => (n, c) :: files rest
  | .dir _ _ rest => files rest

/-- What `os.walk` yields for a directory. -/
structure Walked (F : Type) where
  dirpath : String
  dirs : List String
  files : List (String × F)

/-- The walks of the subdirectories of `top`. -/
def subwalks (top : String) : Contents F → List (Walked F)
  | .nil => []
  | .file _ _ rest => subwalks top rest
  | .dir n entries rest =>
    ⟨join top n, entries.dirNames, files entries⟩ :: subwalks (join top n) entries ++
      subwalks top rest

/-- `os.walk` from the top down (`python/src/Lib/os.py:266-297`). -/
def walk (top : String) (t : Contents F) : List (Walked F) :=
  ⟨top, t.dirNames, files t⟩ :: subwalks top t

/-- The entries that a walk comes to in one directory, with their paths. -/
def here (d : Path) (dirs : List String) (files : List (String × F)) : List (Path × Entry F) :=
  dirs.map (fun n => (d ++ [n], .dir)) ++ files.map fun f => (d ++ [f.1], .file f.2)

/-- Those that it comes to below the subdirectories. -/
def below (d : Path) : Contents F → List (Path × Entry F)
  | .nil => []
  | .file _ _ rest => below d rest
  | .dir n entries rest =>
    here (d ++ [n]) entries.dirNames (files entries) ++ below (d ++ [n]) entries ++ below d rest

def listing (t : Contents F) : List (Path × Entry F) :=
  here [] t.dirNames (files t) ++ below [] t

section Listing
variable {d : Path} {t entries rest : Contents F} {n : String} {x : Path × Entry F}
  {made made' : List Path}

theorem TopDown.mono {l : List (Path × Entry F)} (h : TopDown made l) (hsub : made ⊆ made') :
    TopDown made' l := by
  induction l generalizing made made' with
  | nil => trivial
  | cons x l ih =>
    obtain ⟨⟨up, n, hx, hup⟩, hl⟩ := h
    exact ⟨⟨up, n, hx, hsub hup⟩, ih hl (List.cons_subset_cons x.1 hsub)⟩

theorem TopDown.append {l l' : List (Path × Entry F)} (h : TopDown made l)
    (h' : TopDown (l.map Prod.fst ++ made) l') : TopDown made (l ++ l') := by
  induction l generalizing made with
  | nil => exact h'
  | cons x l ih =>
    obtain ⟨hx, hl⟩ := h
    refine ⟨hx, ih hl (h'.mono ?_)⟩
    intro p hp
    simp only [List.map_cons, List.cons_append, List.mem_cons, List.mem_append] at hp ⊢
    tauto

theorem topDown_here (dirs : List String) (files : List (String × F)) (hd : d ∈ made) :
    TopDown made (here d dirs files) := by
  have hall : ∀ l : List (Path × Entry F), (∀ x ∈ l, ∃ n, x.1 = d ++ [n]) →
      ∀ made, d ∈ made → TopDown made l := by
    intro l
    induction l with
    | nil => exact fun _ _ _ => trivial
    | cons x l ih =>
      intro h made hd
      obtain ⟨n, hx⟩ := h x List.mem_cons_self
      exact ⟨⟨d, n, hx, hd⟩, ih (fun y hy => h y (List.mem_cons_of_mem x hy)) _
        (List.mem_cons_of_mem x.1 hd)⟩
  refine hall _ ?_ made hd
  intro x hx
  rcases List.mem_append.mp hx with hx | hx
  · obtain ⟨n, -, rfl⟩ := List.mem_map.mp hx
    exact ⟨n, rfl⟩
  · obtain ⟨f, -, rfl⟩ := List.mem_map.mp hx
    exact ⟨f.1, rfl⟩

theorem topDown_below (h : ∀ n ∈ t.dirNames, d ++ [n] ∈ made) : TopDown made (below d t) := by
  induction t generalizing d made with
  | nil => trivial
  | file n c rest ih => exact ih h
  | dir n entries rest ihe ih =>
    obtain ⟨hn, hrest⟩ := List.forall_mem_cons.mp h
    have hhere := topDown_here entries.dirNames (files entries) hn
    have hentries : TopDown ((here (d ++ [n]) entries.dirNames (files entries)).map Prod.fst ++ made)
        (below (d ++ [n]) entries) := by
      apply ihe
      intro m hm
      simp only [here, List.map_append, List.map_map, List.mem_append]
      exact .inl (.inl (List.mem_map.mpr ⟨m, hm, rfl⟩))
    refine (hhere.append hentries).append (ih ?_)
    intro m hm
    exact List.mem_append_right _ (hrest m hm)

/-- A walk comes to a directory before what is in it. -/
theorem topDown_listing (t : Contents F) : TopDown [[]] (listing t) := by
  refine (topDown_here t.dirNames (files t) List.mem_cons_self).append (topDown_below ?_)
  intro n hn
  simp only [here, List.map_append, List.map_map, List.mem_append]
  exact .inl (.inl (List.mem_map.mpr ⟨n, hn, rfl⟩))

theorem mem_walked_file {c : F} : x ∈ here d (Contents.file n c rest).dirNames
      (files (.file n c rest)) ++ below d (.file n c rest) ↔
    x = (d ++ [n], .file c) ∨ x ∈ here d rest.dirNames (files rest) ++ below d rest := by
  simp only [here, Contents.dirNames, files, below, List.map_cons, List.mem_append, List.mem_cons]
  tauto

theorem mem_walked_dir : x ∈ here d (Contents.dir n entries rest).dirNames
      (files (.dir n entries rest)) ++ below d (.dir n entries rest) ↔
    x = (d ++ [n], .dir) ∨
      x ∈ here (d ++ [n]) entries.dirNames (files entries) ++ below (d ++ [n]) entries ∨
      x ∈ here d rest.dirNames (files rest) ++ below d rest := by
  simp only [here, Contents.dirNames, files, below, List.map_cons, List.mem_append, List.mem_cons]
  tauto

theorem mem_names_of_entry {m : String} {p : Path} (h : (t.entry (m :: p)).isSome) :
    m ∈ t.names := by
  by_contra hm
  rw [Contents.entry_cons_eq_none hm] at h
  cases h

/-- A walk comes to exactly the entries of the tree. -/
theorem mem_walked (ht : t.Distinct) (d : Path) (x : Path × Entry F) :
    x ∈ here d t.dirNames (files t) ++ below d t ↔
      ∃ m p, x.1 = d ++ m :: p ∧ t.entry (m :: p) = some x.2 := by
  induction t generalizing d with
  | nil =>
    refine iff_of_false (List.not_mem_nil) ?_
    intro h
    obtain ⟨m, p, _, h⟩ := h
    cases h
  | file n c rest ih =>
    obtain ⟨hn, hrest⟩ := ht
    rw [mem_walked_file, ih hrest]
    constructor
    · intro h
      rcases h with rfl | ⟨m, p, hx, hentry⟩
      · exact ⟨n, [], rfl, by rw [Contents.entry, if_pos rfl, if_pos rfl]⟩
      · refine ⟨m, p, hx, ?_⟩
        have hm : m ≠ n := fun heq => hn (heq ▸ mem_names_of_entry (by rw [hentry]; rfl))
        rw [Contents.entry, if_neg hm, hentry]
    · intro h
      obtain ⟨m, p, hx, hentry⟩ := h
      rw [Contents.entry] at hentry
      split at hentry
      next hm =>
        obtain ⟨rfl, hfile⟩ := Option.ite_none_right_eq_some.mp hentry
        subst hm
        exact .inl (Prod.ext hx (Option.some.inj hfile).symm)
      next hm => exact .inr ⟨m, p, hx, hentry⟩
  | dir n entries rest ihe ih =>
    obtain ⟨hn, hentries, hrest⟩ := ht
    rw [mem_walked_dir, ihe hentries, ih hrest]
    constructor
    · intro h
      rcases h with rfl | ⟨m, p, hx, hentry⟩ | ⟨m, p, hx, hentry⟩
      · exact ⟨n, [], rfl, by rw [Contents.entry, if_pos rfl, Contents.entry_nil]⟩
      · refine ⟨n, m :: p, by rw [hx, List.append_assoc]; rfl, ?_⟩
        rw [Contents.entry, if_pos rfl, hentry]
      · refine ⟨m, p, hx, ?_⟩
        have hm : m ≠ n := fun heq => hn (heq ▸ mem_names_of_entry (by rw [hentry]; rfl))
        rw [Contents.entry, if_neg hm, hentry]
    · intro h
      obtain ⟨m, p, hx, hentry⟩ := h
      rw [Contents.entry] at hentry
      split at hentry
      next hm =>
        subst hm
        cases p with
        | nil =>
          rw [Contents.entry_nil] at hentry
          exact .inl (Prod.ext hx (Option.some.inj hentry).symm)
        | cons m' p => exact .inr (.inl ⟨m', p, by rw [hx, List.append_assoc]; rfl, hentry⟩)
      next hm => exact .inr (.inr ⟨m, p, hx, hentry⟩)

/-- Every name in the tree is ordinary. -/
def AllOrdinary : Contents F → Prop
  | .nil => True
  | .file n _ rest => Ordinary n ∧ AllOrdinary rest
  | .dir n entries rest => Ordinary n ∧ AllOrdinary entries ∧ AllOrdinary rest

theorem ordinary_of_entry (h : AllOrdinary t) {p : Path} (hp : (t.entry p).isSome) :
    ∀ m ∈ p, Ordinary m := by
  induction t generalizing p with
  | nil =>
    cases p with
    | nil => exact nofun
    | cons m p => cases hp
  | file n c rest ih =>
    cases p with
    | nil => exact nofun
    | cons m p =>
      rw [Contents.entry] at hp
      split at hp
      next hm =>
        split at hp
        next hnil =>
          subst hnil hm
          exact List.forall_mem_singleton.mpr h.1
        next => cases hp
      next => exact ih h.2 hp
  | dir n entries rest ihe ih =>
    cases p with
    | nil => exact nofun
    | cons m p =>
      rw [Contents.entry] at hp
      split at hp
      next hm =>
        subst hm
        exact List.forall_mem_cons.mpr ⟨h.1, ihe h.2.1 hp⟩
      next => exact ih h.2.2 hp

end Listing

/-- What a walk comes to, put into a zip file under one name and extracted again, is the
tree; of an empty one there is nothing to extract. -/
theorem extractall_listing {before : FileSystem F} {path : Path} {arc : String} (t : DirTree F)
    (hpath : before.entry path = some .dir) (hnew : before.entry (path ++ [arc]) = none)
    (harc : Ordinary arc) (hordinary : ∀ m ∈ path, Ordinary m) (ht : AllOrdinary t.contents) :
    ∃ fs, extractall path ((listing t.contents).map fun x => member (arc :: x.1) x.2) before =
        .ok () fs ∧
      fs.entry = if listing t.contents = [] then before.entry
        else overlay before.entry (mounted (path ++ [arc]) t.contents) := by
  have hmem := mem_walked t.distinct []
  have hentries : ∀ x ∈ listing t.contents, t.contents.entry x.1 = some x.2 := by
    intro x hx
    obtain ⟨m, p, hpath, hentry⟩ := (hmem x).mp hx
    rw [hpath, List.nil_append, hentry]
  have hwanted : Wanted before path arc t.contents (listing t.contents) :=
    ⟨hentries, fun x hx => ordinary_of_entry ht (by rw [hentries x hx]; rfl), hordinary, harc, hnew⟩
  cases hlisting : listing t.contents with
  | nil => exact ⟨before, rfl, (if_pos rfl).symm⟩
  | cons x l =>
    rw [hlisting] at hwanted
    obtain ⟨fs, hrun, hfilled⟩ := extractall_new hwanted (hlisting ▸ topDown_listing t.contents) hpath
    refine ⟨fs, hrun, ?_⟩
    rw [if_neg (List.cons_ne_nil x l)]
    refine hfilled.overlaid rfl hnew ?_
    intro p hp
    cases p with
    | nil => exact List.mem_append_right _ List.mem_cons_self
    | cons m p =>
      obtain ⟨e, he⟩ := Option.isSome_iff_exists.mp hp
      have hin : (m :: p, e) ∈ listing t.contents := (hmem _).mpr ⟨m, p, rfl, he⟩
      rw [hlisting] at hin
      exact List.mem_append_left _ (List.mem_reverse.mpr (List.mem_map_of_mem hin))

end StoneRidge.Kit.ZipFile
