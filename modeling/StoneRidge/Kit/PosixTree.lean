import StoneRidge.Kit.PosixPath
import StoneRidge.Kit.Exec

/-!
# A tree of directories

Directories without symbolic links, each at a location: the list of the names on
the way to it, the deepest first. `makedirs` follows `os.makedirs`; like the
system call under it, `mkdir` reports that the directory exists or that something
on the way to it does not. What a lookup passes through is its trail.
-/

set_option autoImplicit false

namespace StoneRidge.Kit.PosixTree
open PosixPath Exec

abbrev Location := List (List Char)

instance decidableMemLocations (l : Location) (dirs : List Location) : Decidable (l ∈ dirs) :=
  inferInstance

structure Tree where
  dirs : List Location
  root : [] ∈ dirs
  closed : ∀ c l, c :: l ∈ dirs → l ∈ dirs
  cwd : Location
  cwd_mem : cwd ∈ dirs

inductive Errno where
  | exist
  | noEntry
  deriving DecidableEq, Repr

namespace Tree

def insert (t : Tree) (c : List Char) (l : Location) (h : l ∈ t.dirs) : Tree where
  dirs := (c :: l) :: t.dirs
  root := List.mem_cons_of_mem _ t.root
  closed c' l' h' := by
    rcases List.mem_cons.mp h' with heq | hmem
    · obtain ⟨-, rfl⟩ := List.cons.inj heq
      exact List.mem_cons_of_mem _ h
    · exact List.mem_cons_of_mem _ (t.closed c' l' hmem)
  cwd := t.cwd
  cwd_mem := List.mem_cons_of_mem _ t.cwd_mem

/-- Where the lookup of a path begins. -/
def start (t : Tree) (p : String) : Location := if isAbs p then [] else t.cwd

def enter (t : Tree) (l : Location) (c : List Char) : Option Location :=
  if c = [] ∨ c = ['.'] then some l
  else if c = ['.', '.'] then some l.tail
  else if c :: l ∈ t.dirs then some (c :: l)
  else none

def walk (t : Tree) (l : Location) : List (List Char) → Option Location
  | [] => some l
  | c :: cs => (t.walk l cs).bind fun l' => t.enter l' c

/-- `os.path.exists`. -/
def exists? (t : Tree) (p : String) : Bool :=
  p ≠ "" && (t.walk (t.start p) (revComponents p)).isSome

end Tree

/-- `enter` in a tree that has every directory. -/
def lexEnter (l : Location) (c : List Char) : Location :=
  if c = [] ∨ c = ['.'] then l else if c = ['.', '.'] then l.tail else c :: l

def lexical (l : Location) : List (List Char) → Location
  | [] => l
  | c :: cs => lexEnter (lexical l cs) c

/-- The locations that a lookup passes through, the last one first. -/
def trail (l : Location) : List (List Char) → List Location
  | [] => [l]
  | c :: cs => lexEnter (lexical l cs) c :: trail l cs

def mkdirAt (l : Location) : List (List Char) → EStateM Errno Tree Unit
  | [] => throw .noEntry
  | c :: cs => do
    let t ← get
    match t.walk l cs with
    | none => throw .noEntry
    | some l' =>
      if c = [] ∨ c = ['.'] ∨ c = ['.', '.'] then throw .exist
      else if c :: l' ∈ t.dirs then throw .exist
      else if h : l' ∈ t.dirs then set (t.insert c l' h)
      else throw .noEntry

/-- `if e.errno != errno.EEXIST: raise` -/
def ignoringExist (m : EStateM Errno Tree Unit) : EStateM Errno Tree Unit :=
  tryCatch m fun e => if e = .exist then pure () else throw e

/-- `os.makedirs` (`python/src/Lib/os.py:136-157`) from the components of the path.
An empty component is a further slash, which `path.split` strips. -/
def makedirsAt (l : Location) : List (List Char) → EStateM Errno Tree Unit
  | [] => throw .noEntry
  | c :: cs =>
    if c = [] then makedirsAt l cs
    else do
      let t ← get
      if (t.walk l cs).isNone then do
        ignoringExist (makedirsAt l cs)
        if c = ['.'] then pure () else mkdirAt l (c :: cs)
      else mkdirAt l (c :: cs)

def mkdir (p : String) : EStateM Errno Tree Unit := do
  let t ← get
  mkdirAt (t.start p) (revComponents p)

def makedirs (p : String) : EStateM Errno Tree Unit := do
  let t ← get
  makedirsAt (t.start p) (revComponents p)

section Walk
variable {t t' : Tree} {l x : Location} {c : List Char} {cs : List (List Char)}

theorem lexical_mem_trail : lexical l cs ∈ trail l cs := by
  cases cs with
  | nil => exact List.mem_singleton_self l
  | cons c cs => exact List.mem_cons_self

theorem lexEnter_name (hc : IsName c) : lexEnter l c = c :: l := by
  obtain ⟨h₁, h₂, h₃⟩ := hc
  rw [lexEnter, if_neg (not_or.mpr ⟨h₁, h₂⟩), if_neg h₃]

theorem Tree.tail_mem (t : Tree) (hl : l ∈ t.dirs) : l.tail ∈ t.dirs := by
  cases l with
  | nil => exact hl
  | cons d l => exact t.closed d l hl

theorem Tree.enter_eq (hl : l ∈ t.dirs) :
    t.enter l c = if lexEnter l c ∈ t.dirs then some (lexEnter l c) else none := by
  have htail := t.tail_mem hl
  unfold Tree.enter lexEnter
  split_ifs <;> rfl

/-- A lookup succeeds if every directory on its trail is there, and then it ends
at the lexical location. -/
theorem Tree.walk_eq (hl : l ∈ t.dirs) :
    t.walk l cs = if ∀ x ∈ trail l cs, x ∈ t.dirs then some (lexical l cs) else none := by
  induction cs with
  | nil => simp [Tree.walk, trail, lexical, hl]
  | cons c cs ih =>
    rw [Tree.walk, ih]
    by_cases hall : ∀ x ∈ trail l cs, x ∈ t.dirs
    · rw [if_pos hall, Option.bind_some, Tree.enter_eq (hall _ lexical_mem_trail)]
      simp only [trail, List.forall_mem_cons, lexical, and_iff_left hall]
    · rw [if_neg hall, Option.bind_none, if_neg]
      intro h
      exact hall fun x hx => h x (List.mem_cons_of_mem _ hx)

theorem Tree.walk_isSome (hl : l ∈ t.dirs) :
    (t.walk l cs).isSome ↔ ∀ x ∈ trail l cs, x ∈ t.dirs := by
  rw [Tree.walk_eq hl]
  split <;> simp_all

theorem Tree.start_mem (t : Tree) (p : String) : t.start p ∈ t.dirs := by
  unfold Tree.start
  split
  · exact t.root
  · exact t.cwd_mem

/-- The parent of a directory on a trail is on the trail too, or in the tree. -/
theorem trail_closed (hl : l ∈ t.dirs) {d : List Char} (h : d :: x ∈ trail l cs) :
    x ∈ trail l cs ∨ x ∈ t.dirs := by
  induction cs generalizing d x with
  | nil =>
    rw [← List.mem_singleton.mp h] at hl
    exact .inr (t.closed d x hl)
  | cons c cs ih =>
    rcases List.mem_cons.mp h with heq | hmem
    · unfold lexEnter at heq
      split_ifs at heq
      · -- the component does not move
        have hmem : d :: x ∈ trail l cs := heq ▸ lexical_mem_trail
        exact (ih hmem).imp_left (List.mem_cons_of_mem _)
      · -- `..`: the location left is below `d :: x`
        cases hlex : lexical l cs with
        | nil =>
          rw [hlex] at heq
          cases heq
        | cons e rest =>
          rw [hlex] at heq
          obtain rfl : d :: x = rest := heq
          have hmem : e :: d :: x ∈ trail l cs := hlex ▸ lexical_mem_trail
          rcases ih hmem with hmem | hdir
          · exact (ih hmem).imp_left (List.mem_cons_of_mem _)
          · exact .inr (t.closed d x hdir)
      · obtain ⟨-, rfl⟩ := List.cons.inj heq
        exact .inl (List.mem_cons_of_mem _ lexical_mem_trail)
    · exact (ih hmem).imp_left (List.mem_cons_of_mem _)

end Walk

/-- `t'` is `t` with every directory on the trail. -/
def Made (l : Location) (cs : List (List Char)) (t t' : Tree) : Prop :=
  t'.cwd = t.cwd ∧ ∀ x, x ∈ t'.dirs ↔ x ∈ t.dirs ∨ x ∈ trail l cs

section Makedirs
variable {t t' : Tree} {l x : Location} {c : List Char} {cs : List (List Char)}

theorem Made.of_walk (hl : l ∈ t.dirs) (h : (t.walk l cs).isSome) : Made l cs t t := by
  refine ⟨rfl, fun x => ⟨.inl, ?_⟩⟩
  rintro (hx | hx)
  · exact hx
  · exact (Tree.walk_isSome hl).mp h x hx

theorem Made.trail_mem (h : Made l cs t t') : ∀ x ∈ trail l cs, x ∈ t'.dirs :=
  fun x hx => (h.2 x).mpr (.inr hx)

/-- A component that leads to a directory of the tree adds nothing to it. -/
theorem Made.step (h : Made l cs t t') (hx : lexEnter (lexical l cs) c ∈ t'.dirs) :
    Made l (c :: cs) t t' := by
  refine ⟨h.1, fun x => ?_⟩
  rw [h.2, trail, List.mem_cons]
  constructor
  · exact Or.imp_right .inr
  · rintro (hd | rfl | hmem)
    · exact .inl hd
    · exact (h.2 _).mp hx
    · exact .inr hmem

theorem Made.insert (h : Made l cs t t') (hc : IsName c) (hp : lexical l cs ∈ t'.dirs) :
    Made l (c :: cs) t (t'.insert c (lexical l cs) hp) := by
  refine ⟨h.1, fun x => ?_⟩
  simp only [Tree.insert, trail, lexEnter_name hc, List.mem_cons, h.2]
  exact or_left_comm

theorem mkdirAt_exist (hl : l ∈ t.dirs) (hall : ∀ x ∈ trail l cs, x ∈ t.dirs)
    (hc : c = ['.', '.'] ∨ c :: lexical l cs ∈ t.dirs) :
    mkdirAt l (c :: cs) t = .error .exist t := by
  rw [mkdirAt, bind_apply, get_apply]
  simp only [Tree.walk_eq hl, if_pos hall]
  rcases hc with rfl | hc
  · simp
  · simp [hc]

theorem mkdirAt_new (hl : l ∈ t.dirs) (hall : ∀ x ∈ trail l cs, x ∈ t.dirs) (hc : IsName c)
    (hnew : c :: lexical l cs ∉ t.dirs) : ∃ hp,
      mkdirAt l (c :: cs) t = .ok () (t.insert c (lexical l cs) hp) := by
  have hp : lexical l cs ∈ t.dirs := hall _ lexical_mem_trail
  obtain ⟨h₁, h₂, h₃⟩ := hc
  refine ⟨hp, ?_⟩
  rw [mkdirAt, bind_apply, get_apply]
  simp only [Tree.walk_eq hl, if_pos hall, h₁, h₂, h₃, false_or, ite_false, hnew, hp, dite_true]
  rfl

theorem ignoringExist_ok {m : EStateM Errno Tree Unit} (h : m t = .ok () t') :
    ignoringExist m t = .ok () t' := by
  rw [ignoringExist, tryCatch_apply, h]

theorem ignoringExist_exist {m : EStateM Errno Tree Unit} (h : m t = .error .exist t') :
    ignoringExist m t = .ok () t' := by
  rw [ignoringExist, tryCatch_apply, h]
  rfl

/-- `makedirs` first makes the way to the directory, if that is missing. -/
theorem makedirsAt_cons (hl : l ∈ t.dirs) (h₁ : c ≠ []) (h₂ : c ≠ ['.'])
    (ih : t.walk l cs = none → ∃ t₁, Made l cs t t₁ ∧
      ignoringExist (makedirsAt l cs) t = .ok () t₁) :
    ∃ t₁, Made l cs t t₁ ∧ makedirsAt l (c :: cs) t = mkdirAt l (c :: cs) t₁ := by
  rw [makedirsAt, if_neg h₁, bind_apply, get_apply]
  cases hw : t.walk l cs with
  | none =>
    obtain ⟨t₁, hmade, hrun⟩ := ih hw
    refine ⟨t₁, hmade, ?_⟩
    simp only [hw, Option.isNone_none, ite_true, bind_ok hrun, if_neg h₂]
  | some l' =>
    refine ⟨t, Made.of_walk hl (by rw [hw]; rfl), ?_⟩
    simp only [hw, Option.isNone_some, Bool.false_eq_true, ite_false]

/-- On a way that is missing, every directory is made; an error that a directory
exists does not stop this. -/
theorem makedirsAt_missing (hl : l ∈ t.dirs) (hw : t.walk l cs = none) :
    ∃ t', Made l cs t t' ∧ ignoringExist (makedirsAt l cs) t = .ok () t' := by
  induction cs with
  | nil => cases hw
  | cons c cs ih =>
    by_cases h₁ : c = []
    · subst h₁
      have hw' : t.walk l cs = none := by simpa [Tree.walk, Tree.enter] using hw
      obtain ⟨t', hmade, hrun⟩ := ih hw'
      refine ⟨t', hmade.step ?_, ?_⟩
      · exact hmade.trail_mem _ lexical_mem_trail
      · rw [makedirsAt, if_pos rfl]
        exact hrun
    by_cases h₂ : c = ['.']
    · subst h₂
      have hw' : t.walk l cs = none := by simpa [Tree.walk, Tree.enter] using hw
      obtain ⟨t', hmade, hrun⟩ := ih hw'
      refine ⟨t', hmade.step ?_, ?_⟩
      · exact hmade.trail_mem _ lexical_mem_trail
      · apply ignoringExist_ok
        rw [makedirsAt, if_neg h₁, bind_apply, get_apply]
        simp only [hw', Option.isNone_none, ite_true, bind_ok hrun]
        rfl
    obtain ⟨t₁, hmade, hrun⟩ := makedirsAt_cons hl h₁ h₂ ih
    have hl₁ : l ∈ t₁.dirs := (hmade.2 l).mpr (.inl hl)
    have htail := t₁.tail_mem (hmade.trail_mem _ lexical_mem_trail)
    by_cases h₃ : c = ['.', '.']
    · subst h₃
      refine ⟨t₁, hmade.step htail, ignoringExist_exist ?_⟩
      rw [hrun]
      exact mkdirAt_exist hl₁ hmade.trail_mem (.inl rfl)
    by_cases hnew : c :: lexical l cs ∈ t₁.dirs
    · refine ⟨t₁, hmade.step ?_, ignoringExist_exist ?_⟩
      · rwa [lexEnter_name ⟨h₁, h₂, h₃⟩]
      · rw [hrun]
        exact mkdirAt_exist hl₁ hmade.trail_mem (.inr hnew)
    · obtain ⟨hp, hok⟩ := mkdirAt_new hl₁ hmade.trail_mem ⟨h₁, h₂, h₃⟩ hnew
      refine ⟨_, hmade.insert ⟨h₁, h₂, h₃⟩ hp, ignoringExist_ok ?_⟩
      rw [hrun]
      exact hok

theorem makedirsAt_name (hl : l ∈ t.dirs) (hc : IsName c) :
    ∃ t₁, Made l cs t t₁ ∧ makedirsAt l (c :: cs) t = mkdirAt l (c :: cs) t₁ :=
  makedirsAt_cons hl hc.1 hc.2.1 (makedirsAt_missing hl)

/-- Making a directory fails, with the error that it exists, exactly if it is in the
tree or if it lies on the way to itself. -/
theorem makedirsAt_ok_iff (hl : l ∈ t.dirs) (hc : IsName c) :
    (∃ t', makedirsAt l (c :: cs) t = .ok () t') ↔
      c :: lexical l cs ∉ t.dirs ∧ c :: lexical l cs ∉ trail l cs := by
  obtain ⟨t₁, hmade, hrun⟩ := @makedirsAt_name t l c cs hl hc
  have hl₁ : l ∈ t₁.dirs := (hmade.2 l).mpr (.inl hl)
  rw [hrun, ← not_or, ← hmade.2]
  constructor
  · rintro ⟨t', hok⟩ hmem
    rw [mkdirAt_exist hl₁ hmade.trail_mem (.inr hmem)] at hok
    cases hok
  · intro hnew
    obtain ⟨hp, hok⟩ := mkdirAt_new hl₁ hmade.trail_mem hc hnew
    exact ⟨_, hok⟩

theorem makedirsAt_made (hl : l ∈ t.dirs) (hc : IsName c)
    (h : makedirsAt l (c :: cs) t = .ok () t') : Made l (c :: cs) t t' := by
  obtain ⟨t₁, hmade, hrun⟩ := @makedirsAt_name t l c cs hl hc
  have hl₁ : l ∈ t₁.dirs := (hmade.2 l).mpr (.inl hl)
  rw [hrun] at h
  by_cases hmem : c :: lexical l cs ∈ t₁.dirs
  · rw [mkdirAt_exist hl₁ hmade.trail_mem (.inr hmem)] at h
    cases h
  · obtain ⟨hp, hok⟩ := mkdirAt_new hl₁ hmade.trail_mem hc hmem
    rw [hok] at h
    cases h
    exact hmade.insert hc hp

end Makedirs

def Tree.location (t : Tree) (p : String) : Location := lexical (t.start p) (revComponents p)

/-- The path `p` leads to a directory of `t`. -/
def Tree.Has (t : Tree) (p : String) : Prop :=
  ∀ x ∈ trail (t.start p) (revComponents p), x ∈ t.dirs

section Entries
variable {t t' : Tree} {p d q : String}

theorem Tree.exists?_iff : t.exists? p = true ↔ p ≠ "" ∧ t.Has p := by
  rw [Tree.exists?, Bool.and_eq_true, decide_eq_true_eq, Tree.walk_isSome (t.start_mem p)]
  rfl

theorem Tree.Has.location_mem (h : t.Has p) : t.location p ∈ t.dirs := h _ lexical_mem_trail

theorem Tree.start_of_isAbs (hcwd : t'.cwd = t.cwd) (hq : isAbs q = isAbs p) :
    t'.start q = t.start p := by
  rw [Tree.start, Tree.start, hcwd, hq]

/-- `t'` is `t` with one more directory. -/
structure Added (l : Location) (t t' : Tree) : Prop where
  cwd : t'.cwd = t.cwd
  mem : ∀ x, x ∈ t'.dirs ↔ x = l ∨ x ∈ t.dirs

theorem Added.location_eq {l : Location} (h : Added l t t') (p : String) :
    t'.location p = t.location p := by
  rw [Tree.location, Tree.location, Tree.start_of_isAbs h.cwd rfl]

theorem Added.has {l : Location} (h : Added l t t') (hp : t.Has p) : t'.Has p := by
  intro x hx
  rw [Tree.start_of_isAbs h.cwd rfl] at hx
  exact (h.mem x).mpr (.inr (hp x hx))

theorem added_insert {c : List Char} {l : Location} (hl : l ∈ t.dirs) :
    Added (c :: l) t (t.insert c l hl) := ⟨rfl, fun _ => List.mem_cons⟩

theorem entry_split (h : IsEntry p d q) : ∃ cs, revComponents q = d.toList :: cs ∧
    t.start q = t.start p ∧ lexical (t.start p) cs = t.location p ∧
      ∀ x ∈ trail (t.start p) cs, x ∈ trail (t.start p) (revComponents p) := by
  obtain ⟨cs, hq, hp⟩ := h.components
  refine ⟨cs, hq, Tree.start_of_isAbs rfl h.isAbs, ?_⟩
  rw [Tree.location]
  rcases hp with hp | hp
  · rw [hp]
    exact ⟨rfl, fun _ hx => hx⟩
  · rw [hp]
    exact ⟨rfl, fun _ hx => List.mem_cons_of_mem _ hx⟩

theorem location_entry (h : IsEntry p d q) : t.location q = d.toList :: t.location p := by
  obtain ⟨cs, hq, hstart, hlex, -⟩ := @entry_split t p d q h
  rw [Tree.location, hq, hstart, lexical, hlex, lexEnter_name h.name]

theorem trail_entry (h : IsEntry p d q) {x : Location}
    (hx : x ∈ trail (t.start q) (revComponents q)) :
    x = d.toList :: t.location p ∨ x ∈ trail (t.start p) (revComponents p) := by
  obtain ⟨cs, hq, hstart, hlex, hsub⟩ := @entry_split t p d q h
  rw [hq, hstart, trail, hlex, lexEnter_name h.name] at hx
  exact (List.mem_cons.mp hx).imp_right (hsub x)

theorem has_entry (h : IsEntry p d q) (hp : t.Has p) (hd : d.toList :: t.location p ∈ t.dirs) :
    t.Has q := by
  intro x hx
  rcases trail_entry h hx with rfl | hx
  · exact hd
  · exact hp x hx

/-- A new entry of a directory is made by `mkdir` and by `makedirs` alike. -/
theorem mkdir_entry (h : IsEntry p d q) (hp : t.Has p) (hd : d.toList :: t.location p ∉ t.dirs) :
    ∃ t', mkdir q t = .ok () t' ∧ Added (d.toList :: t.location p) t t' := by
  obtain ⟨cs, hq, hstart, hlex, hsub⟩ := @entry_split t p d q h
  rw [← hlex] at hd ⊢
  obtain ⟨hl, hok⟩ := mkdirAt_new (t.start_mem p) (fun x hx => hp x (hsub x hx)) h.name hd
  refine ⟨_, ?_, added_insert hl⟩
  rw [mkdir, bind_apply, get_apply]
  simp only [hq, hstart]
  exact hok

theorem makedirs_entry (h : IsEntry p d q) (hp : t.Has p)
    (hd : d.toList :: t.location p ∉ t.dirs) :
    ∃ t', makedirs q t = .ok () t' ∧ Added (d.toList :: t.location p) t t' := by
  obtain ⟨cs, hq, hstart, hlex, hsub⟩ := @entry_split t p d q h
  have hall : ∀ x ∈ trail (t.start p) cs, x ∈ t.dirs := fun x hx => hp x (hsub x hx)
  have hwalk := (Tree.walk_isSome (t.start_mem p)).mpr hall
  rw [← hlex] at hd ⊢
  obtain ⟨hl, hok⟩ := mkdirAt_new (t.start_mem p) hall h.name hd
  refine ⟨_, ?_, added_insert hl⟩
  rw [makedirs, bind_apply, get_apply]
  simp only [hq, hstart]
  rw [makedirsAt, if_neg h.name.1, bind_apply, get_apply]
  simp only [Option.isNone_eq_false_iff.mpr hwalk, Bool.false_eq_true, ite_false]
  exact hok

section Makedirs
variable {c : List Char} {cs : List (List Char)}

theorem location_split (h : revComponents p = c :: cs) (hc : IsName c) :
    t.location p = c :: lexical (t.start p) cs := by
  rw [Tree.location, h, lexical, lexEnter_name hc]

theorem makedirs_ok_iff (h : revComponents p = c :: cs) (hc : IsName c) :
    (∃ t', makedirs p t = .ok () t') ↔
      t.location p ∉ t.dirs ∧ t.location p ∉ trail (t.start p) cs := by
  rw [location_split h hc, ← makedirsAt_ok_iff (t.start_mem p) hc, ← h]
  rfl

theorem makedirs_made (h : revComponents p = c :: cs) (hc : IsName c)
    (hok : makedirs p t = .ok () t') : Made (t.start p) (revComponents p) t t' := by
  rw [h]
  apply makedirsAt_made (t.start_mem p) hc
  rw [← h]
  exact hok

theorem exists?_entry_iff {d q : String} (h : IsEntry p d q) (hp : t.Has p) :
    t.exists? q = true ↔ d.toList :: t.location p ∈ t.dirs := by
  rw [Tree.exists?_iff, and_iff_right h.ne_empty]
  constructor
  · intro hq
    rw [← location_entry h]
    exact hq.location_mem
  · exact has_entry h hp

/-- In a directory that is there, an entry can be made exactly if it is new. -/
theorem makedirs_entry_iff {d q : String} (h : IsEntry p d q) (hp : t.Has p) :
    (∃ t', makedirs q t = .ok () t') ↔ d.toList :: t.location p ∉ t.dirs := by
  constructor
  · intro hok hmem
    obtain ⟨cs, hq, -⟩ := h.components
    rw [makedirs_ok_iff hq h.name, location_entry h] at hok
    exact hok.1 hmem
  · intro hnew
    obtain ⟨t', hok, -⟩ := makedirs_entry h hp hnew
    exact ⟨t', hok⟩

/-- A directory that has just been made is empty. -/
theorem makedirs_empty (h : revComponents p = c :: cs) (hc : IsName c)
    (hok : makedirs p t = .ok () t') (d : List Char) : d :: t.location p ∉ t'.dirs := by
  obtain ⟨hnew, hway⟩ := (makedirs_ok_iff h hc).mp ⟨t', hok⟩
  rw [(makedirs_made h hc hok).2, h, trail, List.mem_cons, not_or, not_or]
  refine ⟨fun hmem => hnew (t.closed d _ hmem), ?_, ?_⟩
  · rw [location_split h hc, lexEnter_name hc]
    exact List.cons_ne_self _ _
  · intro hmem
    rcases trail_closed (t.start_mem p) hmem with hmem | hmem
    · exact hway hmem
    · exact hnew hmem

end Makedirs

/-- `t'` has every directory of `t`. -/
structure Grown (t t' : Tree) : Prop where
  cwd : t'.cwd = t.cwd
  mem : ∀ x ∈ t.dirs, x ∈ t'.dirs

theorem Grown.has (h : Grown t t') (hp : t.Has p) : t'.Has p := by
  intro x hx
  rw [Tree.start_of_isAbs h.cwd rfl] at hx
  exact h.mem x (hp x hx)

theorem Grown.location_eq (h : Grown t t') (p : String) : t'.location p = t.location p := by
  rw [Tree.location, Tree.location, Tree.start_of_isAbs h.cwd rfl]

theorem grown_insert {c : List Char} {l : Location} (hl : l ∈ t.dirs) :
    Grown t (t.insert c l hl) := ⟨rfl, fun _ => List.mem_cons_of_mem _⟩

theorem mkdirAt_grown {l : Location} {cs : List (List Char)} (h : mkdirAt l cs t = .ok () t') :
    Grown t t' := by
  cases cs with
  | nil => cases h
  | cons c cs =>
    rw [mkdirAt, bind_apply, get_apply] at h
    cases hw : t.walk l cs with
    | none =>
      simp only [hw] at h
      cases h
    | some l' =>
      simp only [hw] at h
      split_ifs at h with _ _ hl
      all_goals cases h
      exact grown_insert hl

theorem mkdir_grown (h : mkdir p t = .ok () t') : Grown t t' := by
  rw [mkdir, bind_apply, get_apply] at h
  exact mkdirAt_grown h

end Entries

end StoneRidge.Kit.PosixTree
