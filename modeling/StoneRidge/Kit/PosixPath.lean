import Mathlib.Tactic

/-!
# POSIX path names

`join` is `posixpath.join` for two components, which `os.path.join` is on every
machine but Windows. A name is looked up component by component, so the
components are listed with the last one first.
-/

set_option autoImplicit false

namespace StoneRidge.Kit.PosixPath

def isAbs (p : String) : Bool := p.toList.head? == some '/'

def join (a b : String) : String :=
  if isAbs b then b
  else if a.toList = [] ∨ a.toList.getLast? = some '/' then a ++ b
  else a ++ "/" ++ b

/-- The texts between the slashes, in order. -/
def components : List Char → List (List Char)
  | [] => [[]]
  | c :: cs =>
    if c = '/' then [] :: components cs
    else match components cs with
      | [] => [[c]]
      | x :: xs => (c :: x) :: xs

def revComponents (p : String) : List (List Char) := (components p.toList).reverse

/-- A text that a lookup takes as the name of an entry. -/
def IsName (c : List Char) : Prop := c ≠ [] ∧ c ≠ ['.'] ∧ c ≠ ['.', '.']

instance : DecidablePred IsName :=
  fun c => inferInstanceAs (Decidable (c ≠ [] ∧ c ≠ ['.'] ∧ c ≠ ['.', '.']))

theorem components_ne_nil (cs : List Char) : components cs ≠ [] := by
  cases cs with
  | nil => simp [components]
  | cons c cs =>
    unfold components
    split
    · simp
    · split <;> simp

theorem components_of_no_slash {cs : List Char} (h : '/' ∉ cs) : components cs = [cs] := by
  induction cs with
  | nil => rfl
  | cons c cs ih =>
    obtain ⟨hc, hcs⟩ := List.ne_and_not_mem_of_not_mem_cons h
    rw [components, if_neg (Ne.symm hc), ih hcs]

theorem components_append_slash (xs ys : List Char) :
    components (xs ++ '/' :: ys) = components xs ++ components ys := by
  induction xs with
  | nil => rfl
  | cons c xs ih =>
    rw [List.cons_append, components, components, ih]
    split
    · rfl
    · cases h : components xs with
      | nil => exact absurd h (components_ne_nil xs)
      | cons x rest => rfl

theorem revComponents_append_slash (a b : String) (hb : '/' ∉ b.toList) :
    revComponents (a ++ "/" ++ b) = b.toList :: revComponents a := by
  have hlist : (a ++ "/" ++ b).toList = a.toList ++ '/' :: b.toList := by simp
  rw [revComponents, hlist, components_append_slash, components_of_no_slash hb,
    List.reverse_append]
  rfl

/-- Behind an empty text or one that ends in a slash, a text without slashes is the
last component. -/
theorem revComponents_append {a b : String} (ha : a.toList = [] ∨ a.toList.getLast? = some '/')
    (hb : '/' ∉ b.toList) : revComponents (a ++ b) = b.toList :: (revComponents a).tail := by
  rcases ha with ha | ha
  · rw [revComponents, revComponents, String.toList_append, ha, List.nil_append,
      components_of_no_slash hb]
    rfl
  · obtain ⟨xs, hxs⟩ := List.getLast?_eq_some_iff.mp ha
    have happ : (a ++ b).toList = xs ++ '/' :: b.toList := by
      rw [String.toList_append, hxs, List.append_assoc]
      rfl
    rw [revComponents, revComponents, happ, hxs, components_append_slash,
      components_append_slash, components_of_no_slash hb, List.reverse_append,
      List.reverse_append]
    rfl

theorem isAbs_append {a b : String} (ha : a.toList ≠ []) : isAbs (a ++ b) = isAbs a := by
  rw [isAbs, isAbs, String.toList_append]
  cases h : a.toList with
  | nil => exact absurd h ha
  | cons c cs => rfl

theorem isAbs_eq_false_of_no_slash {a : String} (ha : '/' ∉ a.toList) : isAbs a = false := by
  rw [isAbs]
  cases h : a.toList with
  | nil => rfl
  | cons c cs =>
    rw [h] at ha
    have hc : c ≠ '/' := fun heq => ha (heq ▸ List.mem_cons_self)
    simpa using hc

/-- Joining a text without slashes: some text that is empty or ends in a slash, and
then the joined text. -/
theorem join_eq_append (a b : String) (hb : '/' ∉ b.toList) : ∃ x : String,
    (x.toList = [] ∨ x.toList.getLast? = some '/') ∧ join a b = x ++ b := by
  unfold join
  rw [isAbs_eq_false_of_no_slash hb, if_neg Bool.false_ne_true]
  split
  next h => exact ⟨a, h, rfl⟩
  next => exact ⟨a ++ "/", .inr (by simp), rfl⟩

/-- `q` is the path of the entry `d` of `p`; a slash at the end of `p` does not count. -/
structure IsEntry (p d q : String) : Prop where
  isAbs : isAbs q = isAbs p
  components : ∃ cs, revComponents q = d.toList :: cs ∧
    (revComponents p = cs ∨ revComponents p = [] :: cs)
  name : IsName d.toList
  ne_empty : q ≠ ""

theorem isEntry_join {p d : String} (hp : p ≠ "") (hd : '/' ∉ d.toList)
    (hname : IsName d.toList) : IsEntry p d (join p d) := by
  have hne : p.toList ≠ [] := fun h => hp (String.toList_inj.mp h)
  unfold join
  rw [isAbs_eq_false_of_no_slash hd, if_neg Bool.false_ne_true]
  by_cases hslash : p.toList.getLast? = some '/'
  · rw [if_pos (.inr hslash)]
    refine ⟨isAbs_append hne, ⟨_, revComponents_append (.inr hslash) hd, .inr ?_⟩, hname,
      fun h => hp (String.append_eq_empty_iff.mp h).1⟩
    obtain ⟨xs, hxs⟩ := List.getLast?_eq_some_iff.mp hslash
    rw [revComponents, hxs, components_append_slash, List.reverse_append]
    rfl
  · rw [if_neg (not_or.mpr ⟨hne, hslash⟩)]
    have hslashed : p ++ "/" ≠ "" := fun h => hp (String.append_eq_empty_iff.mp h).1
    refine ⟨?_, ⟨_, revComponents_append_slash p d hd, .inl rfl⟩, hname,
      fun h => hslashed (String.append_eq_empty_iff.mp h).1⟩
    rw [String.append_assoc, isAbs_append hne]

end StoneRidge.Kit.PosixPath
