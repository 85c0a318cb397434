import Mathlib.Data.Nat.Notation
import Mathlib.Logic.Function.Basic

/-!
# A lock file

One file name as several processes see it. The name is an entry of a directory
and may be created again after it has been removed; a process that has the file
open keeps the file it has opened. Locks are held on files, not on names, and
belong to processes (POSIX record locks).
-/

set_option autoImplicit false

namespace StoneRidge.Kit

structure LockFile (P : Type) where
  /-- The file that the name refers to. -/
  entry : Option ℕ
  /-- How many files have been created. -/
  created : ℕ
  entry_lt : ∀ i, entry = some i → i < created
  content : ℕ → List Char
  holder : ℕ → Option P

namespace LockFile
variable {P : Type}

/-- `open(name, 'w')`: the file is created, or else cut to nothing. -/
def openTruncating (f : LockFile P) : ℕ × LockFile P :=
  match f.entry with
  | some i => (i, { f with content := Function.update f.content i [] })
  | none =>
    (f.created, { f with
      entry := some f.created
      created := f.created + 1
      entry_lt := by
        intro i hi
        obtain rfl := Option.some.inj hi
        exact Nat.lt_succ_self _
      content := Function.update f.content f.created [] })

/-- The bytes of a text that is written at the start of a file replace as many of the file's. -/
def writeAtStart (f : LockFile P) (i : ℕ) (text : List Char) : LockFile P :=
  { f with content := Function.update f.content i (text ++ (f.content i).drop text.length) }

def unlink (f : LockFile P) : Option (LockFile P) := 
  f.entry.map fun _ => { f with entry := none, entry_lt := nofun }

section Locks
variable [DecidableEq P]

/-- `lockf(f, LOCK_EX | LOCK_NB)`. -/
def lock (f : LockFile P) (i : ℕ) (p : P) : Option (LockFile P) :=
  if f.holder i = none ∨ f.holder i = some p then
    some { f with holder := Function.update f.holder i (some p) }
  else none

/-- The locks of a process end with it. -/
def release (f : LockFile P) (p : P) : LockFile P :=
  { f with holder := fun i => if f.holder i = some p then none else f.holder i }

end Locks

variable {f g : LockFile P} {i j : ℕ} {p q : P} {text : List Char}

@[simp] theorem openTruncating_holder : f.openTruncating.2.holder = f.holder := by
  unfold openTruncating
  split <;> rfl

theorem openTruncating_lt : f.openTruncating.1 < f.openTruncating.2.created := by
  unfold openTruncating
  split
  next i h => exact f.entry_lt i h
  next => exact Nat.lt_succ_self _

theorem created_le_openTruncating : f.created ≤ f.openTruncating.2.created := by
  unfold openTruncating
  split
  next => exact Nat.le_refl _
  next => exact Nat.le_succ _

theorem openTruncating_fresh (h : f.openTruncating.1 < f.created) :
    f.entry = some f.openTruncating.1 := by
  unfold openTruncating at h ⊢
  split
  next hi => exact hi
  next hi =>
    simp only [hi] at h
    exact absurd h (Nat.lt_irrefl _)

theorem openTruncating_entry : f.openTruncating.2.entry = some f.openTruncating.1 := by
  unfold openTruncating
  split
  next h => exact h
  next => rfl

@[simp] theorem openTruncating_content : f.openTruncating.2.content f.openTruncating.1 = [] := by
  unfold openTruncating
  split <;> exact Function.update_self ..

theorem openTruncating_of_entry (h : f.entry = some i) :
    f.openTruncating = (i, { f with content := Function.update f.content i [] }) := by
  unfold openTruncating
  split
  next j hj =>
    obtain rfl := Option.some.inj (h.symm.trans hj)
    rfl
  next hn =>
    rw [h] at hn
    cases hn

@[simp] theorem writeAtStart_entry : (f.writeAtStart i text).entry = f.entry := rfl

@[simp] theorem writeAtStart_holder : (f.writeAtStart i text).holder = f.holder := rfl

@[simp] theorem writeAtStart_content :
    (f.writeAtStart i text).content i = text ++ (f.content i).drop text.length :=
  Function.update_self ..

@[simp] theorem writeAtStart_created : (f.writeAtStart i text).created = f.created := rfl

theorem writeAtStart_content_of_ne (h : j ≠ i) :
    (f.writeAtStart i text).content j = f.content j :=
  Function.update_of_ne h ..

theorem unlink_eq_some (h : f.unlink = some g) : (∃ i, f.entry = some i) ∧
    g = { f with entry := none, entry_lt := nofun } := by
  obtain ⟨i, hi, rfl⟩ := Option.map_eq_some_iff.mp h
  exact ⟨⟨i, hi⟩, rfl⟩

section Locks
variable [DecidableEq P]

theorem lock_eq_some (h : f.lock i p = some g) :
    (f.holder i = none ∨ f.holder i = some p) ∧
      g = { f with holder := Function.update f.holder i (some p) } := by
  unfold lock at h
  split at h
  next hfree => exact ⟨hfree, (Option.some.inj h).symm⟩
  next => cases h

theorem lock_of_free (h : f.holder i = none) :
    f.lock i p = some { f with holder := Function.update f.holder i (some p) } := by
  simp only [lock, h, true_or, if_true]

@[simp] theorem release_entry : (f.release p).entry = f.entry := rfl

@[simp] theorem release_created : (f.release p).created = f.created := rfl

@[simp] theorem release_content : (f.release p).content = f.content := rfl

theorem release_holder_iff : (f.release p).holder i = some q ↔ f.holder i = some q ∧ q ≠ p := by
  simp only [release]
  split
  next h =>
    constructor
    · intro hq
      cases hq
    · rintro ⟨hq, hne⟩
      rw [h] at hq
      exact absurd (Option.some.inj hq).symm hne
  next h =>
    constructor
    · intro hq
      refine ⟨hq, ?_⟩
      rintro rfl
      exact h hq
    · exact fun hq => hq.1

end Locks

end LockFile

end StoneRidge.Kit
