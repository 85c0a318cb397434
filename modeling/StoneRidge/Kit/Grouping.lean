import Mathlib.Tactic

/-!
# Dictionaries of lists

A `defaultdict(list)` that is only ever appended to, and association lists that group
values under distinct keys.
-/

set_option autoImplicit false

namespace StoneRidge.Kit.Grouping

variable {κ β γ : Type} [DecidableEq κ]

/-- An entry is there once something has been appended to it. -/
abbrev Groups (κ β : Type) := κ → Option (List β)

def Groups.empty : Groups κ β := fun _ => none

def Groups.push (d : Groups κ β) (k : κ) (v : β) : Groups κ β :=
  Function.update d k (some ((d k).getD [] ++ [v]))

/-- An entry after the values `l` have been appended to it. -/
def extend (o : Option (List β)) (l : List β) : Option (List β) :=
  if l = [] then o else some (o.getD [] ++ l)

theorem extend_nil (o : Option (List β)) : extend o [] = o := if_pos rfl

theorem extend_append (o : Option (List β)) (l l' : List β) :
    extend (extend o l) l' = extend o (l ++ l') := by
  unfold extend
  by_cases hl : l = []
  · subst hl
    simp
  · by_cases hl' : l' = []
    · subst hl'
      simp
    · simp [hl, hl']

theorem push_apply (d : Groups κ β) (k x : κ) (v : β) :
    d.push k v x = extend (d x) (if k = x then [v] else []) := by
  unfold Groups.push extend
  by_cases h : k = x
  · subst h
    simp
  · simp [h, Function.update_of_ne (Ne.symm h)]

/-- The lists that are stored for `k` in a list of entries, one after the other. -/
def collect (f : β → List γ) (k : κ) (entries : List (κ × β)) : List γ :=
  entries.flatMap fun e => if e.1 = k then f e.2 else []

theorem collect_of_not_mem {f : β → List γ} {k : κ} {entries : List (κ × β)}
    (h : k ∉ entries.map Prod.fst) : collect f k entries = [] := by
  unfold collect
  rw [List.flatMap_eq_nil_iff]
  intro e he
  rw [if_neg]
  intro heq
  exact h (heq ▸ List.mem_map_of_mem he)

/-- With distinct keys there is one entry for `k` at most. -/
theorem collect_of_lookup {f : β → List γ} {k : κ} {entries : List (κ × β)}
    (hnodup : (entries.map Prod.fst).Nodup) {b : β} (h : (k, b) ∈ entries) :
    collect f k entries = f b := by
  induction entries with
  | nil => cases h
  | cons e entries ih =>
    rw [List.map_cons, List.nodup_cons] at hnodup
    unfold collect at ih ⊢
    rw [List.flatMap_cons]
    rcases List.mem_cons.mp h with heq | hmem
    · subst heq
      have hrest := collect_of_not_mem (f := f) hnodup.1
      unfold collect at hrest
      rw [if_pos rfl, hrest, List.append_nil]
    · have hne : e.1 ≠ k := by
        intro heq
        exact hnodup.1 (heq ▸ List.mem_map_of_mem hmem)
      rw [if_neg hne, List.nil_append]
      exact ih hnodup.2 hmem

end StoneRidge.Kit.Grouping
