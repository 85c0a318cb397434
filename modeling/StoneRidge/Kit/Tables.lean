import Mathlib.Tactic

/-!
# Tables with repeated keys

Association lists in which a key can occur more than once, and two keys are the same if
they have the same index. What a table holds under an index is a list of values; each
operation is described by it.
-/

set_option autoImplicit false

namespace StoneRidge.Kit.Tables

variable {κ ι ν : Type} [DecidableEq ι] (index : κ → ι)

/-- The values under an index, in their order. -/
def values (t : List (κ × ν)) (i : ι) : List ν :=
  (t.filter fun e => index e.1 = i).map (·.2)

def add (t : List (κ × ν)) (k : κ) (v : ν) : List (κ × ν) := t ++ [(k, v)]

/-- The first entry for the key is overwritten and the others are removed. -/
def set : List (κ × ν) → κ → ν → List (κ × ν)
  | [], k, v => [(k, v)]
  | e :: t, k, v =>
    if index e.1 = index k then (e.1, v) :: t.filter fun e' => index e'.1 ≠ index k
    else e :: set t k v

/-- The value is joined to that of the first entry for the key. -/
def merge (join : ν → ν → ν) : List (κ × ν) → κ → ν → List (κ × ν)
  | [], k, v => [(k, v)]
  | e :: t, k, v =>
    if index e.1 = index k then (e.1, join e.2 v) :: t else e :: merge join t k v

def unset (t : List (κ × ν)) (k : κ) : List (κ × ν) := t.filter fun e => index e.1 ≠ index k

def get (t : List (κ × ν)) (k : κ) : Option ν :=
  (t.find? fun e => index e.1 = index k).map (·.2)

/-- All values as one, if there are any. -/
def joinAll (join : ν → ν → ν) : List ν → List ν
  | [] => []
  | v :: vs =>
    match joinAll join vs with
    | [] => [v]
    | w :: _ => [join v w]

/-- The first value with another one joined to it. -/
def joinFirst (join : ν → ν → ν) : List ν → ν → List ν
  | [], v => [v]
  | w :: ws, v => join w v :: ws

/-- One entry for each index, where its first one was, with its values joined. -/
def compress (join : ν → ν → ν) : List (κ × ν) → List (κ × ν)
  | [] => []
  | e :: t =>
    let rest := compress join t
    (e.1, match values index rest (index e.1) with
      | [] => e.2
      | w :: _ => join e.2 w) :: rest.filter fun e' => index e'.1 ≠ index e.1

section Values
variable {t t' : List (κ × ν)} {k : κ} {v : ν} {i : ι}

theorem values_nil : values index ([] : List (κ × ν)) i = [] := rfl

theorem values_cons (e : κ × ν) : values index (e :: t) i =
    if index e.1 = i then e.2 :: values index t i else values index t i := by
  unfold values
  rw [List.filter_cons]
  by_cases h : index e.1 = i
  · rw [if_pos (by simpa using h), if_pos h, List.map_cons]
  · rw [if_neg (by simpa using h), if_neg h]

theorem values_append : values index (t ++ t') i = values index t i ++ values index t' i := by
  unfold values
  rw [List.filter_append, List.map_append]

theorem mem_values : v ∈ values index t i ↔ ∃ e ∈ t, index e.1 = i ∧ e.2 = v := by
  unfold values
  simp [and_assoc]

theorem values_filter (p : ι → Bool) (t : List (κ × ν)) (i : ι) :
    values index (t.filter fun e => p (index e.1)) i = if p i then values index t i else [] := by
  induction t with
  | nil => split <;> rfl
  | cons e t ih =>
    rw [List.filter_cons, values_cons]
    by_cases hi : index e.1 = i
    · subst hi
      cases hp : p (index e.1) with
      | true =>
        rw [hp, if_pos rfl] at ih
        rw [if_pos rfl, if_pos rfl, if_pos rfl, values_cons, if_pos rfl, ih]
      | false =>
        rw [hp, if_neg Bool.false_ne_true] at ih
        rw [if_neg Bool.false_ne_true, if_neg Bool.false_ne_true, ih]
    · rw [if_neg hi]
      split
      · rw [values_cons, if_neg hi, ih]
      · exact ih

theorem values_filter_ne {j : ι} (h : i ≠ j) :
    values index (t.filter fun e => index e.1 ≠ j) i = values index t i := by
  have hfilter := values_filter index (fun i' => decide (i' ≠ j)) t i
  rw [if_pos (decide_eq_true h)] at hfilter
  exact hfilter

theorem values_filter_self : values index (t.filter fun e => index e.1 ≠ i) i = [] := by
  have hfilter := values_filter index (fun i' => decide (i' ≠ i)) t i
  rw [if_neg (by simp)] at hfilter
  exact hfilter

theorem values_set_self : values index (set index t k v) (index k) = [v] := by
  induction t with
  | nil => rw [set, values_cons, if_pos rfl, values_nil]
  | cons e t ih =>
    unfold set
    split
    · rename_i h
      rw [values_cons, if_pos h, values_filter_self]
    · rename_i h
      rw [values_cons, if_neg h, ih]

theorem values_set_of_ne (h : i ≠ index k) :
    values index (set index t k v) i = values index t i := by
  induction t with
  | nil => rw [set, values_cons, if_neg (Ne.symm h)]
  | cons e t ih =>
    unfold set
    split
    · rename_i he
      rw [values_cons, values_cons, he, if_neg (Ne.symm h), if_neg (Ne.symm h), values_filter_ne index h]
    · rw [values_cons, values_cons, ih]

theorem values_merge_self (join : ν → ν → ν) : values index (merge index join t k v) (index k) =
    joinFirst join (values index t (index k)) v := by
  induction t with
  | nil =>
    rw [merge, values_cons, if_pos rfl, values_nil]
    rfl
  | cons e t ih =>
    unfold merge
    split
    · rename_i h
      rw [values_cons, values_cons, if_pos h, if_pos h]
      rfl
    · rename_i h
      rw [values_cons, values_cons, if_neg h, if_neg h, ih]

theorem values_merge_of_ne (join : ν → ν → ν) (h : i ≠ index k) :
    values index (merge index join t k v) i = values index t i := by
  induction t with
  | nil => rw [merge, values_cons, if_neg (Ne.symm h)]
  | cons e t ih =>
    unfold merge
    split
    · rename_i he
      rw [values_cons, values_cons, he, if_neg (Ne.symm h), if_neg (Ne.symm h)]
    · rw [values_cons, values_cons, ih]

theorem values_unset_self : values index (unset index t k) (index k) = [] :=
  values_filter_self index

theorem values_unset_of_ne (h : i ≠ index k) :
    values index (unset index t k) i = values index t i := values_filter_ne index h

/-- Merging adds the value, alone or behind one that was there. -/
theorem mem_merge {join : ν → ν → ν} {e : κ × ν} (h : e ∈ merge index join t k v) :
    e ∈ t ∨ e = (k, v) ∨ ∃ w, (e.1, w) ∈ t ∧ e.2 = join w v := by
  induction t with
  | nil =>
    rw [merge, List.mem_singleton] at h
    exact Or.inr (Or.inl h)
  | cons e' t ih =>
    unfold merge at h
    split at h
    · rcases List.mem_cons.mp h with rfl | h
      · exact Or.inr (Or.inr ⟨e'.2, List.mem_cons_self, rfl⟩)
      · exact Or.inl (List.mem_cons_of_mem _ h)
    · rcases List.mem_cons.mp h with rfl | h
      · exact Or.inl List.mem_cons_self
      · rcases ih h with hmem | heq | ⟨w, hw, hv⟩
        · exact Or.inl (List.mem_cons_of_mem _ hmem)
        · exact Or.inr (Or.inl heq)
        · exact Or.inr (Or.inr ⟨w, List.mem_cons_of_mem _ hw, hv⟩)

/-- Setting adds the value, under the key or one that was there. -/
theorem mem_set {e : κ × ν} (h : e ∈ set index t k v) :
    e ∈ t ∨ e.2 = v ∧ (e.1 = k ∨ ∃ w, (e.1, w) ∈ t) := by
  induction t with
  | nil =>
    rw [set, List.mem_singleton] at h
    rw [h]
    exact Or.inr ⟨rfl, Or.inl rfl⟩
  | cons e' t ih =>
    unfold set at h
    split at h
    · rcases List.mem_cons.mp h with rfl | h
      · exact Or.inr ⟨rfl, Or.inr ⟨e'.2, List.mem_cons_self⟩⟩
      · exact Or.inl (List.mem_cons_of_mem _ (List.mem_of_mem_filter h))
    · rcases List.mem_cons.mp h with rfl | h
      · exact Or.inl List.mem_cons_self
      · rcases ih h with hmem | ⟨hv, hk | ⟨w, hw⟩⟩
        · exact Or.inl (List.mem_cons_of_mem _ hmem)
        · exact Or.inr ⟨hv, Or.inl hk⟩
        · exact Or.inr ⟨hv, Or.inr ⟨w, List.mem_cons_of_mem _ hw⟩⟩

theorem get_eq_head? : get index t k = (values index t (index k)).head? := by
  unfold get values
  rw [List.head?_map, List.head?_filter]

theorem values_compress (join : ν → ν → ν) (t : List (κ × ν)) (i : ι) :
    values index (compress index join t) i = joinAll join (values index t i) := by
  induction t with
  | nil => rfl
  | cons e t ih =>
    unfold compress
    simp only
    rw [values_cons, values_cons]
    by_cases h : index e.1 = i
    · subst h
      rw [if_pos rfl, if_pos rfl, values_filter_self, ih, joinAll]
      cases joinAll join (values index t (index e.1)) <;> rfl
    · rw [if_neg h, if_neg h, values_filter_ne index (Ne.symm h), ih]

theorem joinAll_eq_nil {join : ν → ν → ν} {vs : List ν} : joinAll join vs = [] ↔ vs = [] := by
  cases vs with
  | nil => exact ⟨fun _ => rfl, fun _ => rfl⟩
  | cons v vs =>
    unfold joinAll
    split <;> simp

theorem joinAll_eq_singleton (join : ν → ν → ν) {vs : List ν} (h : vs ≠ []) :
    ∃ w, joinAll join vs = [w] := by
  cases vs with
  | nil => exact absurd rfl h
  | cons v vs =>
    unfold joinAll
    split
    · exact ⟨_, rfl⟩
    · exact ⟨_, rfl⟩

theorem joinAll_cons (join : ν → ν → ν) (v : ν) (vs : List ν) :
    vs = [] ∧ joinAll join (v :: vs) = [v] ∨
      ∃ w, joinAll join vs = [w] ∧ joinAll join (v :: vs) = [join v w] := by
  by_cases hvs : vs = []
  · exact Or.inl ⟨hvs, by rw [hvs]; rfl⟩
  · obtain ⟨w, hw⟩ := joinAll_eq_singleton join hvs
    refine Or.inr ⟨w, hw, ?_⟩
    rw [joinAll, hw]

theorem mem_compress {join : ν → ν → ν} {p : ν → Prop} (hjoin : ∀ v w, p v → p w → p (join v w))
    (hp : ∀ e ∈ t, p e.2) {e : κ × ν} (h : e ∈ compress index join t) :
    p e.2 ∧ ∃ v, (e.1, v) ∈ t := by
  induction t generalizing e with
  | nil => cases h
  | cons e' t ih =>
    rw [List.forall_mem_cons] at hp
    rcases List.mem_cons.mp h with rfl | h
    · refine ⟨?_, e'.2, List.mem_cons_self⟩
      simp only
      split
      · exact hp.1
      · rename_i w _ heq
        have hw : w ∈ values index (compress index join t) (index e'.1) := by
          rw [heq]
          exact List.mem_cons_self
        obtain ⟨e'', he'', _, rfl⟩ := (mem_values index).mp hw
        exact hjoin _ _ hp.1 (ih hp.2 he'').1
    · obtain ⟨hv, v, hmem⟩ := ih hp.2 (List.mem_of_mem_filter h)
      exact ⟨hv, v, List.mem_cons_of_mem _ hmem⟩

end Values

end StoneRidge.Kit.Tables
