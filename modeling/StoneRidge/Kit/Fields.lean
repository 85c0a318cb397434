import Mathlib.Tactic

/-!
# Fields of a text

A text is cut at every separator, and what is not empty is a field of it. Of several
fields with the same key the first one is kept.
-/

set_option autoImplicit false

namespace StoneRidge.Kit.Fields

variable {α κ : Type}

def fields (isSep : α → Bool) (text : List α) : List (List α) :=
  (text.splitOnP isSep).filter (· ≠ [])

/-- The first entry of each key. -/
def distinct [DecidableEq κ] (key : α → κ) : List α → List α
  | [] => []
  | x :: l => x :: (distinct key l).filter fun y => key y ≠ key x

section Fields
variable {isSep : α → Bool} {a b f text : List α} {c : α}

theorem fields_nil : fields isSep [] = [] := rfl

/-- A separator between two texts keeps their fields apart. -/
theorem fields_append_cons (hc : isSep c = true) (a b : List α) :
    fields isSep (a ++ c :: b) = fields isSep a ++ fields isSep b := by
  unfold fields
  rw [List.splitOnP_append_cons a b hc, List.filter_append]

theorem fields_eq_singleton (hf : ∀ c ∈ f, isSep c = false) (hne : f ≠ []) :
    fields isSep f = [f] := by
  unfold fields
  rw [List.splitOnP_eq_singleton hf]
  exact List.filter_cons_of_pos (by simpa using hne)

theorem fields_append_left (ha : ∀ c ∈ a, isSep c = true) (b : List α) :
    fields isSep (a ++ b) = fields isSep b := by
  induction a with
  | nil => rfl
  | cons c a ih =>
    rw [List.forall_mem_cons] at ha
    have hcons := fields_append_cons ha.1 [] (a ++ b)
    rw [fields_nil, List.nil_append, List.nil_append] at hcons
    rw [List.cons_append, hcons, ih ha.2]

theorem fields_append_right (hb : ∀ c ∈ b, isSep c = true) (a : List α) :
    fields isSep (a ++ b) = fields isSep a := by
  cases b with
  | nil => rw [List.append_nil]
  | cons c b =>
    rw [List.forall_mem_cons] at hb
    have hrest := fields_append_left hb.2 []
    rw [List.append_nil, fields_nil] at hrest
    rw [fields_append_cons hb.1, hrest, List.append_nil]

/-- The fields of a text are made of the characters of it that separate nothing. -/
theorem mem_fields (hf : f ∈ fields isSep text) :
    f ≠ [] ∧ ∀ c ∈ f, c ∈ text ∧ isSep c = false := by
  have hpart : f ∈ text.splitOnP isSep ∧ f ≠ [] := by
    unfold fields at hf
    rw [List.mem_filter, decide_eq_true_eq] at hf
    exact hf
  refine ⟨hpart.2, ?_⟩
  replace hpart := hpart.1
  clear hf
  induction text generalizing f with
  | nil =>
    rw [List.splitOnP_nil, List.mem_singleton] at hpart
    rw [hpart]
    intro c hc
    cases hc
  | cons x text ih =>
    rw [List.splitOnP_cons_eq_if_modifyHead] at hpart
    by_cases hx : isSep x = true
    · rw [if_pos hx] at hpart
      rcases List.mem_cons.mp hpart with rfl | hpart
      · intro c hc
        cases hc
      · intro c hc
        obtain ⟨hmem, hsep⟩ := ih hpart c hc
        exact ⟨List.mem_cons_of_mem _ hmem, hsep⟩
    · rw [if_neg hx] at hpart
      obtain ⟨g, gs, hsplit⟩ := List.exists_cons_of_ne_nil (List.splitOnP_ne_nil isSep text)
      rw [hsplit] at ih hpart
      rw [List.modifyHead_cons] at hpart
      intro c hc
      rcases List.mem_cons.mp hpart with rfl | hpart
      · rcases List.mem_cons.mp hc with rfl | hc
        · exact ⟨List.mem_cons_self, Bool.eq_false_iff.mpr hx⟩
        · obtain ⟨hmem, hsep⟩ := ih List.mem_cons_self c hc
          exact ⟨List.mem_cons_of_mem _ hmem, hsep⟩
      · obtain ⟨hmem, hsep⟩ := ih (List.mem_cons_of_mem _ hpart) c hc
        exact ⟨List.mem_cons_of_mem _ hmem, hsep⟩

theorem fields_intercalate {fs : List (List α)} (hc : isSep c = true)
    (hfs : ∀ f ∈ fs, f ≠ [] ∧ ∀ x ∈ f, isSep x = false) :
    fields isSep ([c].intercalate fs) = fs := by
  induction fs with
  | nil => rfl
  | cons f fs ih =>
    rw [List.forall_mem_cons] at hfs
    cases fs with
    | nil => rw [List.intercalate_singleton, fields_eq_singleton hfs.1.2 hfs.1.1]
    | cons f' fs =>
      rw [List.intercalate_cons_cons, List.append_assoc, List.singleton_append,
        fields_append_cons hc, fields_eq_singleton hfs.1.2 hfs.1.1, ih hfs.2]
      rfl

theorem mem_intercalate {fs : List (List α)} {x : α} (h : x ∈ [c].intercalate fs) :
    x = c ∨ ∃ f ∈ fs, x ∈ f := by
  induction fs with
  | nil => cases h
  | cons f fs ih =>
    cases fs with
    | nil =>
      rw [List.intercalate_singleton] at h
      exact Or.inr ⟨f, List.mem_cons_self, h⟩
    | cons f' fs =>
      rw [List.intercalate_cons_cons, List.mem_append, List.mem_append, List.mem_singleton] at h
      rcases h with (hf | hc) | hrest
      · exact Or.inr ⟨f, List.mem_cons_self, hf⟩
      · exact Or.inl hc
      · rcases ih hrest with hc | ⟨g, hg, hx⟩
        · exact Or.inl hc
        · exact Or.inr ⟨g, List.mem_cons_of_mem _ hg, hx⟩

end Fields

section Distinct
variable [DecidableEq κ] {key : α → κ} {a b l : List α}

theorem distinct_subset : distinct key l ⊆ l := by
  induction l with
  | nil => exact List.Subset.refl _
  | cons x l ih =>
    intro y hy
    rcases List.mem_cons.mp hy with rfl | hy
    · exact List.mem_cons_self
    · exact List.mem_cons_of_mem _ (ih (List.mem_of_mem_filter hy))

theorem distinct_eq_nil_iff : distinct key l = [] ↔ l = [] := by
  cases l with
  | nil => exact Iff.rfl
  | cons x l => simp [distinct]

theorem nodup_distinct (key : α → κ) (l : List α) : ((distinct key l).map key).Nodup := by
  induction l with
  | nil => exact List.nodup_nil
  | cons x l ih =>
    rw [distinct, List.map_cons, List.nodup_cons]
    constructor
    · intro hmem
      obtain ⟨y, hy, hkey⟩ := List.mem_map.mp hmem
      exact of_decide_eq_true (List.mem_filter.mp hy).2 hkey
    · exact ih.sublist ((List.filter_sublist).map key)

theorem distinct_of_nodup (h : (l.map key).Nodup) : distinct key l = l := by
  induction l with
  | nil => rfl
  | cons x l ih =>
    rw [List.map_cons, List.nodup_cons] at h
    rw [distinct, ih h.2, List.filter_eq_self.mpr]
    intro y hy
    rw [decide_eq_true_eq]
    intro hkey
    exact h.1 (hkey ▸ List.mem_map_of_mem hy)

theorem distinct_append (a b : List α) : distinct key (a ++ b) =
    distinct key a ++ (distinct key b).filter fun y => key y ∉ a.map key := by
  induction a with
  | nil => simp [distinct]
  | cons x a ih =>
    rw [List.cons_append, distinct, distinct, ih, List.filter_append, List.filter_filter,
      List.cons_append]
    congr 2
    apply List.filter_congr
    intro y _
    rw [List.map_cons, Bool.eq_iff_iff, Bool.and_eq_true, decide_eq_true_eq, decide_eq_true_eq,
      decide_eq_true_eq, List.mem_cons, not_or]

/-- Entries whose keys are there already are left out. -/
theorem distinct_append_of_mem (h : ∀ y ∈ b, key y ∈ a.map key) :
    distinct key (a ++ b) = distinct key a := by
  rw [distinct_append, List.filter_eq_nil_iff.mpr, List.append_nil]
  intro y hy
  rw [decide_eq_true_eq, not_not]
  exact h y (distinct_subset hy)

/-- The same entries several times. -/
theorem distinct_flatMap {β : Type} {f : β → List α} {l : List β} (hne : l ≠ [])
    (hl : ∀ b ∈ l, f b = a) : distinct key (l.flatMap f) = distinct key a := by
  cases l with
  | nil => exact absurd rfl hne
  | cons b l =>
    rw [List.forall_mem_cons] at hl
    rw [List.flatMap_cons, hl.1]
    apply distinct_append_of_mem
    intro y hy
    obtain ⟨b', hb', hmem⟩ := List.mem_flatMap.mp hy
    rw [hl.2 b' hb'] at hmem
    exact List.mem_map_of_mem hmem

end Distinct

end StoneRidge.Kit.Fields
