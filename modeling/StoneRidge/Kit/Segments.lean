import Mathlib.Tactic

/-!
# Segments of a path

A path is a list of segments. Resolving it drops the segments that are `here` and lets a
segment that is `up` take away the one before it; at the end of the path both leave the
segment `nil`. The same is done by four passes over the path, each for one of the cases.
-/

set_option autoImplicit false

namespace StoneRidge.Kit.Segments

variable {σ : Type} {here up : σ → Bool} {nil : σ} {stack segs : List σ}

/-- Resolving what follows the segments of `stack`, the last of which comes first. -/
def resolveFrom (here up : σ → Bool) (nil : σ) : List σ → List σ → List σ
  | stack, [] => stack.reverse
  | stack, [s] =>
    if here s then (nil :: stack).reverse
    else if up s then (nil :: stack.tail).reverse
    else (s :: stack).reverse
  | stack, s :: t :: rest =>
    if here s then resolveFrom here up nil stack (t :: rest)
    else if up s then resolveFrom here up nil stack.tail (t :: rest)
    else resolveFrom here up nil (s :: stack) (t :: rest)

def resolve (here up : σ → Bool) (nil : σ) (segs : List σ) : List σ :=
  resolveFrom here up nil [] segs

/-- No segment has a meaning of its own. -/
def Plain (here up : σ → Bool) (segs : List σ) : Prop :=
  ∀ s ∈ segs, here s = false ∧ up s = false

theorem Plain.tail (h : Plain here up segs) : Plain here up segs.tail := by
  intro s hs
  exact h s (List.mem_of_mem_tail hs)

theorem plain_cons {s : σ} : Plain here up (s :: segs) ↔
    (here s = false ∧ up s = false) ∧ Plain here up segs := by
  unfold Plain
  rw [List.forall_mem_cons]

theorem resolveFrom_plain (h : Plain here up segs) :
    resolveFrom here up nil stack segs = stack.reverse ++ segs := by
  induction segs generalizing stack with
  | nil => rw [resolveFrom, List.append_nil]
  | cons s segs ih =>
    rw [plain_cons] at h
    cases segs with
    | nil => simp [resolveFrom, h.1.1, h.1.2]
    | cons t rest =>
      unfold resolveFrom
      rw [h.1.1, h.1.2, if_neg Bool.false_ne_true, if_neg Bool.false_ne_true, ih h.2]
      simp

theorem resolve_plain (h : Plain here up segs) : resolve here up nil segs = segs := by
  unfold resolve
  rw [resolveFrom_plain h]
  rfl

/-- After resolving there is nothing left to resolve. -/
theorem plain_resolveFrom (hnil : here nil = false ∧ up nil = false) (h : Plain here up stack) :
    Plain here up (resolveFrom here up nil stack segs) := by
  have hrev : ∀ l, Plain here up l → Plain here up l.reverse := by
    intro l hl s hs
    exact hl s (List.mem_reverse.mp hs)
  induction segs generalizing stack with
  | nil =>
    rw [resolveFrom]
    exact hrev _ h
  | cons s segs ih =>
    cases segs with
    | nil =>
      unfold resolveFrom
      split
      · exact hrev _ (plain_cons.mpr ⟨hnil, h⟩)
      · split
        · exact hrev _ (plain_cons.mpr ⟨hnil, h.tail⟩)
        · exact hrev _ (plain_cons.mpr ⟨by simp_all, h⟩)
    | cons t rest =>
      unfold resolveFrom
      split
      · exact ih h
      · split
        · exact ih h.tail
        · exact ih (plain_cons.mpr ⟨by simp_all, h⟩)

theorem forall_resolveFrom {p : σ → Prop} (hnil : p nil) (hstack : ∀ s ∈ stack, p s)
    (h : ∀ s ∈ segs, p s) : ∀ s ∈ resolveFrom here up nil stack segs, p s := by
  have hrev : ∀ l : List σ, (∀ s ∈ l, p s) → ∀ s ∈ l.reverse, p s := by
    intro l hl s hs
    exact hl s (List.mem_reverse.mp hs)
  have htail : ∀ l : List σ, (∀ s ∈ l, p s) → ∀ s ∈ l.tail, p s := by
    intro l hl s hs
    exact hl s (List.mem_of_mem_tail hs)
  induction segs generalizing stack with
  | nil => exact hrev _ hstack
  | cons s segs ih =>
    rw [List.forall_mem_cons] at h
    cases segs with
    | nil =>
      unfold resolveFrom
      split_ifs
      · exact hrev _ (List.forall_mem_cons.mpr ⟨hnil, hstack⟩)
      · exact hrev _ (List.forall_mem_cons.mpr ⟨hnil, htail _ hstack⟩)
      · exact hrev _ (List.forall_mem_cons.mpr ⟨h.1, hstack⟩)
    | cons t rest =>
      unfold resolveFrom
      split_ifs
      · exact ih hstack h.2
      · exact ih (htail _ hstack) h.2
      · exact ih (List.forall_mem_cons.mpr ⟨h.1, hstack⟩) h.2

theorem resolveFrom_ne_nil (h : segs ≠ []) : resolveFrom here up nil stack segs ≠ [] := by
  induction segs generalizing stack with
  | nil => exact absurd rfl h
  | cons s segs ih =>
    cases segs with
    | nil =>
      unfold resolveFrom
      split_ifs <;> simp
    | cons t rest =>
      unfold resolveFrom
      split_ifs <;> exact ih (by simp)

theorem plain_resolve (hnil : here nil = false ∧ up nil = false) :
    Plain here up (resolve here up nil segs) :=
  plain_resolveFrom hnil fun _ hs => absurd hs List.not_mem_nil

/-! ### Lengths -/

section Lengths
variable (size : σ → ℕ)

/-- The length of the segments, each with a separator. -/
def total (segs : List σ) : ℕ := (segs.map fun s => size s + 1).sum

theorem total_nil : total size ([] : List σ) = 0 := rfl

theorem total_cons (s : σ) (segs : List σ) :
    total size (s :: segs) = size s + 1 + total size segs := by
  unfold total
  rw [List.map_cons, List.sum_cons]

theorem total_reverse (segs : List σ) : total size segs.reverse = total size segs := by
  unfold total
  rw [List.map_reverse, List.sum_reverse]

theorem total_tail_le (segs : List σ) : total size segs.tail ≤ total size segs := by
  cases segs with
  | nil => exact Nat.le_refl _
  | cons s segs =>
    rw [total_cons, List.tail_cons]
    omega

theorem total_resolveFrom_le (here up : σ → Bool) (hnil : size nil = 0) (stack segs : List σ) :
    total size (resolveFrom here up nil stack segs) ≤ total size stack + total size segs := by
  induction segs generalizing stack with
  | nil =>
    rw [resolveFrom, total_reverse, total_nil, Nat.add_zero]
  | cons s segs ih =>
    have htail := total_tail_le size stack
    cases segs with
    | nil =>
      unfold resolveFrom
      split_ifs
      all_goals
        rw [total_reverse, total_cons, total_cons, total_nil]
        omega
    | cons t rest =>
      unfold resolveFrom
      rw [total_cons]
      split_ifs
      · have hrest := ih stack
        omega
      · have hrest := ih stack.tail
        omega
      · have hrest := ih (s :: stack)
        rw [total_cons] at hrest
        omega

/-- Resolving a path that is not plain makes it shorter by two at least, except where its
last segment is all there is to drop. -/
theorem resolveFrom_cases (hnil : size nil = 0) (hhere : ∀ s, here s = true → 1 ≤ size s)
    (hup : ∀ s, up s = true → 2 ≤ size s) (stack segs : List σ) :
    Plain here up segs ∨
    (∃ init s, segs = init ++ [s] ∧ here s = true ∧
      resolveFrom here up nil stack segs = stack.reverse ++ init ++ [nil]) ∨
    total size (resolveFrom here up nil stack segs) + 2 ≤ total size stack + total size segs := by
  induction segs generalizing stack with
  | nil => exact Or.inl fun _ hs => absurd hs List.not_mem_nil
  | cons s segs ih =>
    have htail := total_tail_le size stack
    cases hs : here s with
    | true =>
      have hsize := hhere s hs
      cases segs with
      | nil =>
        refine Or.inr (Or.inl ⟨[], s, rfl, hs, ?_⟩)
        simp [resolveFrom, hs]
      | cons t rest =>
        have hle := total_resolveFrom_le size here up hnil stack (t :: rest)
        unfold resolveFrom
        rw [if_pos hs, total_cons]
        exact Or.inr (Or.inr (by omega))
    | false =>
      cases hu : up s with
      | true =>
        have hsize := hup s hu
        refine Or.inr (Or.inr ?_)
        cases segs with
        | nil =>
          unfold resolveFrom
          rw [hs, hu, if_neg Bool.false_ne_true, if_pos rfl, total_reverse, total_cons, total_cons,
            total_nil]
          omega
        | cons t rest =>
          have hle :=
            total_resolveFrom_le size here up hnil stack.tail (t :: rest)
          unfold resolveFrom
          rw [hs, hu, if_neg Bool.false_ne_true, if_pos rfl, total_cons]
          omega
      | false =>
        cases segs with
        | nil => exact Or.inl (plain_cons.mpr ⟨⟨hs, hu⟩, fun _ h => absurd h List.not_mem_nil⟩)
        | cons t rest =>
          unfold resolveFrom
          rw [hs, hu, if_neg Bool.false_ne_true, if_neg Bool.false_ne_true]
          rcases ih (s :: stack) with hplain | ⟨init, u, heq, hu', hres⟩ | hlt
          · exact Or.inl (plain_cons.mpr ⟨⟨hs, hu⟩, hplain⟩)
          · refine Or.inr (Or.inl ⟨s :: init, u, by rw [heq]; rfl, hu', ?_⟩)
            rw [hres]
            simp
          · rw [total_cons] at hlt
            rw [total_cons size s]
            exact Or.inr (Or.inr (by omega))

end Lengths

/-! ### Passes -/

def dropHere (here : σ → Bool) : List σ → List σ
  | [] => []
  | [s] => [s]
  | s :: t :: rest => if here s then dropHere here (t :: rest) else s :: dropHere here (t :: rest)

def lastHere (here : σ → Bool) (nil : σ) : List σ → List σ
  | [] => []
  | [s] => if here s then [nil] else [s]
  | s :: t :: rest => s :: lastHere here nil (t :: rest)

/-- The segments that are left, the last one first. -/
def popUps (up : σ → Bool) : List σ → List σ → List σ
  | stack, [] => stack
  | stack, [s] => s :: stack
  | stack, s :: t :: rest =>
    if up s then popUps up stack.tail (t :: rest) else popUps up (s :: stack) (t :: rest)

def lastUp (up : σ → Bool) (nil : σ) : List σ → List σ
  | [] => []
  | s :: stack => if up s then nil :: stack.tail else s :: stack

theorem dropHere_ne_nil (h : segs ≠ []) : dropHere here segs ≠ [] := by
  induction segs with
  | nil => exact absurd rfl h
  | cons s segs ih =>
    cases segs with
    | nil => simp [dropHere]
    | cons t rest =>
      unfold dropHere
      split
      · exact ih (by simp)
      · simp

theorem lastHere_ne_nil (h : segs ≠ []) : lastHere here nil segs ≠ [] := by
  cases segs with
  | nil => exact absurd rfl h
  | cons s segs =>
    cases segs with
    | nil =>
      unfold lastHere
      split <;> simp
    | cons t rest => simp [lastHere]

theorem lastHere_cons {s : σ} (h : segs ≠ []) :
    lastHere here nil (s :: segs) = s :: lastHere here nil segs := by
  cases segs with
  | nil => exact absurd rfl h
  | cons t rest => rw [lastHere]

theorem popUps_cons {s : σ} (h : segs ≠ []) :
    popUps up stack (s :: segs) =
      if up s then popUps up stack.tail segs else popUps up (s :: stack) segs := by
  cases segs with
  | nil => exact absurd rfl h
  | cons t rest => rw [popUps]

theorem forall_dropHere {p : σ → Prop} (h : ∀ s ∈ segs, p s) : ∀ s ∈ dropHere here segs, p s := by
  induction segs with
  | nil => exact h
  | cons s segs ih =>
    rw [List.forall_mem_cons] at h
    cases segs with
    | nil => exact List.forall_mem_cons.mpr h
    | cons t rest =>
      unfold dropHere
      split
      · exact ih h.2
      · exact List.forall_mem_cons.mpr ⟨h.1, ih h.2⟩

theorem forall_lastHere {p : σ → Prop} (hnil : p nil) (h : ∀ s ∈ segs, p s) :
    ∀ s ∈ lastHere here nil segs, p s := by
  induction segs with
  | nil => exact h
  | cons s segs ih =>
    rw [List.forall_mem_cons] at h
    cases segs with
    | nil =>
      rw [lastHere]
      split
      · exact List.forall_mem_cons.mpr ⟨hnil, h.2⟩
      · exact List.forall_mem_cons.mpr h
    | cons t rest => exact List.forall_mem_cons.mpr ⟨h.1, ih h.2⟩

/-- The four passes resolve the path. -/
theorem passes_eq_resolveFrom (hnil : up nil = false) (h : segs ≠ []) :
    (lastUp up nil (popUps up stack (lastHere here nil (dropHere here segs)))).reverse =
      resolveFrom here up nil stack segs := by
  induction segs generalizing stack with
  | nil => exact absurd rfl h
  | cons s segs ih =>
    cases segs with
    | nil =>
      unfold dropHere lastHere resolveFrom
      split
      · simp [popUps, lastUp, hnil]
      · rw [popUps, lastUp]
        split <;> rfl
    | cons t rest =>
      have hne : t :: rest ≠ [] := by simp
      unfold dropHere resolveFrom
      split
      · exact ih hne
      · rw [lastHere_cons (dropHere_ne_nil hne), popUps_cons (lastHere_ne_nil (dropHere_ne_nil hne))]
        split
        · exact ih hne
        · exact ih hne

end StoneRidge.Kit.Segments
