import Mathlib

/-!
# Keeping the newest

A retention pass sorts its candidates by age, the oldest first, and gives up all
but the last `keep` of them. Sorting is stable, so candidates of the same age stay
in the order in which they were listed.
-/

set_option autoImplicit false

namespace StoneRidge.Kit.Retention

variable {α κ : Type} [DecidableEq α] [LinearOrder κ] (key : α → κ)

def byAge (l : List α) : List α := l.mergeSort fun a b => key a ≤ key b

/-- How many of `n` candidates the slice `[:-keep]` of the sorted list has. -/
def surplus (keep : ℤ) (n : ℕ) : ℕ := if 0 < keep then n - keep.toNat else (-keep).toNat

/-- Those that a pass over `l` gives up, the oldest first. -/
def givenUp (keep : ℤ) (l : List α) : List α := (byAge key l).take (surplus keep l.length)

/-- `a` is older than `b`, or of the same age and listed earlier. -/
def Before (l : List α) (a b : α) : Prop :=
  key a < key b ∨ (key a = key b ∧ l.idxOf a < l.idxOf b)

instance (l : List α) (a b : α) : Decidable (Before key l a b) :=
  inferInstanceAs (Decidable (_ ∨ _))

section Positions
variable {l : List α} {a b x : α}

theorem sublist_pair_of_idxOf_lt (hb : b ∈ l) (h : l.idxOf a < l.idxOf b) :
    List.Sublist [a, b] l := by
  induction l with
  | nil => cases hb
  | cons c l ih =>
    by_cases hca : c = a
    · subst hca
      have hbl : b ∈ l := by
        rcases List.mem_cons.mp hb with rfl | hbl
        · exact absurd h (Nat.lt_irrefl _)
        · exact hbl
      exact (List.singleton_sublist.mpr hbl).cons_cons c
    · have hcb : c ≠ b := by
        rintro rfl
        rw [List.idxOf_cons_self] at h
        exact Nat.not_lt_zero _ h
      rw [List.idxOf_cons_ne _ hca, List.idxOf_cons_ne _ hcb] at h
      have hbl := (List.mem_cons.mp hb).resolve_left (Ne.symm hcb)
      exact (ih hbl (Nat.lt_of_succ_lt_succ h)).cons c

theorem idxOf_lt_of_sublist_pair (hl : l.Nodup) (h : List.Sublist [a, b] l) :
    l.idxOf a < l.idxOf b := by
  induction l with
  | nil => cases h
  | cons c l ih =>
    obtain ⟨hc, hl'⟩ := List.nodup_cons.mp hl
    rcases List.cons_sublist_cons'.mp h with hsub | ⟨rfl, hsub⟩
    · have ha : c ≠ a := fun e => hc (e ▸ hsub.subset List.mem_cons_self)
      have hb : c ≠ b := fun e => hc (e ▸ hsub.subset (List.mem_cons_of_mem a List.mem_cons_self))
      rw [List.idxOf_cons_ne _ ha, List.idxOf_cons_ne _ hb]
      exact Nat.succ_lt_succ (ih hl' hsub)
    · have hb : a ≠ b := by
        rintro rfl
        exact hc (hsub.subset List.mem_cons_self)
      rw [List.idxOf_cons_self, List.idxOf_cons_ne _ hb]
      exact Nat.succ_pos _

/-- In a list that a strict order has sorted, a position counts the elements before. -/
theorem idxOf_eq_countP {r : α → α → Prop} [DecidableRel r] (hirr : ∀ a, ¬ r a a)
    (hasymm : ∀ a b, r a b → ¬ r b a) (h : l.Pairwise r) (hx : x ∈ l) :
    l.idxOf x = l.countP fun y => r y x := by
  induction l with
  | nil => cases hx
  | cons c l ih =>
    obtain ⟨hc, hl⟩ := List.pairwise_cons.mp h
    by_cases hcx : c = x
    · subst hcx
      have hnone : l.countP (fun y => r y c) = 0 := by
        rw [List.countP_eq_zero]
        intro y hy
        simpa using hasymm c y (hc y hy)
      rw [List.idxOf_cons_self, List.countP_cons_of_neg (by simpa using hirr c), hnone]
    · have hxl := (List.mem_cons.mp hx).resolve_left (Ne.symm hcx)
      rw [List.idxOf_cons_ne _ hcx, List.countP_cons_of_pos (by simpa using hc x hxl), ih hl hxl]

end Positions

section Pass
variable {key : α → κ} {l : List α} {a b x : α}

omit [DecidableEq α] in
theorem byAge_perm (l : List α) : (byAge key l).Perm l := List.mergeSort_perm l _

omit [DecidableEq α] in
theorem byAge_nodup (hl : l.Nodup) : (byAge key l).Nodup := (byAge_perm l).nodup_iff.mpr hl

section Order
variable (key) (a b c : α)

omit [DecidableEq α] in
theorem le_trans_key : decide (key a ≤ key b) → decide (key b ≤ key c) →
    decide (key a ≤ key c) := by
  intro hab hbc
  simp only [decide_eq_true_eq] at hab hbc ⊢
  exact hab.trans hbc

omit [DecidableEq α] in
theorem le_total_key : decide (key a ≤ key b) || decide (key b ≤ key a) := by
  simpa using le_total (key a) (key b)

end Order

omit [DecidableEq α] in
theorem byAge_sorted (key : α → κ) (l : List α) : (byAge key l).Pairwise fun a b => key a ≤ key b := by
  have hsorted := List.pairwise_mergeSort (le_trans_key key) (le_total_key key) l
  exact hsorted.imp of_decide_eq_true

theorem byAge_pairwise (hl : l.Nodup) : (byAge key l).Pairwise (Before key l) := by
  have hsorted := byAge_sorted key l
  rw [List.pairwise_iff_forall_sublist] at hsorted ⊢
  intro a b hab
  rcases lt_or_eq_of_le (hsorted hab) with hlt | heq
  · exact .inl hlt
  refine .inr ⟨heq, ?_⟩
  have hlt := idxOf_lt_of_sublist_pair (byAge_nodup hl) hab
  by_contra hge
  have hne : a ≠ b := fun e => Nat.lt_irrefl _ (e ▸ hlt)
  have hmem : a ∈ l := (byAge_perm l).mem_iff.mp (hab.subset List.mem_cons_self)
  have hidx : l.idxOf b < l.idxOf a := by
    refine lt_of_le_of_ne (Nat.le_of_not_lt hge) fun e => ?_
    exact hne ((List.idxOf_inj hmem).mp e.symm)
  -- stability would put `b` before `a`
  have hba := List.pair_sublist_mergeSort (le_trans_key key) (le_total_key key)
    (decide_eq_true (le_of_eq heq.symm))
    (sublist_pair_of_idxOf_lt hmem hidx)
  exact absurd (idxOf_lt_of_sublist_pair (byAge_nodup hl) hba) (Nat.lt_asymm hlt)

/-- A candidate is given up if the surplus is larger than the number of candidates
before it. -/
theorem mem_givenUp_iff (hl : l.Nodup) (hx : x ∈ l) (keep : ℤ) :
    x ∈ givenUp key keep l ↔ l.countP (fun y => Before key l y x) < surplus keep l.length := by
  have hirr : ∀ a, ¬ Before key l a a := by
    rintro a (h | ⟨-, h⟩)
    · exact lt_irrefl _ h
    · exact Nat.lt_irrefl _ h
  have hasymm : ∀ a b, Before key l a b → ¬ Before key l b a := by
    rintro a b (h | ⟨he, h⟩) (h' | ⟨he', h'⟩)
    · exact lt_asymm h h'
    · exact absurd he' h.ne'
    · exact absurd he h'.ne'
    · exact Nat.lt_asymm h h'
  have hmem : x ∈ byAge key l := (byAge_perm l).mem_iff.mpr hx
  rw [givenUp, List.mem_take_iff_idxOf_lt hmem,
    idxOf_eq_countP hirr hasymm (byAge_pairwise hl) hmem, (byAge_perm l).countP_eq]

omit [DecidableEq α] in
theorem givenUp_subset (keep : ℤ) : ∀ x ∈ givenUp key keep l, x ∈ l :=
  fun _ hx => (byAge_perm l).mem_iff.mp (List.mem_of_mem_take hx)

omit [DecidableEq α] in
theorem givenUp_nodup (hl : l.Nodup) (keep : ℤ) : (givenUp key keep l).Nodup :=
  (byAge_nodup hl).sublist (List.take_sublist _ _)

omit [DecidableEq α] in
theorem length_givenUp {keep : ℤ} (hkeep : 0 < keep) (l : List α) :
    (givenUp key keep l).length = l.length - keep.toNat := by
  unfold givenUp surplus
  rw [if_pos hkeep, List.length_take, (byAge_perm l).length_eq]
  omega

omit [DecidableEq α] in
/-- Nothing that is given up is newer than what is kept. -/
theorem givenUp_le {keep : ℤ} (hx : x ∈ givenUp key keep l) (ha : a ∈ l)
    (hkept : a ∉ givenUp key keep l) : key x ≤ key a := by
  have hmem : a ∈ byAge key l := (byAge_perm l).mem_iff.mpr ha
  have hsorted := byAge_sorted key l
  rw [← List.take_append_drop (surplus keep l.length) (byAge key l)] at hmem hsorted
  have hdrop := (List.mem_append.mp hmem).resolve_left hkept
  exact (List.pairwise_append.mp hsorted).2.2 x hx a hdrop

end Pass

end StoneRidge.Kit.Retention
