import Mathlib.Algebra.Order.Group.Abs
import Mathlib.Data.Set.Insert

/-!
# Sessions that take a stamp

A log of pairs of a session's number and a stamp. Sessions are numbered in the order
in which they run, each uses one stamp, and a session takes its stamp when every
stamp of the sessions before it lies at least `gap` in the past.
-/

set_option autoImplicit false

namespace StoneRidge.Kit.Stamps

variable {G : Type} [AddCommGroup G] [LinearOrder G]

/-- One stamp for each session, and `gap` between the stamps of two sessions. -/
def Spaced (gap : G) (log : Set (ℕ × G)) : Prop :=
  ∀ x ∈ log, ∀ y ∈ log, (x.1 = y.1 → x.2 = y.2) ∧ (x.1 < y.1 → x.2 + gap ≤ y.2)

/-- Session `e` is the last of the log and may use the stamp `t`. -/
def MayUse (gap : G) (log : Set (ℕ × G)) (e : ℕ) (t : G) : Prop :=
  ∀ x ∈ log, (x.1 = e ∧ x.2 = t) ∨ (x.1 < e ∧ x.2 + gap ≤ t)

section Logs
variable {gap t : G} {log : Set (ℕ × G)} {e : ℕ}

theorem MayUse.insert (h : MayUse gap log e t) : MayUse gap (insert (e, t) log) e t := by
  intro x hx
  rcases Set.mem_insert_iff.mp hx with rfl | hx
  · exact .inl ⟨rfl, rfl⟩
  · exact h x hx

theorem Spaced.insert (h : Spaced gap log) (hu : MayUse gap log e t) :
    Spaced gap (insert (e, t) log) := by
  intro x hx y hy
  rcases Set.mem_insert_iff.mp hx with rfl | hx <;> rcases Set.mem_insert_iff.mp hy with rfl | hy
  · exact ⟨fun _ => rfl, fun hlt => absurd hlt (lt_irrefl _)⟩
  · rcases hu y hy with ⟨he, ht⟩ | ⟨hlt, -⟩
    · exact ⟨fun _ => ht.symm, fun hlt => absurd (he ▸ hlt) (lt_irrefl _)⟩
    · exact ⟨fun he => absurd (he ▸ hlt) (lt_irrefl _), fun hgt => absurd hlt hgt.not_gt⟩
  · rcases hu x hx with ⟨he, ht⟩ | ⟨hlt, hgap⟩
    · exact ⟨fun _ => ht, fun hlt => absurd (he ▸ hlt) (lt_irrefl _)⟩
    · exact ⟨fun he => absurd (he ▸ hlt) (lt_irrefl _), fun _ => hgap⟩
  · exact h x hx y hy

variable [IsOrderedAddMonoid G]

/-- The stamps of two different sessions are `gap` apart, whichever came first. -/
theorem Spaced.gap_le_abs (h : Spaced gap log) {x y : ℕ × G} (hx : x ∈ log) (hy : y ∈ log)
    (hne : x.1 ≠ y.1) : gap ≤ |x.2 - y.2| := by
  rcases lt_or_gt_of_ne hne with hlt | hgt
  · have hle : gap ≤ y.2 - x.2 := le_sub_iff_add_le'.mpr ((h x hx y hy).2 hlt)
    rw [abs_sub_comm]
    exact hle.trans (le_abs_self _)
  · have hle : gap ≤ x.2 - y.2 := le_sub_iff_add_le'.mpr ((h y hy x hx).2 hgt)
    exact hle.trans (le_abs_self _)

theorem Spaced.eq_of_stamp (h : Spaced gap log) (hgap : 0 < gap) {x y : ℕ × G} (hx : x ∈ log)
    (hy : y ∈ log) (heq : x.2 = y.2) : x.1 = y.1 := by
  by_contra hne
  have hle := h.gap_le_abs hx hy hne
  rw [heq, sub_self, abs_zero] at hle
  exact absurd hgap hle.not_gt

end Logs

end StoneRidge.Kit.Stamps
