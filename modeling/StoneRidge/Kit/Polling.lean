import Mathlib.Algebra.Order.Floor.Ring
import Mathlib.Data.Rat.Floor
import Mathlib.Tactic

/-!
# Waiting on a clock

A loop that sleeps for a while, looks whether what it waits for has happened, and
gives up once a number of whole seconds has passed. The clock does not go back, a
sleep lasts at least as long as it was asked to, and whatever else runs takes
the time it takes.
-/

set_option autoImplicit false

namespace StoneRidge.Kit

/-- A loop whose sleeps are of `period` seconds. -/
structure Naps (period : ℕ) where
  /-- When the clock is read first. -/
  begin : ℚ
  /-- From there to the head of the loop. -/
  lead : ℚ
  lead_nonneg : 0 ≤ lead
  period_pos : 0 < period
  /-- How long each sleep lasts. -/
  asleep : ℕ → ℚ
  period_le : ∀ k, period ≤ asleep k
  /-- From each waking to the head of the loop. -/
  busy : ℕ → ℚ
  busy_nonneg : ∀ k, 0 ≤ busy k

namespace Naps
variable {period : ℕ} (n : Naps period)

/-- When round `k` reaches the head of the loop. -/
def head : ℕ → ℚ
  | 0 => n.begin + n.lead
  | k + 1 => head k + n.asleep k + n.busy k

/-- When the sleep of round `k` is over. -/
def wake (k : ℕ) : ℚ := n.head k + n.asleep k

/-- The seconds that the loop sees gone by at its head. -/
def elapsed (k : ℕ) : ℤ := ⌊n.head k⌋ - ⌊n.begin⌋

theorem head_succ (k : ℕ) : n.head (k + 1) = n.wake k + n.busy k := rfl

theorem wake_le_head_succ (k : ℕ) : n.wake k ≤ n.head (k + 1) := by
  have h := n.busy_nonneg k
  rw [head_succ]
  linarith

theorem head_add_period_le (k : ℕ) : n.head k + period ≤ n.wake k := by
  have h := n.period_le k
  rw [wake]
  linarith

theorem begin_le_head (k : ℕ) : n.begin ≤ n.head k := by
  induction k with
  | zero =>
    have h := n.lead_nonneg
    rw [head]
    linarith
  | succ k ih =>
    have hhead := n.head_add_period_le k
    have hwake := n.wake_le_head_succ k
    have hperiod : (0 : ℚ) ≤ period := Nat.cast_nonneg _
    linarith

theorem begin_le_wake (k : ℕ) : n.begin ≤ n.wake k := by
  have hhead := n.head_add_period_le k
  have hbegin := n.begin_le_head k
  have hperiod : (0 : ℚ) ≤ period := Nat.cast_nonneg _
  linarith

theorem elapsed_nonneg (k : ℕ) : 0 ≤ n.elapsed k := by
  have h := Int.floor_le_floor (n.begin_le_head k)
  unfold elapsed
  omega

theorem elapsed_add_period_le (k : ℕ) : n.elapsed k + period ≤ n.elapsed (k + 1) := by
  have hle : n.head k + (period : ℤ) ≤ n.head (k + 1) := by
    have hhead := n.head_add_period_le k
    have hwake := n.wake_le_head_succ k
    push_cast
    linarith
  have hfloor := Int.floor_le_floor hle
  rw [Int.floor_add_intCast] at hfloor
  unfold elapsed
  omega

theorem period_mul_le_elapsed (k : ℕ) : period * k ≤ n.elapsed k := by
  induction k with
  | zero =>
    have h := n.elapsed_nonneg 0
    simpa using h
  | succ k ih =>
    have h := n.elapsed_add_period_le k
    push_cast at ih ⊢
    linarith

/-- Whole seconds are off by less than one either way. -/
theorem elapsed_bounds (k : ℕ) :
    n.elapsed k - 1 < n.head k - n.begin ∧ n.head k - n.begin < n.elapsed k + 1 := by
  have hlo := Int.floor_le (n.head k)
  have hhi := Int.lt_floor_add_one (n.head k)
  have hlo' := Int.floor_le n.begin
  have hhi' := Int.lt_floor_add_one n.begin
  unfold elapsed
  push_cast
  constructor <;> linarith

section Wait
variable {α : Type} (limit : ℤ) (seen : ℚ → Option α)

/-- The loop from round `k` on: the round it ends in, and what it has seen, if anything. -/
def wait (k : ℕ) : ℕ × Option α :=
  if n.elapsed k < limit then
    match seen (n.wake k) with
    | some a => (k, some a)
    | none => wait (k + 1)
  else (k, none)
termination_by (limit - n.elapsed k).toNat
decreasing_by
  have hstep := n.elapsed_add_period_le k
  have hpos := n.period_pos
  omega

/-- What has happened when the loop ends. -/
structure Waited (r : ℕ × Option α) : Prop where
  pending : ∀ j < r.1, n.elapsed j < limit
  unseen : ∀ j < r.1, seen (n.wake j) = none
  saw : ∀ a, r.2 = some a → n.elapsed r.1 < limit ∧ seen (n.wake r.1) = some a
  expired : r.2 = none → limit ≤ n.elapsed r.1

variable {limit seen}

theorem waited_from {k : ℕ} (hpending : ∀ j < k, n.elapsed j < limit)
    (hunseen : ∀ j < k, seen (n.wake j) = none) : n.Waited limit seen (n.wait limit seen k) := by
  induction k using wait.induct n limit seen with
  | case1 k hlt a hseen =>
    rw [wait, if_pos hlt, hseen]
    refine ⟨hpending, hunseen, ?_, nofun⟩
    intro b hb
    obtain rfl := Option.some.inj hb
    exact ⟨hlt, hseen⟩
  | case2 k hlt hseen ih =>
    rw [wait, if_pos hlt, hseen]
    refine ih ?_ ?_
    · intro j hj
      rcases Nat.lt_succ_iff_lt_or_eq.mp hj with hj | rfl
      · exact hpending j hj
      · exact hlt
    · intro j hj
      rcases Nat.lt_succ_iff_lt_or_eq.mp hj with hj | rfl
      · exact hunseen j hj
      · exact hseen
  | case3 k hlt =>
    rw [wait, if_neg hlt]
    exact ⟨hpending, hunseen, nofun, fun _ => Int.not_lt.mp hlt⟩

theorem waited : n.Waited limit seen (n.wait limit seen 0) :=
  n.waited_from (fun _ hj => absurd hj (Nat.not_lt_zero _))
    (fun _ hj => absurd hj (Nat.not_lt_zero _))

end Wait

section Waited
variable {n} {α : Type} {limit : ℤ} {seen : ℚ → Option α} {r : ℕ × Option α}

/-- The loop gives up less than a second early. -/
theorem Waited.late (h : n.Waited limit seen r) (hnone : r.2 = none) :
    (limit : ℚ) - 1 < n.head r.1 - n.begin := by
  have hexpired : (limit : ℚ) ≤ n.elapsed r.1 := Int.cast_le.mpr (h.expired hnone)
  have hbounds := (n.elapsed_bounds r.1).1
  linarith

theorem lt_of_elapsed_lt {k : ℕ} (h : n.elapsed k < limit) : n.head k - n.begin < limit + 1 := by
  have hcast : (n.elapsed k : ℚ) < limit := Int.cast_lt.mpr h
  have hbounds := (n.elapsed_bounds k).2
  linarith

/-- It gives up no more than one round after the limit. -/
theorem Waited.soon (h : n.Waited limit seen r) {k : ℕ} (hk : r.1 = k + 1) :
    n.head r.1 - n.begin < limit + 1 + n.asleep k + n.busy k := by
  have hlt := lt_of_elapsed_lt (h.pending k (by omega))
  rw [hk, head]
  linarith

end Waited

end Naps

end StoneRidge.Kit
