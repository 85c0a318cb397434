import StoneRidge.Kit.PyText

/-!
# Hexadecimal numbers

`'%x' % n` is `Nat.toDigits 16 n`, and `int(s, 16)` reads it again.
-/

set_option autoImplicit false

namespace StoneRidge.Kit.Hex
open StoneRidge.Kit.PyText

def digitValue? (c : Char) : Option ℕ :=
  if c.isDigit then some (c.toNat - '0'.toNat)
  else if 'a' ≤ c ∧ c ≤ 'f' then some (c.toNat - 'a'.toNat + 10)
  else if 'A' ≤ c ∧ c ≤ 'F' then some (c.toNat - 'A'.toNat + 10)
  else none

def digitsFrom (acc : ℕ) : List Char → Option ℕ
  | [] => some acc
  | c :: cs => (digitValue? c).bind fun d => digitsFrom (16 * acc + d) cs

def digits? (cs : List Char) : Option ℕ := if cs = [] then none else digitsFrom 0 cs

/-- Digits that `0x` may stand before. -/
def unsigned? : List Char → Option ℕ
  | '0' :: 'x' :: cs => digits? cs
  | '0' :: 'X' :: cs => digits? cs
  | cs => digits? cs

/-- `int(s, 16)`, or nothing where it raises `ValueError`. -/
def int16? (s : List Char) : Option ℤ :=
  match strip s with
  | '-' :: cs => (unsigned? cs).map fun n : ℕ => -(n : ℤ)
  | '+' :: cs => (unsigned? cs).map Int.ofNat
  | cs => (unsigned? cs).map Int.ofNat

theorem digitValue?_digitChar {d : ℕ} (h : d < 16) : digitValue? d.digitChar = some d := by
  have hall : ∀ d < 16, digitValue? (Nat.digitChar d) = some d := by decide
  exact hall d h

theorem digitsFrom_append (acc : ℕ) (l m : List Char) :
    digitsFrom acc (l ++ m) = (digitsFrom acc l).bind fun n => digitsFrom n m := by
  induction l generalizing acc with
  | nil => rfl
  | cons c l ih =>
    rw [List.cons_append, digitsFrom, digitsFrom]
    cases digitValue? c with
    | none => rfl
    | some d => exact ih _

theorem digitsFrom_toDigits (n : ℕ) : digitsFrom 0 (Nat.toDigits 16 n) = some n := by
  induction n using Nat.base_induction 16 (by decide) with
  | single m hm =>
    rw [Nat.toDigits_of_lt_base hm, digitsFrom, digitValue?_digitChar hm]
    simp [digitsFrom]
  | digit m k hk hm ih =>
    rw [← Nat.toDigits_append_toDigits (by decide) hm hk, digitsFrom_append, ih,
      Nat.toDigits_of_lt_base hk, Option.bind_some, digitsFrom, digitValue?_digitChar hk]
    rfl

theorem mem_toDigits {n : ℕ} {c : Char} (h : c ∈ Nat.toDigits 16 n) :
    ∃ d < 16, c = Nat.digitChar d := by
  induction n using Nat.base_induction 16 (by decide) with
  | single m hm =>
    rw [Nat.toDigits_of_lt_base hm, List.mem_singleton] at h
    exact ⟨m, hm, h⟩
  | digit m k hk hm ih =>
    rw [← Nat.toDigits_append_toDigits (by decide) hm hk, List.mem_append,
      Nat.toDigits_of_lt_base hk, List.mem_singleton] at h
    rcases h with h | h
    · exact ih h
    · exact ⟨k, hk, h⟩

/-- A digit is none of the characters that `int` treats in another way. -/
theorem digit_plain {n : ℕ} {c : Char} (h : c ∈ Nat.toDigits 16 n) :
    isSpace c = false ∧ c ≠ '-' ∧ c ≠ '+' ∧ c ≠ 'x' ∧ c ≠ 'X' ∧ c ≠ ';' ∧ c ≠ '\n' := by
  obtain ⟨d, hd, rfl⟩ := mem_toDigits h
  have hall : ∀ d < 16, isSpace (Nat.digitChar d) = false ∧ Nat.digitChar d ≠ '-' ∧
      Nat.digitChar d ≠ '+' ∧ Nat.digitChar d ≠ 'x' ∧ Nat.digitChar d ≠ 'X' ∧
      Nat.digitChar d ≠ ';' ∧ Nat.digitChar d ≠ '\n' := by decide
  exact hall d hd

theorem unsigned?_toDigits (n : ℕ) : unsigned? (Nat.toDigits 16 n) = some n := by
  have hdigits : digits? (Nat.toDigits 16 n) = some n := by
    unfold digits?
    rw [if_neg Nat.toDigits_ne_nil, digitsFrom_toDigits]
  unfold unsigned?
  split
  · rename_i heq
    have hx := (digit_plain (n := n) (c := 'x') (by rw [heq]; simp)).2.2.2.1
    exact absurd rfl hx
  · rename_i heq
    have hx := (digit_plain (n := n) (c := 'X') (by rw [heq]; simp)).2.2.2.2.1
    exact absurd rfl hx
  · exact hdigits

/-- White space after the number does not matter. -/
theorem int16?_toDigits (n : ℕ) {e : List Char} (he : ∀ c ∈ e, isSpace c = true) :
    int16? (Nat.toDigits 16 n ++ e) = some (n : ℤ) := by
  have hstrip : strip (Nat.toDigits 16 n ++ e) = Nat.toDigits 16 n := by
    rw [strip_append_space he]
    apply strip_eq
    · intro c hc
      exact (digit_plain (List.mem_of_mem_head? hc)).1
    · intro c hc
      exact (digit_plain (List.mem_of_getLast? hc)).1
  unfold int16?
  rw [hstrip]
  split
  · rename_i heq
    have hminus := (digit_plain (n := n) (c := '-') (by rw [heq]; simp)).2.1
    exact absurd rfl hminus
  · rename_i heq
    have hplus := (digit_plain (n := n) (c := '+') (by rw [heq]; simp)).2.2.1
    exact absurd rfl hplus
  · rw [unsigned?_toDigits]
    rfl

end StoneRidge.Kit.Hex
