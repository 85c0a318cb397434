import Mathlib.Data.List.GetD
import Mathlib.Tactic

/-!
# Base64

`binascii.a2b_base64` and `b2a_base64` (`python/src/Modules/binascii.c:361-535`) with the
courtesy newline stripped, as `base64.b64encode` does. The encoder keeps its bits at the
low end and never clears those above, so nothing depends on the width of `leftchar`.
-/

set_option autoImplicit false

namespace StoneRidge.Kit.Base64

/-- `table_b2a_base64`. -/
def alphabet : List Char :=
  "ABCDEFGHIJKLMNOPQRSTUVWXYZabcdefghijklmnopqrstuvwxyz0123456789+/".toList

def toChar (v : ℕ) : Char := alphabet.getD v 'A'

/-- `table_a2b_base64`, in which the pad stands for zero. -/
def value? (c : Char) : Option ℕ := if c = '=' then some 0 else alphabet.idxOf? c

/-- `binascii_find_valid`: the valid character after `num` others. -/
def findValid (num : ℕ) : List Char → Option Char
  | [] => none
  | c :: cs =>
    if (value? c).isSome then if num = 0 then some c else findValid (num - 1) cs
    else findValid num cs

structure Decoder where
  quadPos : ℕ
  leftchar : ℕ
  leftbits : ℕ

/-- Nothing where the padding is incorrect. -/
def a2b (d : Decoder) : List Char → Option (List UInt8)
  | [] => if d.leftbits = 0 then some [] else none
  | c :: cs =>
    if c = '=' then
      -- an invalid pad is ignored, a valid one ends the input
      if d.quadPos < 2 ∨ (d.quadPos = 2 ∧ findValid 1 (c :: cs) ≠ some '=') then a2b d cs
      else some []
    else
      match value? c with
      | none => a2b d cs
      | some v =>
        let quadPos := (d.quadPos + 1) % 4
        let leftchar := d.leftchar * 64 + v
        let leftbits := d.leftbits + 6
        if 8 ≤ leftbits then
          let rest := leftbits - 8
          (a2b ⟨quadPos, leftchar % 2 ^ rest, rest⟩ cs).map (.ofNat (leftchar / 2 ^ rest) :: ·)
        else a2b ⟨quadPos, leftchar, leftbits⟩ cs

/-- The six-bit groups that are ready, and how many bits are left. -/
def emit (leftchar : ℕ) : ℕ → List Char × ℕ
  | rest + 6 => (toChar (leftchar / 2 ^ rest % 64) :: (emit leftchar rest).1, (emit leftchar rest).2)
  | leftbits => ([], leftbits)

def b2a (leftchar leftbits : ℕ) : List UInt8 → List Char
  | [] =>
    if leftbits = 2 then [toChar (leftchar % 4 * 16), '=', '=']
    else if leftbits = 4 then [toChar (leftchar % 16 * 4), '=']
    else []
  | b :: bs =>
    let leftchar := leftchar * 256 + b.toNat
    (emit leftchar (leftbits + 8)).1 ++ b2a leftchar (emit leftchar (leftbits + 8)).2 bs

/-- A text that is not ASCII cannot be made a byte string. -/
def b64decode (s : String) : Option (List UInt8) :=
  if s.toList.all fun c => c.toNat < 128 then a2b ⟨0, 0, 0⟩ s.toList else none

def b64encode (bytes : List UInt8) : String := .ofList (b2a 0 0 bytes)

section RoundTrip

theorem value?_toChar {v : ℕ} (h : v < 64) : value? (toChar v) = some v ∧ toChar v ≠ '=' := by
  have hall : ∀ v < 64, value? (toChar v) = some v ∧ toChar v ≠ '=' := by
    decide +kernel
  exact hall v h

theorem a2b_toChar (q l n : ℕ) {v : ℕ} (h : v < 64) (cs : List Char) :
    a2b ⟨q, l, n⟩ (toChar v :: cs) =
      if 8 ≤ n + 6 then
        (a2b ⟨(q + 1) % 4, (l * 64 + v) % 2 ^ (n + 6 - 8), n + 6 - 8⟩ cs).map
          (.ofNat ((l * 64 + v) / 2 ^ (n + 6 - 8)) :: ·)
      else a2b ⟨(q + 1) % 4, l * 64 + v, n + 6⟩ cs := by
  obtain ⟨hv, hne⟩ := value?_toChar h
  rw [a2b, if_neg hne, hv]

section Quad
variable {v x : ℕ} (hv : v < 64) (cs : List Char)
include hv

theorem a2b_first : a2b ⟨0, 0, 0⟩ (toChar v :: cs) = a2b ⟨1, v, 6⟩ cs := by
  rw [a2b_toChar 0 0 0 hv, if_neg (by decide), Nat.zero_mul, Nat.zero_add, Nat.zero_add]

theorem a2b_second : a2b ⟨1, x, 6⟩ (toChar v :: cs) =
    (a2b ⟨2, (x * 64 + v) % 16, 4⟩ cs).map (.ofNat ((x * 64 + v) / 16) :: ·) := by
  rw [a2b_toChar 1 x 6 hv]
  rfl

theorem a2b_third : a2b ⟨2, x, 4⟩ (toChar v :: cs) =
    (a2b ⟨3, (x * 64 + v) % 4, 2⟩ cs).map (.ofNat ((x * 64 + v) / 4) :: ·) := by
  rw [a2b_toChar 2 x 4 hv]
  rfl

theorem a2b_fourth : a2b ⟨3, x, 2⟩ (toChar v :: cs) =
    (a2b ⟨0, 0, 0⟩ cs).map (.ofNat (x * 64 + v) :: ·) := by
  rw [a2b_toChar 3 x 2 hv, if_pos (by decide), Nat.sub_self, pow_zero, Nat.mod_one, Nat.div_one]

end Quad

/-- The decoder in step with the encoder: it holds back no bits, six or four. -/
theorem a2b_b2a (bs : List UInt8) :
    (∀ l, a2b ⟨0, 0, 0⟩ (b2a l 0 bs) = some bs) ∧
      (∀ l x, a2b ⟨1, x, 6⟩ (b2a l 2 bs) = some (.ofNat (x * 4 + l % 4) :: bs)) ∧
      (∀ l x, a2b ⟨2, x, 4⟩ (b2a l 4 bs) = some (.ofNat (x * 16 + l % 16) :: bs)) := by
  induction bs with
  | nil =>
    refine ⟨fun _ => rfl, ?_, ?_⟩
    · intro l x
      have hpad : ∀ y, a2b ⟨2, y, 4⟩ ['=', '='] = some [] := fun _ => rfl
      have hx : (x * 64 + l % 4 * 16) / 16 = x * 4 + l % 4 := by omega
      rw [b2a, if_pos rfl, a2b_second (by omega), hpad, hx]
      rfl
    · intro l x
      have hpad : ∀ y, a2b ⟨3, y, 2⟩ ['='] = some [] := fun _ => rfl
      have hx : (x * 64 + l % 16 * 4) / 4 = x * 16 + l % 16 := by omega
      rw [b2a, if_neg (by decide), if_pos rfl, a2b_third (by omega), hpad, hx]
      rfl
  | cons b bs ih =>
    obtain ⟨ih₀, ih₂, ih₄⟩ := ih
    have hb : b.toNat < 256 := b.toNat_lt
    have hbyte : UInt8.ofNat b.toNat = b := UInt8.ofNat_toNat
    refine ⟨?_, ?_, ?_⟩
    · intro l
      have hx : (l * 256 + b.toNat) / 4 % 64 * 4 + (l * 256 + b.toNat) % 4 = b.toNat := by omega
      change a2b ⟨0, 0, 0⟩ (toChar ((l * 256 + b.toNat) / 4 % 64) :: b2a _ 2 bs) = _
      rw [a2b_first (by omega), ih₂, hx, hbyte]
    · intro l x
      set l' := l * 256 + b.toNat with hl'
      have hfst : (x * 64 + l' / 16 % 64) / 16 = x * 4 + l % 4 := by omega
      have hsnd : (x * 64 + l' / 16 % 64) % 16 * 16 + l' % 16 = b.toNat := by omega
      change a2b ⟨1, x, 6⟩ (toChar (l' / 16 % 64) :: b2a l' 4 bs) = _
      rw [a2b_second (by omega), ih₄, hfst, hsnd, hbyte]
      rfl
    · intro l x
      set l' := l * 256 + b.toNat with hl'
      have hfst : (x * 64 + l' / 64 % 64) / 4 = x * 16 + l % 16 := by omega
      have hsnd : (x * 64 + l' / 64 % 64) % 4 * 64 + l' / 1 % 64 = b.toNat := by omega
      change a2b ⟨2, x, 4⟩ (toChar (l' / 64 % 64) :: toChar (l' / 1 % 64) :: b2a l' 0 bs) = _
      rw [a2b_third (by omega), a2b_fourth (by omega), ih₀, hfst, hsnd, hbyte]
      rfl

theorem toChar_ascii (v : ℕ) : (toChar v).toNat < 128 := by
  unfold toChar
  rcases lt_or_ge v alphabet.length with hv | hv
  · rw [List.getD_eq_getElem _ _ hv]
    have hall : alphabet.all (fun c => c.toNat < 128) = true := rfl
    exact of_decide_eq_true (List.all_eq_true.mp hall _ (List.getElem_mem hv))
  · rw [List.getD_eq_default _ _ hv]
    decide

theorem emit_ascii (l n : ℕ) : ∀ c ∈ (emit l n).1, c.toNat < 128 := by
  fun_induction emit l n with
  | case1 rest ih =>
    intro c hc
    rcases List.mem_cons.mp hc with rfl | hc
    · exact toChar_ascii _
    · exact ih c hc
  | case2 => simp

theorem b2a_ascii (l n : ℕ) (bs : List UInt8) : ∀ c ∈ b2a l n bs, c.toNat < 128 := by
  induction bs generalizing l n with
  | nil =>
    intro c hc
    rw [b2a] at hc
    split_ifs at hc <;> simp only [List.mem_cons, List.not_mem_nil, or_false] at hc
    · rcases hc with rfl | rfl | rfl
      · exact toChar_ascii _
      all_goals decide
    · rcases hc with rfl | rfl
      · exact toChar_ascii _
      · decide
  | cons b bs ih =>
    intro c hc
    rcases List.mem_append.mp hc with hc | hc
    · exact emit_ascii _ _ c hc
    · exact ih _ _ c hc

theorem b64decode_b64encode (bytes : List UInt8) : b64decode (b64encode bytes) = some bytes := by
  rw [b64decode, b64encode, String.toList_ofList, if_pos, (a2b_b2a bytes).1]
  simpa only [List.all_eq_true, decide_eq_true_eq] using b2a_ascii 0 0 bytes

end RoundTrip

end StoneRidge.Kit.Base64
