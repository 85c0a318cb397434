import Mathlib.Data.List.TakeWhile
import Mathlib.Tactic

/-!
# Python texts

`endswith`, `replace` with the empty text, the head of `rsplit(sep, 1)`, and `int`
of a text.
-/

set_option autoImplicit false

namespace StoneRidge.Kit.PyText

-- `Char` is finite: without this `decide` goes through all characters
instance (priority := 2000) decidableForallMem {l : List Char} {p : Char → Prop} [DecidablePred p] :
    Decidable (∀ c ∈ l, p c) :=
  List.decidableBAll p l

def endsWith (s suffix : String) : Bool := suffix.toList.isSuffixOf s.toList

/-- `s` without the occurrences of `pat`, found from the left; the first `skip`
characters belong to one found before. -/
def without (pat : List Char) : ℕ → List Char → List Char
  | _, [] => []
  | skip + 1, _ :: cs => without pat skip cs
  | 0, c :: cs =>
    if pat.isPrefixOf (c :: cs) then without pat (pat.length - 1) cs else c :: without pat 0 cs

/-- `s.replace(pat, '')` for a non-empty `pat`. -/
def replaceEmpty (s pat : String) : String := String.ofList (without pat.toList 0 s.toList)

/-- `s.rsplit(sep, 1)[0]`. -/
def rsplitHead (s : String) (sep : Char) : String :=
  if sep ∈ s.toList then String.ofList (s.toList.reverse.dropWhile (· ≠ sep)).tail.reverse else s

def isSpace (c : Char) : Bool := c ∈ [' ', '\t', '\n', '\r', '\x0b', '\x0c']

def strip (cs : List Char) : List Char :=
  ((cs.dropWhile isSpace).reverse.dropWhile isSpace).reverse

def digits? (cs : List Char) : Option ℕ :=
  if cs ≠ [] ∧ cs.all Char.isDigit then some (Nat.ofDigitChars 10 cs 0) else none

/-- `int(s)`, or nothing where it raises `ValueError`. -/
def int? (s : String) : Option ℤ :=
  match strip s.toList with
  | '-' :: cs => (digits? cs).map fun n : ℕ => -(n : ℤ)
  | '+' :: cs => (digits? cs).map Int.ofNat
  | cs => (digits? cs).map Int.ofNat

theorem isSpace_of_isDigit {c : Char} (h : c.isDigit = true) : isSpace c = false := by
  unfold isSpace
  rw [decide_eq_false_iff_not]
  intro hmem
  simp only [List.mem_cons, List.not_mem_nil, or_false] at hmem
  rcases hmem with rfl | rfl | rfl | rfl | rfl | rfl <;> simp at h

theorem strip_eq {cs : List Char} (hhead : ∀ c, cs.head? = some c → isSpace c = false)
    (hlast : ∀ c, cs.getLast? = some c → isSpace c = false) : strip cs = cs := by
  have hleft : cs.dropWhile isSpace = cs := by
    cases cs with
    | nil => rfl
    | cons c cs => exact List.dropWhile_cons_of_neg (by simp [hhead c rfl])
  unfold strip
  rw [hleft]
  cases hrev : cs.reverse with
  | nil =>
    rw [List.reverse_eq_nil_iff] at hrev
    simp [hrev]
  | cons c rest =>
    have hc : isSpace c = false := by
      apply hlast
      rw [← List.head?_reverse, hrev]
      rfl
    rw [List.dropWhile_cons_of_neg (by simp [hc]), ← hrev, List.reverse_reverse]

theorem head_of_dropWhile {p : Char → Bool} {t rest : List Char} {d : Char}
    (h : t.dropWhile p = d :: rest) : p d = false := by
  have hne : t.dropWhile p ≠ [] := by simp [h]
  have hnot := List.head_dropWhile_not p hne
  simpa [h] using hnot

theorem strip_dropWhile (cs : List Char) : strip (cs.dropWhile isSpace) = strip cs := by
  have htwice : (cs.dropWhile isSpace).dropWhile isSpace = cs.dropWhile isSpace := by
    cases hdrop : cs.dropWhile isSpace with
    | nil => rfl
    | cons c rest => exact List.dropWhile_cons_of_neg (by simp [head_of_dropWhile hdrop])
  unfold strip
  rw [htwice]

theorem strip_append_space {e : List Char} (he : ∀ c ∈ e, isSpace c = true) (cs : List Char) :
    strip (cs ++ e) = strip cs := by
  have hrev : ∀ c ∈ e.reverse, isSpace c = true := fun c hc => he c (List.mem_reverse.mp hc)
  unfold strip
  rw [List.dropWhile_append]
  split
  · rename_i hnil
    rw [List.isEmpty_iff] at hnil
    rw [hnil, List.dropWhile_eq_nil_iff.mpr he]
  · rw [List.reverse_append, List.dropWhile_append_of_pos hrev]

theorem strip_cons_space {c : Char} (hc : isSpace c = true) (cs : List Char) :
    strip (c :: cs) = strip cs := by
  unfold strip
  rw [List.dropWhile_cons_of_pos hc]

theorem strip_split (cs : List Char) : ∃ a b, cs = a ++ strip cs ++ b ∧
    (∀ c ∈ a, isSpace c = true) ∧ ∀ c ∈ b, isSpace c = true := by
  have hleft := List.takeWhile_append_dropWhile (p := isSpace) (l := cs)
  have hright := List.takeWhile_append_dropWhile (p := isSpace) (l := (cs.dropWhile isSpace).reverse)
  refine ⟨cs.takeWhile isSpace, ((cs.dropWhile isSpace).reverse.takeWhile isSpace).reverse, ?_, ?_, ?_⟩
  · unfold strip
    rw [List.append_assoc, ← List.reverse_append, hright, List.reverse_reverse, hleft]
  · intro c hc
    exact List.mem_takeWhile_imp hc
  · intro c hc
    exact List.mem_takeWhile_imp (List.mem_reverse.mp hc)

theorem count_strip {c : Char} (hc : isSpace c = false) (cs : List Char) :
    (strip cs).count c = cs.count c := by
  obtain ⟨a, b, heq, ha, hb⟩ := strip_split cs
  have hzero : ∀ e : List Char, (∀ d ∈ e, isSpace d = true) → e.count c = 0 := by
    intro e he
    rw [List.count_eq_zero]
    intro hmem
    rw [he c hmem] at hc
    cases hc
  conv_rhs => rw [heq]
  rw [List.count_append, List.count_append, hzero a ha, hzero b hb]
  omega

/-- White space after the text does not change how it begins. -/
theorem head?_strip (cs : List Char) : (strip cs).head? = (cs.dropWhile isSpace).head? := by
  cases hdrop : cs.dropWhile isSpace with
  | nil =>
    unfold strip
    rw [hdrop]
    rfl
  | cons c rest =>
    have hc : isSpace c = false := head_of_dropWhile hdrop
    unfold strip
    rw [hdrop, List.reverse_cons, List.dropWhile_append]
    split
    · rw [List.dropWhile_cons_of_neg (by simp [hc])]
      rfl
    · rw [List.reverse_append]
      rfl

theorem digits?_toDigits (n : ℕ) : digits? (Nat.toDigits 10 n) = some n := by
  unfold digits?
  rw [if_pos, Nat.ofDigitChars_ten_toDigits]
  refine ⟨Nat.toDigits_ne_nil, ?_⟩
  rw [List.all_eq_true]
  intro c hc
  exact Nat.isDigit_of_mem_toDigits (by decide) (by decide) hc

theorem isDigit_of_mem_toDigits {n : ℕ} {c : Char} (h : c ∈ Nat.toDigits 10 n) :
    c.isDigit = true :=
  Nat.isDigit_of_mem_toDigits (by decide) (by decide) h

theorem toList_toString_ofNat (n : ℕ) : (toString (Int.ofNat n)).toList = Nat.toDigits 10 n :=
  Nat.toList_repr

theorem toList_toString_negSucc (n : ℕ) :
    (toString (Int.negSucc n)).toList = '-' :: Nat.toDigits 10 (n + 1) := by
  show ("-" ++ (n + 1).repr).toList = _
  rw [String.toList_append, Nat.toList_repr]
  rfl

theorem int?_toString (z : ℤ) : int? (toString z) = some z := by
  unfold int?
  cases z with
  | ofNat n =>
    obtain ⟨c, cs, hcs⟩ := List.exists_cons_of_ne_nil (@Nat.toDigits_ne_nil n 10)
    have hdigit : c.isDigit = true := isDigit_of_mem_toDigits (n := n) (by simp [hcs])
    have hstrip : strip (Nat.toDigits 10 n) = Nat.toDigits 10 n := by
      apply strip_eq
      · intro d hd
        exact isSpace_of_isDigit (isDigit_of_mem_toDigits (List.mem_of_mem_head? hd))
      · intro d hd
        exact isSpace_of_isDigit (isDigit_of_mem_toDigits (List.mem_of_getLast? hd))
    rw [toList_toString_ofNat, hstrip]
    have hminus : c ≠ '-' := by
      rintro rfl
      simp at hdigit
    have hplus : c ≠ '+' := by
      rintro rfl
      simp at hdigit
    have hdigits := digits?_toDigits n
    rw [hcs] at hdigits ⊢
    split
    · rename_i h
      exact absurd (List.cons.inj h).1 hminus
    · rename_i h
      exact absurd (List.cons.inj h).1 hplus
    · rw [hdigits]
      rfl
  | negSucc n =>
    have hstrip : strip ('-' :: Nat.toDigits 10 (n + 1)) = '-' :: Nat.toDigits 10 (n + 1) := by
      apply strip_eq
      · intro d hd
        cases hd
        decide
      · intro d hd
        rw [List.getLast?_cons_of_ne_nil Nat.toDigits_ne_nil] at hd
        exact isSpace_of_isDigit (isDigit_of_mem_toDigits (List.mem_of_getLast? hd))
    rw [toList_toString_negSucc, hstrip]
    show (digits? (Nat.toDigits 10 (n + 1))).map (fun n : ℕ => -(n : ℤ)) = _
    rw [digits?_toDigits]
    rfl

end StoneRidge.Kit.PyText
