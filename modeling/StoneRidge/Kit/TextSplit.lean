import Mathlib.Tactic

/-!
# Texts split at a separator

The pieces between the occurrences of a separator, which are found from the left and do
not overlap, and the text that is joined from pieces again. A separator without borders
is found nowhere but where it was put.
-/

set_option autoImplicit false

namespace StoneRidge.Kit.TextSplit

variable {α : Type}

/-! ### Separators -/

/-- No proper end of the separator is a beginning of it. -/
def Borderless (sep : List α) : Prop := ∀ n < sep.length, 0 < n → ¬ sep.drop n <+: sep

instance decidableBorderless [DecidableEq α] (sep : List α) : Decidable (Borderless sep) :=
  inferInstanceAs (Decidable (∀ n < sep.length, 0 < n → ¬ sep.drop n <+: sep))

/-- No occurrence of the separator begins in `part`, which `text` follows. -/
def Clean (sep part text : List α) : Prop := ∀ s, s ≠ [] → s <:+ part → ¬ sep <+: s ++ text

section Clean
variable {sep part text rest p : List α}

theorem Clean.tail {c : α} (h : Clean sep (c :: p) text) : Clean sep p text := by
  intro s hs hsuffix
  exact h s hs (hsuffix.trans (List.suffix_cons c p))

theorem not_infix_of_clean (h : Clean sep part text) (hsep : sep ≠ []) : ¬ sep <:+: part := by
  rintro ⟨before, after, heq⟩
  refine h (sep ++ after) (by simp [hsep]) ⟨before, by rw [← heq, List.append_assoc]⟩ ?_
  rw [List.append_assoc]
  exact List.prefix_append _ _

theorem clean_of_absent (h : ¬ sep <:+: part) : Clean sep part [] := by
  rintro s - ⟨before, rfl⟩ ⟨after, hafter⟩
  rw [List.append_nil] at hafter
  exact h ⟨before, after, by rw [List.append_assoc, hafter]⟩

theorem Clean.concat {c : α} (h : Clean sep part (c :: text)) (hc : ¬ sep <+: c :: text) :
    Clean sep (part ++ [c]) text := by
  intro s hs hsuffix
  rw [List.suffix_concat_iff] at hsuffix
  obtain rfl | ⟨t, rfl, ht⟩ := hsuffix
  · exact absurd rfl hs
  · rw [List.append_assoc]
    by_cases hnil : t = []
    · rw [hnil]
      exact hc
    · exact h t hnil ht

theorem clean_nil : Clean sep [] text := by
  intro s hs hsuffix
  exact absurd (List.eq_nil_of_suffix_nil hsuffix) hs

/-- An occurrence that begins before a borderless beginning of the separator lies before it. -/
theorem clean_of_borderless {head tail : List α} (hborder : Borderless head)
    (hp : ¬ head <:+: p) : Clean (head ++ tail) p (head ++ tail ++ rest) := by
  rintro s hs ⟨before, rfl⟩ hprefix
  have hhead : head <+: s ++ (head ++ (tail ++ rest)) := by
    refine (List.prefix_append head tail).trans ?_
    simpa using hprefix
  by_cases hlen : head.length ≤ s.length
  · have hin : head <+: s := List.prefix_of_prefix_length_le hhead (List.prefix_append _ _) hlen
    obtain ⟨after, rfl⟩ := hin
    exact hp ⟨before, after, by rw [List.append_assoc]⟩
  · have hle : s.length ≤ head.length := by omega
    have hs' : s <+: head := List.prefix_of_prefix_length_le (List.prefix_append _ _) hhead hle
    obtain ⟨border, hborder'⟩ := hs'
    have hdrop : head.drop s.length = border := by rw [← hborder', List.drop_left]
    have hover : border <+: head ++ (tail ++ rest) := by
      have hcancel : s ++ border <+: s ++ (head ++ (tail ++ rest)) := by rwa [hborder']
      rwa [List.prefix_append_right_inj] at hcancel
    have hshort : border.length ≤ head.length := by
      rw [← hborder', List.length_append]
      omega
    have hpre : border <+: head :=
      List.prefix_of_prefix_length_le hover (List.prefix_append _ _) hshort
    refine hborder s.length (by omega) (List.length_pos_iff.mpr hs) ?_
    rw [hdrop]
    exact hpre

theorem not_prefix_across {x : α} (hx : x ∉ sep) {s : List α} (h : sep <+: s ++ x :: rest) :
    sep <+: s := by
  obtain ⟨after, hafter⟩ := h
  rcases List.append_eq_append_iff.mp hafter with ⟨t, hs, -⟩ | ⟨t, hsep, ht⟩
  · exact ⟨t, hs.symm⟩
  · cases t with
    | nil =>
      rw [List.append_nil] at hsep
      rw [hsep]
    | cons y t =>
      rw [List.cons_append, List.cons.injEq] at ht
      rw [← ht.1] at hsep
      exact absurd (hsep ▸ by simp) hx

theorem infix_of_mid (hsep : sep ≠ []) {x : α} (hx : x ∉ sep) {u v : List α}
    (h : sep <:+: u ++ x :: v) : sep <:+: u ∨ sep <:+: v := by
  obtain ⟨before, after, heq⟩ := h
  rw [List.append_assoc] at heq
  rcases List.append_eq_append_iff.mp heq with ⟨t, rfl, ht⟩ | ⟨t, -, ht⟩
  · have hprefix : sep <+: t ++ x :: v := ⟨after, ht⟩
    obtain ⟨rest, rfl⟩ := not_prefix_across hx hprefix
    exact Or.inl ⟨before, rest, by rw [List.append_assoc]⟩
  · cases t with
    | nil =>
      have hprefix : sep <+: [] ++ x :: v := ⟨after, ht.symm⟩
      exact absurd (List.eq_nil_of_prefix_nil (not_prefix_across hx hprefix)) hsep
    | cons y t =>
      rw [List.cons_append, List.cons.injEq] at ht
      exact Or.inr ⟨t, after, by rw [List.append_assoc, ← ht.2]⟩

end Clean

/-! ### Pieces -/

variable [DecidableEq α]

/-- The pieces of a text that begins with the unfinished piece `part`; the first `skip`
characters belong to the separator before. -/
def splitFrom (sep : List α) : ℕ → List α → List α → List (List α)
  | _, part, [] => [part]
  | skip + 1, part, _ :: cs => splitFrom sep skip part cs
  | 0, part, c :: cs =>
    if sep.isPrefixOf (c :: cs) then part :: splitFrom sep (sep.length - 1) [] cs
    else splitFrom sep 0 (part ++ [c]) cs

/-- `text.split(sep)`. -/
def split (sep text : List α) : List (List α) := splitFrom sep 0 [] text

section Split
variable {sep part text rest p : List α} {parts : List (List α)}

theorem splitFrom_skip (l : List α) :
    splitFrom sep l.length part (l ++ rest) = splitFrom sep 0 part rest := by
  induction l with
  | nil => rfl
  | cons c l ih => exact ih

theorem splitFrom_sep (hsep : sep ≠ []) :
    splitFrom sep 0 part (sep ++ rest) = part :: split sep rest := by
  obtain ⟨c, l, rfl⟩ := List.exists_cons_of_ne_nil hsep
  rw [List.cons_append, splitFrom, if_pos (by simp)]
  exact congrArg (part :: ·) (splitFrom_skip l)

theorem splitFrom_other {c : α} (h : ¬ sep <+: c :: rest) :
    splitFrom sep 0 part (c :: rest) = splitFrom sep 0 (part ++ [c]) rest := by
  rw [splitFrom, if_neg (by rwa [List.isPrefixOf_iff_prefix])]

theorem splitFrom_clean (h : Clean sep p rest) :
    splitFrom sep 0 part (p ++ rest) = splitFrom sep 0 (part ++ p) rest := by
  induction p generalizing part with
  | nil => simp
  | cons c p ih =>
    have hhere : ¬ sep <+: c :: (p ++ rest) := h (c :: p) (by simp) List.suffix_rfl
    rw [List.cons_append, splitFrom_other hhere, ih h.tail]
    simp

/-- Every text is empty, begins with the separator, or begins with another character. -/
theorem splitFrom_induction (hsep : sep ≠ []) {motive : List α → List α → Prop}
    (nil : ∀ part, motive part []) (found : ∀ part rest, motive [] rest → motive part (sep ++ rest))
    (other : ∀ part c rest, ¬ sep <+: c :: rest → motive (part ++ [c]) rest →
      motive part (c :: rest))
    (part text : List α) : motive part text := by
  induction hlen : text.length using Nat.strong_induction_on generalizing part text with
  | _ n ih =>
    cases text with
    | nil => exact nil part
    | cons c rest =>
      rw [List.length_cons] at hlen
      by_cases hprefix : sep <+: c :: rest
      · obtain ⟨after, hafter⟩ := hprefix
        have hpos := List.length_pos_iff.mpr hsep
        have hlength := congrArg List.length hafter
        rw [List.length_append, List.length_cons] at hlength
        rw [← hafter]
        exact found part after (ih after.length (by omega) [] after rfl)
      · exact other part c rest hprefix (ih rest.length (by omega) (part ++ [c]) rest rfl)

theorem splitFrom_ne_nil (hsep : sep ≠ []) : splitFrom sep 0 part text ≠ [] := by
  induction part, text using splitFrom_induction hsep with
  | nil part => simp [splitFrom]
  | found part rest ih => simp [splitFrom_sep hsep]
  | other part c rest hprefix ih => rwa [splitFrom_other hprefix]

theorem intercalate_splitFrom (hsep : sep ≠ []) :
    sep.intercalate (splitFrom sep 0 part text) = part ++ text := by
  induction part, text using splitFrom_induction hsep with
  | nil part => simp [splitFrom]
  | found part rest ih =>
    have hne : split sep rest ≠ [] := splitFrom_ne_nil hsep
    have hjoin : sep.intercalate (split sep rest) = rest := ih
    rw [splitFrom_sep hsep, List.intercalate_cons_of_ne_nil hne, hjoin, List.append_assoc]
  | other part c rest hprefix ih =>
    rw [splitFrom_other hprefix, ih]
    simp

theorem intercalate_split (hsep : sep ≠ []) : sep.intercalate (split sep text) = text :=
  intercalate_splitFrom hsep

theorem not_infix_of_mem_splitFrom (hsep : sep ≠ []) (hclean : Clean sep part text) :
    ∀ q ∈ splitFrom sep 0 part text, ¬ sep <:+: q := by
  induction part, text using splitFrom_induction hsep with
  | nil part =>
    intro q hq
    rw [splitFrom, List.mem_singleton] at hq
    rw [hq]
    exact not_infix_of_clean hclean hsep
  | found part rest ih =>
    intro q hq
    rw [splitFrom_sep hsep, List.mem_cons] at hq
    obtain rfl | hq := hq
    · exact not_infix_of_clean hclean hsep
    · exact ih clean_nil q hq
  | other part c rest hprefix ih =>
    rw [splitFrom_other hprefix]
    exact ih (hclean.concat hprefix)

theorem not_infix_of_mem_split (hsep : sep ≠ []) {q : List α} (hq : q ∈ split sep text) :
    ¬ sep <:+: q :=
  not_infix_of_mem_splitFrom hsep clean_nil q hq

theorem split_of_absent (h : ¬ sep <:+: p) : split sep p = [p] := by
  have hclean : splitFrom sep 0 [] (p ++ []) = splitFrom sep 0 ([] ++ p) [] :=
    splitFrom_clean (clean_of_absent h)
  rw [List.append_nil] at hclean
  rw [split, hclean, List.nil_append, splitFrom]

theorem split_length_eq_one_iff (hsep : sep ≠ []) : (split sep p).length = 1 ↔ ¬ sep <:+: p := by
  constructor
  · intro h
    obtain ⟨q, hq⟩ := List.length_eq_one_iff.mp h
    have htext : sep.intercalate (split sep p) = p := intercalate_split hsep
    have hmem : q ∈ split sep p := by
      rw [hq]
      exact List.mem_singleton_self q
    rw [hq, List.intercalate_singleton] at htext
    rw [← htext]
    exact not_infix_of_mem_split hsep hmem
  · intro h
    rw [split_of_absent h]
    rfl

/-- A separator after a piece without a borderless beginning of it. -/
theorem split_append {head tail : List α} (hhead : head ≠ []) (hborder : Borderless head)
    (hp : ¬ head <:+: p) :
    split (head ++ tail) (p ++ (head ++ tail ++ rest)) = p :: split (head ++ tail) rest := by
  have hsep : head ++ tail ≠ [] := by simp [hhead]
  rw [split, splitFrom_clean (clean_of_borderless hborder hp), splitFrom_sep hsep, List.nil_append]

theorem split_intercalate (hsep : sep ≠ []) (hborder : Borderless sep) (hne : parts ≠ [])
    (hparts : ∀ q ∈ parts, ¬ sep <:+: q) : split sep (sep.intercalate parts) = parts := by
  induction parts with
  | nil => exact absurd rfl hne
  | cons q parts ih =>
    have hq := hparts q List.mem_cons_self
    cases parts with
    | nil => rw [List.intercalate_singleton, split_of_absent hq]
    | cons q' parts =>
      have hrest := ih (by simp) fun x hx => hparts x (List.mem_cons_of_mem q hx)
      have happend : split (sep ++ []) (q ++ (sep ++ [] ++ sep.intercalate (q' :: parts))) =
          q :: split (sep ++ []) (sep.intercalate (q' :: parts)) :=
        split_append hsep hborder hq
      rw [List.append_nil, hrest] at happend
      rw [List.intercalate_cons_of_ne_nil (by simp), List.append_assoc, happend]

/-- The pieces are found again exactly if there are some and none contains the separator. -/
theorem split_intercalate_iff (hsep : sep ≠ []) (hborder : Borderless sep) :
    split sep (sep.intercalate parts) = parts ↔ parts ≠ [] ∧ ∀ q ∈ parts, ¬ sep <:+: q := by
  constructor
  · intro h
    refine ⟨?_, ?_⟩
    · rw [← h]
      exact splitFrom_ne_nil hsep
    · intro q hq
      rw [← h] at hq
      exact not_infix_of_mem_split hsep hq
  · rintro ⟨hne, hparts⟩
    exact split_intercalate hsep hborder hne hparts

theorem splitFrom_mid (hsep : sep ≠ []) {x : α} (hx : x ∉ sep) :
    ∃ before q, ∀ rest, splitFrom sep 0 part (text ++ x :: rest) =
      before ++ splitFrom sep 0 (q ++ [x]) rest := by
  induction part, text using splitFrom_induction hsep with
  | nil part =>
    refine ⟨[], part, ?_⟩
    intro rest
    have hnot : ¬ sep <+: x :: rest := by
      intro h
      have hnil : sep <+: [] := not_prefix_across hx h
      exact hsep (List.eq_nil_of_prefix_nil hnil)
    rw [List.nil_append, splitFrom_other hnot, List.nil_append]
  | found part after ih =>
    obtain ⟨before, q, hbefore⟩ := ih
    refine ⟨part :: before, q, ?_⟩
    intro rest
    rw [List.append_assoc, splitFrom_sep hsep, split, hbefore, List.cons_append]
  | other part c after hprefix ih =>
    obtain ⟨before, q, hbefore⟩ := ih
    refine ⟨before, q, ?_⟩
    intro rest
    have hnot : ¬ sep <+: c :: (after ++ x :: rest) := fun h =>
      hprefix (not_prefix_across hx h)
    rw [List.cons_append, splitFrom_other hnot, hbefore]

/-- The unfinished piece is the beginning of the first one. -/
theorem splitFrom_part (hsep : sep ≠ []) (text : List α) :
    ∃ q after, ∀ part, splitFrom sep 0 part text = (part ++ q) :: after := by
  refine splitFrom_induction hsep
    (motive := fun _ text => ∃ q after, ∀ part, splitFrom sep 0 part text = (part ++ q) :: after)
    ?_ ?_ ?_ [] text
  · intro _
    refine ⟨[], [], ?_⟩
    intro part
    rw [splitFrom, List.append_nil]
  · intro _ rest _
    refine ⟨[], split sep rest, ?_⟩
    intro part
    rw [splitFrom_sep hsep, List.append_nil]
  · intro _ c rest hprefix ih
    obtain ⟨q, after, hq⟩ := ih
    refine ⟨c :: q, after, ?_⟩
    intro part
    rw [splitFrom_other hprefix, hq, List.append_assoc, List.singleton_append]

/-- What is put between two characters that the separator does not have goes into one piece. -/
theorem split_insert (hsep : sep ≠ []) {a b m : List α} {x z : α} (hx : x ∉ sep) (hz : z ∉ sep)
    (hm : ¬ sep <:+: m) :
    ∃ before p q after, split sep (a ++ x :: b) = before ++ (p ++ q) :: after ∧
      split sep (a ++ x :: (m ++ z :: b)) = before ++ (p ++ (m ++ z :: q)) :: after := by
  obtain ⟨before, p, hp⟩ := @splitFrom_mid α _ sep [] a hsep x hx
  obtain ⟨q, after, hq⟩ := splitFrom_part hsep b
  have hclean : Clean sep (m ++ [z]) b := by
    intro s hs hsuffix hprefix
    rw [List.suffix_concat_iff] at hsuffix
    obtain rfl | ⟨t, rfl, ht⟩ := hsuffix
    · exact hs rfl
    · rw [List.append_assoc] at hprefix
      exact hm ((not_prefix_across hz hprefix).isInfix.trans ht.isInfix)
  have hinsert : m ++ z :: b = m ++ [z] ++ b := by simp
  refine ⟨before, p ++ [x], q, after, ?_, ?_⟩
  · rw [split, hp, hq]
  · rw [split, hp, hinsert, splitFrom_clean hclean, hq]
    simp

end Split

end StoneRidge.Kit.TextSplit
