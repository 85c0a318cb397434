import Mathlib
import StoneRidge.Kit.PyText

/-!
# Directories

The files of a directory by name. A listing gives the names in some order; a shell
pattern with one star picks some of them, never a hidden one.
-/

set_option autoImplicit false

namespace StoneRidge.Kit.Files
open StoneRidge.Kit.PyText

variable {F : Type}

abbrev Directory (F : Type) := AList fun _ : String => F

structure Listing where
  order : List String → List String
  perm : ∀ names, (order names).Perm names

def isHidden (name : String) : Bool := name.toList.head? = some '.'

/-- Whether the pattern `pre*post` matches; `pre` does not begin with a dot. -/
def globbed (pre post name : String) : Bool :=
  !isHidden name && pre.toList.isPrefixOf name.toList && endsWith name post &&
    pre.toList.length + post.toList.length ≤ name.toList.length

def glob (listing : Listing) (pre post : String) (names : List String) : List String :=
  (listing.order names).filter (globbed pre post)

/-- The files `ws`, written one after the other. -/
def writeAll (d : Directory F) (ws : List (String × F)) : Directory F :=
  ws.foldl (fun d w => d.insert w.1 w.2) d

section Names
variable {listing : Listing} {pre post name s t u : String} {names : List String}

theorem mem_glob : name ∈ glob listing pre post names ↔ name ∈ names ∧ globbed pre post name := by
  unfold glob
  rw [List.mem_filter, (listing.perm names).mem_iff]

theorem endsWith_iff : endsWith s t = true ↔ t.toList <:+ s.toList := by
  unfold endsWith
  exact List.isSuffixOf_iff_suffix

theorem endsWith_append (s t : String) : endsWith (s ++ t) t = true := by
  rw [endsWith_iff, String.toList_append]
  exact List.suffix_append _ _

theorem endsWith_of_endsWith (hu : endsWith s u = true) (ht : endsWith s t = true)
    (h : t.toList.length ≤ u.toList.length) : endsWith u t = true := by
  rw [endsWith_iff] at hu ht ⊢
  exact List.suffix_of_suffix_length_le ht hu h

/-- What is appended decides on the endings that are no longer than it. -/
theorem endsWith_append_iff (h : t.toList.length ≤ u.toList.length) :
    endsWith (s ++ u) t = endsWith u t := by
  rw [Bool.eq_iff_iff, endsWith_iff, endsWith_iff, String.toList_append]
  constructor
  · intro hs
    exact List.suffix_of_suffix_length_le hs (List.suffix_append _ _) h
  · intro hs
    exact hs.trans (List.suffix_append _ _)

/-- What is appended does not matter to a longer ending that ends with it. -/
theorem endsWith_append_append : endsWith (s ++ u) (t ++ u) = endsWith s t := by
  rw [Bool.eq_iff_iff, endsWith_iff, endsWith_iff, String.toList_append, String.toList_append]
  constructor
  · intro ⟨p, hp⟩
    rw [← List.append_assoc] at hp
    exact ⟨p, List.append_cancel_right hp⟩
  · intro ⟨p, hp⟩
    exact ⟨p, by rw [← List.append_assoc, hp]⟩

theorem hidden_append (h : s ≠ "") : isHidden (s ++ t) = isHidden s := by
  unfold isHidden
  rw [String.toList_append, List.head?_append_of_ne_nil]
  intro hnil
  exact h (String.toList_eq_nil_iff.mp hnil)

theorem globbed_star : globbed "" post name = (!isHidden name && endsWith name post) := by
  unfold globbed
  rw [Bool.eq_iff_iff]
  simp only [Bool.and_eq_true, decide_eq_true_eq]
  constructor
  · intro ⟨⟨⟨hvisible, _⟩, hends⟩, _⟩
    exact ⟨hvisible, hends⟩
  · intro ⟨hvisible, hends⟩
    refine ⟨⟨⟨hvisible, rfl⟩, hends⟩, ?_⟩
    have hlen := (endsWith_iff.mp hends).length_le
    simpa using hlen

theorem globbed_endsWith (h : globbed pre post name = true) : endsWith name post = true := by
  unfold globbed at h
  simp only [Bool.and_eq_true] at h
  exact h.1.2

theorem globbed_fill (hpre : pre ≠ "") (hvisible : isHidden pre = false) (s : String) :
    globbed pre post (pre ++ s ++ post) = true := by
  have hhead : isHidden (pre ++ s ++ post) = false := by
    rw [String.append_assoc, hidden_append hpre, hvisible]
  unfold globbed
  rw [hhead, endsWith_append]
  simp only [String.toList_append, List.length_append, Bool.not_false, Bool.true_and,
    Bool.and_true, Bool.and_eq_true, decide_eq_true_eq]
  constructor
  · rw [List.isPrefixOf_iff_prefix, List.append_assoc]
    exact List.prefix_append _ _
  · omega

end Names

section Writing
variable {d : Directory F} {ws : List (String × F)} {k : String} {v : F}

theorem lookup_writeAll_of_not_mem (h : k ∉ ws.map Prod.fst) :
    (writeAll d ws).lookup k = d.lookup k := by
  unfold writeAll
  induction ws generalizing d with
  | nil => rfl
  | cons w ws ih =>
    rw [List.map_cons, List.mem_cons, not_or] at h
    rw [List.foldl_cons, ih h.2, AList.lookup_insert_ne h.1]

/-- A file is there as it was written if nothing else was written under its name. -/
theorem lookup_writeAll_of_agree (hmem : (k, v) ∈ ws) (hagree : ∀ w ∈ ws, w.1 = k → w.2 = v) :
    (writeAll d ws).lookup k = some v := by
  induction ws generalizing d with
  | nil => cases hmem
  | cons w ws ih =>
    by_cases hrest : k ∈ ws.map Prod.fst
    · obtain ⟨w', hw', rfl⟩ := List.mem_map.mp hrest
      have hv := hagree w' (List.mem_cons_of_mem _ hw') rfl
      exact ih (hv ▸ hw') fun w hw => hagree w (List.mem_cons_of_mem _ hw)
    · have hw : w = (k, v) := by
        rcases List.mem_cons.mp hmem with h | h
        · exact h.symm
        · exact absurd (List.mem_map_of_mem h) hrest
      have hrest' := lookup_writeAll_of_not_mem (d := d.insert w.1 w.2) hrest
      unfold writeAll at hrest' ⊢
      rw [List.foldl_cons, hrest', hw, AList.lookup_insert]

theorem writeAll_origin (h : (writeAll d ws).lookup k = some v) :
    d.lookup k = some v ∨ (k, v) ∈ ws := by
  induction ws generalizing d with
  | nil => exact Or.inl h
  | cons w ws ih =>
    rcases ih (d := d.insert w.1 w.2) h with hd | hmem
    · by_cases hk : k = w.1
      · rw [hk, AList.lookup_insert, Option.some_inj] at hd
        exact Or.inr (List.mem_cons.mpr (Or.inl (Prod.ext hk hd.symm)))
      · rw [AList.lookup_insert_ne hk] at hd
        exact Or.inl hd
    · exact Or.inr (List.mem_cons_of_mem _ hmem)

end Writing

end StoneRidge.Kit.Files
