import Mathlib.Data.List.TakeWhile
import Mathlib.Tactic

/-!
# Texts by lines

A text over any alphabet with a line break `nl`: its lines as a reader gets them, with
their line breaks, and its non-blank lines. `place` puts a line in the place of the first
of some marked lines and drops the others.
-/

set_option autoImplicit false

namespace StoneRidge.Kit.Lines

variable {α : Type} [DecidableEq α]

/-- The lines of a text that begins with the unfinished line `line`. -/
def readlinesFrom (nl : α) (line : List α) : List α → List (List α)
  | [] => if line = [] then [] else [line]
  | c :: cs =>
    if c = nl then (line ++ [nl]) :: readlinesFrom nl [] cs else readlinesFrom nl (line ++ [c]) cs

/-- `readlines()`: every line keeps its line break; the last one may have none. -/
def readlines (nl : α) (text : List α) : List (List α) := readlinesFrom nl [] text

def nonblank (nl : α) (text : List α) : List (List α) := (text.splitOn nl).filter (· ≠ [])

/-- `new` in the place of the first marked line, or at the end. -/
def place {β : Type} (marked : β → Bool) (new : β) (ls : List β) : List β :=
  ls.takeWhile (fun l => !marked l) ++ new :: (ls.dropWhile fun l => !marked l).filter (!marked ·)

section Lines
variable {nl : α} {text t : List α}

/-- A text is empty, one line without a break, or a line and a text. -/
theorem lines_induction (nl : α) {motive : List α → Prop} (nil : motive [])
    (last : ∀ t, nl ∉ t → t ≠ [] → motive t)
    (line : ∀ t rest, nl ∉ t → motive rest → motive (t ++ nl :: rest)) (text : List α) :
    motive text := by
  induction hlen : text.length using Nat.strong_induction_on generalizing text with
  | _ n ih =>
    by_cases hnl : nl ∈ text
    · obtain ⟨t, rest, heq, ht⟩ := List.eq_append_cons_of_mem hnl
      subst heq
      apply line t rest ht
      apply ih rest.length _ rest rfl
      rw [← hlen, List.length_append, List.length_cons]
      omega
    · by_cases hnil : text = []
      · exact hnil ▸ nil
      · exact last text hnl hnil

theorem readlinesFrom_append (line : List α) (h : nl ∉ t) (rest : List α) :
    readlinesFrom nl line (t ++ rest) = readlinesFrom nl (line ++ t) rest := by
  induction t generalizing line with
  | nil => simp
  | cons c t ih =>
    rw [List.mem_cons, not_or] at h
    rw [List.cons_append, readlinesFrom, if_neg (Ne.symm h.1), ih _ h.2]
    simp

theorem readlines_last (h : nl ∉ t) (hne : t ≠ []) : readlines nl t = [t] := by
  have happ := readlinesFrom_append [] h []
  rw [List.append_nil, List.nil_append] at happ
  unfold readlines
  rw [happ, readlinesFrom, if_neg hne]

theorem readlines_line (h : nl ∉ t) (rest : List α) :
    readlines nl (t ++ nl :: rest) = (t ++ [nl]) :: readlines nl rest := by
  unfold readlines
  rw [readlinesFrom_append [] h, readlinesFrom, if_pos rfl, List.nil_append]

theorem mem_readlines {l : List α} (h : l ∈ readlines nl text) :
    ∃ t, nl ∉ t ∧ (l = t ++ [nl] ∨ l = t ∧ t ≠ []) := by
  induction text using lines_induction nl with
  | nil => cases h
  | last t ht hne =>
    rw [readlines_last ht hne] at h
    exact ⟨t, ht, Or.inr ⟨List.mem_singleton.mp h, hne⟩⟩
  | line t rest ht ih =>
    rw [readlines_line ht] at h
    rcases List.mem_cons.mp h with rfl | h
    · exact ⟨t, ht, Or.inl rfl⟩
    · exact ih h

theorem nonblank_nil : nonblank nl [] = [] := rfl

/-- A line break between two texts keeps their lines apart. -/
theorem nonblank_append (nl : α) (a b : List α) :
    nonblank nl (a ++ nl :: b) = nonblank nl a ++ nonblank nl b := by
  unfold nonblank
  rw [List.splitOn_append_cons_self, List.filter_append]

theorem nonblank_last (h : nl ∉ t) (hne : t ≠ []) : nonblank nl t = [t] := by
  unfold nonblank
  rw [List.splitOn_eq_singleton h]
  exact List.filter_cons_of_pos (by simpa using hne)

theorem nonblank_line (h : nl ∉ t) :
    nonblank nl (t ++ [nl]) = if t = [] then [] else [t] := by
  rw [nonblank_append, nonblank_nil, List.append_nil]
  by_cases hnil : t = []
  · rw [if_pos hnil, hnil, nonblank_nil]
  · rw [if_neg hnil, nonblank_last h hnil]

theorem nonblank_eq_flatMap (text : List α) :
    nonblank nl text = (readlines nl text).flatMap (nonblank nl) := by
  induction text using lines_induction nl with
  | nil => rfl
  | last t h hne => rw [readlines_last h hne, List.flatMap_singleton]
  | line t rest h ih =>
    rw [readlines_line h, List.flatMap_cons, nonblank_append, ih]
    congr 1
    have hline := nonblank_append nl t []
    rw [nonblank_nil, List.append_nil] at hline
    exact hline.symm

theorem nonblank_intercalate (ls : List (List α)) :
    nonblank nl (List.intercalate [nl] ls) = ls.flatMap (nonblank nl) := by
  induction ls with
  | nil => rfl
  | cons l ls ih =>
    cases ls with
    | nil => simp [List.intercalate_singleton]
    | cons l' ls =>
      rw [List.intercalate_cons_cons, List.append_assoc, List.singleton_append, nonblank_append, ih]
      rfl

end Lines

section Place
variable {β γ : Type} {marked : β → Bool} {new new' : β} {ls : List β}

theorem place_nil : place marked new [] = [new] := rfl

theorem place_cons_marked {l : β} (h : marked l = true) :
    place marked new (l :: ls) = new :: ls.filter (!marked ·) := by
  unfold place
  simp [h]

theorem place_cons_unmarked {l : β} (h : marked l = false) :
    place marked new (l :: ls) = l :: place marked new ls := by
  unfold place
  simp [h]

theorem filter_place (h : marked new = true) : (place marked new ls).filter marked = [new] := by
  induction ls with
  | nil => simp [place_nil, h]
  | cons l ls ih =>
    cases hl : marked l with
    | false => rw [place_cons_unmarked hl, List.filter_cons_of_neg (by simp [hl]), ih]
    | true =>
      rw [place_cons_marked hl, List.filter_cons_of_pos h, List.filter_filter]
      simp

/-- Placing a line again forgets the one placed before. -/
theorem place_place (h : marked new = true) :
    place marked new' (place marked new ls) = place marked new' ls := by
  induction ls with
  | nil => rw [place_nil, place_cons_marked h]; rfl
  | cons l ls ih =>
    cases hl : marked l with
    | false => rw [place_cons_unmarked hl, place_cons_unmarked hl, place_cons_unmarked hl, ih]
    | true =>
      rw [place_cons_marked hl, place_cons_marked h, place_cons_marked hl, List.filter_filter]
      simp

theorem place_append_unmarked {a : List β} (h : ∀ l ∈ a, marked l = false) (b : List β) :
    place marked new (a ++ b) = a ++ place marked new b := by
  induction a with
  | nil => rfl
  | cons l a ih =>
    rw [List.cons_append, place_cons_unmarked (h l List.mem_cons_self),
      ih fun l' hl' => h l' (List.mem_cons_of_mem _ hl'), List.cons_append]

theorem filter_flatMap {marked' : γ → Bool} {g : β → List γ}
    (hmarked : ∀ l ∈ ls, marked l = true → ∀ t ∈ g l, marked' t = true)
    (hunmarked : ∀ l ∈ ls, marked l = false → ∀ t ∈ g l, marked' t = false) :
    (ls.flatMap g).filter (!marked' ·) = (ls.filter (!marked ·)).flatMap g := by
  induction ls with
  | nil => rfl
  | cons l ls ih =>
    have hrest := ih (fun l' hl' => hmarked l' (List.mem_cons_of_mem _ hl'))
      fun l' hl' => hunmarked l' (List.mem_cons_of_mem _ hl')
    rw [List.flatMap_cons, List.filter_append, hrest]
    cases hl : marked l with
    | true =>
      have hnone : (g l).filter (!marked' ·) = [] := by
        rw [List.filter_eq_nil_iff]
        intro t ht
        simp [hmarked l List.mem_cons_self hl t ht]
      rw [hnone, List.nil_append, List.filter_cons_of_neg (by simp [hl])]
    | false =>
      have hall : (g l).filter (!marked' ·) = g l := by
        rw [List.filter_eq_self]
        intro t ht
        simp [hunmarked l List.mem_cons_self hl t ht]
      rw [hall, List.filter_cons_of_pos (by simp [hl]), List.flatMap_cons]

/-- Placing a line commutes with reading each line as some lines that are marked alike. -/
theorem flatMap_place {marked' : γ → Bool} {g : β → List γ} {new' : γ} (hnew : g new = [new'])
    (hmarked : ∀ l ∈ ls, marked l = true → ∃ t, g l = [t] ∧ marked' t = true)
    (hunmarked : ∀ l ∈ ls, marked l = false → ∀ t ∈ g l, marked' t = false) :
    (place marked new ls).flatMap g = place marked' new' (ls.flatMap g) := by
  induction ls with
  | nil => rw [place_nil, List.flatMap_singleton, hnew]; rfl
  | cons l ls ih =>
    have hmarked' := fun l' hl' => hmarked l' (List.mem_cons_of_mem l hl')
    have hunmarked' := fun l' hl' => hunmarked l' (List.mem_cons_of_mem l hl')
    rw [List.flatMap_cons]
    cases hl : marked l with
    | false =>
      rw [place_cons_unmarked hl, List.flatMap_cons, ih hmarked' hunmarked',
        place_append_unmarked (hunmarked l List.mem_cons_self hl)]
    | true =>
      obtain ⟨t, ht, htmarked⟩ := hmarked l List.mem_cons_self hl
      rw [place_cons_marked hl, List.flatMap_cons, hnew, ht, List.singleton_append,
        List.singleton_append, place_cons_marked htmarked]
      congr 1
      refine (filter_flatMap ?_ hunmarked').symm
      intro l' hl' hm t' ht'
      obtain ⟨t'', heq, htm⟩ := hmarked' l' hl' hm
      rw [heq] at ht'
      rw [List.mem_singleton.mp ht']
      exact htm

end Place

end StoneRidge.Kit.Lines
