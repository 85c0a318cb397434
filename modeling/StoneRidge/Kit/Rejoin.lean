import StoneRidge.Kit.Lines

/-!
# Texts whose lines are joined again

`rejoin` reads the lines of a text with their line breaks, puts a line in the place of the
first marked one, drops the other marked ones and joins the lines with further line breaks.
Done twice it changes nothing exactly for a `Settled` text, and any other text grows.
-/

set_option autoImplicit false

namespace StoneRidge.Kit.Lines

variable {α : Type} [DecidableEq α]

def rejoin (nl : α) (marked : List α → Bool) (new text : List α) : List α :=
  List.intercalate [nl] (place marked new (readlines nl text))

/-- A line is marked whether or not its line break is looked at, and a blank line is not. -/
structure Marking (nl : α) (marked : List α → Bool) : Prop where
  line : ∀ t, marked (t ++ [nl]) = marked t
  blank : marked [] = false

/-- At most one line is not marked, and it is not the first one. -/
structure Settled (nl : α) (marked : List α → Bool) (text : List α) : Prop where
  first : ∀ l ∈ (readlines nl text).head?, marked l = true
  others : ((readlines nl text).filter (!marked ·)).length ≤ 1

/-- The lines before the first marked one. -/
def above (nl : α) (marked : List α → Bool) (text : List α) : List (List α) :=
  (readlines nl text).takeWhile (!marked ·)

/-- The lines after it that are not marked. -/
def below (nl : α) (marked : List α → Bool) (text : List α) : List (List α) :=
  ((readlines nl text).dropWhile (!marked ·)).filter (!marked ·)

/-- Each line with a further line break. -/
def ended (nl : α) (ls : List (List α)) : List α := ls.flatMap (· ++ [nl])

section Reading
variable {nl : α} {a text t : List α} {ls : List (List α)}

theorem readlines_break (a rest : List α) :
    readlines nl (a ++ nl :: rest) = readlines nl (a ++ [nl]) ++ readlines nl rest := by
  induction a using lines_induction nl with
  | nil =>
    have hline : ∀ x, readlines nl (nl :: x) = [nl] :: readlines nl x :=
      readlines_line List.not_mem_nil
    rw [List.nil_append, List.nil_append, hline, hline]
    rfl
  | last t ht hne =>
    rw [readlines_line ht, readlines_line ht]
    rfl
  | line t r ht ih =>
    have hassoc : ∀ x : List α, t ++ nl :: r ++ nl :: x = t ++ nl :: (r ++ nl :: x) := by simp
    rw [hassoc, hassoc, readlines_line ht, readlines_line ht, ih]
    rfl

theorem flatten_readlines (text : List α) : (readlines nl text).flatten = text := by
  induction text using lines_induction nl with
  | nil => rfl
  | last t ht hne => rw [readlines_last ht hne, List.flatten_singleton]
  | line t rest ht ih =>
    rw [readlines_line ht, List.flatten_cons, ih, List.append_assoc, List.singleton_append]

theorem readlines_length_pos (nl : α) (h : text ≠ []) : 0 < (readlines nl text).length := by
  rw [List.length_pos_iff]
  intro hnil
  have hflatten : (readlines nl text).flatten = text := flatten_readlines text
  rw [hnil] at hflatten
  exact h hflatten.symm

theorem readlines_ended (ls : List (List α)) (rest : List α) :
    readlines nl (ended nl ls ++ rest) = readlines nl (ended nl ls) ++ readlines nl rest := by
  induction ls with
  | nil => rfl
  | cons l ls ih =>
    have hcons : ∀ x : List α, ended nl (l :: ls) ++ x = l ++ nl :: (ended nl ls ++ x) := by
      intro x
      simp [ended]
    have hnil := hcons []
    rw [List.append_nil, List.append_nil] at hnil
    rw [hcons, hnil, readlines_break, readlines_break l (ended nl ls), ih, List.append_assoc]

omit [DecidableEq α] in
theorem length_ended (ls : List (List α)) :
    (ended nl ls).length = ls.flatten.length + ls.length := by
  induction ls with
  | nil => rfl
  | cons l ls ih =>
    unfold ended at ih ⊢
    simp only [List.flatMap_cons, List.flatten_cons, List.length_append, List.length_cons,
      List.length_nil, ih]
    omega

omit [DecidableEq α] in
theorem length_intercalate (h : ls ≠ []) :
    (List.intercalate [nl] ls).length + 1 = ls.flatten.length + ls.length := by
  induction ls with
  | nil => exact absurd rfl h
  | cons l ls ih =>
    cases ls with
    | nil => simp
    | cons l' ls =>
      have hrest := ih (List.cons_ne_nil _ _)
      rw [List.intercalate_cons_cons, List.flatten_cons]
      simp only [List.length_append, List.length_cons, List.length_nil] at hrest ⊢
      omega

omit [DecidableEq α] in
theorem intercalate_append_cons (ls : List (List α)) (new : List α) (ls' : List (List α)) :
    List.intercalate [nl] (ls ++ new :: ls') = ended nl ls ++
      (if ls' = [] then new else new ++ nl :: List.intercalate [nl] ls') := by
  induction ls with
  | nil =>
    cases ls' with
    | nil => simp [ended]
    | cons l' ls' => simp [ended, List.intercalate_cons_cons]
  | cons l ls ih =>
    have hne : ∃ l' ls'', ls ++ new :: ls' = l' :: ls'' := by
      cases ls with
      | nil => exact ⟨_, _, rfl⟩
      | cons l' ls => exact ⟨_, _, rfl⟩
    obtain ⟨l', ls'', heq⟩ := hne
    rw [List.cons_append, heq, List.intercalate_cons_cons, ← heq, ih]
    simp [ended]

end Reading

section Settled
variable {nl : α} {marked : List α → Bool} {new text : List α}

theorem rejoin_eq (nl : α) (marked : List α → Bool) (new text : List α) :
    rejoin nl marked new text =
      List.intercalate [nl] (above nl marked text ++ new :: below nl marked text) := rfl

theorem above_unmarked : ∀ l ∈ above nl marked text, marked l = false := by
  intro l hl
  simpa using List.mem_takeWhile_imp hl

theorem below_unmarked : ∀ l ∈ below nl marked text, marked l = false := by
  intro l hl
  simpa using (List.mem_filter.mp hl).2

theorem above_subset : ∀ l ∈ above nl marked text, l ∈ readlines nl text :=
  fun _ hl => (List.takeWhile_sublist _).subset hl

theorem below_subset : ∀ l ∈ below nl marked text, l ∈ readlines nl text :=
  fun _ hl => (List.dropWhile_sublist _).subset (List.mem_filter.mp hl).1

theorem filter_eq_above_below (nl : α) (marked : List α → Bool) (text : List α) :
    (readlines nl text).filter (!marked ·) = above nl marked text ++ below nl marked text := by
  have hsplit := List.takeWhile_append_dropWhile (p := (!marked ·)) (l := readlines nl text)
  have hall : (above nl marked text).filter (!marked ·) = above nl marked text := by
    rw [List.filter_eq_self]
    intro l hl
    simp [above_unmarked l hl]
  rw [← hsplit, List.filter_append]
  change (above nl marked text).filter _ ++ _ = _
  rw [hall]
  rfl

theorem settled_iff : Settled nl marked text ↔
    above nl marked text = [] ∧ (below nl marked text).length ≤ 1 := by
  have hfilter := filter_eq_above_below nl marked text
  constructor
  · intro ⟨hfirst, hothers⟩
    have habove : above nl marked text = [] := by
      unfold above
      cases hlines : readlines nl text with
      | nil => rfl
      | cons l ls =>
        rw [hlines] at hfirst
        exact List.takeWhile_cons_of_neg (by simp [hfirst l rfl])
    rw [hfilter, habove, List.nil_append] at hothers
    exact ⟨habove, hothers⟩
  · intro ⟨habove, hbelow⟩
    refine ⟨?_, ?_⟩
    · intro l hl
      unfold above at habove
      cases hlines : readlines nl text with
      | nil =>
        rw [hlines] at hl
        cases hl
      | cons l' ls =>
        rw [hlines] at hl habove
        rw [← Option.some.inj hl]
        by_contra hmarked
        rw [List.takeWhile_cons_of_pos (by simp [hmarked])] at habove
        cases habove
    · rw [hfilter, habove, List.nil_append]
      exact hbelow

theorem unmarked_break (hm : Marking nl marked) {l : List α} (hl : l ∈ readlines nl text)
    (hunmarked : marked l = false) : ∀ x ∈ readlines nl (l ++ [nl]), marked x = false := by
  obtain ⟨t, ht, heq⟩ := mem_readlines hl
  have hread : ∀ x, readlines nl (t ++ nl :: x) = (t ++ [nl]) :: readlines nl x := readlines_line ht
  have hblank : readlines nl [nl] = [[nl]] := readlines_line List.not_mem_nil []
  have hnl : marked [nl] = false := by
    have hline := hm.line []
    rwa [hm.blank, List.nil_append] at hline
  intro x hx
  rcases heq with rfl | ⟨rfl, -⟩
  · rw [List.append_assoc, List.singleton_append, hread, hblank] at hx
    rcases List.mem_cons.mp hx with rfl | hx
    · exact hunmarked
    · rw [List.mem_singleton.mp hx]
      exact hnl
  · rw [hread] at hx
    rw [List.mem_singleton.mp hx, hm.line]
    exact hunmarked

theorem unmarked_ended (hm : Marking nl marked) {ls : List (List α)}
    (hls : ∀ l ∈ ls, l ∈ readlines nl text ∧ marked l = false) :
    ∀ x ∈ readlines nl (ended nl ls), marked x = false := by
  induction ls with
  | nil =>
    intro x hx
    cases hx
  | cons l ls ih =>
    intro x hx
    have hcons : ended nl (l :: ls) = l ++ nl :: ended nl ls := by simp [ended]
    rw [hcons, readlines_break] at hx
    obtain ⟨hl, hunmarked⟩ := hls l List.mem_cons_self
    rcases List.mem_append.mp hx with hx | hx
    · exact unmarked_break hm hl hunmarked x hx
    · exact ih (fun l' hl' => hls l' (List.mem_cons_of_mem _ hl')) x hx

theorem readlines_of_mem {l : List α} (hl : l ∈ readlines nl text) : readlines nl l = [l] := by
  obtain ⟨t, ht, heq⟩ := mem_readlines hl
  rcases heq with rfl | ⟨rfl, hne⟩
  · exact readlines_line ht []
  · exact readlines_last ht hne

theorem unmarked_intercalate (hm : Marking nl marked) {ls : List (List α)}
    (hls : ∀ l ∈ ls, l ∈ readlines nl text ∧ marked l = false) :
    ∀ x ∈ readlines nl (List.intercalate [nl] ls), marked x = false := by
  induction ls with
  | nil =>
    intro x hx
    cases hx
  | cons l ls ih =>
    obtain ⟨hl, hunmarked⟩ := hls l List.mem_cons_self
    intro x hx
    cases ls with
    | nil =>
      rw [List.intercalate_singleton, readlines_of_mem hl] at hx
      rw [List.mem_singleton.mp hx]
      exact hunmarked
    | cons l' ls =>
      rw [List.intercalate_cons_cons, List.append_assoc, List.singleton_append,
        readlines_break] at hx
      rcases List.mem_append.mp hx with hx | hx
      · exact unmarked_break hm hl hunmarked x hx
      · exact ih (fun l' hl' => hls l' (List.mem_cons_of_mem _ hl')) x hx

/-- The text with the joined lines is read as some lines that are not marked, the new line
and some more that are not marked. -/
theorem readlines_rejoin (hnl : nl ∉ new) (hne : new ≠ []) :
    readlines nl (rejoin nl marked new text) = readlines nl (ended nl (above nl marked text)) ++
      (if below nl marked text = [] then new else new ++ [nl]) ::
        readlines nl (List.intercalate [nl] (below nl marked text)) := by
  rw [rejoin_eq, intercalate_append_cons, readlines_ended]
  congr 1
  split
  next hnil =>
    rw [readlines_last hnl hne, hnil]
    rfl
  next => exact readlines_line hnl _

end Settled

section Again
variable {nl : α} {marked : List α → Bool} {new text : List α}

omit [DecidableEq α] in
theorem parts_of_marked {ls ls' : List (List α)} {l : List α} (hls : ∀ x ∈ ls, marked x = false)
    (hl : marked l = true) (hls' : ∀ x ∈ ls', marked x = false) :
    (ls ++ l :: ls').takeWhile (!marked ·) = ls ∧
      ((ls ++ l :: ls').dropWhile (!marked ·)).filter (!marked ·) = ls' := by
  induction ls with
  | nil =>
    have hfilter : ls'.filter (!marked ·) = ls' := by
      rw [List.filter_eq_self]
      intro x hx
      simp [hls' x hx]
    simp [hl, hfilter]
  | cons x ls ih =>
    obtain ⟨htake, hdrop⟩ := ih fun y hy => hls y (List.mem_cons_of_mem _ hy)
    have hx : (!marked x) = true := by simp [hls x List.mem_cons_self]
    simp only [List.cons_append, List.takeWhile_cons, List.dropWhile_cons, hx, if_true, htake]
    exact ⟨trivial, hdrop⟩

theorem parts_rejoin (hm : Marking nl marked) (hnl : nl ∉ new) (hnew : marked new = true)
    (text : List α) :
    above nl marked (rejoin nl marked new text) =
        readlines nl (ended nl (above nl marked text)) ∧
      below nl marked (rejoin nl marked new text) =
        readlines nl (List.intercalate [nl] (below nl marked text)) := by
  have hne : new ≠ [] := by
    intro hnil
    rw [hnil, hm.blank] at hnew
    cases hnew
  have hmarked : marked (if below nl marked text = [] then new else new ++ [nl]) = true := by
    split
    · exact hnew
    · rw [hm.line, hnew]
  unfold above below
  rw [readlines_rejoin hnl hne]
  exact parts_of_marked
    (unmarked_ended hm fun l hl => ⟨above_subset l hl, above_unmarked l hl⟩) hmarked
    (unmarked_intercalate hm fun l hl => ⟨below_subset l hl, below_unmarked l hl⟩)

theorem length_rejoin (nl : α) (marked : List α → Bool) (new text : List α) :
    (rejoin nl marked new text).length = (above nl marked text).flatten.length + new.length +
      (below nl marked text).flatten.length + (above nl marked text).length +
      (below nl marked text).length := by
  have hne : above nl marked text ++ new :: below nl marked text ≠ [] := by simp
  have hlen : (rejoin nl marked new text).length + 1 =
      (above nl marked text ++ new :: below nl marked text).flatten.length +
        (above nl marked text ++ new :: below nl marked text).length := length_intercalate hne
  simp only [List.flatten_append, List.flatten_cons, List.length_append, List.length_cons] at hlen
  omega

theorem readlines_below (nl : α) (marked : List α → Bool) (text : List α) :
    ((below nl marked text).length ≤ 1 →
        readlines nl (List.intercalate [nl] (below nl marked text)) = below nl marked text) ∧
      (1 < (below nl marked text).length →
        1 < (readlines nl (List.intercalate [nl] (below nl marked text))).length) := by
  have hmem : ∀ l ∈ below nl marked text, l ∈ readlines nl text := below_subset
  cases hbelow : below nl marked text with
  | nil => exact ⟨fun _ => rfl, fun h => absurd h (by simp)⟩
  | cons l ls =>
    rw [hbelow] at hmem
    cases ls with
    | nil =>
      refine ⟨fun _ => ?_, fun h => absurd h (by simp)⟩
      rw [List.intercalate_singleton]
      exact readlines_of_mem (hmem l List.mem_cons_self)
    | cons l' ls =>
      refine ⟨fun h => absurd h (by simp), fun _ => ?_⟩
      have hl' : l' ≠ [] := by
        intro hnil
        have hread := readlines_of_mem (hmem l' (by simp))
        rw [hnil] at hread
        cases hread
      have hrest : List.intercalate [nl] (l' :: ls) ≠ [] := by
        cases ls with
        | nil => rwa [List.intercalate_singleton]
        | cons l'' ls =>
          rw [List.intercalate_cons_cons, List.append_assoc]
          exact List.append_ne_nil_of_left_ne_nil hl' _
      have hfirst : 0 < (readlines nl (l ++ [nl])).length := readlines_length_pos nl (by simp)
      have hsecond := readlines_length_pos nl hrest
      rw [List.intercalate_cons_cons, List.append_assoc, List.singleton_append, readlines_break,
        List.length_append]
      omega

omit [DecidableEq α] in
theorem ended_ne_nil (nl : α) {ls : List (List α)} (h : ls ≠ []) : ended nl ls ≠ [] := by
  have hpos := List.length_pos_iff.mpr h
  have hlen : (ended nl ls).length = ls.flatten.length + ls.length := length_ended ls
  intro hnil
  rw [hnil, List.length_nil] at hlen
  omega

theorem settled_rejoin (hm : Marking nl marked) (hnl : nl ∉ new) (hnew : marked new = true) :
    Settled nl marked (rejoin nl marked new text) ↔ Settled nl marked text := by
  obtain ⟨habove, hbelow⟩ := parts_rejoin hm hnl hnew text
  obtain ⟨hfew, hmany⟩ := readlines_below nl marked text
  rw [settled_iff, settled_iff, habove, hbelow]
  constructor
  · intro ⟨hnil, hlen⟩
    refine ⟨?_, ?_⟩
    · by_contra hne
      have hpos := readlines_length_pos nl (ended_ne_nil nl hne)
      rw [hnil, List.length_nil] at hpos
      omega
    · by_contra hgt
      have hlt := hmany (by omega)
      omega
  · intro ⟨hnil, hlen⟩
    rw [hnil, hfew hlen]
    exact ⟨rfl, hlen⟩

theorem length_lt_rejoin (hm : Marking nl marked) (hnl : nl ∉ new) (hnew : marked new = true)
    (h : ¬ Settled nl marked text) : (rejoin nl marked new text).length <
      (rejoin nl marked new (rejoin nl marked new text)).length := by
  obtain ⟨habove, hbelow⟩ := parts_rejoin hm hnl hnew text
  obtain ⟨hfew, hmany⟩ := readlines_below nl marked text
  have hfirst := length_rejoin nl marked new text
  have hsecond := length_rejoin nl marked new (rejoin nl marked new text)
  have hended : (ended nl (above nl marked text)).length =
      (above nl marked text).flatten.length + (above nl marked text).length := length_ended _
  rw [habove, hbelow, flatten_readlines, flatten_readlines] at hsecond
  rw [settled_iff, not_and_or] at h
  have hlines : (above nl marked text = [] ∨
      0 < (readlines nl (ended nl (above nl marked text))).length) := by
    by_cases hnil : above nl marked text = []
    · exact .inl hnil
    · exact .inr (readlines_length_pos nl (ended_ne_nil nl hnil))
  by_cases hnil : below nl marked text = []
  · have hone : (readlines nl (ended nl (above nl marked text))).length ≠ 0 := by
      rcases hlines with hempty | hpos
      · rw [hempty, hnil] at h
        simp at h
      · omega
    rw [hnil] at hfirst hsecond
    simp only [List.flatten_nil, List.length_nil, List.intercalate_nil] at hfirst hsecond
    omega
  · have hjoined : (List.intercalate [nl] (below nl marked text)).length + 1 =
        (below nl marked text).flatten.length + (below nl marked text).length :=
      length_intercalate hnil
    have hpos := List.length_pos_iff.mpr hnil
    by_cases hlen : (below nl marked text).length ≤ 1
    · rw [hfew hlen] at hsecond
      have habove' := h.resolve_right (not_not.mpr hlen)
      have hgrown := hlines.resolve_left habove'
      omega
    · have hlt := hmany (by omega)
      omega

theorem rejoin_settled (hm : Marking nl marked) (hnl : nl ∉ new) (hnew : marked new = true)
    (h : Settled nl marked text) :
    rejoin nl marked new (rejoin nl marked new text) = rejoin nl marked new text := by
  obtain ⟨habove, hbelow⟩ := parts_rejoin hm hnl hnew text
  obtain ⟨hnil, hlen⟩ := settled_iff.mp h
  have hfew := (readlines_below nl marked text).1 hlen
  rw [rejoin_eq nl marked new (rejoin nl marked new text), habove, hbelow, hfew, hnil,
    rejoin_eq, hnil]
  rfl

theorem rejoin_again_iff (hm : Marking nl marked) (hnl : nl ∉ new) (hnew : marked new = true)
    (text : List α) :
    rejoin nl marked new (rejoin nl marked new text) = rejoin nl marked new text ↔
      Settled nl marked text := by
  constructor
  · intro heq
    by_contra h
    have hlt := length_lt_rejoin hm hnl hnew h
    rw [heq] at hlt
    exact Nat.lt_irrefl _ hlt
  · exact rejoin_settled hm hnl hnew

/-- However often the lines are joined again. -/
theorem rejoin_iterate (hm : Marking nl marked) (hnl : nl ∉ new) (hnew : marked new = true)
    (text : List α) :
    (Settled nl marked text → ∀ n, (rejoin nl marked new)^[n] (rejoin nl marked new text) =
        rejoin nl marked new text) ∧
      (¬ Settled nl marked text →
        StrictMono fun n => ((rejoin nl marked new)^[n] (rejoin nl marked new text)).length) := by
  constructor
  · intro h n
    exact Function.iterate_fixed (rejoin_settled hm hnl hnew h) n
  · intro h
    have hall : ∀ n, ¬ Settled nl marked ((rejoin nl marked new)^[n] text) := by
      intro n
      induction n with
      | zero => exact h
      | succ n ih =>
        rw [Function.iterate_succ_apply', settled_rejoin hm hnl hnew]
        exact ih
    apply strictMono_nat_of_lt_succ
    intro n
    have hlt := length_lt_rejoin hm hnl hnew (hall n)
    rw [← Function.iterate_succ_apply' (rejoin nl marked new), Function.iterate_succ_apply,
      ← Function.iterate_succ_apply' (rejoin nl marked new), Function.iterate_succ_apply] at hlt
    exact hlt

end Again

end StoneRidge.Kit.Lines
