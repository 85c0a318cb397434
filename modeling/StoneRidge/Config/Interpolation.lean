import StoneRidge.Config.Parser

/-!
# What interpolation does to percent signs

An escaped percent sign gives one for two, and a reference gives none for one beyond what
the value it names gives. So when no value loses percent signs, there are none.
-/

set_option autoImplicit false

namespace StoneRidge.Config

section Steps
variable {map : Text → Option Text} {left m : ℕ} {rest t : Text}

theorem except_bind_eq_ok {α β : Type} {x : Except Error α} {f : α → Except Error β} {b : β}
    (h : (x >>= f) = .ok b) : ∃ a, x = .ok a ∧ f a = .ok b := by
  cases x with
  | error e => cases h
  | ok a => exact ⟨a, rfl, h⟩

theorem interpolationVariable_suffix {name rest' : Text}
    (h : interpolationVariable rest = some (name, rest')) : rest' <:+ rest := by
  unfold interpolationVariable at h
  split at h
  · rename_i tail hdrop
    split at h
    · cases h
    · cases h
      have hsuffix := List.dropWhile_suffix (l := rest) (· ≠ ')')
      rw [hdrop] at hsuffix
      exact ((List.suffix_cons _ _).trans (List.suffix_cons _ _)).trans hsuffix
  · cases h

theorem interpolateSome_nil (map : Text → Option Text) (left : ℕ) :
    interpolateSome map (left + 1) [] = .ok [] := by
  rw [interpolateSome]

theorem interpolateSome_cons {c : Char} (hc : c ≠ '%') :
    interpolateSome map (left + 1) (c :: rest) =
      (interpolateSome map (left + 1) rest).map (c :: ·) := by
  rw [interpolateSome, if_neg hc]
  · cases interpolateSome map (left + 1) rest <;> rfl
  · intro _ h
    exact absurd h hc
  · intro _ h
    exact absurd h hc

theorem interpolateSome_plain (h : '%' ∉ rest) : interpolateSome map (left + 1) rest = .ok rest := by
  induction rest with
  | nil => exact interpolateSome_nil map left
  | cons c rest ih =>
    rw [List.mem_cons, not_or] at h
    rw [interpolateSome_cons (Ne.symm h.1), ih h.2]
    rfl

theorem interpolateSome_escape : interpolateSome map (left + 1) ('%' :: '%' :: rest) =
    (interpolateSome map (left + 1) rest).map ('%' :: ·) := by
  rw [interpolateSome]
  cases interpolateSome map (left + 1) rest <;> rfl

theorem interpolateSome_reference {name rest' v : Text}
    (hvar : interpolationVariable rest = some (name, rest'))
    (hmap : map (name.map Char.toLower) = some v) :
    interpolateSome map (left + 1) ('%' :: '(' :: rest) = (do
      let inner ← (if '%' ∈ v then interpolateSome map left v else .ok v)
      let value ← interpolateSome map (left + 1) rest'
      .ok (inner ++ value)) := by
  rw [interpolateSome]
  split
  · rename_i hnone
    rw [hvar] at hnone
    cases hnone
  · rename_i name' rest'' hsome
    rw [hvar] at hsome
    cases hsome
    rw [hmap]

theorem reference_of_ok (h : interpolateSome map (left + 1) ('%' :: '(' :: rest) = .ok t) :
    ∃ name rest' v inner value, interpolationVariable rest = some (name, rest') ∧
      map (name.map Char.toLower) = some v ∧
      (if '%' ∈ v then interpolateSome map left v else .ok v) = .ok inner ∧
      interpolateSome map (left + 1) rest' = .ok value ∧ t = inner ++ value := by
  cases hvar : interpolationVariable rest with
  | none =>
    rw [interpolateSome] at h
    split at h
    · cases h
    · rename_i hsome
      rw [hvar] at hsome
      cases hsome
  | some p =>
    obtain ⟨name, rest'⟩ := p
    cases hmap : map (name.map Char.toLower) with
    | none =>
      rw [interpolateSome] at h
      split at h
      · cases h
      · rename_i hsome
        rw [hvar] at hsome
        cases hsome
        rw [hmap] at h
        cases h
    | some v =>
      rw [interpolateSome_reference hvar hmap] at h
      obtain ⟨inner, hinner, h⟩ := except_bind_eq_ok h
      obtain ⟨value, hvalue, h⟩ := except_bind_eq_ok h
      cases h
      exact ⟨name, rest', v, inner, value, rfl, hmap, hinner, hvalue, rfl⟩

theorem map_of_ok {x : Except Error Text} {f : Text → Text} (h : x.map f = .ok t) :
    ∃ value, x = .ok value ∧ t = f value := by
  cases x with
  | error e => cases h
  | ok value =>
    cases h
    exact ⟨value, rfl, rfl⟩

theorem interpolateSome_cases (h : interpolateSome map (left + 1) rest = .ok t) :
    rest = [] ∧ t = [] ∨
    (∃ c rest' value, c ≠ '%' ∧ rest = c :: rest' ∧
      interpolateSome map (left + 1) rest' = .ok value ∧ t = c :: value) ∨
    (∃ rest' value, rest = '%' :: '%' :: rest' ∧
      interpolateSome map (left + 1) rest' = .ok value ∧ t = '%' :: value) ∨
    ∃ rest₀ name rest' v inner value, rest = '%' :: '(' :: rest₀ ∧
      interpolationVariable rest₀ = some (name, rest') ∧
      map (name.map Char.toLower) = some v ∧
      (if '%' ∈ v then interpolateSome map left v else .ok v) = .ok inner ∧
      interpolateSome map (left + 1) rest' = .ok value ∧ t = inner ++ value := by
  cases rest with
  | nil =>
    rw [interpolateSome_nil] at h
    cases h
    exact Or.inl ⟨rfl, rfl⟩
  | cons c rest =>
    refine Or.inr ?_
    by_cases hc : c = '%'
    · subst hc
      refine Or.inr ?_
      cases rest with
      | nil =>
        rw [interpolateSome] at h
        · cases h
        · simp
        · simp
      | cons d rest =>
        by_cases hescape : d = '%'
        · subst hescape
          rw [interpolateSome_escape] at h
          obtain ⟨value, hvalue, rfl⟩ := map_of_ok h
          exact Or.inl ⟨rest, value, rfl, hvalue, rfl⟩
        · by_cases hreference : d = '('
          · subst hreference
            obtain ⟨name, rest', v, inner, value, hok⟩ := reference_of_ok h
            exact Or.inr ⟨rest, name, rest', v, inner, value, rfl, hok⟩
          · rw [interpolateSome] at h
            · cases h
            · simp [hescape]
            · simp [hreference]
    · rw [interpolateSome_cons hc] at h
      obtain ⟨value, hvalue, rfl⟩ := map_of_ok h
      exact Or.inl ⟨c, rest, value, hc, rfl, hvalue, rfl⟩

/-- Induction on how deep values are nested, and then on the length of the text. -/
theorem interpolate_induction {motive : ℕ → Text → Prop}
    (step : ∀ left rest, (∀ rest', rest'.length < rest.length → motive (left + 1) rest') →
      (∀ v, motive left v) → motive (left + 1) rest)
    (zero : ∀ rest, motive 0 rest) (left : ℕ) (rest : Text) : motive left rest := by
  induction left generalizing rest with
  | zero => exact zero rest
  | succ left ih =>
    induction hlen : rest.length using Nat.strong_induction_on generalizing rest with
    | _ n ihn =>
      apply step left rest _ ih
      intro rest' hlt
      exact ihn rest'.length (hlen ▸ hlt) rest' rfl

/-- More depth does not change a value. -/
theorem interpolateSome_mono (h : interpolateSome map left rest = .ok t) (hle : left ≤ m) :
    interpolateSome map m rest = .ok t := by
  induction left, rest using interpolate_induction generalizing t m with
  | zero rest =>
    rw [interpolateSome] at h
    cases h
  | step left rest ihrest ihdepth =>
    obtain ⟨m, rfl⟩ : ∃ k, m = k + 1 := ⟨m - 1, by omega⟩
    rcases interpolateSome_cases h with ⟨rfl, rfl⟩ | ⟨c, rest', value, hc, rfl, hvalue, rfl⟩ |
      ⟨rest', value, rfl, hvalue, rfl⟩ |
      ⟨rest₀, name, rest', v, inner, value, rfl, hvar, hmap, hinner, hvalue, rfl⟩
    · exact interpolateSome_nil map m
    · rw [interpolateSome_cons hc, ihrest rest' (by simp) hvalue hle]
      rfl
    · rw [interpolateSome_escape, ihrest rest' (by simp) hvalue hle]
      rfl
    · have hlen := interpolationVariable_length hvar
      have hinner' : (if '%' ∈ v then interpolateSome map m v else .ok v) = .ok inner := by
        by_cases hv : '%' ∈ v
        · rw [if_pos hv] at hinner ⊢
          exact ihdepth v hinner (by omega)
        · rw [if_neg hv] at hinner ⊢
          exact hinner
      have hlt : rest'.length < ('%' :: '(' :: rest₀).length := by
        rw [List.length_cons, List.length_cons]
        omega
      rw [interpolateSome_reference hvar hmap, hinner', ihrest rest' hlt hvalue hle]
      rfl

/-- If the values with percent signs fail at one depth, then at the next a text has to
have twice the percent signs of its value. -/
theorem count_le_of_ok
    (hfail : ∀ name v, map name = some v → '%' ∈ v → ∀ t, interpolateSome map left v ≠ .ok t)
    (h : interpolateSome map (left + 1) rest = .ok t) : 2 * t.count '%' ≤ rest.count '%' := by
  induction hlen : rest.length using Nat.strong_induction_on generalizing rest t with
  | _ n ih =>
    rcases interpolateSome_cases h with ⟨rfl, rfl⟩ | ⟨c, rest', value, hc, rfl, hvalue, rfl⟩ |
      ⟨rest', value, rfl, hvalue, rfl⟩ |
      ⟨rest₀, name, rest', v, inner, value, rfl, hvar, hmap, hinner, hvalue, rfl⟩
    · exact Nat.le_refl 0
    · have hrest := ih rest'.length (by rw [← hlen, List.length_cons]; omega) hvalue rfl
      rw [List.count_cons_of_ne hc, List.count_cons_of_ne hc]
      exact hrest
    · have hrest := ih rest'.length (by rw [← hlen, List.length_cons, List.length_cons]; omega)
        hvalue rfl
      rw [List.count_cons_self, List.count_cons_self, List.count_cons_self]
      omega
    · have hshort := interpolationVariable_length hvar
      have hrest := ih rest'.length
        (by rw [← hlen, List.length_cons, List.length_cons]; omega) hvalue rfl
      have hsub := (interpolationVariable_suffix hvar).sublist.count_le '%'
      have hv : '%' ∉ v := by
        intro hv
        rw [if_pos hv] at hinner
        exact hfail _ v hmap hv inner hinner
      rw [if_neg hv] at hinner
      cases hinner
      rw [List.count_append, List.count_eq_zero_of_not_mem hv, List.count_cons_self,
        List.count_cons_of_ne (by decide)]
      omega

/-- Values that succeed without losing percent signs have none. -/
theorem not_mem_percent {depth : ℕ}
    (h : ∀ name v, map name = some v → '%' ∈ v →
      ∃ t, interpolateSome map depth v = .ok t ∧ v.count '%' ≤ t.count '%') :
    ∀ name v, map name = some v → '%' ∉ v := by
  have hfail : ∀ left, left ≤ depth → ∀ name v, map name = some v → '%' ∈ v →
      ∀ t, interpolateSome map left v ≠ .ok t := by
    intro left
    induction left with
    | zero =>
      intro _ name v _ _ t ht
      rw [interpolateSome] at ht
      cases ht
    | succ left ih =>
      intro hle name v hmap hv t ht
      obtain ⟨t', ht', hcount⟩ := h name v hmap hv
      rw [interpolateSome_mono ht hle] at ht'
      cases ht'
      have htwice := count_le_of_ok (ih (by omega)) ht
      have hpos := List.count_pos_iff.mpr hv
      omega
  intro name v hmap hv
  obtain ⟨t, ht, _⟩ := h name v hmap hv
  exact hfail depth (Nat.le_refl depth) name v hmap hv t ht

end Steps

end StoneRidge.Config
