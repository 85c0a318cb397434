import StoneRidge.Kit.Exec

/-!
# Commands with an exact condition

`Exact R x s ready post` says when a command falls through, not only what holds if it
does: from `s` it falls through exactly if `ready`, then into a state with `post`, and
however it ends, the state it reaches is related to `s` by `R`.
-/

set_option autoImplicit false

namespace StoneRidge.Kit.Exec

variable {ε σ α β : Type}

def Exact (R : σ → σ → Prop) (x : EStateM ε σ α) (s : σ) (ready : Prop)
    (post : α → σ → Prop) : Prop :=
  match x s with
  | .ok a t => ready ∧ R s t ∧ post a t
  | .error _ t => ¬ ready ∧ R s t

namespace Exact
variable {R : σ → σ → Prop} {x : EStateM ε σ α} {s : σ} {A B : Prop}
  {P Q : α → σ → Prop}

theorem ok {a : α} {t : σ} (h : Exact R x s A P) (hx : x s = .ok a t) : A ∧ R s t ∧ P a t := by
  unfold Exact at h
  rwa [hx] at h

theorem error {e : ε} {t : σ} (h : Exact R x s A P) (hx : x s = .error e t) : ¬ A ∧ R s t := by
  unfold Exact at h
  rwa [hx] at h

theorem conseq (h : Exact R x s A P) (hA : A ↔ B) (hP : ∀ a t, R s t → P a t → Q a t) :
    Exact R x s B Q := by
  unfold Exact at h ⊢
  cases hx : x s with
  | ok a t =>
    rw [hx] at h
    exact ⟨hA.mp h.1, h.2.1, hP a t h.2.1 h.2.2⟩
  | error e t =>
    rw [hx] at h
    exact ⟨fun hB => h.1 (hA.mpr hB), h.2⟩

theorem weaken {R' : σ → σ → Prop} (h : Exact R x s A P) (hR : ∀ t, R s t → R' s t) :
    Exact R' x s A P := by
  unfold Exact at h ⊢
  cases hx : x s with
  | ok a t =>
    rw [hx] at h
    exact ⟨h.1, hR t h.2.1, h.2.2⟩
  | error e t =>
    rw [hx] at h
    exact ⟨h.1, hR t h.2⟩

theorem and_ready (h : Exact R x s A P) : Exact R x s A fun a t => A ∧ P a t := by
  unfold Exact at h ⊢
  cases hx : x s with
  | ok a t =>
    rw [hx] at h
    exact ⟨h.1, h.2.1, h.1, h.2.2⟩
  | error e t =>
    rw [hx] at h
    exact h

theorem of_pure (hR : ∀ s, R s s) (a : α) :
    Exact R (pure a : EStateM ε σ α) s True fun b t => b = a ∧ t = s :=
  ⟨trivial, hR s, rfl, rfl⟩

theorem of_throw (hR : ∀ s, R s s) (e : ε) : Exact R (throw e : EStateM ε σ α) s False P :=
  ⟨id, hR s⟩

theorem of_ok {a : α} {t : σ} (h : x s = .ok a t) (hR : R s t) (hP : P a t) :
    Exact R x s True P := by
  unfold Exact
  rw [h]
  exact ⟨trivial, hR, hP⟩

theorem of_error {e : ε} {t : σ} (h : x s = .error e t) (hR : R s t) : Exact R x s False P := by
  unfold Exact
  rw [h]
  exact ⟨id, hR⟩

theorem of_modify {f : σ → σ} (h : R s (f s)) :
    Exact R (modify f : EStateM ε σ PUnit) s True fun _ t => t = f s :=
  ⟨trivial, h, rfl⟩

theorem get_bind {f : σ → EStateM ε σ β} {Q : β → σ → Prop} (h : Exact R (f s) s A Q) :
    Exact R (get >>= f) s A Q := h

/-- In sequence both conditions are needed. -/
theorem bind {f : α → EStateM ε σ β} {Q : β → σ → Prop} (htrans : ∀ s t u, R s t → R t u → R s u)
    (hx : Exact R x s A P) (hf : ∀ a t, P a t → Exact R (f a) t B Q) :
    Exact R (x >>= f) s (A ∧ B) Q := by
  unfold Exact
  cases h : x s with
  | error e t =>
    rw [bind_error h]
    obtain ⟨hA, hst⟩ := hx.error h
    exact ⟨fun hAB => hA hAB.1, hst⟩
  | ok a t =>
    obtain ⟨hA, hst, hP⟩ := hx.ok h
    have hf' := hf a t hP
    rw [bind_ok h]
    cases hc : f a t with
    | ok b u =>
      obtain ⟨hB, htu, hQ⟩ := hf'.ok hc
      exact ⟨⟨hA, hB⟩, htrans s t u hst htu, hQ⟩
    | error e u =>
      obtain ⟨hB, htu⟩ := hf'.error hc
      exact ⟨fun hAB => hB hAB.2, htrans s t u hst htu⟩

theorem modify_bind {g : σ → σ} {f : PUnit → EStateM ε σ β} {Q : β → σ → Prop}
    (htrans : ∀ s t u, R s t → R t u → R s u) (hg : R s (g s))
    (h : Exact R (f ⟨⟩) (g s) A Q) : Exact R (modify g >>= f) s A Q := by
  refine (bind htrans (of_modify hg) ?_).conseq (and_iff_right trivial) fun _ _ _ hQ => hQ
  intro _ t ht
  subst ht
  exact h

/-- A loop whose state is described by the elements it is done with. -/
theorem forM_of {γ : Type} (hrefl : ∀ s, R s s) (htrans : ∀ s t u, R s t → R t u → R s u)
    {f : γ → EStateM ε σ PUnit} {C : γ → Prop} {I : List γ → σ → Prop} (l done : List γ)
    (hstep : ∀ pre a post, done ++ l = pre ++ a :: post → done.length ≤ pre.length →
      ∀ s, I pre s → Exact R (f a) s (C a) fun _ t => I (pre ++ [a]) t)
    (hs : I done s) : Exact R (l.forM f) s (∀ a ∈ l, C a) fun _ t => I (done ++ l) t := by
  induction l generalizing done s with
  | nil =>
    refine (of_pure hrefl PUnit.unit).conseq ?_ ?_
    · simp
    · rintro _ t - ⟨-, rfl⟩
      rwa [List.append_nil]
  | cons a l ih =>
    have hhead := hstep done a l rfl (Nat.le_refl _) s hs
    have htail : ∀ (u : PUnit) t, I (done ++ [a]) t →
        Exact R (l.forM f) t (∀ b ∈ l, C b) fun _ t => I (done ++ a :: l) t := by
      intro _ t ht
      have hrest := ih (done ++ [a]) (fun pre b post heq hlen => hstep pre b post
        (by rw [← heq, List.append_assoc]; rfl)
        (Nat.le_trans (by simp) hlen)) ht
      rwa [List.append_assoc] at hrest
    have hseq := bind htrans hhead htail
    show Exact R (f a >>= fun _ => l.forM f) s _ _
    exact hseq.conseq List.forall_mem_cons.symm fun _ _ _ h => h

end Exact

attribute [irreducible] Exact

end StoneRidge.Kit.Exec
