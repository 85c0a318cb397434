import Mathlib.Tactic

set_option autoImplicit false

/-!
# Commands with state and exceptions

A command runs on a state and either falls through with a value or raises, and
keeps the state it has reached in both cases (as a Python statement does). The
carrier is the core monad `EStateM`; this module adds what a proof about a
command needs: one equation for each construct, and triples with a
postcondition for either way to end.
-/

namespace StoneRidge.Kit.Exec

variable {ε σ α β : Type}

/-! ### Equations -/

@[simp] theorem pure_apply (a : α) (s : σ) : (pure a : EStateM ε σ α) s = .ok a s := rfl

@[simp] theorem throw_apply (e : ε) (s : σ) :
    (throw e : EStateM ε σ α) s = .error e s := rfl

@[simp] theorem get_apply (s : σ) : (get : EStateM ε σ σ) s = .ok s s := rfl

@[simp] theorem set_apply (s t : σ) : (set t : EStateM ε σ PUnit) s = .ok ⟨⟩ t := rfl

@[simp] theorem modify_apply (f : σ → σ) (s : σ) :
    (modify f : EStateM ε σ PUnit) s = .ok ⟨⟩ (f s) := rfl

theorem bind_apply (x : EStateM ε σ α) (f : α → EStateM ε σ β) (s : σ) :
    (x >>= f) s = match x s with
      | .ok a t => f a t
      | .error e t => .error e t := rfl

@[simp] theorem bind_ok {x : EStateM ε σ α} {f : α → EStateM ε σ β} {s t : σ} {a : α}
    (h : x s = .ok a t) : (x >>= f) s = f a t := by
  simp only [bind_apply, h]

@[simp] theorem bind_error {x : EStateM ε σ α} {f : α → EStateM ε σ β} {s t : σ} {e : ε}
    (h : x s = .error e t) : (x >>= f) s = .error e t := by
  simp only [bind_apply, h]

theorem bind_eq_ok {x : EStateM ε σ α} {f : α → EStateM ε σ β} {s t : σ} {b : β}
    (h : (x >>= f) s = .ok b t) : ∃ a s', x s = .ok a s' ∧ f a s' = .ok b t := by
  cases hx : x s with
  | ok a s' =>
    rw [bind_ok hx] at h
    exact ⟨a, s', rfl, h⟩
  | error e s' =>
    rw [bind_error hx] at h
    cases h

/-- The loop, one round at a time. -/
theorem forM_cons (f : α → EStateM ε σ PUnit) (x : α) (l : List α) :
    (x :: l).forM f = (f x >>= fun _ => l.forM f) := rfl

theorem tryCatch_apply (x : EStateM ε σ α) (h : ε → EStateM ε σ α) (s : σ) :
    (tryCatch x h) s = match x s with
      | .ok a t => .ok a t
      | .error e t => h e t := by
  show EStateM.tryCatch x h s = _
  unfold EStateM.tryCatch
  cases x s <;> rfl

@[simp] theorem ite_apply (c : Prop) [Decidable c] (x y : EStateM ε σ α) (s : σ) :
    (if c then x else y) s = if c then x s else y s := by
  split <;> rfl

/-- The state in which a command ends, whichever way it ends. -/
def endState : EStateM.Result ε σ α → σ
  | .ok _ s => s
  | .error _ s => s

@[simp] theorem endState_ok (a : α) (s : σ) :
    endState (.ok a s : EStateM.Result ε σ α) = s := rfl

@[simp] theorem endState_error (e : ε) (s : σ) :
    endState (.error e s : EStateM.Result ε σ α) = s := rfl

/-! ### Triples -/

/-- From a state with `P` the command falls through into `Q` or raises into `R`. -/
def Triple (P : σ → Prop) (x : EStateM ε σ α) (Q : α → σ → Prop) (R : ε → σ → Prop) : Prop :=
  ∀ s, P s → match x s with
    | .ok a t => Q a t
    | .error e t => R e t

namespace Triple

variable {P P' : σ → Prop} {Q Q' : α → σ → Prop} {R R' : ε → σ → Prop}

theorem conseq {x : EStateM ε σ α} (h : Triple P x Q R) (hp : ∀ s, P' s → P s)
    (hq : ∀ a s, Q a s → Q' a s) (hr : ∀ e s, R e s → R' e s) : Triple P' x Q' R' := by
  intro s hs
  have hx := h s (hp s hs)
  cases hc : x s with
  | ok a t =>
    rw [hc] at hx
    exact hq a t hx
  | error e t =>
    rw [hc] at hx
    exact hr e t hx

/-- A triple may be proved from each single state of its precondition. -/
theorem of_state {x : EStateM ε σ α} (h : ∀ s, P s → Triple (· = s) x Q R) :
    Triple P x Q R :=
  fun s hs => h s hs s rfl

theorem of_pure {a : α} (h : ∀ s, P s → Q a s) : Triple P (pure a : EStateM ε σ α) Q R :=
  fun s hs => h s hs

theorem of_throw {e : ε} (h : ∀ s, P s → R e s) : Triple P (throw e : EStateM ε σ α) Q R :=
  fun s hs => h s hs

theorem of_modify {f : σ → σ} {Q : PUnit → σ → Prop} (h : ∀ s, P s → Q ⟨⟩ (f s)) :
    Triple P (modify f : EStateM ε σ PUnit) Q R :=
  fun s hs => h s hs

theorem bind {x : EStateM ε σ α} {f : α → EStateM ε σ β} {M : α → σ → Prop}
    {Q : β → σ → Prop} (hx : Triple P x M R) (hf : ∀ a, Triple (M a) (f a) Q R) :
    Triple P (x >>= f) Q R := by
  intro s hs
  have h := hx s hs
  cases hc : x s with
  | ok a t =>
    rw [hc] at h
    rw [bind_ok hc]
    exact hf a t h
  | error e t =>
    rw [hc] at h
    rw [bind_error hc]
    exact h

theorem get_bind {f : σ → EStateM ε σ β} {Q : β → σ → Prop} {s : σ}
    (h : Triple (· = s) (f s) Q R) : Triple (· = s) (get >>= f) Q R := by
  rintro t rfl
  exact h t rfl

theorem modify_bind {g : σ → σ} {f : PUnit → EStateM ε σ β} {Q : β → σ → Prop} {s : σ}
    (h : Triple (· = g s) (f ⟨⟩) Q R) : Triple (· = s) (modify g >>= f) Q R := by
  rintro t rfl
  exact h (g t) rfl

theorem tryCatch {x : EStateM ε σ α} {k : ε → EStateM ε σ α} {M : ε → σ → Prop}
    (hx : Triple P x Q M) (hk : ∀ e, Triple (M e) (k e) Q R) :
    Triple P (tryCatch x k) Q R := by
  intro s hs
  have h := hx s hs
  rw [tryCatch_apply]
  cases hc : x s with
  | ok a t =>
    rw [hc] at h
    exact h
  | error e t =>
    rw [hc] at h
    exact hk e t h

end Triple

/-! ### Invariants -/

/-- Whichever way the command ends, it keeps `I`, and a value that it gives has `Q`. -/
def Keeps (I : σ → Prop) (x : EStateM ε σ α) (Q : α → Prop) : Prop :=
  Triple I x (fun a s => Q a ∧ I s) fun _ s => I s

namespace Keeps

variable {I : σ → Prop} {Q : α → Prop} {R : β → Prop}

theorem of_pure {a : α} (h : Q a) : Keeps I (pure a : EStateM ε σ α) Q :=
  fun _ hs => ⟨h, hs⟩

theorem of_throw {e : ε} : Keeps I (throw e : EStateM ε σ α) Q := fun _ hs => hs

theorem bind {x : EStateM ε σ α} {f : α → EStateM ε σ β} (hx : Keeps I x Q)
    (hf : ∀ a, Q a → Keeps I (f a) R) : Keeps I (x >>= f) R := by
  apply Triple.bind hx
  intro a s hs
  exact hf a hs.1 s hs.2

/-- A command that begins by looking at the state may be taken from each state. -/
theorem get_bind {f : σ → EStateM ε σ β} (h : ∀ s, I s → Triple (· = s) (f s) (fun b t => R b ∧ I t)
    fun _ t => I t) : Keeps I (get >>= f) R :=
  Triple.of_state fun s hs => Triple.get_bind (h s hs)

theorem forM {l : List α} {f : α → EStateM ε σ PUnit} (h : ∀ a ∈ l, Keeps I (f a) fun _ => True) :
    Keeps I (l.forM f) fun _ => True := by
  induction l with
  | nil => exact of_pure trivial
  | cons a l ih =>
    rw [forM_cons]
    exact bind (h a List.mem_cons_self) fun _ _ => ih fun b hb => h b (List.mem_cons_of_mem a hb)

theorem foldlM {l : List α} {f : β → α → EStateM ε σ β} {b : β} (hb : R b)
    (h : ∀ b, R b → ∀ a ∈ l, Keeps I (f b a) R) : Keeps I (l.foldlM f b) R := by
  induction l generalizing b with
  | nil => exact of_pure hb
  | cons a l ih =>
    rw [List.foldlM_cons]
    refine bind (h b hb a List.mem_cons_self) fun c hc => ih hc ?_
    exact fun c hc a' ha' => h c hc a' (List.mem_cons_of_mem a ha')

theorem endState {x : EStateM ε σ α} (h : Keeps I x Q) {s : σ} (hs : I s) :
    I (Exec.endState (x s)) := by
  have hx := h s hs
  cases hrun : x s with
  | ok a t =>
    rw [hrun] at hx
    exact hx.2
  | error e t =>
    rw [hrun] at hx
    exact hx

end Keeps

end StoneRidge.Kit.Exec
