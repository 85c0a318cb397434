/-!
# Machines driven by a list of actions

A machine is a partial step function. A run applies a list of actions in order
and exists only if every action is enabled where it is taken.
-/

set_option autoImplicit false

namespace StoneRidge.Kit.Machine

variable {State Action : Type}

def run (step : Action → State → Option State) : List Action → State → Option State
  | [], s => some s
  | a :: as, s => (step a s).bind (run step as)

section Runs
variable {step : Action → State → Option State} {s s' : State} {a : Action}
  {as bs : List Action}

theorem run_cons (h : run step (a :: as) s = some s') :
    ∃ m, step a s = some m ∧ run step as m = some s' :=
  Option.bind_eq_some_iff.mp h

theorem run_append (h : run step as s = some s') : run step (as ++ bs) s = run step bs s' := by
  induction as generalizing s with
  | nil =>
    obtain rfl := Option.some.inj h
    rfl
  | cons a as ih =>
    obtain ⟨m, hm, hrest⟩ := run_cons h
    rw [List.cons_append, run, hm, Option.bind_some, ih hrest]

/-- What the allowed actions preserve, every run of allowed actions preserves. -/
theorem run_invariant {Inv : State → Prop} {Allowed : Action → Prop}
    (hstep : ∀ a s s', Allowed a → Inv s → step a s = some s' → Inv s')
    (hall : ∀ a ∈ as, Allowed a) (h0 : Inv s) (h : run step as s = some s') : Inv s' := by
  induction as generalizing s with
  | nil =>
    obtain rfl := Option.some.inj h
    exact h0
  | cons a as ih =>
    obtain ⟨m, hm, hrest⟩ := run_cons h
    have hinv := hstep a s m (hall a List.mem_cons_self) h0 hm
    exact ih (fun b hb => hall b (List.mem_cons_of_mem a hb)) hinv hrest

end Runs

/-- Each action of the run is taken in a state that admits it. -/
def Through (step : Action → State → Option State) (Admits : Action → State → Prop) :
    List Action → State → Prop
  | [], _ => True
  | a :: as, s => Admits a s ∧ ∀ m, step a s = some m → Through step Admits as m

section Through
variable {step : Action → State → Option State} {Admits : Action → State → Prop}
  {s s' : State} {as bs : List Action}

instance decidableThrough [∀ a s, Decidable (Admits a s)] :
    ∀ (as : List Action) (s : State), Decidable (Through step Admits as s)
  | [], _ => isTrue trivial
  | a :: as, s =>
    have : Decidable (∀ m, step a s = some m → Through step Admits as m) :=
      match _h : step a s with
      | none => isTrue fun _ hm => nomatch hm
      | some m =>
        match decidableThrough as m with
        | isTrue ht => isTrue fun _ hm => Option.some.inj hm ▸ ht
        | isFalse hf => isFalse fun ht => hf (ht m rfl)
    inferInstanceAs (Decidable (_ ∧ _))

theorem through_append (h : Through step Admits (as ++ bs) s) (hrun : run step as s = some s') :
    Through step Admits as s ∧ Through step Admits bs s' := by
  induction as generalizing s with
  | nil =>
    obtain rfl := Option.some.inj hrun
    exact ⟨trivial, h⟩
  | cons a as ih =>
    obtain ⟨m, hm, hrest⟩ := run_cons hrun
    obtain ⟨hadmits, hnext⟩ := h
    obtain ⟨has, hbs⟩ := ih (hnext m hm) hrest
    refine ⟨⟨hadmits, fun m' hm' => ?_⟩, hbs⟩
    obtain rfl := Option.some.inj (hm.symm.trans hm')
    exact has

/-- What the admitted steps preserve, every run of admitted steps preserves. -/
theorem through_invariant {Inv : State → Prop}
    (hstep : ∀ a s s', Admits a s → Inv s → step a s = some s' → Inv s')
    (hthrough : Through step Admits as s) (h0 : Inv s) (h : run step as s = some s') :
    Inv s' := by
  induction as generalizing s with
  | nil =>
    obtain rfl := Option.some.inj h
    exact h0
  | cons a as ih =>
    obtain ⟨m, hm, hrest⟩ := run_cons h
    have hinv := hstep a s m hthrough.1 h0 hm
    exact ih (hthrough.2 m hm) hinv hrest

end Through

end StoneRidge.Kit.Machine
