import StoneRidge.Kit.Exec
import StoneRidge.Retry.Programs

/-!
# How `enqueue` fails

`stoneridge.enqueue` (`stoneridge.py:689-719`) with its local variable `nc` and the
exceptions that leave it. The loop over the operating systems names `nc` in its error
(`stoneridge.py:705`), which only the loop over the netconfigs sets.
-/

set_option autoImplicit false

namespace StoneRidge.Retry
open StoneRidge.Kit.Exec StoneRidge.Dispatch

structure EnqueueArgs where
  nightly : Bool := true
  ldap : String := ""
  sha : String := ""
  netconfigs : Option (List String) := none
  operatingSystems : Option (List String) := none
  srid : Option String := none
  attempt : ℤ := 1

inductive EnqueueRaised where
  | valueError (message : String)
  | unboundLocalError (name : String)
  deriving DecidableEq

structure Enqueueing where
  /-- The local variable `nc`, if it is bound. -/
  nc : Option String
  incoming : List Request
  deriving DecidableEq

abbrev Enqueue := EStateM EnqueueRaised Enqueueing

def checkNetconfigs (known names : List String) : Enqueue Unit :=
  names.forM fun nc => do
    modify fun s => { s with nc := some nc }
    if nc ∈ known then pure () else throw (.valueError ("Invalid net config " ++ nc))

def checkOperatingSystems (known names : List String) : Enqueue Unit :=
  names.forM fun ops =>
    if ops ∈ known then pure ()
    else do
      let s ← get
      match s.nc with
      | none => throw (.unboundLocalError "nc")
      | some nc => throw (.valueError ("Invalid operating system " ++ nc))

namespace EnqueueArgs
variable (keys : Keys) (a : EnqueueArgs)

/-- The netconfigs that are asked for; `None` is as good as an empty list. -/
def someNetconfigs : List String := a.netconfigs.getD []

def someOperatingSystems : List String := a.operatingSystems.getD []

def orAll (known names : List String) : List String := if names = [] then known else names

/-- The message for these arguments. -/
def message : Request :=
  ⟨a.nightly, a.ldap, a.sha, orAll keys.netconfigs a.someNetconfigs,
    orAll keys.operatingSystems a.someOperatingSystems, a.srid, a.attempt⟩

def checkBuild : Enqueue Unit :=
  if a.nightly then
    if a.ldap ≠ "" ∨ a.sha ≠ "" then
      throw (.valueError "ldap and sha are not compatible with nightly")
    else pure ()
  else
    if a.ldap = "" ∨ a.sha = "" then throw (.valueError "both ldap and sha must be set")
    else pure ()

def enqueue : Enqueue Unit := do
  checkNetconfigs keys.netconfigs a.someNetconfigs
  checkOperatingSystems keys.operatingSystems a.someOperatingSystems
  a.checkBuild
  modify fun s => { s with incoming := s.incoming ++ [a.message keys] }

/-- Every name that is given is known, and the build fits the kind of the run. -/
structure Valid : Prop where
  netconfigs : ∀ nc ∈ a.someNetconfigs, nc ∈ Dispatch.netconfigs
  operatingSystems : ∀ ops ∈ a.someOperatingSystems, ops ∈ Dispatch.operatingSystems
  build : if a.nightly then a.ldap = "" ∧ a.sha = "" else a.ldap ≠ "" ∧ a.sha ≠ ""

/-- A valid call publishes its message, any other raises `ValueError` and publishes nothing. -/
def Strict (incoming : List Request) : Prop :=
  match a.enqueue keys ⟨none, incoming⟩ with
  | .ok _ s => a.Valid ∧ s.incoming = incoming ++ [a.message keys]
  | .error e s => ¬ a.Valid ∧ (∃ message, e = .valueError message) ∧ s.incoming = incoming

end EnqueueArgs

/-! ### The checks -/

section Checks
variable {known names : List String} {s : Enqueueing}

/-- After the loop `nc` is the last netconfig, if there is one. -/
theorem checkNetconfigs_ok (h : ∀ nc ∈ names, nc ∈ known) :
    checkNetconfigs known names s = .ok () { s with nc := names.getLast?.or s.nc } := by
  induction names generalizing s with
  | nil => rfl
  | cons nc names ih =>
    have hrest := ih (s := { s with nc := some nc }) fun x hx => h x (List.mem_cons_of_mem nc hx)
    have hhead := h nc List.mem_cons_self
    unfold checkNetconfigs at hrest ⊢
    rw [forM_cons, bind_ok (t := { s with nc := some nc }) (a := ()), hrest]
    · cases names <;> simp [List.getLast?_cons]
    · rw [bind_ok (modify_apply _ s), if_pos hhead]
      rfl

theorem checkNetconfigs_error (h : ¬ ∀ nc ∈ names, nc ∈ known) : ∃ nc ∈ names, nc ∉ known ∧
    checkNetconfigs known names s =
      .error (.valueError ("Invalid net config " ++ nc)) { s with nc := some nc } := by
  induction names generalizing s with
  | nil => exact absurd (fun _ hx => absurd hx List.not_mem_nil) h
  | cons nc names ih =>
    by_cases hnc : nc ∈ known
    · have hrest : ¬ ∀ x ∈ names, x ∈ known := by
        intro hall
        exact h (List.forall_mem_cons.mpr ⟨hnc, hall⟩)
      obtain ⟨x, hx, hunknown, herror⟩ := ih (s := { s with nc := some nc }) hrest
      refine ⟨x, List.mem_cons_of_mem nc hx, hunknown, ?_⟩
      unfold checkNetconfigs at herror ⊢
      rw [forM_cons, bind_ok (t := { s with nc := some nc }) (a := ()), herror]
      rw [bind_ok (modify_apply _ s), if_pos hnc]
      rfl
    · refine ⟨nc, List.mem_cons_self, hnc, ?_⟩
      unfold checkNetconfigs
      rw [forM_cons, bind_error]
      rw [bind_ok (modify_apply _ s), if_neg hnc]
      rfl

theorem checkOperatingSystems_ok (h : ∀ ops ∈ names, ops ∈ known) :
    checkOperatingSystems known names s = .ok () s := by
  induction names with
  | nil => rfl
  | cons ops names ih =>
    have hrest := ih fun x hx => h x (List.mem_cons_of_mem ops hx)
    unfold checkOperatingSystems at hrest ⊢
    rw [forM_cons, if_pos (h ops List.mem_cons_self), bind_ok (pure_apply () s), hrest]

/-- The error names a netconfig, and where there is none it is another error. -/
theorem checkOperatingSystems_error (h : ¬ ∀ ops ∈ names, ops ∈ known) :
    checkOperatingSystems known names s = .error (match s.nc with
      | none => .unboundLocalError "nc"
      | some nc => .valueError ("Invalid operating system " ++ nc)) s := by
  induction names with
  | nil => exact absurd (fun _ hx => absurd hx List.not_mem_nil) h
  | cons ops names ih =>
    by_cases hops : ops ∈ known
    · have hrest := ih fun hall => h (List.forall_mem_cons.mpr ⟨hops, hall⟩)
      unfold checkOperatingSystems at hrest ⊢
      rw [forM_cons, if_pos hops, bind_ok (pure_apply () s), hrest]
    · unfold checkOperatingSystems
      rw [forM_cons, if_neg hops, bind_error]
      rw [bind_ok (get_apply s)]
      cases s.nc <;> rfl

end Checks

/-! ### The call -/

section Call
variable {keys : Keys} {a : EnqueueArgs} {incoming : List Request}

theorem known_iff (names : List String) {known names' : List String} (h : known.Perm names') :
    (∀ x ∈ names, x ∈ known) ↔ ∀ x ∈ names, x ∈ names' :=
  forall₂_congr fun _ _ => h.mem_iff

theorem checkBuild_spec (a : EnqueueArgs) (s : Enqueueing) :
    ((if a.nightly then a.ldap = "" ∧ a.sha = "" else a.ldap ≠ "" ∧ a.sha ≠ "") ∧
        a.checkBuild s = .ok () s) ∨
      (¬ (if a.nightly then a.ldap = "" ∧ a.sha = "" else a.ldap ≠ "" ∧ a.sha ≠ "") ∧
        ∃ message, a.checkBuild s = .error (.valueError message) s) := by
  unfold EnqueueArgs.checkBuild
  by_cases hnightly : a.nightly = true
  · simp only [if_pos hnightly]
    by_cases hbuild : a.ldap ≠ "" ∨ a.sha ≠ ""
    · rw [if_pos hbuild]
      exact .inr ⟨fun h => hbuild.elim (absurd h.1) (absurd h.2), _, rfl⟩
    · rw [if_neg hbuild]
      rw [not_or, not_not, not_not] at hbuild
      exact .inl ⟨hbuild, rfl⟩
  · simp only [if_neg hnightly]
    by_cases hbuild : a.ldap = "" ∨ a.sha = ""
    · rw [if_pos hbuild]
      exact .inr ⟨fun h => hbuild.elim h.1 h.2, _, rfl⟩
    · rw [if_neg hbuild]
      exact .inl ⟨not_or.mp hbuild, rfl⟩

/-- With an unknown operating system and no netconfig, the error is not a `ValueError`. -/
theorem enqueue_unbound (hncs : a.someNetconfigs = [])
    (hoss : ¬ ∀ ops ∈ a.someOperatingSystems, ops ∈ keys.operatingSystems) :
    a.enqueue keys ⟨none, incoming⟩ = .error (.unboundLocalError "nc") ⟨none, incoming⟩ := by
  have hcheck : checkNetconfigs keys.netconfigs a.someNetconfigs ⟨none, incoming⟩ =
      .ok () ⟨none, incoming⟩ := by
    rw [hncs]
    rfl
  unfold EnqueueArgs.enqueue
  rw [bind_ok hcheck, bind_error (checkOperatingSystems_error hoss)]

/-- `enqueue` is strict exactly if it is given a netconfig or only known operating systems. -/
theorem enqueue_strict_iff (keys : Keys) (a : EnqueueArgs) (incoming : List Request) :
    a.Strict keys incoming ↔ a.someNetconfigs ≠ [] ∨
      ∀ ops ∈ a.someOperatingSystems, ops ∈ Dispatch.operatingSystems := by
  have hncsKnown := known_iff a.someNetconfigs keys.netconfigs_perm
  have hossKnown := known_iff a.someOperatingSystems keys.operatingSystems_perm
  by_cases hncs : ∀ nc ∈ a.someNetconfigs, nc ∈ keys.netconfigs
  · have hfirst := checkNetconfigs_ok (s := ⟨none, incoming⟩) hncs
    rw [Option.or_none] at hfirst
    by_cases hoss : ∀ ops ∈ a.someOperatingSystems, ops ∈ keys.operatingSystems
    · have hsecond := checkOperatingSystems_ok
        (s := ⟨a.someNetconfigs.getLast?, incoming⟩) hoss
      refine iff_of_true ?_ (.inr (hossKnown.mp hoss))
      unfold EnqueueArgs.Strict EnqueueArgs.enqueue
      rw [bind_ok hfirst, bind_ok hsecond]
      rcases checkBuild_spec a ⟨a.someNetconfigs.getLast?, incoming⟩ with
        ⟨hbuild, hthird⟩ | ⟨hbuild, message, hthird⟩
      · rw [bind_ok hthird]
        exact ⟨⟨hncsKnown.mp hncs, hossKnown.mp hoss, hbuild⟩, rfl⟩
      · rw [bind_error hthird]
        exact ⟨fun hvalid => hbuild hvalid.build, ⟨message, rfl⟩, rfl⟩
    · have hinvalid : ¬ a.Valid := fun hvalid => hoss (hossKnown.mpr hvalid.operatingSystems)
      cases hlast : a.someNetconfigs.getLast? with
      | none =>
        have hnil : a.someNetconfigs = [] := List.getLast?_eq_none_iff.mp hlast
        refine iff_of_false ?_ ?_
        · unfold EnqueueArgs.Strict
          rw [enqueue_unbound hnil hoss]
          rintro ⟨-, ⟨message, heq⟩, -⟩
          cases heq
        · rintro (hne | hall)
          · exact hne hnil
          · exact hoss (hossKnown.mpr hall)
      | some nc =>
        rw [hlast] at hfirst
        have hne : a.someNetconfigs ≠ [] := by
          rintro hnil
          rw [hnil] at hlast
          cases hlast
        refine iff_of_true ?_ (.inl hne)
        unfold EnqueueArgs.Strict EnqueueArgs.enqueue
        rw [bind_ok hfirst, bind_error (checkOperatingSystems_error hoss)]
        exact ⟨hinvalid, ⟨_, rfl⟩, rfl⟩
  · obtain ⟨nc, hnc, -, herror⟩ := checkNetconfigs_error (s := ⟨none, incoming⟩) hncs
    refine iff_of_true ?_ (.inl (List.ne_nil_of_mem hnc))
    unfold EnqueueArgs.Strict EnqueueArgs.enqueue
    rw [bind_error herror]
    exact ⟨fun hvalid => hncs (hncsKnown.mpr hvalid.netconfigs), ⟨_, rfl⟩, rfl⟩

/-- A misspelt operating system for all netconfigs. -/
theorem unknown_os_not_strict :
    ¬ EnqueueArgs.Strict ⟨Dispatch.netconfigs, Dispatch.operatingSystems, .refl _, .refl _⟩
      { operatingSystems := some ["osx"] } [] := by
  rintro ⟨-, ⟨message, heq⟩, -⟩
  cases heq

theorem checked_eq (known names : List String) : checked known names =
    if ∀ x ∈ names, x ∈ known then some (EnqueueArgs.orAll known names) else none := by
  unfold checked EnqueueArgs.orAll
  by_cases hnil : names = []
  · subst hnil
    simp
  · rw [if_neg hnil, if_neg hnil]

/-- The other model of `enqueue` leaves out which error it is. -/
theorem enqueue_ok_iff (keys : Keys) (a : EnqueueArgs) (incoming : List Request) :
    (∃ s, a.enqueue keys ⟨none, incoming⟩ = .ok () s) ↔
      Retry.enqueue keys a.nightly a.ldap a.sha a.someNetconfigs a.someOperatingSystems
        a.srid a.attempt = some (a.message keys) := by
  unfold Retry.enqueue EnqueueArgs.enqueue
  rw [checked_eq, checked_eq]
  by_cases hncs : ∀ nc ∈ a.someNetconfigs, nc ∈ keys.netconfigs
  · rw [bind_ok (checkNetconfigs_ok hncs), if_pos hncs]
    by_cases hoss : ∀ ops ∈ a.someOperatingSystems, ops ∈ keys.operatingSystems
    · rw [bind_ok (checkOperatingSystems_ok hoss), if_pos hoss]
      unfold EnqueueArgs.checkBuild EnqueueArgs.message
      by_cases hnightly : a.nightly = true
      · by_cases hbuild : a.ldap ≠ "" ∨ a.sha ≠ ""
        · simp [hnightly, hbuild, bind_apply]
        · simp [hnightly, hbuild]
      · by_cases hbuild : a.ldap = "" ∨ a.sha = ""
        · simp [hnightly, hbuild, bind_apply]
        · simp [hnightly, hbuild]
    · rw [bind_error (checkOperatingSystems_error hoss), if_neg hoss]
      simp
  · obtain ⟨nc, -, -, herror⟩ := checkNetconfigs_error (s := ⟨none, incoming⟩) hncs
    rw [bind_error herror, if_neg hncs]
    simp

end Call

end StoneRidge.Retry
