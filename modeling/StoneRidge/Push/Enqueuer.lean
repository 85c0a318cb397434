import StoneRidge.Kit.Machine
import StoneRidge.Retry.Programs

/-!
# Pushed runs and the enqueuer

Every minute cron starts a run of `srenqueuer.py` (`tools/srenqueuer.py:15-54`), and
runs can overlap. A run lists the entries that the push server has not handled, then
marks and enqueues them one by one. What a request does on the server and what the run
hears of it are separate: an answer of any status counts as a success.
-/

set_option autoImplicit false

namespace StoneRidge.Push
open StoneRidge.Kit.Machine StoneRidge.Dispatch StoneRidge.Retry

/-- What was pushed; the server gives out the ids. -/
structure Entry where
  pushid : ℕ
  ldap : String
  sha : String
  netconfigs : List String
  operatingSystems : List String
  srid : Option String
  deriving DecidableEq

/-- How far a run of the enqueuer is. -/
inductive Job where
  | looping (queue : List Entry)
  /-- `requests.post` has returned for the entry. -/
  | enqueuing (entry : Entry) (queue : List Entry)
  | ended
  deriving DecidableEq

/-- A message on the incoming queue, with the entry it stems from and the run that put it
there. -/
structure Sent where
  pushid : ℕ
  job : ℕ
  request : Request
  deriving DecidableEq

structure System where
  /-- The entries on the server by id, and whether they are handled. -/
  pushes : List (Entry × Bool)
  jobs : List Job
  incoming : List Sent
  /-- For each entry that is handled, its id and the run that marked it. -/
  marks : List (ℕ × ℕ)

def System.init : System := ⟨[], [], [], []⟩

inductive Action where
  | push (ldap sha : String) (netconfigs operatingSystems : List String) (srid : Option String)
  /-- A run starts; if its list request fails in any way it ends at once. -/
  | list (answered : Bool)
  /-- Run `i` asks to mark its next entry; the server may do it, the call may return. -/
  | mark (i : ℕ) (applied returned : Bool)
  | enqueue (i : ℕ) (published : Bool)
  | kill (i : ℕ)
  deriving DecidableEq

namespace System

def unhandled (s : System) : List Entry := (s.pushes.filter fun p => !p.2).map Prod.fst

/-- The server has the entry and it is not handled. -/
def Open (s : System) (e : Entry) : Prop := (s.pushes[e.pushid]?).map Prod.snd = some false

instance (s : System) (e : Entry) : Decidable (s.Open e) :=
  inferInstanceAs (Decidable (_ = _))

def setJob (s : System) (i : ℕ) (j : Job) : System := { s with jobs := s.jobs.set i j }

/-- The server handles `mark_handled` of run `i`. -/
def apply (s : System) (i : ℕ) (e : Entry) : System :=
  if s.Open e then
    { s with
      pushes := s.pushes.set e.pushid (e, true)
      marks := s.marks ++ [(e.pushid, i)] }
  else s

def send (s : System) (i : ℕ) (e : Entry) (r : Request) : System :=
  { s with incoming := s.incoming ++ [⟨e.pushid, i, r⟩] }

end System

def step (keys : Keys) (a : Action) (s : System) : Option System :=
  match a with
  | .push ldap sha netconfigs operatingSystems srid =>
    let e : Entry := ⟨s.pushes.length, ldap, sha, netconfigs, operatingSystems, srid⟩
    some { s with pushes := s.pushes ++ [(e, false)] }
  | .list answered =>
    some { s with jobs := s.jobs ++ [if answered then .looping s.unhandled else .ended] }
  | .mark i applied returned =>
    match s.jobs[i]? with
    | some (.looping (e :: queue)) =>
      let s := if applied then s.apply i e else s
      some (s.setJob i (if returned then .enqueuing e queue else .ended))
    | _ => none
  | .enqueue i published =>
    match s.jobs[i]? with
    | some (.enqueuing e queue) =>
      match enqueue keys false e.ldap e.sha e.netconfigs e.operatingSystems e.srid 1 with
      | none => some (s.setJob i .ended)
      | some r =>
        if published then some ((s.send i e r).setJob i (.looping queue))
        else some (s.setJob i .ended)
    | _ => none
  | .kill i => (s.jobs[i]?).map fun _ => s.setJob i .ended

/-! ### At most once -/

/-- Each entry is on the queue at most once, from the run that marked it. -/
structure AtMostOnce (s : System) : Prop where
  once : (s.incoming.map Sent.pushid).Nodup
  marked : ∀ x ∈ s.incoming, (x.pushid, x.job) ∈ s.marks

/-- A call that returns to run `i` has marked the run's entry, which was open. -/
def Effective (a : Action) (s : System) : Prop :=
  ∀ i applied e queue, a = .mark i applied true → s.jobs[i]? = some (.looping (e :: queue)) →
    applied = true ∧ s.Open e

/-- Every step of the run is effective where it is taken. -/
def Effectively (keys : Keys) : List Action → System → Prop
  | [], _ => True
  | a :: as, s => Effective a s ∧ ∀ s', step keys a s = some s' → Effectively keys as s'

structure Inv (s : System) : Prop where
  atMostOnce : AtMostOnce s
  /-- An entry has one mark at most, and a marked entry is no longer open. -/
  marks : (s.marks.map Prod.fst).Nodup
  handled : ∀ m ∈ s.marks, (s.pushes[m.1]?).map Prod.snd = some true
  /-- A run that is about to enqueue an entry has marked it, and nobody has enqueued it. -/
  enqueuing : ∀ i e queue, s.jobs[i]? = some (.enqueuing e queue) →
    (e.pushid, i) ∈ s.marks ∧ e.pushid ∉ s.incoming.map Sent.pushid

section Steps
variable {keys : Keys} {s s' : System} {a : Action} {i : ℕ} {e : Entry} {queue : List Entry}

theorem inv_init : Inv .init := by
  refine ⟨⟨List.nodup_nil, ?_⟩, List.nodup_nil, ?_, ?_⟩
  · intro x hx
    cases hx
  · intro m hm
    cases hm
  · intro i e queue h
    cases h

theorem mark_unique (h : Inv s) {p j k : ℕ} (hj : (p, j) ∈ s.marks) (hk : (p, k) ∈ s.marks) :
    j = k := by
  have heq := List.inj_on_of_nodup_map h.marks hj hk rfl
  exact (Prod.mk.inj heq).2

theorem Inv.setJob (h : Inv s) {j : Job} (hj : ∀ e queue, j ≠ .enqueuing e queue) :
    Inv (s.setJob i j) := by
  refine ⟨⟨h.atMostOnce.once, h.atMostOnce.marked⟩, h.marks, h.handled, ?_⟩
  intro k e queue hk
  change (s.jobs.set i j)[k]? = _ at hk
  rw [List.getElem?_set] at hk
  split at hk
  · split at hk
    · exact absurd (Option.some.inj hk) (hj e queue)
    · cases hk
  · exact h.enqueuing k e queue hk

theorem Inv.push (h : Inv s) (e : Entry) : Inv { s with pushes := s.pushes ++ [(e, false)] } := by
  refine ⟨⟨h.atMostOnce.once, h.atMostOnce.marked⟩, h.marks, ?_, h.enqueuing⟩
  intro m hm
  have hold := h.handled m hm
  have hlt : m.1 < s.pushes.length := by
    rw [Option.map_eq_some_iff] at hold
    obtain ⟨x, hx, _⟩ := hold
    exact (List.getElem?_eq_some_iff.mp hx).1
  show ((s.pushes ++ [(e, false)])[m.1]?).map Prod.snd = some true
  rw [List.getElem?_append_left hlt]
  exact hold

theorem Inv.list (h : Inv s) {j : Job} (hj : ∀ e queue, j ≠ .enqueuing e queue) :
    Inv { s with jobs := s.jobs ++ [j] } := by
  refine ⟨⟨h.atMostOnce.once, h.atMostOnce.marked⟩, h.marks, h.handled, ?_⟩
  intro k e queue hk
  change (s.jobs ++ [j])[k]? = _ at hk
  rcases Nat.lt_or_ge k s.jobs.length with hlt | hge
  · rw [List.getElem?_append_left hlt] at hk
    exact h.enqueuing k e queue hk
  · rw [List.getElem?_append_right hge] at hk
    have hmem := List.mem_of_getElem? hk
    exact absurd (List.mem_singleton.mp hmem).symm (hj e queue)

theorem Inv.apply (h : Inv s) (i : ℕ) (e : Entry) : Inv (s.apply i e) := by
  unfold System.apply
  by_cases hopen : s.Open e
  · rw [if_pos hopen]
    have hnew : ∀ m ∈ s.marks, m.1 ≠ e.pushid := by
      intro m hm heq
      have hhandled := h.handled m hm
      rw [heq, show (s.pushes[e.pushid]?).map Prod.snd = some false from hopen] at hhandled
      cases hhandled
    refine ⟨⟨h.atMostOnce.once, ?_⟩, ?_, ?_, ?_⟩
    · intro x hx
      exact List.mem_append_left _ (h.atMostOnce.marked x hx)
    · rw [List.map_append, List.nodup_append]
      refine ⟨h.marks, List.nodup_singleton _, ?_⟩
      intro p hp q hq heq
      obtain ⟨m, hm, rfl⟩ := List.mem_map.mp hp
      rw [List.map_singleton, List.mem_singleton] at hq
      exact hnew m hm (heq.trans hq)
    · intro m hm
      show ((s.pushes.set e.pushid (e, true))[m.1]?).map Prod.snd = some true
      rcases List.mem_append.mp hm with hm | hm
      · rw [List.getElem?_set_ne (hnew m hm).symm]
        exact h.handled m hm
      · rw [List.mem_singleton.mp hm]
        have hlt : e.pushid < s.pushes.length := by
          obtain ⟨x, hx, _⟩ := Option.map_eq_some_iff.mp hopen
          exact (List.getElem?_eq_some_iff.mp hx).1
        rw [List.getElem?_set_self hlt]
        rfl
    · intro k e' queue hk
      obtain ⟨hmark, hsent⟩ := h.enqueuing k e' queue hk
      exact ⟨List.mem_append_left _ hmark, hsent⟩
  · rw [if_neg hopen]
    exact h

theorem Inv.marked (h : Inv s) (hopen : s.Open e) :
    Inv ((s.apply i e).setJob i (.enqueuing e queue)) := by
  have h' := h.apply i e
  have hmark : (e.pushid, i) ∈ (s.apply i e).marks := by
    unfold System.apply
    rw [if_pos hopen]
    exact List.mem_append_right _ List.mem_cons_self
  have hsame : (s.apply i e).incoming = s.incoming := by
    unfold System.apply
    rw [if_pos hopen]
  refine ⟨⟨h'.atMostOnce.once, h'.atMostOnce.marked⟩, h'.marks, h'.handled, ?_⟩
  intro k e' queue' hk
  change ((s.apply i e).jobs.set i _)[k]? = _ at hk
  rw [List.getElem?_set] at hk
  split at hk
  · rename_i hik
    subst hik
    split at hk
    · cases hk
      refine ⟨hmark, ?_⟩
      show e.pushid ∉ (s.apply i e).incoming.map Sent.pushid
      rw [hsame]
      intro hsent
      -- what is on the queue is handled, and `e` was open
      obtain ⟨x, hx, hid⟩ := List.mem_map.mp hsent
      have hhandled := h.handled _ (h.atMostOnce.marked x hx)
      rw [hid, show (s.pushes[e.pushid]?).map Prod.snd = some false from hopen] at hhandled
      cases hhandled
    · cases hk
  · exact h'.enqueuing k e' queue' hk

theorem Inv.send (h : Inv s) (hjob : s.jobs[i]? = some (.enqueuing e queue)) (r : Request) :
    Inv ((s.send i e r).setJob i (.looping queue)) := by
  obtain ⟨hmark, hfresh⟩ := h.enqueuing i e queue hjob
  refine ⟨⟨?_, ?_⟩, h.marks, h.handled, ?_⟩
  · show ((s.incoming ++ [_]).map Sent.pushid).Nodup
    rw [List.map_append, List.nodup_append]
    refine ⟨h.atMostOnce.once, List.nodup_singleton _, ?_⟩
    intro p hp q hq heq
    rw [List.map_singleton, List.mem_singleton] at hq
    rw [heq, hq] at hp
    exact hfresh hp
  · intro x hx
    rcases List.mem_append.mp hx with hx | hx
    · exact h.atMostOnce.marked x hx
    · rw [List.mem_singleton.mp hx]
      exact hmark
  · intro k e' queue' hk
    change (s.jobs.set i (.looping queue))[k]? = _ at hk
    rw [List.getElem?_set] at hk
    split at hk
    · split at hk <;> cases hk
    · rename_i hik
      obtain ⟨hmark', hfresh'⟩ := h.enqueuing k e' queue' hk
      refine ⟨hmark', ?_⟩
      show e'.pushid ∉ (s.incoming ++ [_]).map Sent.pushid
      rw [List.map_append, List.mem_append, not_or]
      refine ⟨hfresh', ?_⟩
      intro heq
      rw [List.map_singleton, List.mem_singleton] at heq
      rw [heq] at hmark'
      exact hik (mark_unique h hmark hmark')

theorem inv_step (h : Inv s) (heff : Effective a s) (hstep : step keys a s = some s') : Inv s' := by
  cases a with
  | push ldap sha netconfigs operatingSystems srid =>
    obtain rfl := Option.some.inj hstep
    exact h.push _
  | list answered =>
    obtain rfl := Option.some.inj hstep
    apply h.list
    intro e queue
    cases answered <;> simp
  | mark i applied returned =>
    simp only [step] at hstep
    split at hstep
    · rename_i e queue hjob
      obtain rfl := Option.some.inj hstep
      cases returned with
      | true =>
        obtain ⟨rfl, hopen⟩ := heff i applied e queue rfl hjob
        exact h.marked hopen
      | false =>
        have happlied : Inv (if applied = true then s.apply i e else s) := by
          cases applied with
          | true => exact h.apply i e
          | false => exact h
        exact happlied.setJob (by simp)
    · cases hstep
  | enqueue i published =>
    simp only [step] at hstep
    split at hstep
    · rename_i e queue hjob
      split at hstep
      · obtain rfl := Option.some.inj hstep
        exact h.setJob (by simp)
      · cases published with
        | true =>
          obtain rfl := Option.some.inj hstep
          exact h.send hjob _
        | false =>
          obtain rfl := Option.some.inj hstep
          exact h.setJob (by simp)
    · cases hstep
  | kill i =>
    obtain ⟨j, _, rfl⟩ := Option.map_eq_some_iff.mp hstep
    exact h.setJob (by simp)

theorem inv_run {as : List Action} (h : Inv s) (heff : Effectively keys as s)
    (hrun : run (step keys) as s = some s') : Inv s' := by
  induction as generalizing s with
  | nil =>
    obtain rfl := Option.some.inj hrun
    exact h
  | cons a as ih =>
    obtain ⟨t, hstep, hrest⟩ := run_cons hrun
    exact ih (inv_step h heff.1 hstep) (heff.2 t hstep) hrest

end Steps

/-- In every run in which each call that returns has marked its entry, each entry is put
on the incoming queue at most once, and by the run that marked it. -/
theorem enqueued_at_most_once {keys : Keys} {as : List Action} {s : System}
    (heff : Effectively keys as .init) (hrun : run (step keys) as .init = some s) :
    AtMostOnce s :=
  (inv_run inv_init heff hrun).atMostOnce

section Example

def keys : Keys := ⟨["broadband", "umts", "gsm"], ["mac", "windows", "linux"], by decide, by decide⟩

def pushed : Action := .push "dev@example.com" "abc123" ["gsm"] ["linux"] (some "5e1")

/-- One run that marks the entry before it enqueues it. -/
theorem enqueued_at_most_once_marked : AtMostOnce
    ⟨[(⟨0, "dev@example.com", "abc123", ["gsm"], ["linux"], some "5e1"⟩, true)], [.looping []],
      [⟨0, 0, ⟨false, "dev@example.com", "abc123", ["gsm"], ["linux"], some "5e1", 1⟩⟩],
      [(0, 0)]⟩ := by
  refine @enqueued_at_most_once keys
    [pushed, .list true, .mark 0 true true, .enqueue 0 true] _ ?_ rfl
  refine ⟨fun i applied e queue ha => (by cases ha), ?_⟩
  intro s₁ h₁
  obtain rfl := Option.some.inj h₁
  refine ⟨fun i applied e queue ha => (by cases ha), ?_⟩
  intro s₂ h₂
  obtain rfl := Option.some.inj h₂
  refine ⟨?_, ?_⟩
  · intro i applied e queue ha hjob
    cases ha
    cases hjob
    exact ⟨rfl, rfl⟩
  · intro s₃ h₃
    obtain rfl := Option.some.inj h₃
    exact ⟨fun i applied e queue ha => (by cases ha), fun _ _ => trivial⟩

/-- The first run's call is answered with an error and marks nothing; it enqueues all the
same, and so does the next run. -/
theorem enqueued_twice_after_error : ¬ ∀ s, run (step keys)
    [pushed, .list true, .mark 0 false true, .enqueue 0 true, .list true, .mark 1 true true,
      .enqueue 1 true] .init = some s → AtMostOnce s := by
  intro h
  have hrun : ∃ s, run (step keys) [pushed, .list true, .mark 0 false true, .enqueue 0 true,
      .list true, .mark 1 true true, .enqueue 1 true] .init = some s ∧
      s.incoming.map Sent.pushid = [0, 0] := ⟨_, rfl, rfl⟩
  obtain ⟨s, hs, hids⟩ := hrun
  have honce := (h s hs).once
  rw [hids] at honce
  exact absurd honce (by decide)

end Example

end StoneRidge.Push
