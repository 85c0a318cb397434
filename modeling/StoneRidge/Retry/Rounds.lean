import StoneRidge.Retry.CommandLines
import StoneRidge.Kit.Machine

/-!
# Rounds of a request

The master runs the cloner, the cloner may start a deferrer, and the deferrer puts
the request on the incoming queue again (`srmaster.py:28-70`, `srcloner.py:253-290`,
`srdeferrer.py:25-41`). The servers, the machine and the output root are new in each
round.
-/

set_option autoImplicit false

namespace StoneRidge.Retry
open StoneRidge.Kit StoneRidge.Kit.Exec StoneRidge.Kit.ArgParse StoneRidge.Kit.Machine
open StoneRidge.Dispatch StoneRidge.Cloner

/-- What stays the same from round to round. -/
structure Installation where
  cfg : MasterSetting
  settings : String → Setting
  keys : Keys

structure Rounds where
  incoming : List Request
  /-- The command lines of the deferrers that wait for their interval to pass. -/
  deferrers : List (List String)
  /-- The srids for which the master has run the cloner, one for each run. -/
  srids : List String
  /-- The messages that the deferrers have put on the incoming queue. -/
  messages : List Request

/-- A request on the incoming queue. -/
def Rounds.start (r : Request) : Rounds := ⟨[r], [], [], []⟩

inductive Round where
  /-- The master handles a message; the uuid is the one it makes if there is no srid. -/
  | handle (i : ℕ) (uuid : String) (env : Env) (outroot : OutRoot)
  | enqueue (i : ℕ)
  /-- A deferrer ends before it has enqueued. -/
  | lose (i : ℕ)

section Step
variable (inst : Installation)

/-- The deferrers that the cloner with this command line starts. -/
def startedBy (args : List String) (env : Env) (outroot : OutRoot) : List (List String) :=
  match clonerMain inst.settings args.tail with
  | none => []
  | some c => (endState (c.run env (World.start outroot))).deferrers

def Rounds.handle (s : Rounds) (r : Request) (uuid : String) (env : Env) (outroot : OutRoot) :
    Rounds :=
  match MasterJob.start inst.cfg uuid r with
  | .cloning srid args => { s with
      srids := s.srids ++ [srid]
      deferrers := s.deferrers ++ startedBy inst args env outroot }
  | _ => s

def Rounds.enqueue (s : Rounds) (args : List String) : Rounds :=
  let sent := (deferrerMain inst.keys args.tail).toList
  { s with incoming := s.incoming ++ sent, messages := s.messages ++ sent }

def step : Round → Rounds → Option Rounds
  | .handle i uuid env outroot, s => (s.incoming[i]?).map fun r =>
    Rounds.handle inst { s with incoming := s.incoming.eraseIdx i } r uuid env outroot
  | .enqueue i, s => (s.deferrers[i]?).map fun args =>
    Rounds.enqueue inst { s with deferrers := s.deferrers.eraseIdx i } args
  | .lose i, s => (s.deferrers[i]?).map fun _ => { s with deferrers := s.deferrers.eraseIdx i }

end Step

section Invariant
variable {inst : Installation} {r m : Request} {srid : String} {s s' : Rounds}

/-- The runs and the messages so far. -/
structure History (r : Request) (srid : String) (s : Rounds) : Prop where
  srids : ∀ x ∈ s.srids, x = srid
  messages : ∀ (k : ℕ) m, s.messages[k]? = some m → Retried srid (k + 1) r m

/-- The request is on the queue, or its cloner has started a deferrer, or it is over. -/
inductive Inv (inst : Installation) (r : Request) (srid : String) (s : Rounds) : Prop where
  | received (m : Request) (accepted : Accepted m) (again : Again s.srids.length r m)
      (incoming : s.incoming = [m]) (deferrers : s.deferrers = [])
      (count : s.messages.length = s.srids.length)
      (known : s.srids = [] ∨ (m.srid = some srid ∧
        r.attempt + s.srids.length ≤ (inst.settings inst.cfg.config).attempts))
  | deferring (m : Request) (pidfile : String) (accepted : Accepted m)
      (again : Again s.messages.length r m) (head : pidfile.toList.head? = some '/')
      (incoming : s.incoming = [])
      (deferrers : s.deferrers =
        [(clonerOf inst.settings inst.cfg m srid).deferArgs pidfile])
      (count : s.srids.length = s.messages.length + 1)
      (bound : r.attempt + s.srids.length ≤ (inst.settings inst.cfg.config).attempts)
  | finished (incoming : s.incoming = []) (deferrers : s.deferrers = [])
      (ran : s.messages.length ≤ s.srids.length)
      (bound : s.srids.length = 1 ∨
        r.attempt + s.srids.length ≤ (inst.settings inst.cfg.config).attempts + 1)

theorem start_accepted (hr : Accepted m) (uuid : String) :
    MasterJob.start inst.cfg uuid m = .cloning (m.srid.getD uuid)
      ("srcloner.py" :: render (clonerItems inst.cfg m (m.srid.getD uuid))) := by
  unfold MasterJob.start
  simp only [clonerArgs_some hr]

/-- The deferrers of a round: none, or one for the next attempt. -/
theorem startedBy_cases (hr : Accepted m) (env : Env) (outroot : OutRoot) :
    startedBy inst ("srcloner.py" :: render (clonerItems inst.cfg m srid)) env outroot = [] ∨
      (startedBy inst ("srcloner.py" :: render (clonerItems inst.cfg m srid)) env outroot =
          [(clonerOf inst.settings inst.cfg m srid).deferArgs env.pidfile] ∧
        m.attempt + 1 ≤ (inst.settings inst.cfg.config).attempts) := by
  unfold startedBy
  rw [List.tail_cons]
  cases hmain : clonerMain inst.settings (render (clonerItems inst.cfg m srid)) with
  | none => exact .inl rfl
  | some c =>
    have hc := clonerMain_sound hr hmain
    rcases run_deferrers c env (World.start outroot) with h | ⟨h, hbound⟩
    · exact .inl h
    · subst hc
      exact .inr ⟨h, hbound⟩

theorem getElem?_singleton_some {α : Type} {a b : α} {i : ℕ} (h : [a][i]? = some b) :
    i = 0 ∧ b = a := by
  cases i with
  | zero => exact ⟨rfl, (Option.some.inj h).symm⟩
  | succ i => cases h

def Reached (inst : Installation) (r : Request) (s : Rounds) : Prop :=
  ∃ srid, History r srid s ∧ Inv inst r srid s

theorem reached_start (hr : Accepted r) : Reached inst r (Rounds.start r) := by
  refine ⟨"", ⟨?_, ?_⟩, .received r hr ?_ rfl rfl rfl (.inl rfl)⟩
  · intro x hx
    cases hx
  · intro k m hm
    cases hm
  · exact Again.refl r

theorem Inv.handle {uuid : String} {env : Env} {outroot : OutRoot} {i : ℕ} {r' : Request}
    (hist : History r srid s) (h : Inv inst r srid s) (hr' : s.incoming[i]? = some r') :
    Reached inst r (Rounds.handle inst { s with incoming := s.incoming.eraseIdx i } r' uuid env
      outroot) := by
  cases h with
  | deferring m pidfile accepted again head incoming => simp [incoming] at hr'
  | finished incoming => simp [incoming] at hr'
  | received m accepted again incoming deferrers count known =>
    rw [incoming] at hr'
    obtain ⟨rfl, rfl⟩ := getElem?_singleton_some hr'
    unfold Rounds.handle
    rw [start_accepted accepted]
    -- the first round settles the srid
    have hsrid : History r (r'.srid.getD uuid) s := by
      rcases known with hnil | ⟨hsome, _⟩
      · have hmessages : s.messages = [] := by
          rw [← List.length_eq_zero_iff, count, hnil]
          rfl
        refine ⟨?_, ?_⟩
        · rw [hnil]
          intro x hx
          cases hx
        · rw [hmessages]
          intro k m hm
          cases hm
      · rw [hsome]
        exact hist
    have hist' : ∀ x ∈ s.srids ++ [r'.srid.getD uuid], x = r'.srid.getD uuid := by
      intro x hx
      rcases List.mem_append.mp hx with hx | hx
      · exact hsrid.srids x hx
      · exact List.mem_singleton.mp hx
    refine ⟨r'.srid.getD uuid, ⟨hist', hsrid.messages⟩, ?_⟩
    have hempty : s.incoming.eraseIdx 0 = [] := by
      rw [incoming]
      rfl
    rcases @startedBy_cases inst r' (r'.srid.getD uuid) accepted env outroot with
      hnone | ⟨hone, hbound⟩
    · refine .finished hempty ?_ ?_ ?_
      · show s.deferrers ++ _ = []
        rw [deferrers, hnone]
        rfl
      · show s.messages.length ≤ (s.srids ++ [r'.srid.getD uuid]).length
        rw [List.length_append, count]
        omega
      · show (s.srids ++ [r'.srid.getD uuid]).length = 1 ∨
          r.attempt + ((s.srids ++ [r'.srid.getD uuid]).length : ℤ) ≤ _
        rw [List.length_append, List.length_singleton]
        rcases known with hnil | ⟨_, hle⟩
        · rw [hnil]
          exact .inl rfl
        · push_cast
          exact .inr (by omega)
    · refine .deferring r' env.pidfile accepted ?_ env.pidfile_head hempty ?_ ?_ ?_
      · show Again s.messages.length r r'
        rw [count]
        exact again
      · show s.deferrers ++ _ = _
        rw [deferrers, hone]
        rfl
      · show (s.srids ++ [r'.srid.getD uuid]).length = s.messages.length + 1
        rw [List.length_append, count]
        rfl
      · show r.attempt + ((s.srids ++ [r'.srid.getD uuid]).length : ℤ) ≤ _
        have hattempt := again.attempt
        rw [List.length_append, List.length_singleton]
        push_cast
        omega

theorem Inv.lose (h : Inv inst r srid s) {i : ℕ} {args : List String}
    (hargs : s.deferrers[i]? = some args) :
    Inv inst r srid { s with deferrers := s.deferrers.eraseIdx i } := by
  cases h with
  | received m accepted again incoming deferrers => simp [deferrers] at hargs
  | finished incoming deferrers => simp [deferrers] at hargs
  | deferring m pidfile accepted again head incoming deferrers count bound =>
    rw [deferrers] at hargs
    obtain ⟨rfl, rfl⟩ := getElem?_singleton_some hargs
    refine .finished incoming ?_ (by simp only [count]; omega) (.inr (by simp only; omega))
    show s.deferrers.eraseIdx 0 = []
    rw [deferrers]
    rfl

theorem History.send (h : History r srid s) {m : Request}
    (hm : Retried srid (s.messages.length + 1) r m) :
    ∀ (k : ℕ) n, (s.messages ++ [m])[k]? = some n → Retried srid (k + 1) r n := by
  intro k n hk
  rcases Nat.lt_or_ge k s.messages.length with hlt | hge
  · rw [List.getElem?_append_left hlt] at hk
    exact h.messages k n hk
  · rw [List.getElem?_append_right hge] at hk
    obtain ⟨hzero, rfl⟩ := getElem?_singleton_some hk
    have hlen : k = s.messages.length := by omega
    rw [hlen]
    exact hm

theorem Inv.enqueue (hist : History r srid s) (h : Inv inst r srid s) {i : ℕ}
    {args : List String} (hargs : s.deferrers[i]? = some args) :
    Reached inst r (Rounds.enqueue inst { s with deferrers := s.deferrers.eraseIdx i } args) := by
  have hlose := h.lose hargs
  cases h with
  | received m accepted again incoming deferrers => simp [deferrers] at hargs
  | finished incoming deferrers => simp [deferrers] at hargs
  | deferring m pidfile accepted again head incoming deferrers count bound =>
    rw [deferrers] at hargs
    obtain ⟨rfl, rfl⟩ := getElem?_singleton_some hargs
    unfold Rounds.enqueue
    rw [deferArgs_eq, List.tail_cons]
    cases hmain : deferrerMain inst.keys
        (render (deferrerItems (clonerOf inst.settings inst.cfg m srid) pidfile)) with
    | none =>
      simp only [Option.toList_none, List.append_nil]
      exact ⟨srid, ⟨hist.srids, hist.messages⟩, hlose⟩
    | some m' =>
      obtain ⟨accepted', hretried⟩ :=
        deferred_retried accepted (deferrerMain_sound (clonerOf_known accepted) hmain)
      have hagain : Again (s.messages.length + 1) r m' := again.trans hretried.toAgain
      have hempty : s.deferrers.eraseIdx 0 = [] := by
        rw [deferrers]
        rfl
      refine ⟨srid, ⟨hist.srids, hist.send ⟨hagain, hretried.srid⟩⟩, ?_⟩
      refine .received m' accepted' ?_ ?_ hempty ?_ (.inr ⟨hretried.srid, bound⟩)
      · show Again (s.srids.length : ℤ) r m'
        rw [count]
        push_cast
        exact hagain
      · show s.incoming ++ [m'] = [m']
        rw [incoming]
        rfl
      · show (s.messages ++ [m']).length = s.srids.length
        rw [List.length_append, count]
        rfl

theorem reached_step {a : Round} (h : Reached inst r s) (hstep : step inst a s = some s') :
    Reached inst r s' := by
  obtain ⟨srid, hist, hinv⟩ := h
  cases a with
  | handle i uuid env outroot =>
    obtain ⟨r', hr', rfl⟩ := Option.map_eq_some_iff.mp hstep
    exact hinv.handle hist hr'
  | enqueue i =>
    obtain ⟨args, hargs, rfl⟩ := Option.map_eq_some_iff.mp hstep
    exact hinv.enqueue hist hargs
  | lose i =>
    obtain ⟨args, hargs, rfl⟩ := Option.map_eq_some_iff.mp hstep
    exact ⟨srid, ⟨hist.srids, hist.messages⟩, hinv.lose hargs⟩

theorem reached_run (hr : Accepted r) {as : List Round}
    (hrun : run (step inst) as (Rounds.start r) = some s) : Reached inst r s := by
  refine @run_invariant _ _ _ _ _ _ (Reached inst r) (fun _ => True) ?_ ?_ (reached_start hr) hrun
  · intro a t t' _ ht hstep
    exact reached_step ht hstep
  · intro a _
    trivial

/-! ### Every run of rounds -/

/-- What the rounds of a request come to. -/
structure Served (inst : Installation) (r : Request) (s : Rounds) : Prop where
  srids : ∀ x ∈ s.srids, ∀ y ∈ s.srids, x = y
  /-- Each deferrer has put the same request on the queue, with the master's srid. -/
  messages : ∀ (k : ℕ) m, s.messages[k]? = some m → ∃ x ∈ s.srids, Retried x (k + 1) r m
  /-- A deferrer that waits will do so too. -/
  waiting : NoDash inst.cfg.config → NoDash r.ldap → NoDash r.sha → (∀ x ∈ s.srids, NoDash x) →
    ∀ args ∈ s.deferrers, (deferrerMain inst.keys args.tail).isSome
  bounded : r.attempt = 1 →
    (s.srids.length : ℤ) ≤ max 1 (inst.settings inst.cfg.config).attempts

theorem Inv.messages_le (h : Inv inst r srid s) : s.messages.length ≤ s.srids.length := by
  cases h with
  | received m accepted again incoming deferrers count => exact count.le
  | deferring m pidfile accepted again head incoming deferrers count => omega
  | finished incoming deferrers ran => exact ran

theorem Inv.bounded (h : Inv inst r srid s) (hattempt : r.attempt = 1) :
    (s.srids.length : ℤ) ≤ max 1 (inst.settings inst.cfg.config).attempts := by
  rw [le_max_iff]
  cases h with
  | received m accepted again incoming deferrers count known =>
    rcases known with hnil | ⟨_, hle⟩
    · rw [hnil]
      exact .inl (by decide)
    · exact .inr (by omega)
  | deferring m pidfile accepted again head incoming deferrers count bound => exact .inr (by omega)
  | finished incoming deferrers ran bound =>
    rcases bound with hone | hle
    · exact .inl (by omega)
    · exact .inr (by omega)

theorem Inv.waiting (hist : History r srid s) (h : Inv inst r srid s)
    (hconfig : NoDash inst.cfg.config) (hldap : NoDash r.ldap) (hsha : NoDash r.sha)
    (hsrids : ∀ x ∈ s.srids, NoDash x) :
    ∀ args ∈ s.deferrers, (deferrerMain inst.keys args.tail).isSome := by
  intro args hargs
  cases h with
  | received m accepted again incoming deferrers => simp [deferrers] at hargs
  | finished incoming deferrers => simp [deferrers] at hargs
  | deferring m pidfile accepted again head incoming deferrers count bound =>
    rw [deferrers, List.mem_singleton] at hargs
    have hne : s.srids ≠ [] := by
      intro hnil
      rw [hnil] at count
      cases count
    obtain ⟨x, hx⟩ := List.exists_mem_of_ne_nil _ hne
    have hsrid : NoDash srid := hist.srids x hx ▸ hsrids x hx
    have hpidfile : NoDash pidfile := by
      unfold NoDash
      rw [head]
      decide
    have hne' : pidfile ≠ "" := by
      intro hempty
      rw [hempty] at head
      cases head
    rw [hargs, deferArgs_eq, List.tail_cons,
      deferrerMain_complete (clonerOf_known accepted) hconfig hsrid
        (show NoDash m.ldap from again.ldap ▸ hldap) (show NoDash m.sha from again.sha ▸ hsha)
        hpidfile hne']
    exact deferred_isSome accepted

end Invariant

/-- In every run of rounds of an accepted request, the deferrers put the same request on
the queue, one attempt after the other, and the cloner runs as often as is allowed. -/
theorem rounds_served {inst : Installation} {nightly : Bool} {ldap sha : String}
    {ncs oss : List String} {srid : Option String} {attempt : ℤ} {r : Request} {s : Rounds}
    {as : List Round} (h : enqueue inst.keys nightly ldap sha ncs oss srid attempt = some r)
    (hrun : run (step inst) as (Rounds.start r) = some s) : Served inst r s := by
  obtain ⟨x, hist, hinv⟩ := reached_run (enqueue_some h).1 hrun
  refine ⟨?_, ?_, hinv.waiting hist, hinv.bounded⟩
  · intro y hy z hz
    exact (hist.srids y hy).trans (hist.srids z hz).symm
  · intro k m hm
    have hlt : k < s.srids.length := by
      have hk := (List.getElem?_eq_some_iff.mp hm).1
      have hle := hinv.messages_le
      omega
    have hmem := List.getElem_mem hlt
    exact ⟨_, hmem, hist.srids _ hmem ▸ hist.messages k m hm⟩

section Example

def installation : Installation where
  cfg := ⟨"/etc/stoneridge.ini", "/var/log"⟩
  settings _ := setting
  keys := ⟨["gsm", "umts", "broadband"], ["windows", "linux", "mac"], by decide, by decide⟩

def tryRequest : Request :=
  ⟨false, "dev@example.com", "abc123", ["gsm", "umts"], ["linux"], none, 1⟩

def unreachable : Env := Env.healthy (fun _ => none) fun _ => none

/-- A try run whose server cannot be reached, after one round. -/
theorem rounds_served_unreachable : Served installation tryRequest
    ⟨[{ tryRequest with srid := some "5e1", attempt := 2 }], [], ["5e1"],
      [{ tryRequest with srid := some "5e1", attempt := 2 }]⟩ :=
  @rounds_served installation false "dev@example.com" "abc123" ["gsm", "umts"] ["linux"] none 1
    tryRequest _ [.handle 0 "5e1" unreachable ∅, .enqueue 0] rfl rfl

end Example

end StoneRidge.Retry
