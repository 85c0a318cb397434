import StoneRidge.Pcap.Pcapper

/-!
# Whether every capture can be ended

Over any calls, `pcaps` has complete entries only, and each machine can be freed, as long
as no start fails half way: `start` enters the machine before the operations that may
fail and does not take it out again (`srpcapper.py:115-146`).
-/

set_option autoImplicit false

namespace StoneRidge.Pcap

/-- A call of a method, with the behaviour of the system during it. -/
inductive Call where
  | start (macaddr : Option String) (sys : System)
  | stop (macaddr : Option String)
  | retrieve (macaddr : Option String) (read : String → Except String String)

def Call.apply (cfg : Config) : Call → Pcaps → Pcaps
  | .start macaddr sys, pcaps => (Pcap.start cfg sys macaddr pcaps).2
  | .stop macaddr, pcaps => (Pcap.stop macaddr pcaps).2
  | .retrieve macaddr read, pcaps => (Pcap.retrieve read macaddr pcaps).2

@[simp] theorem apply_start (cfg : Config) (macaddr : Option String) (sys : System)
    (pcaps : Pcaps) : (Call.start macaddr sys).apply cfg pcaps = (start cfg sys macaddr pcaps).2 :=
  rfl

@[simp] theorem apply_stop (cfg : Config) (macaddr : Option String) (pcaps : Pcaps) :
    (Call.stop macaddr).apply cfg pcaps = (stop macaddr pcaps).2 :=
  rfl

@[simp] theorem apply_retrieve (cfg : Config) (macaddr : Option String)
    (read : String → Except String String) (pcaps : Pcaps) :
    (Call.retrieve macaddr read).apply cfg pcaps = (retrieve read macaddr pcaps).2 :=
  rfl

/-- The dictionary after some calls on a new pcapper. -/
def after (cfg : Config) (calls : List Call) : Pcaps :=
  calls.foldl (fun pcaps c => c.apply cfg pcaps) fun _ => none

/-- After a stop and a retrieve whose reads succeed a machine can be started. -/
def Frees (cfg : Config) (pcaps : Pcaps) : Prop :=
  ∀ m read, (∀ f, ∃ text, read f = .ok text) → ∀ sys : System, sys.Succeeds cfg m →
    (start cfg sys (some m) (retrieve read (some m) (stop (some m) pcaps).2).2).1 = .ok ()

/-- What a run of calls has to keep. -/
structure Sound (cfg : Config) (calls : List Call) : Prop where
  unchanged : ∀ pre macaddr sys, pre ++ [.start macaddr sys] <+: calls →
    (∃ raised, (start cfg sys macaddr (after cfg pre)).1 = .error raised) →
      after cfg (pre ++ [.start macaddr sys]) = after cfg pre
  complete : ∀ pre, pre <+: calls → AllComplete (after cfg pre)
  frees : ∀ pre, pre <+: calls → Frees cfg (after cfg pre)

/-- A start that gets past its checks succeeds. -/
def StartsSucceed (cfg : Config) (calls : List Call) : Prop :=
  ∀ pre m sys, pre ++ [.start (some m) sys] <+: calls → after cfg pre m = none →
    sys.Succeeds cfg m

section Runs
variable {cfg : Config} {calls pre : List Call} {pcaps : Pcaps} {m : String}

theorem after_append (cfg : Config) (pre : List Call) (c : Call) :
    after cfg (pre ++ [c]) = c.apply cfg (after cfg pre) := by
  unfold after
  rw [List.foldl_append]
  rfl

theorem AllComplete.update (h : AllComplete pcaps) {o : Option Entry}
    (ho : ∀ e, o = some e → e.Complete) : AllComplete (Function.update pcaps m o) := by
  intro m' e he
  by_cases hm : m' = m
  · subst hm
    rw [Function.update_self] at he
    exact ho e he
  · rw [Function.update_of_ne hm] at he
    exact h m' e he

/-- One call keeps all entries complete, a start if it does not fail half way. -/
theorem AllComplete.apply (h : AllComplete pcaps) (c : Call)
    (hstart : ∀ m sys, c = .start (some m) sys → pcaps m = none → sys.Succeeds cfg m) :
    AllComplete (c.apply cfg pcaps) := by
  cases c with
  | start macaddr sys =>
    cases macaddr with
    | none => exact h
    | some m =>
      rw [apply_start]
      rcases start_cases cfg sys m pcaps with ⟨_, heq⟩ | ⟨_, _, outdir, fd, p, heq⟩ |
        ⟨hnone, hfails, _⟩
      · rw [heq]
        exact h
      · rw [heq]
        apply h.update
        intro e he
        cases he
        exact Entry.started_complete outdir fd p
      · exact absurd (hstart m sys rfl hnone) hfails
  | stop macaddr =>
    cases macaddr with
    | none => exact h
    | some m =>
      rw [apply_stop]
      cases he : pcaps m with
      | none =>
        rw [stop_absent he]
        exact h
      | some e =>
        obtain ⟨e', hc', _, heq⟩ := stop_complete he (h m e he)
        rw [heq]
        apply h.update
        intro e'' he''
        cases he''
        exact hc'
  | retrieve macaddr read =>
    cases macaddr with
    | none => exact h
    | some m =>
      rw [apply_retrieve]
      rcases retrieve_cases read m pcaps with ⟨data, heq⟩ | ⟨raised, heq⟩
      · rw [heq]
        apply h.update
        intro e he
        cases he
      · rw [heq]
        exact h

theorem AllComplete.frees (h : AllComplete pcaps) : Frees cfg pcaps := by
  intro m read hread sys hsys
  have hfree : (retrieve read (some m) (stop (some m) pcaps).2).2 m = none := by
    cases he : pcaps m with
    | none =>
      rw [stop_absent he]
      unfold retrieve
      simp only [he]
    | some e =>
      obtain ⟨e', hc', hstopped, heq⟩ := stop_complete he (h m e he)
      rw [heq]
      obtain ⟨data, hret⟩ :=
        retrieve_frees (Function.update_self m (some e') pcaps) hc' hstopped hread
      rw [hret]
      exact Function.update_self _ _ _
  rcases start_cases cfg sys m (retrieve read (some m) (stop (some m) pcaps).2).2 with
    ⟨hsome, _⟩ | ⟨_, _, outdir, fd, p, heq⟩ | ⟨_, hfails, _⟩
  · rw [hfree] at hsome
    cases hsome
  · rw [heq]
  · exact absurd hsys hfails

theorem after_complete (h : StartsSucceed cfg calls) (hpre : pre <+: calls) :
    AllComplete (after cfg pre) := by
  induction pre using List.reverseRecOn with
  | nil =>
    intro m e he
    cases he
  | append_singleton pre c ih =>
    rw [after_append]
    apply (ih ((List.prefix_append pre [c]).trans hpre)).apply
    intro m sys hc hnone
    subst hc
    exact h pre m sys hpre hnone

theorem StartsSucceed.sound (h : StartsSucceed cfg calls) : Sound cfg calls := by
  refine ⟨?_, fun pre hpre => after_complete h hpre, fun pre hpre => (after_complete h hpre).frees⟩
  intro pre macaddr sys hpre ⟨raised, hraised⟩
  rw [after_append, apply_start]
  cases macaddr with
  | none => rfl
  | some m =>
    rcases start_cases cfg sys m (after cfg pre) with ⟨_, heq⟩ | ⟨_, _, outdir, fd, p, heq⟩ |
      ⟨hnone, hfails, _⟩
    · rw [heq]
    · rw [heq] at hraised
      cases hraised
    · exact absurd (h pre m sys hpre hnone) hfails

/-- A start that fails half way raises and leaves an entry without fields. -/
theorem start_fails {sys : System} (hnone : pcaps m = none) (hfails : ¬ sys.Succeeds cfg m) :
    (∃ raised, (start cfg sys (some m) pcaps).1 = .error raised) ∧
      (start cfg sys (some m) pcaps).2 m = some .empty := by
  rcases start_cases cfg sys m pcaps with ⟨hsome, _⟩ | ⟨_, hsys, _⟩ | ⟨_, _, msg, heq⟩
  · rw [hnone] at hsome
    cases hsome
  · exact absurd hsys hfails
  · rw [heq]
    exact ⟨⟨_, rfl⟩, Function.update_self m _ _⟩

end Runs

/-- A run of calls is sound exactly if each start that gets past its checks succeeds. -/
theorem sound_iff (cfg : Config) (calls : List Call) :
    Sound cfg calls ↔ StartsSucceed cfg calls := by
  constructor
  · intro h pre m sys hpre hnone
    by_contra hfails
    obtain ⟨hraised, hentry⟩ := start_fails hnone hfails
    have heq := h.unchanged pre (some m) sys hpre hraised
    rw [after_append, apply_start] at heq
    rw [heq, hnone] at hentry
    cases hentry
  · exact StartsSucceed.sound

/-- The server has no space left for a directory. -/
theorem start_without_space :
    ¬ Sound ⟨"00:16:3e:00:00:01", "/usr/sbin/tcpdump", "eth0"⟩
      [.start (some "00:16:3e:00:00:02")
        ⟨.error "No space left on device", fun _ => .ok 3, fun _ _ => .ok 4711⟩] := by
  intro h
  have hcomplete := h.complete _ List.prefix_rfl "00:16:3e:00:00:02" .empty rfl
  exact Entry.not_empty_complete hcomplete

end StoneRidge.Pcap
