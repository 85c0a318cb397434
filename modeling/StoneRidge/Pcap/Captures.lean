import StoneRidge.Pcap.Pcapper
import StoneRidge.Worker.Script

/-!
# Whose traffic a run stores

The runs of one client against one pcapper: the stages are those of the worker
(`srworker.py:188-223`), and its two `pcap` stages talk to the server (`srpcap.py:33-85`).
`start` answers `ok` when a capture is already running (`srpcapper.py:201-214`), so a run
that meets the capture of an earlier one goes on with it.
-/

set_option autoImplicit false

namespace StoneRidge.Pcap
open StoneRidge.Kit.PosixPath StoneRidge.Worker

/-- What becomes of a request: the server may not get it, and its answer may be lost. -/
inductive Request where
  | undelivered
  | unanswered
  | answered (statusCode : ℕ)
  deriving DecidableEq

/-- One `handle` of the worker with all that happens around its stages. -/
structure Run where
  setting : Worker.Setting
  exit : ℕ → ℤ
  calls : List Worker.Call
  ended : ∃ depth w, handleStages exit depth (Worker.start setting) = .ok () w ∧ w.calls = calls
  sys : System
  read : String → Except String String
  startRequest : Request
  stopRequest : Request
  retrieveRequest : Request

/-- A `traffic.pcap` with the `tcpdump.out` beside it. -/
structure Stored where
  run : ℕ
  startedBy : Option ℕ
  data : Data

/-- The server, the number of runs before this one, and what has been stored. `startedBy`
is the run whose start stage began the last capture. -/
structure World where
  pcaps : Pcaps
  runs : ℕ
  startedBy : Option ℕ
  stored : List Stored

def World.init : World := ⟨fun _ => none, 0, none, []⟩

section Stages
variable (server : Config) (macaddr : String)

/-- The exit status is not from here but from the run's own `exit`. -/
def startPcap (r : Run) (w : World) : World :=
  match r.startRequest with
  | .undelivered => w
  | _ =>
    { w with
      pcaps := (startEndpoint server r.sys macaddr w.pcaps).2
      startedBy :=
        match (start server r.sys (some macaddr) w.pcaps).1 with
        | .ok () => some w.runs
        | .error _ => w.startedBy }

def retrievePcap (r : Run) (w : World) : World :=
  match r.retrieveRequest with
  | .undelivered => w
  | .unanswered => { w with pcaps := (retrieveEndpoint r.read macaddr w.pcaps).2 }
  | .answered statusCode =>
    match retrieveEndpoint r.read macaddr w.pcaps with
    | (.ok (some data), pcaps) =>
      if statusCode = 200 then
        { w with pcaps := pcaps, stored := w.stored ++ [⟨w.runs, w.startedBy, data⟩] }
      else { w with pcaps := pcaps }
    | (_, pcaps) => { w with pcaps := pcaps }

def stopPcap (r : Run) (w : World) : World :=
  match r.stopRequest with
  | .undelivered => w
  | .unanswered => { w with pcaps := (stopEndpoint macaddr w.pcaps).2 }
  | .answered statusCode =>
    match stopEndpoint macaddr w.pcaps with
    | (.ok _, pcaps) =>
      if statusCode = 200 then retrievePcap macaddr r { w with pcaps := pcaps }
      else { w with pcaps := pcaps }
    | (.error _, pcaps) => { w with pcaps := pcaps }

def startCall : Worker.Call := (.pcap, ["--start"])
def stopCall : Worker.Call := (.pcap, ["--stop"])

def Run.stage (r : Run) (w : World) (c : Worker.Call) : World :=
  if c = startCall then startPcap server macaddr r w
  else if c = stopCall then stopPcap macaddr r w
  else w

def World.run (w : World) (r : Run) : World :=
  let w := r.calls.foldl (r.stage server macaddr) w
  { w with runs := w.runs + 1 }

def history (rs : List Run) : World := rs.foldl (World.run server macaddr) .init

end Stages

/-! ### The calls of a run -/

theorem attempt_not_pcap {exit : ℕ → ℤ} {need : Bool} {k : ℕ} {c : Worker.Call}
    {xs : List Worker.Call} (h : Attempt exit need k c xs) (hc : c.1 ≠ .pcap) :
    ∀ x ∈ xs, x.1 ≠ .pcap := by
  induction h with
  | zero c _ =>
    intro x hx
    rw [List.mem_singleton.mp hx]
    exact hc
  | outside c _ =>
    intro x hx
    rw [List.mem_singleton.mp hx]
    exact hc
  | again c _ _ _ ih =>
    intro x hx
    rcases List.mem_cons.mp hx with rfl | hx
    · exact hc
    · exact ih (by decide) x hx

theorem part_not_pcap {exit : ℕ → ℤ} {need due : Bool} {k : ℕ} {c : Worker.Call}
    {xs : List Worker.Call} (h : Part exit need due k c xs) (hc : c.1 ≠ .pcap) :
    ∀ x ∈ xs, x.1 ≠ .pcap := by
  unfold Worker.Part at h
  split at h
  · exact attempt_not_pcap h hc
  · subst h
    intro x hx
    cases hx

theorem cleanup_not_pcap {exit : ℕ → ℤ} {fl : Flags} {k : ℕ} {xs : List Worker.Call}
    (h : Cleanup exit fl k xs) : ∀ x ∈ xs, x.1 ≠ .pcap := by
  obtain ⟨r, s, t, rfl, hr, hs, ht⟩ := h
  intro x hx
  rcases List.mem_append.mp hx with hx | hx
  · exact part_not_pcap hr (by decide) x hx
  · rcases List.mem_append.mp hx with hx | hx
    · exact part_not_pcap hs (by decide) x hx
    · exact part_not_pcap ht (by decide) x hx

def isPcap (c : Worker.Call) : Bool := c.1 = .pcap

theorem testPlan_pcap (i : ℕ) :
    ((testPlan.take i).map Prod.fst).filter isPcap = [] ∨
      ((testPlan.take i).map Prod.fst).filter isPcap = [startCall] ∨
      ((testPlan.take i).map Prod.fst).filter isPcap = [startCall, stopCall] := by
  have hsmall : ∀ i ≤ testPlan.length,
      ((testPlan.take i).map Prod.fst).filter isPcap = [] ∨
        ((testPlan.take i).map Prod.fst).filter isPcap = [startCall] ∨
        ((testPlan.take i).map Prod.fst).filter isPcap = [startCall, stopCall] := by decide
  rcases Nat.le_total i testPlan.length with h | h
  · exact hsmall i h
  · rw [List.take_of_length_le h]
    exact Or.inr (Or.inr rfl)

/-- A run starts a capture once at most, and only then stops it, once at most. -/
theorem Run.pcap_calls (r : Run) : r.calls.filter isPcap = [] ∨
    r.calls.filter isPcap = [startCall] ∨ r.calls.filter isPcap = [startCall, stopCall] := by
  obtain ⟨depth, w, hw, hcalls⟩ := r.ended
  cases hu : r.setting.unittest with
  | true =>
    have hnil := handleStages_unittest hu hw
    rw [← hcalls, hnil]
    exact Or.inl rfl
  | false =>
    rcases handleStages_calls hu hw with ⟨_, hxs⟩ | ⟨before, c, fl, ys, hf, hc, hxs⟩
    · rw [← hcalls, hxs]
      exact Or.inr (Or.inr rfl)
    · have hys : ys.filter isPcap = [] := by
        rw [List.filter_eq_nil_iff]
        intro x hx hpcap
        exact cleanup_not_pcap hc x hx (of_decide_eq_true hpcap)
      obtain ⟨after, hafter⟩ := hf.splits
      have htake : before.map Prod.fst ++ [c] =
          (testPlan.take (before.length + 1)).map Prod.fst := by
        rw [hafter, List.take_append]
        simp
      have hxs' : r.calls = (testPlan.take (before.length + 1)).map Prod.fst ++ ys := by
        rw [← hcalls, hxs, ← htake, List.append_assoc, List.singleton_append]
      rw [hxs', List.filter_append, hys, List.append_nil]
      exact testPlan_pcap _

/-! ### The server's entry for the client -/

/-- An entry after its stop. -/
def Entry.stopped (outdir : String) : Entry :=
  ⟨some outdir, some none, some (join outdir "tcpdump.out"), some (join outdir "tcpdump.pcap"),
    some none⟩

/-- A capture with its files in `outdir`, running or stopped. -/
def Entry.Captures (e : Entry) (outdir : String) : Prop :=
  (∃ fd p, e = .started outdir fd p) ∨ e = .stopped outdir

/-- The files of a capture can be read. -/
def Readable (read : String → Except String String) (outdir : String) : Prop :=
  (∃ text, read (join outdir "tcpdump.out") = .ok text) ∧
    ∃ text, read (join outdir "tcpdump.pcap") = .ok text

section Entries
variable {server : Config} {macaddr : String} {pcaps : Pcaps} {outdir : String} {e : Entry}
  {read : String → Except String String}

theorem stopEndpoint_none (h : pcaps macaddr = none) :
    ∃ message, stopEndpoint macaddr pcaps = (.error message, pcaps) := by
  unfold stopEndpoint stop
  simp only [h]
  exact ⟨_, rfl⟩

theorem stopEndpoint_empty (h : pcaps macaddr = some .empty) :
    ∃ message, stopEndpoint macaddr pcaps = (.error message, pcaps) := by
  unfold stopEndpoint stop
  simp only [h]
  exact ⟨_, rfl⟩

theorem stopEndpoint_captures (h : pcaps macaddr = some e) (he : e.Captures outdir) :
    ∃ data, stopEndpoint macaddr pcaps =
      (.ok data, Function.update pcaps macaddr (some (.stopped outdir))) := by
  unfold stopEndpoint stop
  rcases he with ⟨fd, p, rfl⟩ | rfl
  · simp only [h, Entry.started]
    exact ⟨_, rfl⟩
  · rw [Function.update_eq_self_iff.mpr h.symm]
    simp only [h, Entry.stopped]
    exact ⟨_, rfl⟩

theorem retrieveEndpoint_readable (h : pcaps macaddr = some (.stopped outdir))
    (hread : Readable read outdir) : ∃ data, retrieveEndpoint read macaddr pcaps =
      (.ok (some data), Function.update pcaps macaddr none) := by
  obtain ⟨⟨out, hout⟩, pcap, hpcap⟩ := hread
  unfold retrieveEndpoint retrieve
  simp only [h, Entry.stopped, hout, hpcap]
  exact ⟨_, rfl⟩

theorem retrieveEndpoint_unreadable (h : pcaps macaddr = some (.stopped outdir))
    (hread : ¬ Readable read outdir) :
    ∃ message, retrieveEndpoint read macaddr pcaps = (.error message, pcaps) := by
  unfold retrieveEndpoint retrieve
  simp only [h, Entry.stopped]
  cases hout : read (join outdir "tcpdump.out") with
  | error msg => exact ⟨_, rfl⟩
  | ok out =>
    cases hpcap : read (join outdir "tcpdump.pcap") with
    | error msg =>
      simp only
      exact ⟨_, rfl⟩
    | ok pcap => exact absurd ⟨⟨out, hout⟩, pcap, hpcap⟩ hread

end Entries

/-! ### One run -/

/-- The run gets as far as fetching the files of a capture in `outdir`. -/
def Run.Collects (r : Run) (outdir : String) : Prop :=
  stopCall ∈ r.calls ∧ r.stopRequest = .answered 200 ∧ r.retrieveRequest = .answered 200 ∧
    Readable r.read outdir

/-- The client's entry: none, one left by a failed start, or a capture of a run. -/
def World.Entered (macaddr : String) (w : World) (bound : ℕ) : Prop :=
  w.pcaps macaddr = none ∨ w.pcaps macaddr = some .empty ∨
    ∃ e outdir j, w.pcaps macaddr = some e ∧ e.Captures outdir ∧ w.startedBy = some j ∧ j < bound

section Step
variable {server : Config} {macaddr : String} {w : World} {r : Run} {outdir : String}
  {e : Entry} {bound : ℕ}

/-- A start stage meets an entry and leaves it, or begins at no entry. -/
theorem startPcap_cases (server : Config) (macaddr : String) (r : Run) (w : World) :
    (startPcap server macaddr r w).runs = w.runs ∧
    (startPcap server macaddr r w).stored = w.stored ∧
    ((startPcap server macaddr r w).pcaps macaddr = w.pcaps macaddr ∧
        (startPcap server macaddr r w).startedBy = w.startedBy ∨
      w.pcaps macaddr = none ∧
        ((startPcap server macaddr r w).pcaps macaddr = some .empty ∨
          ∃ e outdir, (startPcap server macaddr r w).pcaps macaddr = some e ∧
            e.Captures outdir ∧ (startPcap server macaddr r w).startedBy = some w.runs)) := by
  have hdelivered : r.startRequest ≠ .undelivered →
      startPcap server macaddr r w =
        { w with
          pcaps := (start server r.sys (some macaddr) w.pcaps).2
          startedBy :=
            match (start server r.sys (some macaddr) w.pcaps).1 with
            | .ok () => some w.runs
            | .error _ => w.startedBy } := by
    intro hreq
    have hpcaps : (startEndpoint server r.sys macaddr w.pcaps).2 =
        (start server r.sys (some macaddr) w.pcaps).2 := by
      unfold startEndpoint
      split <;> simp_all
    unfold startPcap
    rw [hpcaps]
    cases hr : r.startRequest with
    | undelivered => exact absurd hr hreq
    | unanswered => rfl
    | answered => rfl
  by_cases hreq : r.startRequest = .undelivered
  · have hw : startPcap server macaddr r w = w := by
      unfold startPcap
      rw [hreq]
    rw [hw]
    exact ⟨rfl, rfl, Or.inl ⟨rfl, rfl⟩⟩
  · rw [hdelivered hreq]
    refine ⟨rfl, rfl, ?_⟩
    rcases start_cases server r.sys macaddr w.pcaps with ⟨_, heq⟩ |
      ⟨hnone, _, outdir, fd, p, heq⟩ | ⟨hnone, _, msg, heq⟩
    · rw [heq]
      exact Or.inl ⟨rfl, rfl⟩
    · rw [heq]
      exact Or.inr ⟨hnone, Or.inr ⟨_, outdir, Function.update_self _ _ _, Or.inl ⟨fd, p, rfl⟩, rfl⟩⟩
    · rw [heq]
      exact Or.inr ⟨hnone, Or.inl (Function.update_self _ _ _)⟩

/-- Without a capture a stop stage stores nothing and changes nothing. -/
theorem stopPcap_of_no_capture (h : w.pcaps macaddr = none ∨ w.pcaps macaddr = some .empty) :
    stopPcap macaddr r w = w := by
  have herror : ∃ message, stopEndpoint macaddr w.pcaps = (.error message, w.pcaps) := by
    rcases h with h | h
    · exact stopEndpoint_none h
    · exact stopEndpoint_empty h
  obtain ⟨message, heq⟩ := herror
  unfold stopPcap
  rw [heq]
  cases r.stopRequest <;> rfl

/-- A retrieval of a stopped capture stores it, drops it or keeps it. -/
theorem retrievePcap_cases (h : w.pcaps macaddr = some (.stopped outdir)) :
    (∃ data, r.retrieveRequest = .answered 200 ∧ Readable r.read outdir ∧
      retrievePcap macaddr r w =
        { w with
          pcaps := Function.update w.pcaps macaddr none
          stored := w.stored ++ [⟨w.runs, w.startedBy, data⟩] }) ∨
    ¬ (r.retrieveRequest = .answered 200 ∧ Readable r.read outdir) ∧
      (retrievePcap macaddr r w = w ∨
        retrievePcap macaddr r w = { w with pcaps := Function.update w.pcaps macaddr none }) := by
  unfold retrievePcap
  by_cases hread : Readable r.read outdir
  · obtain ⟨data, hret⟩ := retrieveEndpoint_readable h hread
    rw [hret]
    cases r.retrieveRequest with
    | undelivered => exact Or.inr ⟨by simp, Or.inl rfl⟩
    | unanswered => exact Or.inr ⟨by simp, Or.inr rfl⟩
    | answered statusCode =>
      by_cases hcode : statusCode = 200
      · subst hcode
        exact Or.inl ⟨data, rfl, hread, rfl⟩
      · simp only [if_neg hcode]
        refine Or.inr ⟨?_, Or.inr trivial⟩
        intro hcollects
        exact hcode (Request.answered.inj hcollects.1)
  · obtain ⟨message, hret⟩ := retrieveEndpoint_unreadable h hread
    rw [hret]
    refine Or.inr ⟨fun hcollects => hread hcollects.2, Or.inl ?_⟩
    cases r.retrieveRequest <;> rfl

/-- A stop stage that meets a capture stops it and may go on to retrieve it. -/
theorem stopPcap_cases (h : w.pcaps macaddr = some e) (he : e.Captures outdir) :
    r.stopRequest = .answered 200 ∧ stopPcap macaddr r w =
      retrievePcap macaddr r
        { w with pcaps := Function.update w.pcaps macaddr (some (.stopped outdir)) } ∨
    r.stopRequest ≠ .answered 200 ∧ (stopPcap macaddr r w = w ∨ stopPcap macaddr r w =
      { w with pcaps := Function.update w.pcaps macaddr (some (.stopped outdir)) }) := by
  obtain ⟨message, hstop⟩ := stopEndpoint_captures h he
  unfold stopPcap
  rw [hstop]
  cases r.stopRequest with
  | undelivered => exact Or.inr ⟨by simp, Or.inl rfl⟩
  | unanswered => exact Or.inr ⟨by simp, Or.inr rfl⟩
  | answered statusCode =>
    by_cases hcode : statusCode = 200
    · subst hcode
      exact Or.inl ⟨rfl, rfl⟩
    · simp only [if_neg hcode]
      refine Or.inr ⟨?_, Or.inr trivial⟩
      intro hreq
      exact hcode (Request.answered.inj hreq)

/-- A stop stage that meets a capture stores it or keeps it. -/
theorem stopPcap_of_capture (h : w.pcaps macaddr = some e) (he : e.Captures outdir)
    (hcall : stopCall ∈ r.calls) :
    (stopPcap macaddr r w).runs = w.runs ∧ (stopPcap macaddr r w).startedBy = w.startedBy ∧
    ((stopPcap macaddr r w).pcaps macaddr = none ∨
      ∃ e', (stopPcap macaddr r w).pcaps macaddr = some e' ∧ e'.Captures outdir) ∧
    (¬ r.Collects outdir ∧ (stopPcap macaddr r w).stored = w.stored ∨
      r.Collects outdir ∧ ∃ data,
        (stopPcap macaddr r w).stored = w.stored ++ [⟨w.runs, w.startedBy, data⟩]) := by
  have hstopped : Function.update w.pcaps macaddr (some (Entry.stopped outdir)) macaddr =
      some (.stopped outdir) := Function.update_self _ _ _
  have hgone : ∀ pcaps : Pcaps, Function.update pcaps macaddr none macaddr = none :=
    fun pcaps => Function.update_self _ _ _
  unfold Run.Collects
  rcases stopPcap_cases (r := r) h he with ⟨hreq, heq⟩ | ⟨hreq, heq | heq⟩
  · rw [heq]
    rcases retrievePcap_cases (r := r)
      (w := { w with pcaps := Function.update w.pcaps macaddr (some (.stopped outdir)) })
      hstopped with ⟨data, hret, hread, heq'⟩ | ⟨hcollects, heq' | heq'⟩
    · rw [heq']
      exact ⟨rfl, rfl, Or.inl (hgone _), Or.inr ⟨⟨hcall, hreq, hret, hread⟩, data, rfl⟩⟩
    · rw [heq']
      exact ⟨rfl, rfl, Or.inr ⟨_, hstopped, Or.inr rfl⟩, Or.inl ⟨fun h => hcollects h.2.2, rfl⟩⟩
    · rw [heq']
      exact ⟨rfl, rfl, Or.inl (hgone _), Or.inl ⟨fun h => hcollects h.2.2, rfl⟩⟩
  · rw [heq]
    exact ⟨rfl, rfl, Or.inr ⟨e, h, he⟩, Or.inl ⟨fun h => hreq h.2.1, rfl⟩⟩
  · rw [heq]
    exact ⟨rfl, rfl, Or.inr ⟨_, hstopped, Or.inr rfl⟩, Or.inl ⟨fun h => hreq h.2.1, rfl⟩⟩

end Step

end StoneRidge.Pcap
