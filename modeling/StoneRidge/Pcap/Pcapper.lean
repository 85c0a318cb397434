import Mathlib.Data.List.Infix
import StoneRidge.Kit.PosixPath

/-!
# The packet captures of a server

`StoneRidgePcapper` and its endpoints (`srpcapper.py:33-214`). `pcaps` has an entry for
each machine with a capture; the fields of an entry are set one by one. Of the system's
operations those of `start` and the reads of `retrieve` may fail. What is read stands for
its base64 text.
-/

set_option autoImplicit false

namespace StoneRidge.Pcap
open StoneRidge.Kit.PosixPath

/-- The fields that have been set; of `stdout_fd` and `process` also whether to `None`. -/
structure Entry where
  outdir : Option String
  stdoutFd : Option (Option ℕ)
  stdout : Option String
  pcap : Option String
  process : Option (Option ℕ)
  deriving DecidableEq

def Entry.empty : Entry := ⟨none, none, none, none, none⟩

abbrev Pcaps := String → Option Entry

inductive Raised where
  | missingMac
  | notRunning (macaddr : String)
  | stillRunning (macaddr : String)
  | alreadyRunning (macaddr : String)
  | alreadyStopped (macaddr : String)
  | keyError (key : String)
  | noneClosed
  | system (message : String)
  deriving DecidableEq

/-- `str(e)`. -/
def Raised.message : Raised → String
  | .missingMac => "Missing MAC address for PCAP"
  | .notRunning m => "Not running a PCAP for " ++ m
  | .stillRunning m => "PCAP for " ++ m ++ " still running"
  | .alreadyRunning m => "Already running PCAP for " ++ m
  | .alreadyStopped m => "PCAP for " ++ m ++ " already stopped"
  | .keyError key => "'" ++ key ++ "'"
  | .noneClosed => "'NoneType' object has no attribute 'close'"
  | .system message => message

/-- What a call returns or raises, and the dictionary after it. -/
abbrev Outcome (α : Type) := Except Raised α × Pcaps

structure Config where
  macaddr : String
  tcpdump : String
  interface : String

/-- The system as `start` meets it. -/
structure System where
  mkdtemp : Except String String
  openFile : String → Except String ℕ
  spawn : List String → ℕ → Except String ℕ

structure Data where
  stdout : String
  pcap : String
  deriving DecidableEq

def tcpdumpArgs (cfg : Config) (macaddr pcapFilename : String) : List String :=
  [cfg.tcpdump, "-i", cfg.interface, "-s", "2000", "-w", pcapFilename, "-U",
    "ether", "host", macaddr, "and", "ether", "host", cfg.macaddr]

/-- An entry with all its fields. -/
def Entry.started (outdir : String) (fd p : ℕ) : Entry :=
  ⟨some outdir, some (some fd), some (join outdir "tcpdump.out"),
    some (join outdir "tcpdump.pcap"), some (some p)⟩

def start (cfg : Config) (sys : System) (macaddr : Option String) (pcaps : Pcaps) : Outcome Unit :=
  match macaddr with
  | none => (.error .missingMac, pcaps)
  | some m =>
    if (pcaps m).isSome then (.error (.alreadyRunning m), pcaps)
    else
      -- self.pcaps[macaddr] = {}
      let entered := Function.update pcaps m (some .empty)
      match sys.mkdtemp with
      | .error msg => (.error (.system msg), entered)
      | .ok outdir =>
        match sys.openFile (join outdir "tcpdump.out") with
        | .error msg => (.error (.system msg), entered)
        | .ok fd =>
          match sys.spawn (tcpdumpArgs cfg m (join outdir "tcpdump.pcap")) fd with
          | .error msg => (.error (.system msg), entered)
          | .ok p => (.ok (), Function.update pcaps m (some (.started outdir fd p)))

def stop (macaddr : Option String) (pcaps : Pcaps) : Outcome Unit :=
  match macaddr with
  | none => (.error .missingMac, pcaps)
  | some m =>
    match pcaps m with
    | none => (.error (.notRunning m), pcaps)
    | some e =>
      match e.process with
      | none => (.error (.keyError "process"), pcaps)
      | some none => (.error (.alreadyStopped m), pcaps)
      | some (some _) =>
        match e.stdoutFd with
        | none =>
          (.error (.keyError "stdout_fd"),
            Function.update pcaps m (some { e with process := some none }))
        | some none =>
          (.error .noneClosed, Function.update pcaps m (some { e with process := some none }))
        | some (some _) =>
          (.ok (), Function.update pcaps m
            (some { e with process := some none, stdoutFd := some none }))

def retrieve (read : String → Except String String) (macaddr : Option String) (pcaps : Pcaps) :
    Outcome Data :=
  match macaddr with
  | none => (.error .missingMac, pcaps)
  | some m =>
    match pcaps m with
    | none => (.error (.notRunning m), pcaps)
    | some e =>
      match e.process with
      | none => (.error (.keyError "process"), pcaps)
      | some (some _) => (.error (.stillRunning m), pcaps)
      | some none =>
        match e.stdout with
        | none => (.error (.keyError "stdout"), pcaps)
        | some stdoutFilename =>
          match read stdoutFilename with
          | .error msg => (.error (.system msg), pcaps)
          | .ok stdout =>
            match e.pcap with
            | none => (.error (.keyError "pcap"), pcaps)
            | some pcapFilename =>
              match read pcapFilename with
              | .error msg => (.error (.system msg), pcaps)
              | .ok pcap =>
                match e.outdir with
                | none => (.error (.keyError "outdir"), pcaps)
                | some _ => (.ok ⟨stdout, pcap⟩, Function.update pcaps m none)

/-! ### The endpoints -/

inductive Response (α : Type) where
  | ok (data : Option α)
  | error (message : String)

def startEndpoint (cfg : Config) (sys : System) (macaddr : String) (pcaps : Pcaps) :
    Response String × Pcaps :=
  match start cfg sys (some macaddr) pcaps with
  | (.ok (), pcaps) => (.ok none, pcaps)
  | (.error (.alreadyRunning m), pcaps) => (.ok (some (Raised.alreadyRunning m).message), pcaps)
  | (.error e, pcaps) => (.error e.message, pcaps)

def stopEndpoint (macaddr : String) (pcaps : Pcaps) : Response String × Pcaps :=
  match stop (some macaddr) pcaps with
  | (.ok (), pcaps) => (.ok none, pcaps)
  | (.error (.alreadyStopped m), pcaps) => (.ok (some (Raised.alreadyStopped m).message), pcaps)
  | (.error e, pcaps) => (.error e.message, pcaps)

def retrieveEndpoint (read : String → Except String String) (macaddr : String) (pcaps : Pcaps) :
    Response Data × Pcaps :=
  match retrieve read (some macaddr) pcaps with
  | (.ok data, pcaps) => (.ok (some data), pcaps)
  | (.error e, pcaps) => (.error e.message, pcaps)

/-! ### What a call does -/

structure Entry.Complete (e : Entry) : Prop where
  outdir : e.outdir.isSome
  stdoutFd : e.stdoutFd.isSome
  stdout : e.stdout.isSome
  pcap : e.pcap.isSome
  process : e.process.isSome

def AllComplete (pcaps : Pcaps) : Prop := ∀ m e, pcaps m = some e → e.Complete

/-- The three operations of a start for `m` succeed. -/
def System.Succeeds (cfg : Config) (sys : System) (m : String) : Prop :=
  ∃ outdir fd p, sys.mkdtemp = .ok outdir ∧ sys.openFile (join outdir "tcpdump.out") = .ok fd ∧
    sys.spawn (tcpdumpArgs cfg m (join outdir "tcpdump.pcap")) fd = .ok p

section Calls
variable {cfg : Config} {sys : System} {m : String} {pcaps : Pcaps} {e : Entry}
  {read : String → Except String String}

theorem start_cases (cfg : Config) (sys : System) (m : String) (pcaps : Pcaps) :
    ((pcaps m).isSome ∧ start cfg sys (some m) pcaps = (.error (.alreadyRunning m), pcaps)) ∨
    (pcaps m = none ∧ sys.Succeeds cfg m ∧ ∃ outdir fd p,
      start cfg sys (some m) pcaps =
        (.ok (), Function.update pcaps m (some (.started outdir fd p)))) ∨
    (pcaps m = none ∧ ¬ sys.Succeeds cfg m ∧ ∃ msg,
      start cfg sys (some m) pcaps =
        (.error (.system msg), Function.update pcaps m (some .empty))) := by
  unfold start System.Succeeds
  by_cases hm : (pcaps m).isSome
  · exact Or.inl ⟨hm, if_pos hm⟩
  · refine Or.inr ?_
    have hnone : pcaps m = none := Option.not_isSome_iff_eq_none.mp hm
    simp only [if_neg hm]
    cases hdir : sys.mkdtemp with
    | error msg => simp [hnone]
    | ok outdir =>
      cases hfd : sys.openFile (join outdir "tcpdump.out") with
      | error msg => simp [hnone, hfd]
      | ok fd =>
        cases hp : sys.spawn (tcpdumpArgs cfg m (join outdir "tcpdump.pcap")) fd with
        | error msg => simp [hnone, hfd, hp]
        | ok p =>
          exact Or.inl ⟨hnone, ⟨outdir, fd, p, rfl, hfd, hp⟩, outdir, fd, p, by simp only [hfd, hp]⟩

theorem Entry.started_complete (outdir : String) (fd p : ℕ) : (Entry.started outdir fd p).Complete :=
  ⟨rfl, rfl, rfl, rfl, rfl⟩

theorem Entry.not_empty_complete : ¬ Entry.empty.Complete := by
  intro h
  cases h.outdir

/-- A stop of a machine with a complete entry leaves it complete and not running. -/
theorem stop_complete (he : pcaps m = some e) (hc : e.Complete) :
    ∃ e', e'.Complete ∧ e'.process = some none ∧
      (stop (some m) pcaps).2 = Function.update pcaps m (some e') := by
  obtain ⟨process, hprocess⟩ := Option.isSome_iff_exists.mp hc.process
  obtain ⟨fd, hfd⟩ := Option.isSome_iff_exists.mp hc.stdoutFd
  unfold stop
  simp only [he, hprocess, hfd]
  cases process with
  | none => exact ⟨e, hc, hprocess, (Function.update_eq_self_iff.mpr he.symm).symm⟩
  | some p =>
    refine ⟨{ e with process := some none, stdoutFd := some none },
      ⟨hc.1, rfl, hc.3, hc.4, rfl⟩, rfl, ?_⟩
    cases fd with
    | none => rfl
    | some fd => rfl

theorem stop_absent (hm : pcaps m = none) : (stop (some m) pcaps).2 = pcaps := by
  unfold stop
  simp only [hm]

theorem retrieve_cases (read : String → Except String String) (m : String) (pcaps : Pcaps) :
    (∃ data, retrieve read (some m) pcaps = (.ok data, Function.update pcaps m none)) ∨
    ∃ raised, retrieve read (some m) pcaps = (.error raised, pcaps) := by
  unfold retrieve
  split
  · exact Or.inr ⟨_, rfl⟩
  · rename_i m' heq
    cases heq
    split
    · exact Or.inr ⟨_, rfl⟩
    · split
      · exact Or.inr ⟨_, rfl⟩
      · exact Or.inr ⟨_, rfl⟩
      · split
        · exact Or.inr ⟨_, rfl⟩
        · split
          · exact Or.inr ⟨_, rfl⟩
          · split
            · exact Or.inr ⟨_, rfl⟩
            · split
              · exact Or.inr ⟨_, rfl⟩
              · split
                · exact Or.inr ⟨_, rfl⟩
                · exact Or.inl ⟨_, rfl⟩

/-- A retrieve whose reads succeed removes a complete entry that is not running. -/
theorem retrieve_frees (he : pcaps m = some e) (hc : e.Complete) (hstopped : e.process = some none)
    (hread : ∀ f, ∃ text, read f = .ok text) :
    ∃ data, retrieve read (some m) pcaps = (.ok data, Function.update pcaps m none) := by
  obtain ⟨stdoutFilename, hstdout⟩ := Option.isSome_iff_exists.mp hc.stdout
  obtain ⟨pcapFilename, hpcap⟩ := Option.isSome_iff_exists.mp hc.pcap
  obtain ⟨outdir, houtdir⟩ := Option.isSome_iff_exists.mp hc.outdir
  obtain ⟨stdout, hread₁⟩ := hread stdoutFilename
  obtain ⟨pcap, hread₂⟩ := hread pcapFilename
  unfold retrieve
  simp only [he, hstopped, hstdout, hread₁, hpcap, hread₂, houtdir]
  exact ⟨_, rfl⟩

end Calls

end StoneRidge.Pcap
