import StoneRidge.Runner.TestProcess

/-!
# Tests are run in turn

What the module remembers between two tests does not change what a test is started
with, each process is over when the next one is started, and a test that fails or
hangs does not keep the later ones from being run.
-/

set_option autoImplicit false

namespace StoneRidge.Runner
open StoneRidge.Kit StoneRidge.Kit.Naps StoneRidge.Kit.PosixPath StoneRidge.Kit.Exec

/-! ### What a test is started with -/

section Launch
variable (m : Machine)

def binDir : Except Raised String :=
  match m.config "run" "bin" with
  | none => .error .missingBindir
  | some bindir => if m.exists? bindir then .ok bindir else .error .missingBindir

def binaryIn (bindir : String) (proctype : ProcessType) : Except Raised String :=
  match m.config "machine" proctype.name with
  | none => .error .noBinaryName
  | some binary =>
    if m.exists? (join bindir binary) then .ok (join bindir binary)
    else .error (.missingBinary proctype)

/-- Without the variables of the module. -/
def launchFor (proctype : ProcessType) : Except Raised Launch :=
  match binDir m with
  | .error e => .error e
  | .ok bindir =>
    match binaryIn m bindir proctype with
    | .error e => .error e
    | .ok binary =>
      .ok ⟨binary, bindir, libraryPath m bindir, getConfigInt m proctype.name "timeout" 900⟩

/-- What is remembered is what would be found again. -/
structure Consistent (c : Cached) : Prop where
  bindir : ∀ bindir, c.bindir = some bindir → binDir m = .ok bindir
  environ : ∀ l, c.environ = some l → ∃ bindir, binDir m = .ok bindir ∧ l = libraryPath m bindir
  binaries : ∀ proctype binary, c.binaries proctype = some binary →
    ∃ bindir, binDir m = .ok bindir ∧ binaryIn m bindir proctype = .ok binary
  timeouts : ∀ proctype timeout, c.timeouts proctype = some timeout →
    timeout = getConfigInt m proctype.name "timeout" 900

variable {m} {bindir : String} {proctype : ProcessType}

theorem consistent_start : Consistent m {} := ⟨nofun, nofun, nofun, nofun⟩

theorem ensureBindir_spec : Triple (Consistent m) (ensureBindir m)
    (fun bindir c => binDir m = .ok bindir ∧ Consistent m c) (fun e _ => binDir m = .error e) := by
  refine Triple.of_state fun c hc => Triple.get_bind ?_
  cases hcached : c.bindir with
  | some bindir =>
    refine Triple.of_pure ?_
    rintro _ rfl
    exact ⟨hc.bindir bindir hcached, hc⟩
  | none =>
    cases hconfig : m.config "run" "bin" with
    | none =>
      refine Triple.of_throw fun _ _ => ?_
      simp only [binDir, hconfig]
    | some bindir =>
      refine Triple.modify_bind ?_
      by_cases hexists : m.exists? bindir = true
      · have hdir : binDir m = .ok bindir := by simp only [binDir, hconfig, hexists, if_true]
        rw [if_pos hexists]
        refine Triple.of_pure ?_
        rintro _ rfl
        refine ⟨hdir, ⟨?_, hc.environ, hc.binaries, hc.timeouts⟩⟩
        intro d hd
        obtain rfl := Option.some.inj hd
        exact hdir
      · rw [if_neg hexists]
        refine Triple.of_throw fun _ _ => ?_
        simp only [binDir, hconfig, if_neg hexists]

theorem ensureTestProcessEnviron_spec (hdir : binDir m = .ok bindir) :
    Triple (Consistent m) (ensureTestProcessEnviron m bindir)
      (fun l c => l = libraryPath m bindir ∧ Consistent m c) (fun _ _ => False) := by
  refine Triple.of_state fun c hc => Triple.get_bind ?_
  cases hcached : c.environ with
  | some l =>
    refine Triple.of_pure ?_
    rintro _ rfl
    obtain ⟨d, hd, rfl⟩ := hc.environ l hcached
    obtain rfl := Except.ok.inj (hdir.symm.trans hd)
    exact ⟨rfl, hc⟩
  | none =>
    refine Triple.modify_bind (Triple.of_pure ?_)
    rintro _ rfl
    refine ⟨rfl, ⟨hc.bindir, ?_, hc.binaries, hc.timeouts⟩⟩
    intro l hl
    exact ⟨bindir, hdir, (Option.some.inj hl).symm⟩

theorem ensureBinary_spec (hdir : binDir m = .ok bindir) :
    Triple (Consistent m) (ensureBinary m bindir proctype)
      (fun binary c => binaryIn m bindir proctype = .ok binary ∧ Consistent m c)
      (fun e _ => binaryIn m bindir proctype = .error e) := by
  refine Triple.of_state fun c hc => Triple.get_bind ?_
  cases hcached : c.binaries proctype with
  | some binary =>
    refine Triple.of_pure ?_
    rintro _ rfl
    obtain ⟨d, hd, hbinary⟩ := hc.binaries proctype binary hcached
    obtain rfl := Except.ok.inj (hdir.symm.trans hd)
    exact ⟨hbinary, hc⟩
  | none =>
    cases hconfig : m.config "machine" proctype.name with
    | none =>
      refine Triple.of_throw fun _ _ => ?_
      simp only [binaryIn, hconfig]
    | some binary =>
      by_cases hexists : m.exists? (join bindir binary) = true
      · have hin : binaryIn m bindir proctype = .ok (join bindir binary) := by
          simp only [binaryIn, hconfig, hexists, if_true]
        simp only [hexists, if_true]
        refine Triple.modify_bind (Triple.of_pure ?_)
        rintro _ rfl
        refine ⟨hin, ⟨hc.bindir, hc.environ, ?_, hc.timeouts⟩⟩
        intro q b hb
        dsimp only at hb
        by_cases hq : q = proctype
        · subst hq
          rw [Function.update_self] at hb
          exact ⟨bindir, hdir, Option.some.inj hb ▸ hin⟩
        · rw [Function.update_of_ne hq] at hb
          exact hc.binaries q b hb
      · simp only [hexists]
        refine Triple.of_throw fun _ _ => ?_
        simp only [binaryIn, hconfig, if_neg hexists]

theorem ensureTimeout_spec : Triple (Consistent m) (ensureTimeout m proctype)
    (fun timeout c => timeout = getConfigInt m proctype.name "timeout" 900 ∧ Consistent m c)
    (fun _ _ => False) := by
  refine Triple.of_state fun c hc => Triple.get_bind ?_
  cases hcached : c.timeouts proctype with
  | some timeout =>
    refine Triple.of_pure ?_
    rintro _ rfl
    exact ⟨hc.timeouts proctype timeout hcached, hc⟩
  | none =>
    refine Triple.modify_bind (Triple.of_pure ?_)
    rintro _ rfl
    refine ⟨rfl, ⟨hc.bindir, hc.environ, hc.binaries, ?_⟩⟩
    intro q t ht
    dsimp only at ht
    by_cases hq : q = proctype
    · subst hq
      rw [Function.update_self] at ht
      exact (Option.some.inj ht).symm
    · rw [Function.update_of_ne hq] at ht
      exact hc.timeouts q t ht

theorem prepare_spec : Triple (Consistent m) (prepare m proctype)
    (fun launch c => launchFor m proctype = .ok launch ∧ Consistent m c)
    (fun e _ => launchFor m proctype = .error e) := by
  unfold prepare
  have hfail : ∀ {e : Raised}, binDir m = .error e → launchFor m proctype = .error e := by
    intro e he
    simp only [launchFor, he]
  refine Triple.bind (Triple.conseq ensureBindir_spec (fun _ h => h) (fun _ _ h => h)
    fun _ _ he => hfail he) fun bindir => ?_
  refine Triple.of_state fun c hc => ?_
  obtain ⟨hdir, hc⟩ := hc
  refine Triple.bind (Triple.conseq (ensureTestProcessEnviron_spec hdir) ?_ (fun _ _ h => h)
    fun _ _ h => h.elim) fun l => ?_
  · rintro _ rfl
    exact hc
  refine Triple.of_state fun c hc => ?_
  obtain ⟨rfl, hc⟩ := hc
  refine Triple.bind (Triple.conseq (ensureBinary_spec hdir) ?_ (fun _ _ h => h) ?_) fun binary => ?_
  · rintro _ rfl
    exact hc
  · intro e _ he
    simp only [launchFor, hdir, he]
  refine Triple.of_state fun c hc => ?_
  obtain ⟨hbinary, hc⟩ := hc
  refine Triple.bind (Triple.conseq ensureTimeout_spec ?_ (fun _ _ h => h) fun _ _ h => h.elim)
    fun timeout => ?_
  · rintro _ rfl
    exact hc
  refine Triple.of_pure ?_
  rintro c' ⟨rfl, hc'⟩
  refine ⟨?_, hc'⟩
  simp only [launchFor, hdir, hbinary]

end Launch

/-! ### One process -/

namespace TestProcess
variable (p : TestProcess) (timeout : ℤ)

/-- How a process and the loop that watches it end. -/
structure Watched : Prop where
  /-- A process is reported with its return code by the first look after its end. -/
  returned : ∀ returncode, p.outcome timeout = .returned returncode → ∃ ended k,
    p.exit = some (ended, returncode) ∧ p.finish timeout = p.wake k ∧ ended ≤ p.wake k ∧
      ∀ j < k, p.wake j < ended
  /-- A process is killed once its time is up, and only if it has outlived every look at it. -/
  killed : p.outcome timeout = .killed → ∃ k, p.finish timeout = p.head k ∧
    (timeout : ℚ) - 1 < p.finish timeout - p.begin ∧
    ∀ ended returncode, p.exit = some (ended, returncode) → ∀ j < k, p.wake j < ended
  /-- The loop is left at once, or in the round that is begun in time. -/
  soon : p.finish timeout = p.head 0 ∨ ∃ k : ℕ, 5 * (k : ℤ) < timeout ∧
    (p.finish timeout = p.wake k ∨ p.finish timeout = p.head (k + 1)) ∧
    p.finish timeout - p.begin < timeout + 1 + p.asleep k + p.busy k

variable {p timeout}

theorem poll_eq_some {t : ℚ} {returncode : ℤ} (h : p.poll t = some returncode) :
    ∃ ended, p.exit = some (ended, returncode) ∧ ended ≤ t := by
  unfold poll at h
  split at h
  next => cases h
  next ended rc hexit =>
    split at h
    next hle =>
      obtain rfl := Option.some.inj h
      exact ⟨ended, hexit, hle⟩
    next => cases h

theorem lt_of_poll_eq_none {t ended : ℚ} {returncode : ℤ} (h : p.poll t = none)
    (hexit : p.exit = some (ended, returncode)) : t < ended := by
  unfold poll at h
  rw [hexit] at h
  by_contra hle
  simp only [if_pos (not_lt.mp hle)] at h
  cases h

theorem watched_waited : p.Waited timeout p.poll (p.watched timeout) := p.waited

theorem outcome_returned {returncode : ℤ} :
    p.outcome timeout = .returned returncode ↔ (p.watched timeout).2 = some returncode := by
  unfold outcome
  split
  next rc h =>
    rw [h]
    constructor
    · exact fun heq => congrArg some (Outcome.returned.inj heq)
    · exact fun heq => congrArg Outcome.returned (Option.some.inj heq)
  next h =>
    rw [h]
    exact ⟨nofun, nofun⟩

theorem outcome_killed : p.outcome timeout = .killed ↔ (p.watched timeout).2 = none := by
  unfold outcome
  split
  next rc h =>
    rw [h]
    exact ⟨nofun, nofun⟩
  next h => exact ⟨fun _ => h, fun _ => rfl⟩

theorem finish_of_some {returncode : ℤ} (h : (p.watched timeout).2 = some returncode) :
    p.finish timeout = p.wake (p.watched timeout).1 := by
  unfold finish
  rw [h]

theorem finish_of_none (h : (p.watched timeout).2 = none) :
    p.finish timeout = p.head (p.watched timeout).1 := by
  unfold finish
  rw [h]

theorem finish_soon : p.finish timeout = p.head 0 ∨ ∃ k : ℕ, 5 * (k : ℤ) < timeout ∧
    (p.finish timeout = p.wake k ∨ p.finish timeout = p.head (k + 1)) ∧
    p.finish timeout - p.begin < timeout + 1 + p.asleep k + p.busy k := by
  have hw : p.Waited timeout p.poll (p.watched timeout) := watched_waited
  have hround : ∀ k, p.elapsed k < timeout → 5 * (k : ℤ) < timeout := by
    intro k hk
    have hmul := p.period_mul_le_elapsed k
    push_cast at hmul
    omega
  cases hseen : (p.watched timeout).2 with
  | some returncode =>
    obtain ⟨hlt, -⟩ := hw.saw returncode hseen
    refine .inr ⟨(p.watched timeout).1, hround _ hlt, .inl (finish_of_some hseen), ?_⟩
    have hhead := lt_of_elapsed_lt hlt
    have hbusy := p.busy_nonneg (p.watched timeout).1
    rw [finish_of_some hseen, wake]
    linarith
  | none =>
    cases hk : (p.watched timeout).1 with
    | zero => exact .inl (by rw [finish_of_none hseen, hk])
    | succ k =>
      have hlt := hw.pending k (by omega)
      refine .inr ⟨k, hround _ hlt, .inr (by rw [finish_of_none hseen, hk]), ?_⟩
      rw [finish_of_none hseen]
      exact hw.soon hk

/-- Every process is seen to its end: it is reported by the first look after it has ended, or
killed within a round of its time being up. -/
theorem watched_to_the_end (p : TestProcess) (timeout : ℤ) : p.Watched timeout := by
  have hw : p.Waited timeout p.poll (p.watched timeout) := watched_waited
  refine ⟨?_, ?_, finish_soon⟩
  · intro returncode h
    have hseen := outcome_returned.mp h
    obtain ⟨ended, hexit, hle⟩ := poll_eq_some (hw.saw returncode hseen).2
    exact ⟨ended, (p.watched timeout).1, hexit, finish_of_some hseen, hle,
      fun j hj => lt_of_poll_eq_none (hw.unseen j hj) hexit⟩
  · intro h
    have hseen := outcome_killed.mp h
    refine ⟨(p.watched timeout).1, finish_of_none hseen, ?_, ?_⟩
    · rw [finish_of_none hseen]
      exact hw.late hseen
    · exact fun ended returncode hexit j hj => lt_of_poll_eq_none (hw.unseen j hj) hexit

theorem begin_le_finish : p.begin ≤ p.finish timeout := by
  unfold finish
  split
  · exact p.begin_le_wake _
  · exact p.begin_le_head _

end TestProcess

/-! ### All processes -/

section Run
variable {m : Machine} {cfg : Setting} {bench : Bench}

/-- A test that has been run, as it should have been. -/
structure Ran.Proper (m : Machine) (cfg : Setting) (r : Ran) : Prop where
  args : r.args = processArgs m cfg r.test
  out : r.out = processOutFile cfg r.test
  launch : launchFor m (processType r.test) = .ok r.launch

/-- When the last of the processes is over. -/
def lastFinish (t : ℚ) (rans : List Ran) : ℚ := rans.foldl (fun _ ran => ran.finish) t

/-- Why the `i`-th process has not been started for a test at time `t`. -/
def Refused (m : Machine) (cfg : Setting) (bench : Bench) (i : ℕ) (t : ℚ) (test : String)
    (e : Raised) : Prop :=
  e = .cannotOpen ∧ bench.openFails i (processOutFile cfg test) = true ∨
    launchFor m (processType test) = .error e ∨ e = .cannotStart ∧ bench.start i t = none

/-- The process is the one that was started for the test. -/
def Ran.Started (bench : Bench) (i : ℕ) (t : ℚ) (r : Ran) : Prop :=
  bench.openFails i r.out = false ∧ bench.start i t = some r.process

/-- The tests are run one after the other until one of them cannot be started. -/
structure InTurn (m : Machine) (cfg : Setting) (bench : Bench) (tests : List String) (i : ℕ) (t : ℚ)
    (r : List Ran × Option Raised) : Prop where
  proper : ∀ ran ∈ r.1, ran.Proper m cfg
  done : r.2 = none → r.1.map Ran.test = if cfg.unittest then [] else tests
  stopped : ∀ e, r.2 = some e → ∃ test rest, tests = r.1.map Ran.test ++ test :: rest ∧
    Refused m cfg bench (i + r.1.length) (lastFinish t r.1) test e
  started : ∀ (j : ℕ) (ran : Ran), r.1[j]? = some ran →
    ran.Started bench (i + j) (lastFinish t (r.1.take j))
  ordered : r.1.Pairwise fun a b => a.finish ≤ b.process.begin
  later : ∀ ran ∈ r.1, t ≤ ran.process.begin

theorem runTests_unittest (hunit : cfg.unittest = true) (tests : List String) (i : ℕ) (t : ℚ)
    (c : Cached) : runTests m cfg bench tests i t c = ([], none) := by
  induction tests with
  | nil => rfl
  | cons test tests ih => rw [runTests, if_pos hunit, ih]

theorem InTurn.stop {test : String} {e : Raised} {i : ℕ} {t : ℚ}
    (h : Refused m cfg bench i t test e) (tests : List String) :
    InTurn m cfg bench (test :: tests) i t ([], some e) := by
  refine ⟨?_, ?_, ?_, ?_, .nil, ?_⟩
  · simp
  · simp
  · intro e' he
    obtain rfl := Option.some.inj he
    exact ⟨test, tests, rfl, h⟩
  · simp
  · simp

theorem runTests_inTurn (hunit : cfg.unittest = false) (tests : List String) (i : ℕ) (t : ℚ)
    {c : Cached} (hc : Consistent m c) :
    InTurn m cfg bench tests i t (runTests m cfg bench tests i t c) := by
  induction tests generalizing i t c with
  | nil => exact ⟨nofun, fun _ => by rw [hunit]; rfl, nofun, nofun, .nil, nofun⟩
  | cons test tests ih =>
    have hprepared : Triple (Consistent m) (prepare m (processType test)) _ _ := prepare_spec
    have hspec := hprepared c hc
    rw [runTests, hunit]
    simp only [Bool.false_eq_true, if_false]
    cases hopen : bench.openFails i (processOutFile cfg test) with
    | true => exact InTurn.stop (.inl ⟨rfl, hopen⟩) tests
    | false =>
      simp only [Bool.false_eq_true, if_false]
      cases hprepare : prepare m (processType test) c with
      | error e c' =>
        rw [hprepare] at hspec
        exact InTurn.stop (.inr (.inl hspec)) tests
      | ok launch c' =>
        rw [hprepare] at hspec
        cases hstart : bench.start i t with
        | none => exact InTurn.stop (.inr (.inr ⟨rfl, hstart⟩)) tests
        | some p =>
          let ran : Ran := ⟨test, processArgs m cfg test, processOutFile cfg test, launch, p⟩
          have hrest := ih (i + 1) ran.finish hspec.2
          have hbegin : t ≤ p.begin := bench.le_begin i t p hstart
          have hfinish : p.begin ≤ ran.finish := TestProcess.begin_le_finish
          refine ⟨?_, ?_, ?_, ?_, ?_, ?_⟩
          · intro r hr
            rcases List.mem_cons.mp hr with rfl | hr
            · exact ⟨rfl, rfl, hspec.1⟩
            · exact hrest.proper r hr
          · intro hnone
            have hdone := hrest.done hnone
            rw [hunit] at hdone ⊢
            exact congrArg (test :: ·) hdone
          · intro e he
            obtain ⟨next, rest, htests, hrefused⟩ := hrest.stopped e he
            refine ⟨next, rest, congrArg (test :: ·) htests, ?_⟩
            rw [List.length_cons, Nat.add_comm _ 1, ← Nat.add_assoc]
            exact hrefused
          · intro j r hj
            cases j with
            | zero =>
              obtain rfl := Option.some.inj hj
              exact ⟨hopen, hstart⟩
            | succ j =>
              have hsucc : i + (j + 1) = i + 1 + j := by omega
              rw [hsucc]
              exact hrest.started j r hj
          · exact List.pairwise_cons.mpr ⟨hrest.later, hrest.ordered⟩
          · intro r hr
            rcases List.mem_cons.mp hr with rfl | hr
            · exact hbegin
            · exact le_trans hbegin (le_trans hfinish (hrest.later r hr))

/-- No two test processes of a run are alive at once. -/
theorem InTurn.alive_unique {tests : List String} {n : ℕ} {t : ℚ}
    {r : List Ran × Option Raised} (h : InTurn m cfg bench tests n t r) {i j : ℕ} {a b : Ran}
    (ha : r.1[i]? = some a) (hb : r.1[j]? = some b) {now : ℚ}
    (halive : a.process.Alive a.launch.timeout now)
    (hother : b.process.Alive b.launch.timeout now) : i = j := by
  have hlt : ∀ {i j : ℕ} {a b : Ran}, r.1[i]? = some a → r.1[j]? = some b → i < j →
      a.process.Alive a.launch.timeout now → b.process.Alive b.launch.timeout now → False := by
    intro i j a b ha hb hij halive hother
    obtain ⟨hi, rfl⟩ := List.getElem?_eq_some_iff.mp ha
    obtain ⟨hj, rfl⟩ := List.getElem?_eq_some_iff.mp hb
    have hle := List.pairwise_iff_getElem.mp h.ordered i j hi hj hij
    exact absurd (lt_of_lt_of_le halive.2.1 (le_trans hle hother.1)) (lt_irrefl _)
  rcases Nat.lt_trichotomy i j with hij | rfl | hji
  · exact (hlt ha hb hij halive hother).elim
  · rfl
  · exact (hlt hb ha hji hother halive).elim

/-- A run of the tests starts one process for each of them, in their order and with what the
configuration says, at most one of which is alive at any time; it stops short exactly where an
output file cannot be opened or a process cannot be started. In unit test mode nothing is
started. -/
theorem run_in_turn (m : Machine) (cfg : Setting) (bench : Bench) (tests : List String) (t : ℚ) :
    ∃ rans raised, run m cfg bench tests t = (rans, raised) ∧
      (∀ ran ∈ rans, ran.Proper m cfg) ∧
      (raised = none → rans.map Ran.test = if cfg.unittest then [] else tests) ∧
      (∀ e, raised = some e → ∃ test rest, tests = rans.map Ran.test ++ test :: rest ∧
        Refused m cfg bench rans.length (lastFinish t rans) test e) ∧
      (∀ (i : ℕ) (ran : Ran), rans[i]? = some ran →
        ran.Started bench i (lastFinish t (rans.take i))) ∧
      ∀ (i j : ℕ) (a b : Ran) (now : ℚ), rans[i]? = some a → rans[j]? = some b →
        a.process.Alive a.launch.timeout now → b.process.Alive b.launch.timeout now → i = j := by
  have h : InTurn m cfg bench tests 0 t (run m cfg bench tests t) := by
    cases hunit : cfg.unittest with
    | false => exact runTests_inTurn hunit tests 0 t consistent_start
    | true =>
      rw [run, runTests_unittest hunit]
      exact ⟨nofun, fun _ => by rw [hunit]; rfl, nofun, nofun, .nil, nofun⟩
  refine ⟨_, _, rfl, h.proper, h.done, ?_, ?_, fun i j a b now ha hb => h.alive_unique ha hb⟩
  · intro e he
    obtain ⟨test, rest, htests, hrefused⟩ := h.stopped e he
    rw [Nat.zero_add] at hrefused
    exact ⟨test, rest, htests, hrefused⟩
  · intro i ran hran
    have hstarted := h.started i ran hran
    rwa [Nat.zero_add] at hstarted

end Run

end StoneRidge.Runner
