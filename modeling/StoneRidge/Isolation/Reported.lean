import StoneRidge.Isolation.Kept
import StoneRidge.Worker.Redelivery

/-!
# What is reported about a run

A handling starts in a directory of its own, so that it owns all that is in it. What is
uploaded is then its own, unless the name of the out directory is a pattern that finds
files of other runs.
-/

set_option autoImplicit false

namespace StoneRidge.Isolation
open StoneRidge.Kit.Exec StoneRidge.Kit.Files StoneRidge.Kit.PosixPath
open StoneRidge.Kit.PosixTree StoneRidge.Kit.PosixDisk
open StoneRidge.Config (Text Unspecial writeRunIni runOptions)
open StoneRidge.Dispatch (RunMessage)
open StoneRidge.Worker (Call firstName secondName srwork makeWorkspace)

theorem hasMagic_tstamp (z : ℤ) : Kit.Glob.hasMagic (toString z) = false := by
  unfold Kit.Glob.hasMagic
  rw [List.any_eq_false]
  intro c hc
  rcases Worker.toString_tstamp_plain z c hc with rfl | hdigit
  · decide
  · unfold Kit.Glob.isMagic
    simp only [List.mem_cons, List.not_mem_nil, or_false, decide_eq_true_eq]
    intro h
    rcases h with rfl | rfl | rfl <;> exact absurd hdigit (by decide)

/-- Neither name of the working directory is a pattern if the first one is none. -/
theorem hasMagic_srout {workroot : String} {m : RunMessage} (t : Tree)
    (h : Kit.Glob.hasMagic (firstName workroot m) = false) :
    Kit.Glob.hasMagic (join (srwork workroot t m) "out") = false := by
  refine Kit.Glob.hasMagic_join ?_ (by decide)
  unfold srwork
  split
  · unfold secondName
    rw [Kit.Glob.hasMagic_append, Kit.Glob.hasMagic_append, h, hasMagic_tstamp]
    decide
  · exact h

/-- The texts of the machine's configuration that go into run.ini. -/
structure Client.Unspecial (client : Client) : Prop where
  workroot : Config.Unspecial client.workroot.toList
  firefoxPath : Config.Unspecial client.firefoxPath.toList

/-- The texts of a message. -/
structure MessageUnspecial (m : RunMessage) : Prop where
  srid : Config.Unspecial m.srid.toList
  ldap : Config.Unspecial m.ldap.toList

section Handling
variable {client : Client} {m : RunMessage} {world : World} {s s' : Machine}

theorem writeFile_ok {p : String} {content : Content} {u : Unit}
    (h : writeFile world p content s = .ok u s') :
    ∃ d, s.disk.write p ⟨content, s.handling⟩ = some d ∧
      s' = { s with operations := s.operations + 1, disk := d } := by
  obtain ⟨u', s₁, hoperation, hrest⟩ := bind_eq_ok h
  unfold operation at hoperation
  rw [bind_ok (get_apply s), bind_ok (set_apply _ _)] at hoperation
  by_cases hfails : world.fails s.operations = true
  · rw [if_pos hfails] at hoperation
    cases hoperation
  · rw [if_neg hfails] at hoperation
    cases hoperation
    rw [bind_ok (get_apply _)] at hrest
    cases hwrite : s.disk.write p ⟨content, s.handling⟩ with
    | none =>
      simp only [hwrite] at hrest
      cases hrest
    | some d =>
      simp only [hwrite] at hrest
      cases hrest
      exact ⟨d, rfl, rfl⟩

/-- What is there when the first stage starts. -/
structure Prepared (client : Client) (m : RunMessage) (s s' : Machine) (srout : String) (t : Tree)
    (ini : Text) (d : Disk File) : Prop where
  made : makeWorkspace client.workroot m s.disk.tree = .ok () t
  text : writeRunIni (runOptions m (srwork client.workroot s.disk.tree m) client.firefoxPath) =
    some ini
  place : srout = join (srwork client.workroot s.disk.tree m) "out"
  written : (s.disk.setTree t).write (join srout "run.ini") ⟨.text ini, s.handling + 1⟩ = some d
  state : s' = ⟨d, m, s.handling + 1, [], 1, s.sent⟩

theorem prepare_ok {srout : String} (h : prepare client m world s = .ok srout s') :
    ∃ t ini d, Prepared client m s s' srout t ini d := by
  unfold prepare at h
  rw [bind_ok (modify_apply _ s), bind_ok (get_apply _)] at h
  cases hmade : makeWorkspace client.workroot m s.disk.tree with
  | error e t =>
    simp only [hmade, bind_ok (set_apply _ _)] at h
    cases h
  | ok u t =>
    simp only [hmade, bind_ok (set_apply _ _)] at h
    cases hini : writeRunIni (runOptions m (srwork client.workroot s.disk.tree m)
        client.firefoxPath) with
    | none =>
      simp only [hini] at h
      cases h
    | some ini =>
      simp only [hini] at h
      obtain ⟨u', s₁, hwrite, hpure⟩ := bind_eq_ok h
      obtain ⟨d, hd, rfl⟩ := writeFile_ok hwrite
      cases hpure
      exact ⟨t, ini, d, hmade, hini, rfl, hd, rfl⟩

section Prepared
variable {srout : String} {t : Tree} {ini : Text} {d : Disk File}

theorem Prepared.lookup_below (hp : Prepared client m s s' srout t ini d) {l : Location}
    (hl : s.disk.tree.location (srwork client.workroot s.disk.tree m) <:+ l) (name : Name) :
    ((s.disk.setTree t).files l).lookup name = none := by
  obtain ⟨hnew, -, -⟩ := Worker.makeWorkspace_out hp.made
  cases hlookup : ((s.disk.setTree t).files l).lookup name with
  | none => rfl
  | some f =>
    have hold := lookup_setTree hlookup
    rw [s.disk.held l (not_mem_below hnew hl), AList.lookup_empty] at hold
    cases hold

theorem Prepared.disk_eq (hp : Prepared client m s s' srout t ini d) (hhas : t.Has srout)
    (hentry : IsEntry srout runIni.toString (join srout "run.ini")) :
    ∃ hl, d = (s.disk.setTree t).insert (t.location srout) hl runIni
      ⟨.text ini, s.handling + 1⟩ := by
  have hset : (s.disk.setTree t).tree.Has srout := hhas
  obtain ⟨hl, hwrite⟩ := write_entry (f := File.mk (.text ini) (s.handling + 1)) hentry hset
  exact ⟨hl, Option.some.inj (hp.written.symm.trans hwrite)⟩

theorem Prepared.owned (hp : Prepared client m s s' srout t ini d) (hclient : client.Unspecial)
    (hm : MessageUnspecial m) : ∃ h : Handling client, h.run = m ∧ h.srout = srout ∧
      h.before = s.sent ∧ Owned h s' := by
  obtain ⟨c, cs, hsplit, hc, hne⟩ := Worker.srwork_cases client.workroot s.disk.tree m
  obtain ⟨-, hhas, hplace⟩ := Worker.makeWorkspace_out hp.made
  have hunspecial := Config.unspecial_runOptions
    (Config.unspecial_srwork s.disk.tree hclient.workroot hm.srid) hne hclient.firefoxPath
    hm.srid hm.ldap
  obtain ⟨hreadBack, hnoLdap⟩ := Config.readBack_unspecial client.main hp.text hunspecial
  obtain ⟨h, rfl, hnumber, hbefore, hsrwork, hwork, rfl⟩ : ∃ h : Handling client, h.run = m ∧
      h.number = s.handling + 1 ∧ h.before = s.sent ∧
      h.srwork = srwork client.workroot s.disk.tree m ∧
      h.work = s.disk.tree.location (srwork client.workroot s.disk.tree m) ∧ h.ini = ini :=
    ⟨⟨m, s.handling + 1, s.sent, srwork client.workroot s.disk.tree m,
      s.disk.tree.location (srwork client.workroot s.disk.tree m), ini, hne, hreadBack, hnoLdap⟩,
      rfl, rfl, rfl, rfl, rfl, rfl⟩
  obtain rfl : srout = h.srout := by
    rw [hp.place, Handling.srout, hsrwork]
  rw [← hp.place] at hhas hplace
  rw [← hwork] at hplace
  obtain ⟨hl, hd⟩ := hp.disk_eq hhas (runIni.isEntry_join h.srout_entry.ne_empty)
  have htree : d.tree = t := by
    rw [hd]
    rfl
  have hlookup : ∀ l name, (d.files l).lookup name = if l = h.out ∧ name = runIni
      then some ⟨.text h.ini, h.number⟩ else ((s.disk.setTree t).files l).lookup name := by
    intro l name
    rw [hd, lookup_insert, hplace, hnumber]
    rfl
  have hbelow : ∀ l, h.work <:+ l → ∀ name, ((s.disk.setTree t).files l).lookup name = none := by
    intro l hl name
    rw [hwork] at hl
    exact hp.lookup_below hl name
  refine ⟨h, rfl, rfl, hbefore, ?_⟩
  rw [hp.state]
  refine ⟨?_, ?_, ?_, ?_, ?_, ?_, rfl, hnumber.symm, fun u hu => .inl (hbefore ▸ hu)⟩
  · simp only [htree]
    exact hhas
  · simp only [htree]
    exact hplace
  · intro l name f hl hf
    rw [hlookup] at hf
    split at hf
    · rw [← Option.some.inj hf]
    · rw [hbelow l hl] at hf
      cases hf
  · intro name f hf
    rw [hlookup] at hf
    split at hf
    next heq =>
      rw [← Option.some.inj hf, heq.2]
      refine ⟨fun _ => rfl, ?_, ?_⟩
      · exact fun h => absurd h (by decide)
      · exact fun h => absurd h (by decide)
    next =>
      rw [hbelow h.out (work_suffix_out h)] at hf
      cases hf
  · change (d.files h.out).lookup runIni = _
    rw [hlookup, if_pos ⟨rfl, rfl⟩]
  · exact fun w hw => absurd hw List.not_mem_nil

end Prepared

theorem writeFile_sent (q : List Sent) (p : String) (content : Content) :
    Keeps (fun s => s.sent = q) (writeFile world p content) fun _ => True := by
  unfold writeFile operation
  refine Keeps.bind (Q := fun _ => True) (Keeps.get_bind fun s hs => ?_) fun _ _ =>
    Keeps.get_bind fun s hs => ?_
  · rintro s rfl
    rw [bind_ok (set_apply _ _)]
    by_cases hfails : world.fails s.operations = true
    · rw [if_pos hfails]
      exact hs
    · rw [if_neg hfails]
      exact ⟨trivial, hs⟩
  · rintro s rfl
    cases hwrite : s.disk.write p ⟨content, s.handling⟩ with
    | none => exact hs
    | some d => exact ⟨trivial, hs⟩

theorem prepare_sent (client : Client) (m : RunMessage) (world : World) (s : Machine) :
    (endState (prepare client m world s)).sent = s.sent := by
  have hkeeps : ∀ s₁ : Machine, s₁.sent = s.sent → Keeps (fun s' => s'.sent = s.sent)
      (prepare client m world) fun _ => True := by
    intro s₁ hs₁
    unfold prepare
    refine Keeps.bind (Q := fun _ => True) (fun s hs => ⟨trivial, hs⟩) fun _ _ =>
      Keeps.get_bind fun s hs => ?_
    rintro s rfl
    cases hmade : makeWorkspace client.workroot m s.disk.tree with
    | error e t => exact hs
    | ok u t =>
      cases hini : writeRunIni (runOptions m (srwork client.workroot s.disk.tree m)
          client.firefoxPath) with
      | none =>
        simp only [hini]
        exact hs
      | some ini =>
        simp only [hini]
        rw [bind_ok (set_apply _ _)]
        exact Keeps.bind (writeFile_sent _ _ _) (fun _ _ => Keeps.of_pure trivial) _ hs
  exact (hkeeps s rfl).endState rfl

/-- A message that is uploaded while a run is handled is about this run, if the name of
the working directory is not a pattern. -/
theorem handle_isolated (hclient : client.Unspecial) (hm : MessageUnspecial m)
    (hplain : Kit.Glob.hasMagic (firstName client.workroot m) = false) (s : Machine) :
    ∀ u ∈ (handle client m world s).sent, u ∈ s.sent ∨ (u.run = m ∧ Isolated u) := by
  have hsent := prepare_sent client m world s
  unfold handle
  cases hprepare : prepare client m world s with
  | error e s' =>
    rw [hprepare] at hsent
    intro u hu
    exact .inl (hsent ▸ hu)
  | ok srout s' =>
    obtain ⟨t, ini, d, hprepared⟩ := prepare_ok hprepare
    have hmagic := hasMagic_srout s.disk.tree hplain
    rw [← hprepared.place] at hmagic
    obtain ⟨h, rfl, rfl, hbefore, howned⟩ := hprepared.owned hclient hm
    have hend : Owned h (runStages client world h.srout 0
        (callsOf client h.run world h.srout) s') :=
      runStages_owned howned (fun _ _ _ => hmagic) 0
    have hstages := hend.sent
    rw [hbefore] at hstages
    simp only
    split
    · exact hstages
    · exact hstages

end Handling

/-- In every run whose messages do not make a pattern of the working directory's name,
what is uploaded about a run is about this run alone. -/
theorem uploads_isolated (client : Client) (hclient : client.Unspecial) (events : List Event)
    (hevents : ∀ m world, .deliver m world ∈ events → MessageUnspecial m ∧
      Kit.Glob.hasMagic (firstName client.workroot m) = false)
    (s s' : Machine) (hnone : s.sent = []) (hrun : Kit.Machine.run (step client) events s = some s') :
    ∀ u ∈ s'.sent, (∃ world, .deliver u.run world ∈ events) ∧ Isolated u := by
  refine @Kit.Machine.run_invariant _ _ _ _ _ _
    (fun s => ∀ u ∈ s.sent, (∃ world, .deliver u.run world ∈ events) ∧ Isolated u) (· ∈ events) ?_
    (fun _ he => he) ?_ hrun
  · intro e s₁ s₂ he hinv hstep u hu
    cases e with
    | change d =>
      obtain rfl := Option.some.inj hstep
      exact hinv u hu
    | deliver m world =>
      obtain rfl := Option.some.inj hstep
      obtain ⟨hm, hplain⟩ := hevents m world he
      rcases handle_isolated hclient hm hplain s₁ u hu with hold | ⟨rfl, hisolated⟩
      · exact hinv u hold
      · exact ⟨⟨world, he⟩, hisolated⟩
  · intro u hu
    rw [hnone] at hu
    cases hu

/-! ### Two runs -/

section Told
variable {client : Client} {m : RunMessage} {world : World} {s : Machine}

/-- The stages without what they leave elsewhere, told what run.ini says. -/
def runTold (client : Client) (world : World) (cfg : RunConfig) : List Call → Machine → Machine
  | [], s => s
  | c :: cs, s => runTold client world cfg cs
      (endState (runScript client world cfg c { s with sources := s.sources ++ [s.handling] }))

def handleTold (client : Client) (m : RunMessage) (world : World) (srout : String) (s : Machine) :
    Machine :=
  let s := runTold client world (toldFor m srout) (callsOf client m world srout)
    (endState (prepare client m world s))
  match Worker.handleStages world.exit world.depth (Worker.start (setting client m srout)) with
  | .ok _ _ => { s with disk := reset (join srout "run.ini") s.disk }
  | .error _ _ => s

def preparesIn (client : Client) (m : RunMessage) (world : World) (srout : String) (s : Machine) :
    Bool :=
  match prepare client m world s with
  | .ok p _ => p = srout
  | .error _ _ => false

/-- Only a stage behind one that looks for files by a pattern needs a plain name. -/
theorem runStages_told {h : Handling client} (ho : Owned h s) (hquiet : ∀ k, world.elsewhere k = [])
    {cs : List Call} (hplain : ∀ c ∈ cs.dropLast, Globs c → Kit.Glob.hasMagic h.srout = false)
    (k : ℕ) : runStages client world h.srout k cs s = runTold client world h.told cs s := by
  induction cs generalizing s k with
  | nil => rfl
  | cons c cs ih =>
    have hstage : runStage client world h.srout k c s = endState (runScript client world h.told c
        { s with sources := s.sources ++ [s.handling] }) := by
      rw [runStage_eq ho, hquiet, ho.handling]
      rfl
    rw [runStages, runTold, ← hstage]
    cases cs with
    | nil => rfl
    | cons c' cs =>
      rw [List.dropLast_cons_cons] at hplain
      exact ih (runStage_owned ho (hplain c List.mem_cons_self) k)
        (fun x hx => hplain x (List.mem_cons_of_mem c hx)) (k + 1)

theorem handle_told (hclient : client.Unspecial) (hm : MessageUnspecial m)
    (hquiet : ∀ k, world.elsewhere k = []) {srout : String}
    (hprepares : preparesIn client m world srout s = true)
    (hplain : ∀ c ∈ (callsOf client m world srout).dropLast, Globs c →
      Kit.Glob.hasMagic srout = false) :
    handle client m world s = handleTold client m world srout s := by
  unfold preparesIn at hprepares
  unfold handle handleTold
  cases hprepare : prepare client m world s with
  | error e s' =>
    rw [hprepare] at hprepares
    cases hprepares
  | ok p s' =>
    rw [hprepare] at hprepares
    obtain rfl := of_decide_eq_true hprepares
    obtain ⟨t, ini, d, hprepared⟩ := prepare_ok hprepare
    obtain ⟨h, rfl, rfl, -, howned⟩ := hprepared.owned hclient hm
    simp only [endState_ok, runStages_told howned hquiet hplain]
    rfl

end Told

def labClient : Client where
  main := Config.emptyConfig
  srconffile := "/sr.ini"
  workroot := "/w"
  archives := "/a"
  firefoxPath := "firefox"
  operatingSystem := "linux"
  unittest := false

/-- One test, which has results, and stages that end with these statuses. -/
def labWorld (exit : ℕ → ℤ) : World where
  listing := ⟨id, fun _ => .refl _⟩
  order := ⟨id, fun _ => .refl _⟩
  exit := exit
  depth := 3
  fails := fun _ => false
  elsewhere := fun _ => []
  gathered := ⟨"host", "abc", []⟩
  testroot := ["t.js"]
  testEnabled := false
  outcome := fun _ => some (.json (.out (some [("k", [⟨0, 1, 1⟩])])))
  captured := none

def allPass : World := labWorld fun _ => 0

/-- The first stage fails, and then the archiver, which has no info file. -/
def downloadFails : World := labWorld fun k => if k < 2 then 1 else 0

def labMachine : Machine where
  disk := ⟨Worker.workTree, fun _ => ∅, fun _ _ => rfl⟩
  run := ⟨"", .gsm, 0, ""⟩
  handling := 0
  sources := []
  operations := 0
  sent := []

def plainRun : RunMessage := ⟨"ab", .gsm, 1000, ""⟩
def wildRun : RunMessage := ⟨"a?", .gsm, 2000, ""⟩

theorem lab_unspecial : labClient.Unspecial ∧ MessageUnspecial plainRun ∧
    MessageUnspecial wildRun := by
  refine ⟨⟨?_, ?_⟩, ⟨?_, ?_⟩, ⟨?_, ?_⟩⟩
  all_goals exact Config.unspecial_of_chars (by decide)

/-- A run that is delivered again, and fails then. -/
theorem uploads_isolated_again :
    Kit.Machine.run (step labClient)
        [.deliver plainRun allPass, .deliver plainRun downloadFails] labMachine =
      some (handle labClient plainRun downloadFails (handle labClient plainRun allPass labMachine)) ∧
    ∀ u ∈ (handle labClient plainRun downloadFails
        (handle labClient plainRun allPass labMachine)).sent,
      (∃ world, .deliver u.run world ∈
        [Event.deliver plainRun allPass, .deliver plainRun downloadFails]) ∧ Isolated u := by
  refine ⟨rfl, uploads_isolated labClient lab_unspecial.1 _ ?_ labMachine _ rfl rfl⟩
  intro m world hmem
  have hm : m = plainRun := by
    rcases List.mem_cons.mp hmem with h | h
    · exact (Event.deliver.inj h).1
    · exact (Event.deliver.inj (List.mem_singleton.mp h)).1
  rw [hm]
  exact ⟨lab_unspecial.2.1, by decide⟩

/-- The second run fails at its first stage, and what is uploaded about it are the results
of the first run, whose directory its own name matches. -/
theorem earlier_results_uploaded :
    labClient.Unspecial ∧ MessageUnspecial plainRun ∧ MessageUnspecial wildRun ∧
      ∃ s', Kit.Machine.run (step labClient)
          [.deliver plainRun allPass, .deliver wildRun downloadFails] labMachine = some s' ∧
        ¬ ∀ u ∈ s'.sent, Isolated u := by
  obtain ⟨hclient, hplainRun, hwildRun⟩ := lab_unspecial
  have heval : (preparesIn labClient plainRun allPass "/w/ab/gsm/out" labMachine &&
      preparesIn labClient wildRun downloadFails "/w/a?/gsm/out"
        (handleTold labClient plainRun allPass "/w/ab/gsm/out" labMachine) &&
      (handleTold labClient wildRun downloadFails "/w/a?/gsm/out"
        (handleTold labClient plainRun allPass "/w/ab/gsm/out" labMachine)).sent.any
          fun u => u.handling = 2 && decide (1 ∈ u.sources)) = true := by
    decide +kernel
  rw [Bool.and_eq_true, Bool.and_eq_true] at heval
  obtain ⟨⟨hfirst, hsecond⟩, hsent⟩ := heval
  have hcalls : ∀ c ∈ (callsOf labClient wildRun downloadFails "/w/a?/gsm/out").dropLast,
      ¬ (c.1 = .collator ∨ c.1 = .uploader) := by decide +kernel
  refine ⟨hclient, hplainRun, hwildRun, _, rfl, fun hall => ?_⟩
  rw [handle_told hclient hplainRun (fun _ => rfl) hfirst fun _ _ _ => by decide,
    handle_told hclient hwildRun (fun _ => rfl) hsecond fun c hc hglobs =>
      absurd hglobs (hcalls c hc)] at hall
  obtain ⟨u, hu, hread⟩ := List.any_eq_true.mp hsent
  rw [Bool.and_eq_true, decide_eq_true_eq, decide_eq_true_eq] at hread
  have hown := (hall u hu).sources 1 hread.2
  omega

end StoneRidge.Isolation
