import Mathlib.Data.List.AList
import StoneRidge.Dispatch.Messages
import StoneRidge.Kit.Exec

/-!
# Build ids

The graph server gets an id that tells builds, operating systems and netconfigs apart
(`stoneridge.py:369-399`). `StoneRidgeInfoGatherer.run` makes it (`srinfogatherer.py:20-64`),
and `fix_buildids.py` puts it into files from before there was one.
-/

set_option autoImplicit false

namespace StoneRidge.Info
open StoneRidge.Kit.Exec
open StoneRidge.Dispatch (Netconfig OperatingSystem)

/-- A lookup in a dictionary that lacks the key. -/
structure KeyError where
  key : Option String
  deriving DecidableEq

def osId : OperatingSystem → String
  | .windows => "w"
  | .linux => "l"
  | .mac => "m"

def netconfigId : Netconfig → String
  | .broadband => "0"
  | .umts => "1"
  | .gsm => "2"

/-- `_os_ids[name]`. -/
def osIds (name : Option String) : Except KeyError String :=
  match name.bind OperatingSystem.ofName? with
  | some o => .ok (osId o)
  | none => .error ⟨name⟩

/-- `_netconfig_ids[name]`. -/
def netconfigIds (name : Option String) : Except KeyError String :=
  match name.bind Netconfig.ofName? with
  | some n => .ok (netconfigId n)
  | none => .error ⟨name⟩

/-- `get_buildid_suffix`; the cache of a process holds what it would compute again. -/
def getBuildidSuffix (os netconfig : Option String) : Except KeyError String :=
  if os = none ∨ netconfig = none then .ok ""
  else do
    let osPart ← osIds os
    let netconfigPart ← netconfigIds netconfig
    return osPart ++ netconfigPart

/-- `buildid[:14]`. -/
def truncated (buildid : String) : String := String.ofList (buildid.toList.take 14)

structure TestMachine where
  name : String
  os : Option String
  osversion : String
  platform : String

structure TestBuild where
  name : String
  version : String
  revision : String
  branch : Option String
  /-- Missing in the old format. -/
  originalBuildid : Option String
  id : String

/-- An info record; what the programs here only copy is of any type. -/
structure InfoRecord (R : Type) where
  testMachine : TestMachine
  testBuild : TestBuild
  rest : R

/-- What `application.ini` says. -/
structure Application where
  name : String
  version : String
  sourceStamp : String
  buildID : String

section Programs
variable {R : Type}

/-- The record that the gatherer writes; the machine has its own operating system. -/
def gather (app : Application) (machine : TestMachine) (netconfig : Option String) (rest : R) :
    Except KeyError (InfoRecord R) := do
  let suffix ← getBuildidSuffix machine.os netconfig
  return {
    testMachine := machine
    testBuild := {
      name := app.name
      version := app.version
      revision := app.sourceStamp
      branch := netconfig
      originalBuildid := some app.buildID
      id := truncated app.buildID ++ suffix }
    rest := rest }

/-- What the script makes of a record (`fix_buildids.py:35-43`). -/
def fixRecord (info : InfoRecord R) : Except KeyError (InfoRecord R) := do
  let osPart ← osIds info.testMachine.os
  let netconfigPart ← netconfigIds info.testBuild.branch
  let originalBuildid := info.testBuild.id
  return { info with
    testBuild := { info.testBuild with
      originalBuildid := some originalBuildid
      id := truncated originalBuildid ++ (osPart ++ netconfigPart) } }

/-- A file, read as a record or not. -/
inductive Content (R : Type) where
  | record (info : InfoRecord R)
  | unreadable

abbrev Files (R : Type) := AList fun _ : String => Content R

/-- What the operating system refuses. -/
structure Refusals where
  rename : String → Bool
  write : String → Bool

def origName (fname : String) : String := fname ++ ".orig"

/-- The loop body of the script (`fix_buildids.py:17-51`); of its errors it catches all but
the `KeyError` of an unknown name. -/
def fixFile (refuses : Refusals) (fname : String) : EStateM KeyError (Files R) Unit := do
  let files ← get
  match files.lookup fname with
  | some (.record info) =>
    if refuses.rename fname then pure ()
    else do
      set ((files.erase fname).insert (origName fname) (.record info))
      match fixRecord info with
      | .error e => throw e
      | .ok fixed =>
        if refuses.write fname then pure ()
        else modify fun files => files.insert fname (.record fixed)
  | _ => pure ()

def fixBuildids (refuses : Refusals) (argv : List String) : EStateM KeyError (Files R) Unit :=
  argv.forM (fixFile refuses)

end Programs

/-! ### The two programs agree, once -/

section Agreement
variable {R : Type} {info fixed : InfoRecord R} {o : OperatingSystem} {n : Netconfig}

theorem osIds_name (o : OperatingSystem) : osIds (some o.name) = .ok (osId o) := by
  unfold osIds
  rw [Option.bind_some, OperatingSystem.ofName?_eq_some.mpr rfl]

theorem netconfigIds_name (n : Netconfig) : netconfigIds (some n.name) = .ok (netconfigId n) := by
  unfold netconfigIds
  rw [Option.bind_some, Netconfig.ofName?_eq_some.mpr rfl]

/-- The two characters of a known operating system and netconfig. -/
def suffixOf (o : OperatingSystem) (n : Netconfig) : String := osId o ++ netconfigId n

theorem suffixOf_length (o : OperatingSystem) (n : Netconfig) :
    (suffixOf o n).toList.length = 2 := by
  cases o <;> cases n <;> rfl

theorem getBuildidSuffix_name (o : OperatingSystem) (n : Netconfig) :
    getBuildidSuffix (some o.name) (some n.name) = .ok (suffixOf o n) := by
  unfold getBuildidSuffix
  rw [if_neg (by simp), osIds_name, netconfigIds_name]
  rfl

theorem truncated_toList (s : String) : (truncated s).toList = s.toList.take 14 :=
  String.toList_ofList

theorem length_truncated_append (s : String) (o : OperatingSystem) (n : Netconfig) :
    (truncated s ++ suffixOf o n).toList.length ≤ 16 := by
  rw [String.toList_append, List.length_append, suffixOf_length, truncated_toList]
  have htake := List.length_take_le 14 s.toList
  omega

theorem fixRecord_known (hos : info.testMachine.os = some o.name)
    (hnc : info.testBuild.branch = some n.name) :
    ∃ fixed, fixRecord info = .ok fixed ∧
      fixed.testBuild.id = truncated info.testBuild.id ++ suffixOf o n ∧
      fixed.testBuild.originalBuildid = some info.testBuild.id ∧
      fixed.testMachine.os = some o.name ∧ fixed.testBuild.branch = some n.name := by
  unfold fixRecord
  rw [hos, hnc, osIds_name, netconfigIds_name]
  exact ⟨_, rfl, rfl, rfl, hos, hnc⟩

theorem gather_known (n : Netconfig) (app : Application) {machine : TestMachine} (rest : R)
    (hos : machine.os = some o.name) :
    ∃ g, gather app machine (some n.name) rest = .ok g ∧
      g.testBuild.id = truncated app.buildID ++ suffixOf o n ∧
      g.testBuild.originalBuildid = some app.buildID := by
  unfold gather
  rw [hos, getBuildidSuffix_name]
  exact ⟨_, rfl, rfl, rfl⟩

/-- A record ends up with the ids that the gatherer computes for its build, and stays so
when the script is run again. -/
def Migrated (info : InfoRecord R) (app : Application) : Prop :=
  ∃ fixed g again, fixRecord info = .ok fixed ∧
    gather app info.testMachine info.testBuild.branch info.rest = .ok g ∧
    fixed.testBuild.id = g.testBuild.id ∧
    fixed.testBuild.originalBuildid = g.testBuild.originalBuildid ∧
    fixed.testBuild.id.toList.length ≤ 16 ∧
    fixRecord fixed = .ok again ∧
    again.testBuild.id = fixed.testBuild.id ∧
    again.testBuild.originalBuildid = fixed.testBuild.originalBuildid

/-- Sixteen characters, of which the last two are the suffix. -/
def Suffixed (buildid : String) (o : OperatingSystem) (n : Netconfig) : Prop :=
  buildid.toList.length = 16 ∧ buildid.toList.drop 14 = (suffixOf o n).toList

theorem truncated_append_eq_iff (buildid : String) :
    truncated buildid ++ suffixOf o n = buildid ↔ Suffixed buildid o n := by
  have hlist : (truncated buildid ++ suffixOf o n).toList =
      buildid.toList.take 14 ++ (suffixOf o n).toList := by
    rw [String.toList_append, truncated_toList]
  have hlen := suffixOf_length o n
  rw [← String.toList_inj, hlist, Suffixed]
  constructor
  · intro h
    have htotal := congrArg List.length h
    rw [List.length_append, List.length_take, hlen] at htotal
    have hsixteen : buildid.toList.length = 16 := by omega
    refine ⟨hsixteen, ?_⟩
    have hdrop := congrArg (List.drop 14) h
    rwa [List.drop_left' (by rw [List.length_take]; omega), eq_comm] at hdrop
  · intro ⟨_, hdrop⟩
    rw [← hdrop, List.take_append_drop]

/-- The first run agrees with the gatherer for every build id. The second one takes the new
id for the original one, which it is only for ids that had their suffix already. -/
theorem migrated_iff (app : Application) (hid : info.testBuild.id = app.buildID)
    (hos : info.testMachine.os = some o.name) (hnc : info.testBuild.branch = some n.name) :
    Migrated info app ↔ Suffixed app.buildID o n := by
  rw [← truncated_append_eq_iff]
  obtain ⟨g, hg, hgid, hgorig⟩ := gather_known n app info.rest hos
  rw [← hnc] at hg
  obtain ⟨fixed, hfixed, hfid, hforig, hfos, hfnc⟩ := fixRecord_known hos hnc
  obtain ⟨again, hagain, haid, haorig, -, -⟩ := fixRecord_known hfos hfnc
  rw [hid] at hfid hforig
  rw [hfid] at haid haorig
  constructor
  · rintro ⟨fixed', g', again', hfixed', -, -, -, -, hagain', -, horig⟩
    obtain rfl := Except.ok.inj (hfixed.symm.trans hfixed')
    obtain rfl := Except.ok.inj (hagain.symm.trans hagain')
    rw [haorig, hforig] at horig
    exact Option.some.inj horig
  · intro h
    refine ⟨fixed, g, again, hfixed, hg, hfid.trans hgid.symm, hforig.trans hgorig.symm, ?_,
      hagain, ?_, ?_⟩
    · rw [hfid]
      exact length_truncated_append _ o n
    · rw [haid, hfid, h, h]
    · rw [haorig, hforig, h]

/-- A record of the given build id, for linux over gsm. -/
def oldRecord (buildid : String) : InfoRecord Unit where
  testMachine := ⟨"client", some "linux", "Ubuntu 12.04", "x86_64"⟩
  testBuild := ⟨"Firefox", "27.0a1", "9c8a4ae9bd4f", some "gsm", none, buildid⟩
  rest := ()

theorem migrated_iff_suffixed :
    Migrated (oldRecord "20130901030218l2") ⟨"Firefox", "27.0a1", "9c8a4ae9bd4f", "20130901030218l2"⟩ ↔
      Suffixed "20130901030218l2" .linux .gsm :=
  migrated_iff ⟨"Firefox", "27.0a1", "9c8a4ae9bd4f", "20130901030218l2"⟩ rfl rfl rfl

/-- The usual fourteen digits. -/
theorem original_buildid_lost :
    ¬ Migrated (oldRecord "20130901030218") ⟨"Firefox", "27.0a1", "9c8a4ae9bd4f", "20130901030218"⟩ := by
  rintro ⟨fixed, g, again, hfixed, -, -, -, -, hagain, -, horig⟩
  cases hfixed
  cases hagain
  exact absurd horig (by decide)

end Agreement

/-! ### Runs of the script -/

section Runs
variable {R : Type} {refuses : Refusals} {files : Files R} {fname : String} {argv : List String}

theorem fixFile_ok {info fixed : InfoRecord R} (hfile : files.lookup fname = some (.record info))
    (hfix : fixRecord info = .ok fixed) (hrename : refuses.rename fname = false)
    (hwrite : refuses.write fname = false) :
    ∃ after, fixFile refuses fname files = .ok () after ∧
      after.lookup fname = some (.record fixed) ∧
      after.lookup (origName fname) = some (.record info) ∧
      ∀ g, g ≠ fname → g ≠ origName fname → after.lookup g = files.lookup g := by
  have hne : origName fname ≠ fname := by
    intro heq
    have hlen := congrArg (fun s : String => s.toList.length) heq
    simp [origName] at hlen
  refine ⟨((files.erase fname).insert (origName fname) (.record info)).insert fname (.record fixed),
    ?_, AList.lookup_insert _, ?_, ?_⟩
  · unfold fixFile
    rw [bind_ok (get_apply files), hfile]
    simp only [hrename, hwrite, hfix, Bool.false_eq_true, ite_false]
    rfl
  · rw [AList.lookup_insert_ne hne, AList.lookup_insert]
  · intro g hg horig
    rw [AList.lookup_insert_ne hg, AList.lookup_insert_ne horig, AList.lookup_erase_ne hg]

/-- The files that a run is given; nothing is refused, and no file is moved onto another. -/
structure Given (refuses : Refusals) (argv : List String) : Prop where
  nodup : argv.Nodup
  apart : ∀ f ∈ argv, origName f ∉ argv
  rename : ∀ f ∈ argv, refuses.rename f = false
  write : ∀ f ∈ argv, refuses.write f = false

theorem Given.tail (h : Given refuses (fname :: argv)) : Given refuses argv where
  nodup := (List.nodup_cons.mp h.nodup).2
  apart f hf := (List.ne_and_not_mem_of_not_mem_cons (h.apart f (List.mem_cons_of_mem _ hf))).2
  rename f hf := h.rename f (List.mem_cons_of_mem _ hf)
  write f hf := h.write f (List.mem_cons_of_mem _ hf)

theorem fixBuildids_ok {info fixed : String → InfoRecord R} (h : Given refuses argv)
    (hfile : ∀ f ∈ argv, files.lookup f = some (.record (info f)))
    (hfix : ∀ f ∈ argv, fixRecord (info f) = .ok (fixed f)) :
    ∃ after, fixBuildids refuses argv files = .ok () after ∧
      (∀ f ∈ argv, after.lookup f = some (.record (fixed f)) ∧
        after.lookup (origName f) = some (.record (info f))) ∧
      ∀ g, (∀ f ∈ argv, g ≠ f ∧ g ≠ origName f) → after.lookup g = files.lookup g := by
  induction argv generalizing files with
  | nil => exact ⟨files, rfl, by simp, fun _ _ => rfl⟩
  | cons f argv ih =>
    obtain ⟨mid, hmid, hself, horig, hframe⟩ := fixFile_ok (hfile f List.mem_cons_self)
      (hfix f List.mem_cons_self) (h.rename f List.mem_cons_self) (h.write f List.mem_cons_self)
    have hne : ∀ g ∈ argv, g ≠ f := fun g hg heq => (List.nodup_cons.mp h.nodup).1 (heq ▸ hg)
    have hto : origName f ∉ argv :=
      (List.ne_and_not_mem_of_not_mem_cons (h.apart f List.mem_cons_self)).2
    have hfrom : ∀ g ∈ argv, origName g ≠ f := fun g hg =>
      (List.ne_and_not_mem_of_not_mem_cons (h.apart g (List.mem_cons_of_mem _ hg))).1
    have hmidfile : ∀ g ∈ argv, mid.lookup g = some (.record (info g)) := by
      intro g hg
      rw [hframe g (hne g hg) fun heq => hto (heq ▸ hg)]
      exact hfile g (List.mem_cons_of_mem _ hg)
    obtain ⟨after, hafter, hall, hrest⟩ :=
      ih h.tail hmidfile fun g hg => hfix g (List.mem_cons_of_mem _ hg)
    refine ⟨after, ?_, ?_, ?_⟩
    · unfold fixBuildids
      rw [forM_cons, bind_ok hmid]
      exact hafter
    · intro g hg
      rcases List.mem_cons.mp hg with rfl | hg
      · constructor
        · rw [hrest g fun k hk => ⟨(hne k hk).symm, (hfrom k hk).symm⟩, hself]
        · rw [hrest (origName g) fun k hk => ⟨fun heq => hto (heq ▸ hk), fun heq =>
            hne k hk ((String.append_left_inj _).mp heq).symm⟩, horig]
      · exact hall g hg
    · intro g hg
      rw [hrest g fun k hk => hg k (List.mem_cons_of_mem _ hk)]
      exact hframe g (hg f List.mem_cons_self).1 (hg f List.mem_cons_self).2

/-- Two runs leave the suffixed id for the original one in every file, and in the copy too. -/
theorem fixBuildids_twice {info : String → InfoRecord R} {os : String → OperatingSystem}
    {netconfig : String → Netconfig} (h : Given refuses argv)
    (hfile : ∀ f ∈ argv, files.lookup f = some (.record (info f)))
    (hos : ∀ f ∈ argv, (info f).testMachine.os = some (os f).name)
    (hnc : ∀ f ∈ argv, (info f).testBuild.branch = some (netconfig f).name) :
    ∃ once twice, fixBuildids refuses argv files = .ok () once ∧
      fixBuildids refuses argv once = .ok () twice ∧
      ∀ f ∈ argv, ∃ fixed again, twice.lookup f = some (.record again) ∧
        twice.lookup (origName f) = some (.record fixed) ∧
        fixed.testBuild.id = truncated (info f).testBuild.id ++ suffixOf (os f) (netconfig f) ∧
        again.testBuild.originalBuildid = some fixed.testBuild.id := by
  have hfixed : ∀ f, ∃ fixed, f ∈ argv → fixRecord (info f) = .ok fixed ∧
      fixed.testBuild.id = truncated (info f).testBuild.id ++ suffixOf (os f) (netconfig f) ∧
      ∃ again, fixRecord fixed = .ok again ∧
        again.testBuild.originalBuildid = some fixed.testBuild.id := by
    intro f
    by_cases hf : f ∈ argv
    · obtain ⟨fixed, hfix, hid, -, hfos, hfnc⟩ := fixRecord_known (hos f hf) (hnc f hf)
      obtain ⟨again, hagain, -, horig, -, -⟩ := fixRecord_known hfos hfnc
      exact ⟨fixed, fun _ => ⟨hfix, hid, again, hagain, horig⟩⟩
    · exact ⟨info f, fun hin => absurd hin hf⟩
  choose fixed hfixed using hfixed
  have hagain : ∀ f, ∃ again, f ∈ argv → fixRecord (fixed f) = .ok again ∧
      again.testBuild.originalBuildid = some (fixed f).testBuild.id := by
    intro f
    by_cases hf : f ∈ argv
    · obtain ⟨again, hagain⟩ := (hfixed f hf).2.2
      exact ⟨again, fun _ => hagain⟩
    · exact ⟨info f, fun hin => absurd hin hf⟩
  choose again hagain using hagain
  obtain ⟨once, honce, hall, -⟩ := fixBuildids_ok h hfile fun f hf => (hfixed f hf).1
  obtain ⟨twice, htwice, hall', -⟩ :=
    fixBuildids_ok h (fun f hf => (hall f hf).1) fun f hf => (hagain f hf).1
  exact ⟨once, twice, honce, htwice, fun f hf => ⟨fixed f, again f, (hall' f hf).1,
    (hall' f hf).2, (hfixed f hf).2.1, (hagain f hf).2⟩⟩

end Runs

end StoneRidge.Info
