import StoneRidge.Kit.ArgParse
import StoneRidge.Cloner.Notice
import StoneRidge.Dispatch.Master

/-!
# The programs that a request passes through

`enqueue` (`stoneridge.py:689-719`) and the command lines of the cloner
(`srcloner.py:350-372`) and of the deferrer (`srdeferrer.py:47-71`). Texts are ASCII,
so that `map(str, args)` in `run_process` leaves them as they are.
-/

set_option autoImplicit false

namespace StoneRidge.Retry
open StoneRidge.Kit StoneRidge.Kit.ArgParse StoneRidge.Dispatch StoneRidge.Cloner

/-- The keys of `_netconfig_ids` and `_os_ids` (`stoneridge.py:367-378`), in the order in
which the dictionaries list them. -/
structure Keys where
  netconfigs : List String
  operatingSystems : List String
  netconfigs_perm : netconfigs.Perm Dispatch.netconfigs
  operatingSystems_perm : operatingSystems.Perm Dispatch.operatingSystems

/-- The names to use, or nothing if one of them is invalid. -/
def checked (known names : List String) : Option (List String) :=
  if names = [] then some known
  else if ∀ s ∈ names, s ∈ known then some names
  else none

/-- The message on the incoming queue, or nothing where `enqueue` raises. -/
def enqueue (keys : Keys) (nightly : Bool) (ldap sha : String)
    (netconfigs operatingSystems : List String) (srid : Option String) (attempt : ℤ) :
    Option Request :=
  match checked keys.netconfigs netconfigs, checked keys.operatingSystems operatingSystems with
  | some netconfigs, some operatingSystems =>
    if nightly then
      if ldap ≠ "" ∨ sha ≠ "" then none
      else some ⟨nightly, ldap, sha, netconfigs, operatingSystems, srid, attempt⟩
    else
      if ldap = "" ∨ sha = "" then none
      else some ⟨nightly, ldap, sha, netconfigs, operatingSystems, srid, attempt⟩
  | _, _ => none

section Parsers
variable {N : Type}

def store (set : String → N → N) : Effect N := .value fun s ns => some (set s ns)

/-- With `type=int`. -/
def storeInt (set : ℤ → N → N) : Effect N := .value fun s ns => (PyText.int? s).map (set · ns)

/-- One `append_const` flag for each name. -/
def nameFlags (names : List String) (add : List String → N → N) : List (Argument N) :=
  names.map fun s => ⟨["--" ++ s], false, .flag (add [s])⟩

end Parsers

structure ClonerArgs where
  config : Option String := none
  log : Option String := none
  nightly : Bool := false
  srid : Option String := none
  operatingSystems : List String := []
  netconfigs : List String := []
  attempt : Option ℤ := none
  ldap : String := ""
  sha : String := ""

namespace ClonerArgs

def addOs (names : List String) (n : ClonerArgs) : ClonerArgs :=
  { n with operatingSystems := n.operatingSystems ++ names }

def addNetconfigs (names : List String) (n : ClonerArgs) : ClonerArgs :=
  { n with netconfigs := n.netconfigs ++ names }

end ClonerArgs

def clonerParser : List (Argument ClonerArgs) :=
  [⟨["-h", "--help"], false, .help⟩,
    ⟨["--config"], true, store fun s n => { n with config := some s }⟩,
    ⟨["--log"], true, store fun s n => { n with log := some s }⟩,
    ⟨["--nightly"], false, .flag fun n => { n with nightly := true }⟩,
    ⟨["--srid"], true, store fun s n => { n with srid := some s }⟩] ++
  nameFlags Dispatch.operatingSystems ClonerArgs.addOs ++
  nameFlags Dispatch.netconfigs ClonerArgs.addNetconfigs ++
  [⟨["--attempt"], true, storeInt fun z n => { n with attempt := some z }⟩,
    ⟨["--ldap"], false, store fun s n => { n with ldap := s }⟩,
    ⟨["--sha"], false, store fun s n => { n with sha := s }⟩]

/-- The cloner of a command line, or nothing where the parser exits. What the cloner reads
from the configuration depends on the file. -/
def clonerMain (settings : String → Setting) (argv : List String) : Option StoneRidgeCloner :=
  match parseArgs clonerParser {} argv with
  | .error _ => none
  | .ok n =>
    match n.config, n.srid, n.attempt with
    | some config, some srid, some attempt =>
      some ⟨{ settings config with configFile := config }, n.nightly, srid, n.operatingSystems,
        n.netconfigs, n.ldap, n.sha, attempt⟩
    | _, _, _ => none

structure DeferrerArgs where
  config : Option String := none
  log : Option String := none
  nodaemon : Bool := false
  pidfile : String := ""
  srid : Option String := none
  attempt : Option ℤ := none
  nightly : Bool := false
  ldap : String := ""
  sha : String := ""
  netconfigs : List String := []
  operatingSystems : List String := []

namespace DeferrerArgs

def addNetconfigs (names : List String) (n : DeferrerArgs) : DeferrerArgs :=
  { n with netconfigs := n.netconfigs ++ names }

def addOs (names : List String) (n : DeferrerArgs) : DeferrerArgs :=
  { n with operatingSystems := n.operatingSystems ++ names }

end DeferrerArgs

def deferrerParser : List (Argument DeferrerArgs) :=
  [⟨["-h", "--help"], false, .help⟩,
    ⟨["--config"], true, store fun s n => { n with config := some s }⟩,
    ⟨["--log"], true, store fun s n => { n with log := some s }⟩,
    ⟨["--nodaemon"], false, .flag fun n => { n with nodaemon := true }⟩,
    ⟨["--pidfile"], false, store fun s n => { n with pidfile := s }⟩,
    ⟨["--srid"], true, store fun s n => { n with srid := some s }⟩,
    ⟨["--attempt"], true, storeInt fun z n => { n with attempt := some z }⟩,
    ⟨["--nightly"], false, .flag fun n => { n with nightly := true }⟩,
    ⟨["--ldap"], false, store fun s n => { n with ldap := s }⟩,
    ⟨["--sha"], false, store fun s n => { n with sha := s }⟩] ++
  nameFlags Dispatch.netconfigs DeferrerArgs.addNetconfigs ++
  nameFlags Dispatch.operatingSystems DeferrerArgs.addOs

/-- What the deferrer enqueues once its interval is over (`srdeferrer.py:25-41`), or
nothing if it does not get there. A missing pidfile counts as an empty one
(`stoneridge.py:563-574`). -/
def deferrerMain (keys : Keys) (argv : List String) : Option Request :=
  match parseArgs deferrerParser {} argv with
  | .error _ => none
  | .ok n =>
    if n.nodaemon = decide (n.pidfile ≠ "") then none
    else match n.srid, n.attempt with
    | some srid, some attempt =>
      enqueue keys n.nightly n.ldap n.sha n.netconfigs n.operatingSystems (some srid) attempt
    | _, _ => none

/-! ### What `enqueue` accepts -/

/-- A request as `enqueue` lets it through. -/
structure Accepted (r : Request) : Prop where
  nightly : r.nightly = true → r.ldap = "" ∧ r.sha = ""
  build : r.nightly = false → r.ldap ≠ "" ∧ r.sha ≠ ""
  netconfigs : r.netconfigs ≠ [] ∧ ∀ s ∈ r.netconfigs, s ∈ Dispatch.netconfigs
  operatingSystems : r.operatingSystems ≠ [] ∧
    ∀ s ∈ r.operatingSystems, s ∈ Dispatch.operatingSystems

theorem checked_some {known names used names' : List String} (hperm : known.Perm names')
    (hne : names' ≠ []) (h : checked known names = some used) :
    (used ≠ [] ∧ ∀ s ∈ used, s ∈ names') ∧ (names ≠ [] → used = names) := by
  unfold checked at h
  by_cases hempty : names = []
  · rw [if_pos hempty] at h
    cases h
    refine ⟨⟨?_, ?_⟩, fun h => absurd hempty h⟩
    · intro hnil
      exact hne (List.Perm.nil_eq (hnil ▸ hperm)).symm
    · intro s hs
      exact hperm.mem_iff.mp hs
  · rw [if_neg hempty] at h
    split at h
    · rename_i hall
      cases h
      exact ⟨⟨hempty, fun s hs => hperm.mem_iff.mp (hall s hs)⟩, fun _ => rfl⟩
    · cases h

theorem checked_known {known names names' : List String} (hperm : known.Perm names')
    (hall : ∀ s ∈ names, s ∈ names') (hne : names ≠ []) : checked known names = some names := by
  unfold checked
  rw [if_neg hne, if_pos fun s hs => hperm.mem_iff.mpr (hall s hs)]

section Enqueue
variable {keys : Keys} {nightly : Bool} {ldap sha : String} {ncs oss : List String}
  {srid : Option String} {attempt : ℤ} {r : Request}

theorem enqueue_some (h : enqueue keys nightly ldap sha ncs oss srid attempt = some r) :
    Accepted r ∧ ∃ ncs' oss', checked keys.netconfigs ncs = some ncs' ∧
      checked keys.operatingSystems oss = some oss' ∧
      r = ⟨nightly, ldap, sha, ncs', oss', srid, attempt⟩ := by
  unfold enqueue at h
  cases hncs : checked keys.netconfigs ncs with
  | none => simp [hncs] at h
  | some ncs' =>
    cases hoss : checked keys.operatingSystems oss with
    | none => simp [hncs, hoss] at h
    | some oss' =>
      have hn := (checked_some keys.netconfigs_perm (by decide) hncs).1
      have ho := (checked_some keys.operatingSystems_perm (by decide) hoss).1
      simp only [hncs, hoss] at h
      cases nightly with
      | true =>
        simp only [ite_true] at h
        split at h
        · cases h
        · rename_i hempty
          cases h
          simp only [ne_eq, not_or, not_not] at hempty
          exact ⟨⟨fun _ => hempty, fun h => (by cases h), hn, ho⟩, ncs', oss', rfl, rfl, rfl⟩
      | false =>
        simp only [Bool.false_eq_true, ite_false] at h
        split at h
        · cases h
        · rename_i hset
          cases h
          exact ⟨⟨fun h => (by cases h), fun _ => not_or.mp hset, hn, ho⟩, ncs', oss', rfl, rfl, rfl⟩

end Enqueue

end StoneRidge.Retry
