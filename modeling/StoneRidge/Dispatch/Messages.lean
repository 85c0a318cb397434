import Mathlib.Tactic

/-!
# Names and messages

The netconfigs and operating systems that the queues are named after
(`stoneridge.py:34-54`) and the messages on these queues. In a message the names
are arbitrary JSON strings; a dictionary lookup tells the known ones apart.
-/

set_option autoImplicit false

namespace StoneRidge.Dispatch

inductive Netconfig where
  | broadband
  | umts
  | gsm
  deriving DecidableEq, Repr

inductive OperatingSystem where
  | linux
  | mac
  | windows
  deriving DecidableEq, Repr

def Netconfig.name : Netconfig → String
  | .broadband => "broadband"
  | .umts => "umts"
  | .gsm => "gsm"

def OperatingSystem.name : OperatingSystem → String
  | .linux => "linux"
  | .mac => "mac"
  | .windows => "windows"

/-- `NETCONFIGS` (`stoneridge.py:31`). -/
def netconfigs : List String := ["broadband", "umts", "gsm"]

/-- `OPERATING_SYSTEMS` (`stoneridge.py:32`). -/
def operatingSystems : List String := ["linux", "mac", "windows"]

/-- Lookup in a dictionary keyed by the netconfigs. -/
def Netconfig.ofName? (s : String) : Option Netconfig :=
  if s = "broadband" then some .broadband
  else if s = "umts" then some .umts
  else if s = "gsm" then some .gsm
  else none

/-- Lookup in a dictionary keyed by the operating systems. -/
def OperatingSystem.ofName? (s : String) : Option OperatingSystem :=
  if s = "linux" then some .linux
  else if s = "mac" then some .mac
  else if s = "windows" then some .windows
  else none

theorem Netconfig.ofName?_eq_some {s : String} {n : Netconfig} :
    Netconfig.ofName? s = some n ↔ s = n.name := by
  constructor
  · intro h
    unfold Netconfig.ofName? at h
    split_ifs at h with h₁ h₂ h₃
    · cases h
      exact h₁
    · cases h
      exact h₂
    · cases h
      exact h₃
  · intro h
    subst h
    cases n <;> rfl

theorem OperatingSystem.ofName?_eq_some {s : String} {o : OperatingSystem} :
    OperatingSystem.ofName? s = some o ↔ s = o.name := by
  constructor
  · intro h
    unfold OperatingSystem.ofName? at h
    split_ifs at h with h₁ h₂ h₃
    · cases h
      exact h₁
    · cases h
      exact h₂
    · cases h
      exact h₃
  · intro h
    subst h
    cases o <;> rfl

theorem Netconfig.name_injective : Function.Injective Netconfig.name := by
  intro m n h
  have hm := Netconfig.ofName?_eq_some.mpr h
  rw [Netconfig.ofName?_eq_some.mpr rfl] at hm
  exact Option.some.inj hm

theorem OperatingSystem.name_injective : Function.Injective OperatingSystem.name := by
  intro m n h
  have hm := OperatingSystem.ofName?_eq_some.mpr h
  rw [OperatingSystem.ofName?_eq_some.mpr rfl] at hm
  exact Option.some.inj hm

/-- What `enqueue` puts on the incoming queue (`stoneridge.py:717-719`), with the
defaults of `StoneRidgeMaster.handle` for the last two (`srmaster.py:28-29`). -/
structure Request where
  nightly : Bool
  ldap : String
  sha : String
  netconfigs : List String
  operatingSystems : List String
  srid : Option String := none
  attempt : ℤ := 1
  deriving DecidableEq

/-- From the master to a scheduler (`srmaster.py:79-80`). -/
structure NetconfigMessage where
  operatingSystems : List String
  srid : String
  tstamp : ℤ
  ldap : String
  deriving DecidableEq

/-- From a scheduler to the clients (`srscheduler.py:30-31`). The netconfig is the
scheduler's own, one of the choices of its command line (`srscheduler.py:43-44`). -/
structure RunMessage where
  srid : String
  netconfig : Netconfig
  tstamp : ℤ
  ldap : String
  deriving DecidableEq

end StoneRidge.Dispatch
