import StoneRidge.Kit.PosixPath
import StoneRidge.Kit.PyText

/-!
# What the cloner is told

The fields of `StoneRidgeCloner` (`srcloner.py:34-86`) and the texts it makes of
them: remote paths and URLs, the names of the files to download, the command line
of the deferrer and the mail to the requester.
-/

set_option autoImplicit false

namespace StoneRidge.Cloner
open StoneRidge.Kit.PosixPath StoneRidge.Kit.PyText

/-- The entries of the configuration that the cloner reads, and its file name. -/
structure Setting where
  host : String
  root : String
  output : String
  keep : ℤ := 50
  attempts : ℤ := 0
  configFile : String

structure StoneRidgeCloner where
  setting : Setting
  nightly : Bool
  srid : String
  operatingSystems : List String
  netconfigs : List String
  ldap : String
  sha : String
  attempt : ℤ

/-- A build that is cloned: its operating system, its directory below `outdir`, the
try directory it comes from and the names of its files. -/
structure Platform where
  os : String
  dir : String
  subdir : String
  package : String
  outfile : String
  archid : String
  deriving DecidableEq

def mac : Platform := ⟨"mac", "mac", "try-macosx64", ".mac.dmg", "firefox.dmg", "mac"⟩

def linux : Platform :=
  ⟨"linux", "linux64", "try-linux64", ".linux-x86_64.tar.bz2", "firefox.tar.bz2", "linux-x86_64"⟩

def windows : Platform :=
  ⟨"windows", "win32", "try-win32", ".win32.zip", "firefox.zip", "win32"⟩

def testsZip : String := "tests.zip"

namespace StoneRidgeCloner
variable (c : StoneRidgeCloner)

def outdir : String := join c.setting.output c.srid

/-- The srid is one component of a path, as `str(uuid.uuid4())` is. -/
def PlainSrid : Prop := '/' ∉ c.srid.toList ∧ IsName c.srid.toList

instance : Decidable c.PlainSrid :=
  inferInstanceAs (Decidable ('/' ∉ c.srid.toList ∧ IsName c.srid.toList))

/-- Under a plain srid the builds have an entry of the output root to themselves. -/
theorem isEntry_outdir (hout : c.setting.output ≠ "") (hsrid : c.PlainSrid) :
    IsEntry c.setting.output c.srid c.outdir :=
  isEntry_join hout hsrid.1 hsrid.2

def path : String :=
  if c.nightly then "/".intercalate [c.setting.root, "nightly", "latest-mozilla-central"]
  else "/".intercalate [c.setting.root, "try-builds", c.ldap ++ "-" ++ c.sha]

/-- `_build_dl_url` (`srcloner.py:107-119`). -/
def buildDlUrl (trySubdir fname : String) : String :=
  let remotefile := if c.nightly then c.path else c.path ++ "/" ++ trySubdir
  let remotefile := remotefile ++ "/" ++ fname
  "https://" ++ c.setting.host ++ remotefile

/-- The URL of the package of a platform, for the prefix that its names begin with. -/
def packageUrl (pre : String) (p : Platform) : String := c.buildDlUrl p.subdir (pre ++ p.package)

def testsUrl (pre : String) (p : Platform) : String :=
  c.buildDlUrl p.subdir (pre ++ "." ++ p.archid ++ ".tests.zip")

/-- The try directories of the requested systems (`srcloner.py:300-305`). -/
def subdirs : List String :=
  (if "linux" ∈ c.operatingSystems then [linux.subdir] else []) ++
    (if "mac" ∈ c.operatingSystems then [mac.subdir] else []) ++
    (if "windows" ∈ c.operatingSystems then [windows.subdir] else [])

/-- Whether `run` clones the platform (`srcloner.py:341-346`). -/
def needs (p : Platform) : Bool := c.nightly || decide (p.os ∈ c.operatingSystems)

/-- The platforms that `run` clones, in order. -/
def needed : List Platform := [mac, linux, windows].filter c.needs

/-- The command line of the deferrer (`srcloner.py:253-270`). -/
def deferArgs (pidfile : String) : List String :=
  let args := ["srdeferrer.py", "--srid", c.srid, "--config", c.setting.configFile,
    "--log", "/dev/null", "--pidfile", pidfile, "--attempt", toString (c.attempt + 1)]
  if c.nightly then args ++ ["--nightly"]
  else args ++ ["--ldap", c.ldap] ++ ["--sha", c.sha] ++
    c.operatingSystems.map ("--" ++ ·) ++ c.netconfigs.map ("--" ++ ·)

end StoneRidgeCloner

/-- `_get_prefix` (`srcloner.py:121-132`); nothing where the source raises
`IndexError`. -/
def getPrefix (files : List String) : Option String :=
  ((files.filter (endsWith · ".checksums.asc")).getLast?).map fun prefixfile =>
    rsplitHead (replaceEmpty prefixfile ".checksums.asc") '.'

/-- `EMAIL_MESSAGE` (`srcloner.py:21-31`). -/
def emailMessage (ldap reason : String) : String :=
  "Hello, " ++ ldap ++ "\n\n" ++
    "This is the Stone Ridge service. Unfortunately, I have had to cancel your test\n" ++
    "run for the following reason:\n\n    " ++ reason ++ "\n\n" ++
    "I hope this doesn't impact the happiness of your day too significantly.\n\n" ++
    "My sincerest (for a computer) apologies,\n-Stone Ridge\n"

def cancelled : String := "Stone Ridge Run Cancelled"

theorem mem_ite_singleton {α : Type} {P : Prop} [Decidable P] {x y : α} :
    x ∈ (if P then [y] else []) ↔ P ∧ y = x := by
  split <;> simp_all [eq_comm]

theorem mem_subdirs (c : StoneRidgeCloner) (hn : c.nightly = false) (d : String) :
    d ∈ c.subdirs ↔ ∃ p ∈ c.needed, p.subdir = d := by
  simp only [StoneRidgeCloner.subdirs, StoneRidgeCloner.needed, StoneRidgeCloner.needs, hn,
    List.mem_append, mem_ite_singleton, List.mem_filter, Bool.false_or, decide_eq_true_eq,
    List.mem_cons, List.not_mem_nil, or_false]
  constructor
  · rintro ((⟨ho, hd⟩ | ⟨ho, hd⟩) | ⟨ho, hd⟩)
    · exact ⟨linux, ⟨.inr (.inl rfl), ho⟩, hd⟩
    · exact ⟨mac, ⟨.inl rfl, ho⟩, hd⟩
    · exact ⟨windows, ⟨.inr (.inr rfl), ho⟩, hd⟩
  · rintro ⟨p, ⟨rfl | rfl | rfl, ho⟩, hd⟩
    · exact .inl (.inr ⟨ho, hd⟩)
    · exact .inl (.inl ⟨ho, hd⟩)
    · exact .inr ⟨ho, hd⟩

end StoneRidge.Cloner
