import StoneRidge.Config.RunIni
import StoneRidge.Kit.PosixDisk
import StoneRidge.Results.Delivery
import StoneRidge.Worker.Recovery

/-!
# What the stages read and write

The stages of a run as programs on the disk of the machine: `srinfogatherer.py:45-64`,
`srpcap.py:62-83`, `srrunner.py:88-143`, `srcollator.py:21-96`, `srarchiver.py:19-67` and
`sruploader.py:22-56`. Each is told about its run by run.ini alone. Any operation on the
disk may fail, and then the stage ends there.

Two things are kept that the machine does not: the number of the handling in which a
file was written, and the numbers of the files that the handling has read.
-/

set_option autoImplicit false

namespace StoneRidge.Isolation
open StoneRidge.Kit.Exec StoneRidge.Kit.Files StoneRidge.Kit.Lines StoneRidge.Kit.PosixPath
open StoneRidge.Kit.PosixTree StoneRidge.Kit.PosixDisk
open StoneRidge.Config (Text MainConfig getConfig)
open StoneRidge.Dispatch (RunMessage)
open StoneRidge.Results (Recorded DictOrder collate suite uploadFilename buildTestlist)
open StoneRidge.Worker (Call)

/-- What the info file has besides the date; `others` are entries that are only copied. -/
structure Gathered where
  machineName : String
  revision : String
  others : List (String × String)

abbrev Info := Results.Info Gathered
abbrev Upload := Results.Upload Gathered

/-- The values that the stages exchange as JSON. -/
inductive Json where
  | info (i : Info)
  | out (recorded : Recorded)
  | upload (u : Upload)

inductive Content where
  | text (t : Text)
  | json (j : Json)
  | zip (members : List (Location × Name × Content))

structure File where
  content : Content
  writer : ℕ

/-- The message that the uploader puts on the outgoing queue; an option that is missing
is `None`. No metadata is the base64 text of no bytes. -/
structure Message where
  srid : Option Text
  results : Directory Json
  metadata : Option Content
  netconfig : Option Text
  operatingSystem : String
  ldap : Option Text

/-- A message on the queue, with the run that was being handled and the writers of what
that handling had read. -/
structure Sent where
  run : RunMessage
  handling : ℕ
  message : Message
  sources : List ℕ

structure Machine where
  disk : Disk File
  run : RunMessage
  handling : ℕ
  sources : List ℕ
  operations : ℕ
  sent : List Sent

/-- The configuration of the machine. -/
structure Client where
  main : MainConfig
  srconffile : String
  workroot : String
  archives : String
  firefoxPath : String
  operatingSystem : String
  unittest : Bool

/-- What else a stage does to the disk: the packages it unpacks, its log, the profile of
the browser. None of it is a file in the out directory itself. -/
inductive Scribble where
  | write (l : Location) (name : Name) (content : Content)
  | unlink (l : Location) (name : Name)
  | mkdir (l : Location) (name : Name)

/-- What the code does not decide in one handling. -/
structure World where
  listing : Listing
  order : DictOrder
  exit : ℕ → ℤ
  depth : ℕ
  fails : ℕ → Bool
  elsewhere : ℕ → List Scribble
  gathered : Gathered
  testroot : List String
  testEnabled : Bool
  /-- What a test leaves in its output file. -/
  outcome : String → Option Content
  /-- The output of tcpdump and the capture, if there are any. -/
  captured : Option (Text × Text)

abbrev Program := EStateM Unit Machine

/-- What `get_config` gives for the options that the stages ask for. -/
structure RunConfig where
  netconfig : Except Config.Error (Option Text)
  out : Except Config.Error (Option Text)
  metadata : Except Config.Error (Option Text)
  info : Except Config.Error (Option Text)
  tstamp : Except Config.Error (Option Text)
  srid : Except Config.Error (Option Text)
  ldap : Except Config.Error (Option Text)

def RunConfig.of (get : String → Except Config.Error (Option Text)) : RunConfig where
  netconfig := get "netconfig"
  out := get "out"
  metadata := get "metadata"
  info := get "info"
  tstamp := get "tstamp"
  srid := get "srid"
  ldap := get "ldap"

/-- The value of an option, which may be `None`. -/
def value (option : Except Config.Error (Option Text)) : Program (Option Text) :=
  match option with
  | .ok v => pure v
  | .error _ => throw ()

/-- A path, which `None` is not. -/
def pathValue (option : Except Config.Error (Option Text)) : Program String := do
  match ← value option with
  | some t => pure (String.ofList t)
  | none => throw ()

/-- `get_config_int`: zero for a text that is not a number. -/
def intValue (option : Except Config.Error (Option Text)) : Program ℤ := do
  match ← value option with
  | some t => pure ((Kit.PyText.int? (String.ofList t)).getD 0)
  | none => throw ()

section Operations
variable (client : Client) (world : World) (runconfig : String)

def operation : Program Unit := do
  let s ← get
  set { s with operations := s.operations + 1 }
  if world.fails s.operations then throw ()

def readFile (p : String) : Program Content := do
  operation world
  let s ← get
  match s.disk.read p with
  | none => throw ()
  | some f =>
    set { s with sources := s.sources ++ [f.writer] }
    pure f.content

def loadJson (p : String) : Program Json := do
  match ← readFile world p with
  | .json j => pure j
  | _ => throw ()

def writeFile (p : String) (content : Content) : Program Unit := do
  operation world
  let s ← get
  match s.disk.write p ⟨content, s.handling⟩ with
  | none => throw ()
  | some d => set { s with disk := d }

def existsFile (p : String) : Program Bool := do
  let s ← get
  pure (s.disk.exists? p)

def makeDirectory (p : String) : Program Unit := do
  operation world
  let s ← get
  match mkdir p s.disk.tree with
  | .ok _ t => set { s with disk := s.disk.setTree t }
  | .error _ _ => throw ()

def globFiles (pathname : String) : Program (List String) := do
  operation world
  let s ← get
  match Kit.Glob.glob (s.disk.access world.listing) pathname with
  | none => throw ()
  | some found => pure found

/-- The files of `os.walk`. -/
def walkFiles (p : String) : Program (List (Location × Name × Content)) := do
  operation world
  let s ← get
  let files : List (Location × Name × File) := s.disk.filesBelow p
  set { s with sources := s.sources ++ files.map fun e : Location × Name × File => e.2.2.writer }
  pure (files.map fun e => (e.1, e.2.1, e.2.2.content))

/-- `get_config` for the options of the run: run.ini is read once, and one that is not
there has no options. -/
def readConfig : Program RunConfig := do
  let s ← get
  match s.disk.read runconfig with
  | none => pure (.of fun _ => .ok none)
  | some f =>
    set { s with sources := s.sources ++ [f.writer] }
    match f.content with
    | .text ini =>
      pure (.of fun option =>
        getConfig client.main.toConfigParser ini "run".toList option.toList)
    | _ => throw ()

end Operations

section Stages
variable (client : Client) (world : World) (cfg : RunConfig)

def infogatherer : Program Unit := do
  let date ← intValue cfg.tstamp
  let outdir ← pathValue cfg.out
  if !(← existsFile outdir) then makeDirectory world outdir
  writeFile world (join outdir "info.json") (.json (.info ⟨date, world.gathered⟩))

def stopPcap : Program Unit := do
  let outdir ← pathValue cfg.out
  match world.captured with
  | none => pure ()
  | some captured =>
    writeFile world (join outdir "tcpdump.out") (.text captured.1)
    writeFile world (join outdir "traffic.pcap") (.text captured.2)

def runOne (outdir test : String) : Program Unit := do
  writeFile world (join outdir (test ++ ".process.out")) (.text [])
  match world.outcome test with
  | none => pure ()
  | some content => writeFile world (join outdir (test ++ ".out")) content

def runner : Program Unit := do
  let outdir ← pathValue cfg.out
  (buildTestlist world.listing world.testroot world.testEnabled []).forM (runOne world outdir)

def loadInfo (p : String) : Program Info := do
  match ← loadJson world p with
  | .info i => pure i
  | _ => throw ()

/-- A file with other JSON in it has no items, or values of the wrong type. -/
def loadOut (p : String) : Program Recorded := do
  match ← loadJson world p with
  | .out recorded => pure recorded
  | _ => throw ()

/-- The body of the collator's loop. -/
def collateFile (outdir : String) (info : Info) (ofile : String) : Program Unit := do
  let fname := Kit.Glob.basename ofile
  let ldap ← value cfg.ldap
  let testinfo ← loadOut world ofile
  match collate world.order info (ldap.map String.ofList) fname testinfo with
  | none => throw ()
  | some u => writeFile world (join outdir (uploadFilename (suite fname))) (.json (.upload u))

def collator : Program Unit := do
  let outdir ← pathValue cfg.out
  let jsfiles ← globFiles world (join outdir "*.js.out")
  let pagefiles ← globFiles world (join outdir "*.page.out")
  let infofile ← pathValue cfg.info
  let info ← loadInfo world infofile
  (jsfiles ++ pagefiles).forM (collateFile world cfg outdir info)

/-- `'%s' % value`. -/
def shown (value : Option Text) : String :=
  match value with
  | none => "None"
  | some t => String.ofList t

def arcname (info : Info) (srid netconfig : Option Text) : String :=
  "stoneridge_" ++ toString info.date ++ "_" ++ info.rest.machineName ++ "_" ++
    info.rest.revision ++ "_" ++ shown srid ++ "_" ++ shown netconfig

def archiver : Program Unit := do
  let outdir ← pathValue cfg.out
  let srid ← value cfg.srid
  let netconfig ← value cfg.netconfig
  let infofile ← pathValue cfg.info
  let metadata ← pathValue cfg.metadata
  let info ← loadInfo world infofile
  let filename := join client.archives (arcname info srid netconfig ++ ".zip")
  if !(← existsFile client.archives) then makeDirectory world client.archives
  let members ← walkFiles world outdir
  writeFile world filename (.zip members)
  let zipped ← readFile world filename
  writeFile world metadata zipped

/-- The body of the uploader's loop. -/
def loadResult (results : Directory Json) (filename : String) : Program (Directory Json) := do
  let j ← loadJson world filename
  pure (results.insert (Kit.Glob.basename filename) j)

def loadMetadata (p : String) : Program (Option Content) := do
  if ← existsFile p then
    let content ← readFile world p
    pure (some content)
  else pure none

def enqueue (message : Message) : Program Unit := do
  operation world
  modify fun s => { s with sent := s.sent ++ [⟨s.run, s.handling, message, s.sources⟩] }

def uploader : Program Unit := do
  let outdir ← pathValue cfg.out
  let files ← globFiles world (join outdir "upload_*.json")
  let results ← files.foldlM (loadResult world) ∅
  let metadataFile ← pathValue cfg.metadata
  let metadata ← loadMetadata world metadataFile
  let srid ← value cfg.srid
  let netconfig ← value cfg.netconfig
  let ldap ← value cfg.ldap
  enqueue world ⟨srid, results, metadata, netconfig, client.operatingSystem, ldap⟩

/-- The stages that are left out keep to other files. -/
def runScript (c : Call) : Program Unit :=
  match c.1 with
  | .infogatherer => infogatherer world cfg
  | .pcap => if c.2 = ["--stop"] then stopPcap world cfg else pure ()
  | .runner => runner world cfg
  | .collator => collator world cfg
  | .archiver => archiver client world cfg
  | .uploader => uploader client world cfg
  | .downloader | .unpacker | .dnsupdater | .dnscheck | .arpfixer => pure ()

def perform (runconfig : String) (c : Call) : Program Unit := do
  let cfg ← readConfig client runconfig
  runScript client world cfg c

end Stages

end StoneRidge.Isolation
