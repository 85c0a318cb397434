import Mathlib
import StoneRidge.Cloner.Setting
import StoneRidge.Kit.Exec
import StoneRidge.Kit.Retention

/-!
# `StoneRidgeCloner.run`

What the cloner does to its output root, whom it tells, and how it ends
(`srcloner.py:88-347`). The servers, the failures of the operating system and the
times at which directories change come from outside. The output root is a
directory of named entries, and a plain srid is the name of one of them.
-/

set_option autoImplicit false

namespace StoneRidge.Cloner
open StoneRidge.Kit.Exec StoneRidge.Kit.PosixPath StoneRidge.Kit.Retention

abbrev Body := List UInt8

structure Response where
  statusCode : ℕ
  content : Body

/-- An entry of a build's directory, by the contents of its files if it is a directory. -/
inductive PlatformEntry where
  | file
  | dir (files : String → Option Body)

/-- An entry of the output root. -/
inductive OutEntry where
  | file
  | dir (mtime : ℤ) (platforms : String → Option PlatformEntry)

abbrev OutRoot := AList fun _ : String => OutEntry

structure Env where
  /-- The listing of a directory on the server, or nothing if that fails. -/
  ftp : String → Option (List String)
  /-- The answer to `requests.get`, or nothing if it raises. -/
  http : String → Option Response
  mkdirFails : String → Bool
  writeFails : String → Bool
  rmtreeFails : String → Bool
  /-- The time at which the directory with this path is made. -/
  now : String → ℤ
  /-- The order in which `os.listdir` lists the names. -/
  listdir : Finset String → List String
  listdir_nodup : ∀ s, (listdir s).Nodup
  mem_listdir : ∀ s x, x ∈ listdir s ↔ x ∈ s
  /-- `tempfile.mktemp()`, an absolute path. -/
  pidfile : String
  pidfile_head : pidfile.toList.head? = some '/'
  /-- The exit status of the deferrer. -/
  deferrerStatus : ℤ

structure Mail where
  recipient : String
  subject : String
  message : String
  deriving DecidableEq

structure World where
  outroot : OutRoot
  /-- `self.prefix` -/
  filePrefix : String
  /-- The command lines of the deferrers that were started. -/
  deferrers : List (List String)
  mails : List Mail

inductive Raised where
  | systemExit (status : ℤ)
  | indexError
  | osError
  | requestException
  | calledProcessError
  deriving DecidableEq, Repr

abbrev Action := EStateM Raised World Unit

namespace StoneRidgeCloner
variable (c : StoneRidgeCloner) (env : Env)

/-- `_gather_filelist` (`srcloner.py:88-105`); any failure lists nothing. -/
def gatherFilelist (path : String) : List String := (env.ftp path).getD []

def defer : Action := do
  modify fun w => { w with deferrers := w.deferrers ++ [c.deferArgs env.pidfile] }
  if env.deferrerStatus = 0 then pure () else throw .calledProcessError

def email (failureMessage : String) : Action :=
  if c.ldap = "" then pure ()
  else modify fun w => { w with
    mails := w.mails ++ [⟨c.ldap, cancelled, emailMessage c.ldap failureMessage⟩] }

def exitAndMaybeDefer (deferredMessage : String) : Action := do
  if c.attempt + 1 > c.setting.attempts then c.email deferredMessage else c.defer env
  throw (.systemExit 1)

/-- The entry of the output root at `self.outdir`, for a plain srid. -/
def entry (w : World) : Option OutEntry := w.outroot.lookup c.srid

def setEntry (e : OutEntry) : Action :=
  modify fun w => { w with outroot := w.outroot.insert c.srid e }

/-- `os.mkdir(self.outdir)`, if that does not exist. -/
def makeOutdir : Action := do
  let w ← get
  if (c.entry w).isSome then pure ()
  else if env.mkdirFails c.outdir then throw .osError
  else c.setEntry (.dir (env.now c.outdir) fun _ => none)

/-- `os.mkdir(platdir)`, if that does not exist. -/
def makePlatdir (platform : String) : Action := do
  let w ← get
  let platdir := join c.outdir platform
  match c.entry w with
  | some (.dir _ platforms) =>
    if (platforms platform).isSome then pure ()
    else if env.mkdirFails platdir then throw .osError
    else c.setEntry (.dir (env.now platdir)
      (Function.update platforms platform (some (.dir fun _ => none))))
  | _ => throw .osError

/-- `_ensure_outdir` (`srcloner.py:134-145`). -/
def ensureOutdir (platform : String) : Action := do
  c.makeOutdir env
  c.makePlatdir env platform

/-- `file(outfile, 'wb')` with the given content. -/
def writeFile (platform outfile : String) (content : Body) : Action := do
  let w ← get
  if env.writeFails (join (join c.outdir platform) outfile) then throw .osError
  else match c.entry w with
    | some (.dir mtime platforms) =>
      match platforms platform with
      | some (.dir files) =>
        c.setEntry (.dir mtime (Function.update platforms platform
          (some (.dir (Function.update files outfile (some content))))))
      | _ => throw .osError
    | _ => throw .osError

/-- `_dl_to_file` (`srcloner.py:147-155`); the status of the response is not looked at. -/
def dlToFile (url platform outfile : String) : Action :=
  match env.http url with
  | none => throw .requestException
  | some resp => c.writeFile env platform outfile resp.content

/-- The package, and `_dl_test_zip` (`srcloner.py:157-167`). -/
def downloadBoth (p : Platform) : Action := do
  let w ← get
  c.dlToFile env (c.packageUrl w.filePrefix p) p.dir p.outfile
  c.dlToFile env (c.testsUrl w.filePrefix p) p.dir testsZip

/-- The common body of `_clone_mac`, `_clone_linux` and `_clone_win`
(`srcloner.py:169-222`). -/
def clonePlatform (p : Platform) : Action := do
  c.ensureOutdir env p.dir
  c.downloadBoth env p

def cloneMac : Action := c.clonePlatform env mac

def cloneLinux : Action := c.clonePlatform env linux

def cloneWin : Action := c.clonePlatform env windows

/-- The directories without a leading dot, with the times of their last change. -/
def times (listing : List String) (lookup : String → Option OutEntry) : List (String × ℤ) :=
  listing.filterMap fun l => match lookup l with
    | some (.dir mtime _) => if l.toList.head? = some '.' then none else some (l, mtime)
    | _ => none

def rmtree (d : String) : Action :=
  if env.rmtreeFails (join c.setting.output d) then throw .osError
  else modify fun w => { w with outroot := w.outroot.erase d }

/-- `_cleanup_old_directories` (`srcloner.py:224-251`). -/
def cleanupOldDirectories : Action := do
  let w ← get
  let listing := env.listdir w.outroot.keys.toFinset
  let deleteUs := (givenUp Prod.snd c.setting.keep (times listing w.outroot.lookup)).map Prod.fst
  deleteUs.forM (c.rmtree env)

/-- The listing that decides what is there to clone (`srcloner.py:293-329`). -/
def findFiles : EStateM Raised World (List String) := do
  let files := gatherFilelist env c.path
  if c.nightly then pure files
  else do
    c.subdirs.forM fun d =>
      if d ∈ files then pure () else c.exitAndMaybeDefer env ("Run " ++ d ++ " not available")
    match c.subdirs with
    | [] => throw .indexError
    | d :: _ => do
      let distFiles := gatherFilelist env (c.path ++ "/" ++ d)
      if distFiles = [] then do
        c.email ("No dist files found for srid " ++ c.srid)
        throw (.systemExit 1)
      else pure distFiles

/-- The downloads (`srcloner.py:340-346`). -/
def cloneBuilds : Action := do
  if c.needs mac then c.cloneMac env else pure ()
  if c.needs linux then c.cloneLinux env else pure ()
  if c.needs windows then c.cloneWin env else pure ()

def run : Action := do
  let files ← c.findFiles env
  if files = [] then c.exitAndMaybeDefer env ("No files found for " ++ c.srid) else pure ()
  match getPrefix files with
  | none => throw .indexError
  | some pre => modify fun w => { w with filePrefix := pre }
  c.makeOutdir env
  c.cloneBuilds env
  c.cleanupOldDirectories env

end StoneRidgeCloner

/-- A cloner begins with an empty prefix and has told nobody anything. -/
def World.start (outroot : OutRoot) : World := ⟨outroot, "", [], []⟩

end StoneRidge.Cloner
