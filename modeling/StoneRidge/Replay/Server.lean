import StoneRidge.Kit.Machine
import StoneRidge.Replay.Store

/-!
# The record and replay server

Requests that are handled in threads of their own (`httpproxy.py:134-160`): the custom
handlers (`customhandlers.py:61-183`), the fetches of either mode (`httpclient.py:216-374`),
and the callbacks by which the mode is changed (`servermanager.py:78-108`, `replay.py:87-119`).
A fetch from the network and a change of mode can overlap with other requests.
-/

set_option autoImplicit false

namespace StoneRidge.Replay
open StoneRidge.Kit

variable {τ : Type}

/-! ### The custom handlers -/

def commonUrlPrefix : Text := "/web-page-replay-".toList

def commandUrlPrefix : Text := commonUrlPrefix ++ "command-".toList

def generatorUrlPrefix : Text := commonUrlPrefix ++ "generate-".toList

/-- What the handlers make of a request; `nothing` goes to the archive. -/
inductive Handled where
  | generated (status : ℤ)
  | setMode (isRecordMode : Bool)
  | status
  | nothing
  deriving DecidableEq

def getGeneratorUrlResponseCode (urlSuffix : Text) : Handled :=
  match PyText.int? (String.ofList urlSuffix) with
  | some responseCode => .generated responseCode
  | none => .nothing

def handleServerManagerCommand (urlSuffix : Text) : Handled :=
  if urlSuffix = "record".toList then .setMode true
  else if urlSuffix = "replay".toList then .setMode false
  else if urlSuffix = "status".toList then .status
  else .nothing

/-- `handle`: the first handler whose prefix matches decides. -/
def customHandle (request : ArchivedHttpRequest) : Handled :=
  if generatorUrlPrefix.isPrefixOf request.path then
    getGeneratorUrlResponseCode (request.path.drop generatorUrlPrefix.length)
  else if commandUrlPrefix.isPrefixOf request.path then
    handleServerManagerCommand (request.path.drop commandUrlPrefix.length)
  else .nothing

/-! ### The server -/

structure Setup where
  zlib : Zlib
  parsedate : Parsedate
  injectScript : Text

inductive Callback where
  | clearArchive
  | initializeArchiveHosts
  | setFetch (isRecordMode : Bool)
  deriving DecidableEq

/-- The functions in the order in which they are appended. -/
def recordCallbacks : List Callback := [.clearArchive, .initializeArchiveHosts, .setFetch true]

def replayCallbacks : List Callback := [.initializeArchiveHosts, .setFetch false]

/-- Besides the data, the requests that wait for the network, and the commands with the
callbacks that have not been called yet. -/
structure Server (τ : Type) where
  isRecordMode : Bool
  fetchRecordMode : Bool
  archive : HttpArchive τ
  archiveHosts : List Text
  fetching : List ArchivedHttpRequest
  commands : List (ArchivedHttpRequest × List Callback)
  answers : List (ArchivedHttpRequest × Option (ArchivedHttpResponse τ))

/-- The hosts of an archive, as the name server is asked for them. -/
def hosts (archive : HttpArchive τ) : List Text := archive.keys.map fun key => key.host ++ ['.']

/-- `replay` with a loaded archive, or with an empty one in record mode. -/
def Server.start (isRecordMode : Bool) (archive : HttpArchive τ) : Server τ where
  isRecordMode := isRecordMode
  fetchRecordMode := isRecordMode
  archive := archive
  archiveHosts := hosts archive
  fetching := []
  commands := []
  answers := []

/-- `PrivateIpDnsLookup`. -/
def dnsLookup {ι : Type} (webProxyIp : ι) (realDnsLookup : Text → Option ι)
    (isPrivate : ι → Bool) (s : Server τ) (host : Text) : Option ι :=
  if host ∈ s.archiveHosts then some webProxyIp
  else (realDnsLookup host).map fun realIp => if isPrivate realIp then realIp else webProxyIp

section Fetch
variable (setup : Setup) (isRecordMode : Bool)

/-- The copy that is sent instead of the archived response. In record mode an empty script is
not looked for. -/
def copyOf (response : ArchivedHttpResponse τ) : Except Failure (Option (ArchivedHttpResponse τ)) :=
  if isRecordMode ∧ setup.injectScript = [] then .ok none
  else injectedCopy setup.zlib setup.injectScript response

/-- What is sent for a response; nothing where the handler raises. -/
def sent (response : ArchivedHttpResponse τ) : Option (ArchivedHttpResponse τ) :=
  match copyOf setup isRecordMode response with
  | .error _ => none
  | .ok copy => some (complete (copy.getD response))

def Server.answer (request : ArchivedHttpRequest) (response : Option (ArchivedHttpResponse τ))
    (s : Server τ) : Server τ :=
  { s with answers := s.answers ++ [(request, response)] }

/-- A response out of the archive: without a copy the archived object gets its length. -/
def Server.serve (request : ArchivedHttpRequest) (key : Key) (response : ArchivedHttpResponse τ)
    (s : Server τ) : Server τ :=
  let archive := match copyOf setup isRecordMode response with
    | .ok none => s.archive.insert key (complete response)
    | _ => s.archive
  Server.answer request (sent setup isRecordMode response) { s with archive }

variable [Zero τ]

def notFound : ArchivedHttpResponse τ := complete (createResponse 404)

/-- `ReplayHttpArchiveFetch`. -/
def Server.replayFetch (request : ArchivedHttpRequest) (s : Server τ) : Server τ :=
  match s.archive.find setup.parsedate request with
  | .archived key response => s.serve setup false request key response
  | .made response => s.answer request (sent setup false response)
  | .nothing => s.answer request (some notFound)
  | .raised => s.answer request none

/-- `RecordHttpArchiveFetch`, up to the fetch from the network. -/
def Server.recordFetch (request : ArchivedHttpRequest) (s : Server τ) : Server τ :=
  match s.archive.lookup request.key with
  | some response => s.serve setup true request request.key response
  | none => { s with fetching := s.fetching ++ [request] }

/-- The rest of it; nothing came where every attempt failed. -/
def Server.fetched (i : ℕ) (response : Option (ArchivedHttpResponse τ)) (s : Server τ) :
    Option (Server τ) :=
  (s.fetching[i]?).map fun request =>
    let s := { s with fetching := s.fetching.eraseIdx i }
    match response with
    | none => s.answer request (some notFound)
    | some response =>
      Server.serve setup true request request.key response
        { s with archive := s.archive.insert request.key response }

def Server.call (callback : Callback) (s : Server τ) : Server τ :=
  match callback with
  | .clearArchive => { s with archive := ∅ }
  | .initializeArchiveHosts => { s with archiveHosts := hosts s.archive }
  | .setFetch isRecordMode => { s with fetchRecordMode := isRecordMode }

/-- The next callback of a command, which is answered after its last one. -/
def Server.callback (i : ℕ) (s : Server τ) : Option (Server τ) :=
  match s.commands[i]? with
  | some (request, callback :: callbacks) =>
    if callbacks = [] then
      some (Server.answer request (some (complete (createResponse 200)))
        { s.call callback with commands := s.commands.eraseIdx i })
    else some { s.call callback with commands := s.commands.set i (request, callbacks) }
  | _ => none

/-- `JsonResponse({'isRecordMode': ...})`. -/
def statusResponse (isRecordMode : Bool) : ArchivedHttpResponse τ :=
  jsonResponse (("\x7b\"isRecordMode\": " ++ if isRecordMode then "true\x7d" else "false\x7d").toList)

/-- `do_GET`. -/
def Server.request (request : ArchivedHttpRequest) (s : Server τ) : Server τ :=
  match customHandle request with
  | .generated status => s.answer request (some (complete (createResponse status)))
  | .setMode isRecordMode =>
    { s with
      isRecordMode
      commands := s.commands ++
        [(request, if isRecordMode then recordCallbacks else replayCallbacks)] }
  | .status => s.answer request (some (complete (statusResponse s.isRecordMode)))
  | .nothing => if s.fetchRecordMode then s.recordFetch setup request else s.replayFetch setup request

inductive Event (τ : Type) where
  | request (request : ArchivedHttpRequest)
  | fetched (i : ℕ) (response : Option (ArchivedHttpResponse τ))
  | callback (i : ℕ)

def step : Event τ → Server τ → Option (Server τ)
  | .request request, s => some (s.request setup request)
  | .fetched i response, s => s.fetched setup i response
  | .callback i, s => s.callback i

/-- A request that is no command to record. -/
def Event.Keeps (e : Event τ) : Prop :=
  ∀ request, e = .request request → customHandle request ≠ .setMode true

end Fetch

def sampleSetup : Setup := ⟨sampleZlib, fun _ => none, "x".toList⟩

end StoneRidge.Replay
