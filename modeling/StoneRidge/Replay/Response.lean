import StoneRidge.Kit.TextSplit

/-!
# Archived responses as editable texts

`ArchivedHttpResponse` (`httparchive.py:466-653`). The chunks of a response become one text
and are found again in it; an edit of the archive goes through such a text, and loading the
archive checks that every chunk has its delay.
-/

set_option autoImplicit false

namespace StoneRidge.Replay
open StoneRidge.Kit.TextSplit

abbrev Text := List Char

abbrev Header := Text × Text

instance decidableMemText (t : Text) (l : List Text) : Decidable (t ∈ l) :=
  decidable_of_iff ((l.any fun t' => t' = t) = true) (by simp)

variable {τ : Type}

/-- The times before the headers and before each chunk. -/
structure Delays (τ : Type) where
  headers : τ
  data : List τ
  deriving DecidableEq

structure ArchivedHttpResponse (τ : Type) where
  version : ℕ
  status : ℤ
  reason : Text
  headers : List Header
  responseData : List Text
  delays : Delays τ
  deriving DecidableEq

/-- What can be raised: a mismatch of delays and chunks, a stream that `zlib` rejects, a
JSON value that has no delays. -/
inductive Failure where
  | delayMismatch (numDelays expectedNumDelays : ℕ)
  | zlibError
  | notDelays
  deriving DecidableEq

/-! ### Headers -/

namespace ArchivedHttpResponse
variable (r : ArchivedHttpResponse τ)

def getHeader (key : Text) : Option Text :=
  (r.headers.find? fun h => h.1 = key).map Prod.snd

/-- The first header with the key is overwritten, or there is a new one at the end. -/
def setHeaderIn (key value : Text) : List Header → List Header
  | [] => [(key, value)]
  | h :: headers =>
    if h.1 = key then (key, value) :: headers else h :: setHeaderIn key value headers

def setHeader (key value : Text) : ArchivedHttpResponse τ :=
  { r with headers := setHeaderIn key value r.headers }

def isGzip : Bool := r.getHeader "content-encoding".toList = some "gzip".toList

def isCompressed : Bool :=
  r.getHeader "content-encoding".toList = some "gzip".toList ||
    r.getHeader "content-encoding".toList = some "deflate".toList

def isChunked : Bool := r.getHeader "transfer-encoding".toList = some "chunked".toList

/-- The content types that `getDataAsText` accepts. -/
def isText : Bool :=
  match r.getHeader "content-type".toList with
  | none => false
  | some contentType =>
    "text/".toList.isPrefixOf contentType || contentType = "application/x-javascript".toList

/-- `Content-Length` in decimal. -/
def contentLength : Text := Nat.toDigits 10 (r.responseData.map List.length).sum

end ArchivedHttpResponse

def chunkEditSeparator : Text := "[WEB_PAGE_REPLAY_CHUNK_BOUNDARY]".toList

def delayEditSeparator : Text :=
  ("\n[WEB_PAGE_REPLAY_EDIT_ARCHIVE --- Delays are above. Response content is below.]\n").toList

/-! ### The chunks as a text -/

/-- The functions of `httpzlib`; the flag asks for gzip. -/
structure Zlib where
  compressChunks : List Text → Bool → List Text
  uncompressChunks : List Text → Bool → Option (List Text)

section Text
variable (zlib : Zlib) (r : ArchivedHttpResponse τ)

def getDataAsText : Except Failure (Option Text) :=
  if r.isText then
    if r.isCompressed then
      match zlib.uncompressChunks r.responseData r.isGzip with
      | none => .error .zlibError
      | some uncompressedChunks =>
        .ok (some (chunkEditSeparator.intercalate uncompressedChunks))
    else .ok (some (chunkEditSeparator.intercalate r.responseData))
  else .ok none

/-- The chunks of an edited text. -/
def editedChunks (text : Text) : List Text :=
  let textChunks := split chunkEditSeparator text
  if r.isCompressed then zlib.compressChunks textChunks r.isGzip else textChunks

/-- A response that is not chunked tells its length. -/
def withLength : ArchivedHttpResponse τ :=
  if r.isChunked then r else r.setHeader "content-length".toList r.contentLength

def setData (text : Text) : ArchivedHttpResponse τ :=
  withLength { r with responseData := editedChunks zlib r text }

end Text

/-! ### Delays -/

/-- What `json.loads` can return, as far as `fixDelays` goes. -/
inductive Loaded (τ : Type) where
  | falsy
  | delays (delays : Delays τ)
  | other

section Delays
variable [Zero τ]

/-- The delays of a response with so many chunks. -/
def fixDelays (expectedNumDelays : ℕ) : Loaded τ → Except Failure (Delays τ)
  | .falsy => .ok ⟨0, List.replicate expectedNumDelays 0⟩
  | .delays delays =>
    if delays.data.length ≠ expectedNumDelays then
      .error (.delayMismatch delays.data.length expectedNumDelays)
    else .ok delays
  | .other => .error .notDelays

/-- `__setstate__`, which every response goes through when an archive is loaded. -/
def setstate (r : ArchivedHttpResponse τ) : Except Failure (ArchivedHttpResponse τ) := do
  let delays ← fixDelays r.responseData.length (.delays r.delays)
  return { r with delays }

/-- As many delays as chunks. -/
def WellFormed (r : ArchivedHttpResponse τ) : Prop :=
  r.delays.data.length = r.responseData.length

instance decidableWellFormed (r : ArchivedHttpResponse τ) : Decidable (WellFormed r) :=
  inferInstanceAs (Decidable (_ = _))

/-- `json`: nothing is loaded from a text that is not JSON. -/
structure Json (τ : Type) where
  dumps : Delays τ → Text
  loads : Text → Option (Loaded τ)

section Edit
variable (json : Json τ) (zlib : Zlib) (r : ArchivedHttpResponse τ)

def getResponseAsText : Except Failure Text := do
  let data ← getDataAsText zlib r
  return delayEditSeparator.intercalate [json.dumps r.delays, data.getD []]

def setDelays (delaysText : Text) : Except Failure (ArchivedHttpResponse τ) := do
  let delays ← fixDelays r.responseData.length ((json.loads delaysText).getD (.delays r.delays))
  return { r with delays }

/-- A text that does not have two parts is skipped. -/
def setResponseFromText (text : Text) : Except Failure (ArchivedHttpResponse τ) :=
  match split delayEditSeparator text with
  | [delays, data] => do
    let r ← setDelays json r delays
    return setData zlib r data
  | _ => .ok r

end Edit

/-! ### Archives -/

section Archive
variable {ρ : Type} (json : Json τ) (zlib : Zlib)

/-- The first matching response goes through the editor; without one nothing happens. -/
def edit (isMatch : ρ → Bool) (editor : Text → Text) :
    List (ρ × ArchivedHttpResponse τ) → Except Failure (List (ρ × ArchivedHttpResponse τ))
  | [] => .ok []
  | (request, response) :: archive =>
    if isMatch request then do
      let text ← getResponseAsText json zlib response
      let response ← setResponseFromText json zlib response (editor text)
      return (request, response) :: archive
    else do
      let archive ← edit isMatch editor archive
      return (request, response) :: archive

/-- `Load` of what `Persist` has written. -/
def load : List (ρ × ArchivedHttpResponse τ) → Except Failure (List (ρ × ArchivedHttpResponse τ))
  | [] => .ok []
  | (request, response) :: archive => do
    let response ← setstate response
    let archive ← load archive
    return (request, response) :: archive

end Archive

end Delays

end StoneRidge.Replay
