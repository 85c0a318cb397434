import Mathlib.Data.List.AList
import StoneRidge.Replay.Inject
import StoneRidge.Replay.Requests

/-!
# Answers out of an archive

`HttpArchive.get` with its conditional requests (`httparchive.py:76-175`), and what
`send_archived_http_response` does to a response before it is sent.
-/

set_option autoImplicit false

namespace StoneRidge.Replay
open StoneRidge.Kit StoneRidge.Kit.TextSplit

variable {τ : Type}

abbrev HttpArchive (τ : Type) := AList fun _ : Key => ArchivedHttpResponse τ

/-! ### Responses that are made -/

def responses : List (ℤ × String) :=
  [(100, "Continue"), (101, "Switching Protocols"), (200, "OK"), (201, "Created"),
    (202, "Accepted"), (203, "Non-Authoritative Information"), (204, "No Content"),
    (205, "Reset Content"), (206, "Partial Content"), (300, "Multiple Choices"),
    (301, "Moved Permanently"), (302, "Found"), (303, "See Other"), (304, "Not Modified"),
    (305, "Use Proxy"), (306, "(Unused)"), (307, "Temporary Redirect"), (400, "Bad Request"),
    (401, "Unauthorized"), (402, "Payment Required"), (403, "Forbidden"), (404, "Not Found"),
    (405, "Method Not Allowed"), (406, "Not Acceptable"),
    (407, "Proxy Authentication Required"), (408, "Request Timeout"), (409, "Conflict"),
    (410, "Gone"), (411, "Length Required"), (412, "Precondition Failed"),
    (413, "Request Entity Too Large"), (414, "Request-URI Too Long"),
    (415, "Unsupported Media Type"), (416, "Requested Range Not Satisfiable"),
    (417, "Expectation Failed"), (500, "Internal Server Error"), (501, "Not Implemented"),
    (502, "Bad Gateway"), (503, "Service Unavailable"), (504, "Gateway Timeout"),
    (505, "HTTP Version Not Supported")]

/-- `createResponse(status)`: the body is the status and the reason. -/
def createResponse [Zero τ] (status : ℤ) : ArchivedHttpResponse τ :=
  let reason := ((responses.lookup status).getD "Unknown").toList
  ⟨11, status, reason, [("content-type".toList, "text/plain".toList)],
    [(toString status).toList ++ ' ' :: reason], ⟨0, [0]⟩⟩

/-- `createResponse(200, 'OK', [('content-type', 'application/json')], body)`. -/
def jsonResponse [Zero τ] (body : Text) : ArchivedHttpResponse τ :=
  ⟨11, 200, "OK".toList, [("content-type".toList, "application/json".toList)], [body], ⟨0, [0]⟩⟩

/-- A response that is sent has its length, in the object itself. -/
def complete (r : ArchivedHttpResponse τ) : ArchivedHttpResponse τ :=
  if r.isChunked ∨ (r.getHeader "content-length".toList).isSome then r
  else { r with headers := r.headers ++ [("content-length".toList, r.contentLength)] }

/-! ### Conditional requests -/

/-- `email.utils.parsedate`; the times are compared as tuples. -/
abbrev Parsedate := Text → Option (List ℤ)

def getHeaderCaseInsensitive (r : ArchivedHttpResponse τ) (key : Text) : Option Text :=
  (r.headers.find? fun h => lower key = lower h.1).map Prod.snd

/-- `s.strip('" ')`. -/
def stripQuotes (s : Text) : Text :=
  let inside := fun c : Char => decide (c = '"' ∨ c = ' ')
  ((s.dropWhile inside).reverse.dropWhile inside).reverse

def isEtagMatch (requestEtag responseEtag : Text) : Bool :=
  (requestEtag.splitOn ',').any fun etag =>
    stripQuotes etag = ['*'] || stripQuotes etag = stripQuotes responseEtag

section Conditional
variable (parsedate : Parsedate) (request : ArchivedHttpRequest)

def isGetOrHead : Bool :=
  request.command.map Char.toUpper = "GET".toList || request.command.map Char.toUpper = "HEAD".toList

/-- The status after a date header; a date that cannot be read changes nothing. -/
def dateStatus (lastModified : List ℤ) (status : ℤ) (header : Text) : ℤ :=
  match (request.header header).bind parsedate with
  | none => status
  | some date =>
    if header = "if-modified-since".toList ∧ date < lastModified ∨
        header = "if-unmodified-since".toList ∧ lastModified < date then
      if status ≠ 412 then 200 else status
    else 304

/-- The status after an entity tag header; nothing where the response has no tag, of which
`strip` raises. -/
def etagStatus (responseEtag : Option Text) (status matched unmatched : ℤ) (header : Text) :
    Option ℤ :=
  match request.header header with
  | none => some status
  | some value =>
    if value = [] then some status
    else responseEtag.map fun etag => if isEtagMatch value etag then matched else unmatched

def getConditionalStatus (response : ArchivedHttpResponse τ) : Option ℤ := do
  let lastModified :=
    (getHeaderCaseInsensitive response "last-modified".toList).bind parsedate
  let responseEtag := getHeaderCaseInsensitive response "etag".toList
  let status ← etagStatus request responseEtag 200 200 412 "if-match".toList
  let status ← etagStatus request responseEtag status 304
    (if isGetOrHead request then 200 else 412) "if-none-match".toList
  match lastModified with
  | none => return status
  | some lastModified =>
    if isGetOrHead request then
      return ["if-modified-since".toList, "if-unmodified-since".toList].foldl
        (dateStatus parsedate request lastModified) status
    else return status

/-- What `get` returns: the object that is archived under a key, or a new one. -/
inductive Found (τ : Type) where
  | archived (key : Key) (response : ArchivedHttpResponse τ)
  | made (response : ArchivedHttpResponse τ)
  | nothing
  | raised

/-- `get`. -/
def HttpArchive.find [Zero τ] (archive : HttpArchive τ) : Found τ :=
  match archive.lookup request.key with
  | some response => .archived request.key response
  | none =>
    if request.isConditional then
      let stripped := request.createRequestWithoutConditions.key
      match archive.lookup stripped with
      | none => .nothing
      | some response =>
        if response.status = 200 then
          match getConditionalStatus parsedate request response with
          | none => .raised
          | some status =>
            if status ≠ 200 then .made (createResponse status) else .archived stripped response
        else .archived stripped response
    else .nothing

end Conditional

theorem find_archived [Zero τ] {parsedate : Parsedate} {request : ArchivedHttpRequest}
    {archive : HttpArchive τ} {key : Key} {response : ArchivedHttpResponse τ}
    (h : archive.find parsedate request = .archived key response) :
    archive.lookup key = some response := by
  unfold HttpArchive.find at h
  cases hlookup : archive.lookup request.key with
  | some found =>
    rw [hlookup] at h
    obtain ⟨rfl, rfl⟩ := Found.archived.inj h
    exact hlookup
  | none =>
    simp only [hlookup] at h
    by_cases hconditional : request.isConditional = true
    · rw [if_pos hconditional] at h
      cases hstripped : archive.lookup request.createRequestWithoutConditions.key with
      | none =>
        rw [hstripped] at h
        cases h
      | some found =>
        simp only [hstripped] at h
        split at h
        · split at h
          · cases h
          · split at h
            · cases h
            · obtain ⟨rfl, rfl⟩ := Found.archived.inj h
              exact hstripped
        · obtain ⟨rfl, rfl⟩ := Found.archived.inj h
          exact hstripped
    · rw [if_neg hconditional] at h
      cases h

theorem find_made [Zero τ] {parsedate : Parsedate} {request : ArchivedHttpRequest}
    {archive : HttpArchive τ} {response : ArchivedHttpResponse τ}
    (h : archive.find parsedate request = .made response) :
    ∃ status, response = createResponse status := by
  unfold HttpArchive.find at h
  cases hlookup : archive.lookup request.key with
  | some found =>
    rw [hlookup] at h
    cases h
  | none =>
    simp only [hlookup] at h
    split at h
    · split at h
      · cases h
      · split at h
        · split at h
          · cases h
          · split at h
            · exact ⟨_, (Found.made.inj h).symm⟩
            · cases h
        · cases h
    · cases h

/-! ### Responses with their length -/

section Complete
variable {r : ArchivedHttpResponse τ}

theorem complete_of_length (h : r.isChunked ∨ (r.getHeader "content-length".toList).isSome) :
    complete r = r :=
  if_pos h

theorem complete_of_not (h : ¬ (r.isChunked ∨ (r.getHeader "content-length".toList).isSome)) :
    complete r =
      { r with headers := r.headers ++ [("content-length".toList, r.contentLength)] } :=
  if_neg h

theorem find_append {p : Header → Bool} {headers : List Header} {h : Header} (hp : p h = false) :
    (headers ++ [h]).find? p = headers.find? p := by
  rw [List.find?_append, List.find?_cons_of_neg (by simp [hp])]
  simp

/-- No other header is looked up differently. -/
theorem getHeader_complete {key : Text} (h : key ≠ "content-length".toList) :
    (complete r).getHeader key = r.getHeader key := by
  unfold complete
  split
  · rfl
  · exact congrArg (Option.map Prod.snd) (find_append (decide_eq_false h.symm))

theorem insensitive_complete {key : Text} (h : lower key ≠ "content-length".toList) :
    getHeaderCaseInsensitive (complete r) key = getHeaderCaseInsensitive r key := by
  unfold complete
  split
  · rfl
  · have hlower : lower "content-length".toList = "content-length".toList := by decide
    refine congrArg (Option.map Prod.snd) (find_append (decide_eq_false ?_))
    rw [hlower]
    exact h

theorem status_complete : (complete r).status = r.status := by
  unfold complete
  split <;> rfl

theorem responseData_complete : (complete r).responseData = r.responseData := by
  unfold complete
  split <;> rfl

theorem find_concat {key value : Text} (headers : List Header) :
    ((headers ++ [(key, value)]).find? fun h => h.1 = key).isSome = true := by
  have hlast : [(key, value)].find? (fun h => h.1 = key) = some (key, value) :=
    List.find?_cons_of_pos (decide_eq_true rfl)
  rw [List.find?_append, hlast]
  cases headers.find? fun h => h.1 = key <;> rfl

theorem length_complete :
    (complete r).isChunked ∨ ((complete r).getHeader "content-length".toList).isSome := by
  by_cases h : r.isChunked ∨ (r.getHeader "content-length".toList).isSome
  · rw [complete_of_length h]
    exact h
  · rw [complete_of_not h]
    refine Or.inr ?_
    unfold ArchivedHttpResponse.getHeader
    rw [Option.isSome_map]
    exact find_concat r.headers

theorem complete_complete : complete (complete r) = complete r := complete_of_length length_complete

theorem setHeaderIn_of_none {key value : Text} {headers : List Header}
    (h : headers.find? (fun e => e.1 = key) = none) :
    ArchivedHttpResponse.setHeaderIn key value headers = headers ++ [(key, value)] := by
  induction headers with
  | nil => rfl
  | cons e headers ih =>
    rw [List.find?_cons] at h
    by_cases hkey : e.1 = key
    · rw [decide_eq_true hkey] at h
      cases h
    · rw [decide_eq_false hkey] at h
      rw [ArchivedHttpResponse.setHeaderIn, if_neg hkey, ih h, List.cons_append]

theorem setHeaderIn_concat {key value value' : Text} {headers : List Header}
    (h : headers.find? (fun e => e.1 = key) = none) :
    ArchivedHttpResponse.setHeaderIn key value (headers ++ [(key, value')]) =
      ArchivedHttpResponse.setHeaderIn key value headers := by
  rw [setHeaderIn_of_none h]
  induction headers with
  | nil => simp [ArchivedHttpResponse.setHeaderIn]
  | cons e headers ih =>
    rw [List.find?_cons] at h
    by_cases hkey : e.1 = key
    · rw [decide_eq_true hkey] at h
      cases h
    · rw [decide_eq_false hkey] at h
      rw [List.cons_append, ArchivedHttpResponse.setHeaderIn, if_neg hkey, ih h, List.cons_append]

theorem editedChunks_complete (zlib : Zlib) (text : Text) :
    editedChunks zlib (complete r) text = editedChunks zlib r text := by
  unfold editedChunks ArchivedHttpResponse.isCompressed ArchivedHttpResponse.isGzip
  rw [getHeader_complete (by decide)]

/-- A length that is overwritten does not matter. -/
theorem withLength_concat {chunks : List Text} {value : Text} (hchunked : r.isChunked = false)
    (hlength : r.headers.find? (fun e => e.1 = "content-length".toList) = none) :
    withLength { r with
        headers := r.headers ++ [("content-length".toList, value)], responseData := chunks } =
      withLength { r with responseData := chunks } := by
  have hleft : ({ r with
      headers := r.headers ++ [("content-length".toList, value)], responseData := chunks } :
        ArchivedHttpResponse τ).isChunked = false := by
    have hne : "content-length".toList ≠ "transfer-encoding".toList := by decide
    rw [← hchunked]
    unfold ArchivedHttpResponse.isChunked ArchivedHttpResponse.getHeader
    rw [find_append (decide_eq_false hne)]
  have hright : ({ r with responseData := chunks } : ArchivedHttpResponse τ).isChunked = false :=
    hchunked
  unfold withLength
  rw [hleft, hright, if_neg Bool.false_ne_true, if_neg Bool.false_ne_true]
  unfold ArchivedHttpResponse.setHeader
  rw [setHeaderIn_concat hlength]
  rfl

/-- A new text overwrites the length that was added. -/
theorem setData_complete (zlib : Zlib) (text : Text) :
    setData zlib (complete r) text = setData zlib r text := by
  by_cases h : r.isChunked ∨ (r.getHeader "content-length".toList).isSome
  · rw [complete_of_length h]
  · have hchunks := editedChunks_complete (r := r) zlib text
    rw [complete_of_not h] at hchunks ⊢
    rw [not_or, Option.not_isSome_iff_eq_none, Bool.not_eq_true] at h
    unfold setData
    rw [hchunks]
    exact withLength_concat h.1 (Option.map_eq_none_iff.mp h.2)

end Complete

end StoneRidge.Replay
