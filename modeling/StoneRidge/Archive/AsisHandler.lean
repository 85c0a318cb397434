import StoneRidge.Archive.UrlParse
import StoneRidge.Kit.PyText
import StoneRidge.Kit.Tables

/-!
# Stored responses

The file that `explode_archive` writes for a response (`tools/wprexplode.py:66-87`), and
what is answered from it to a GET: `ap_scan_script_header_err_core`
(`apache/src/server/util_script.c:403-607`) and `asis_handler`
(`modules/generators/mod_asis.c:31-129`).
-/

set_option autoImplicit false

namespace StoneRidge.Archive
open StoneRidge.Kit.PyText StoneRidge.Kit.Tables

abbrev Header := Text × Text

def lower (t : Text) : Text := t.map Char.toLower

/-! ### The file -/

/-- A response as it was recorded (`wpr/httparchive.py:479-513`): the status has three
digits and the reason is from one line (`python/src/Lib/httplib.py:363-396`). -/
structure ArchivedResponse where
  status : ℕ
  reason : Text
  headers : List Header
  responseData : List Text
  status_digits : 100 ≤ status ∧ status ≤ 999
  reason_line : '\n' ∉ reason
  names : ∀ h ∈ headers, h.1 ≠ [] ∧ ':' ∉ h.1 ∧ '\n' ∉ h.1
  values : ∀ h ∈ headers, '\n' ∉ h.2

/-- The order of tuples. -/
def headerLe (a b : Header) : Bool := decide (a.1 < b.1) || (a.1 = b.1 && !decide (b.2 < a.2))

def isChunked (h : Header) : Bool :=
  lower h.1 = "transfer-encoding".toList && lower h.2 = "chunked".toList

def statusLine (r : ArchivedResponse) : Text :=
  "Status: ".toList ++ (toString r.status).toList ++ ' ' :: r.reason ++ ['\n']

def headerLine (h : Header) : Text := h.1 ++ ": ".toList ++ h.2 ++ ['\n']

/-- The headers in the order in which they are written. -/
def writtenHeaders (r : ArchivedResponse) : List Header :=
  (r.headers.mergeSort headerLe).filter (!isChunked ·)

def asisFile (r : ArchivedResponse) : Text :=
  statusLine r ++ (writtenHeaders r).flatMap headerLine ++ '\n' :: r.responseData.flatten

/-! ### Reading lines -/

/-- `apr_file_gets` with room for `n` characters: the line and the rest of the file. -/
def fileGets : ℕ → Text → Text × Text
  | 0, file => ([], file)
  | _ + 1, [] => ([], [])
  | n + 1, c :: file =>
    if c = '\n' then ([c], file) else (c :: (fileGets n file).1, (fileGets n file).2)

/-- `MAX_STRING_LEN - 1`, and one less for the terminator. -/
def lineRoom : ℕ := 8190

/-- A line without its end, as the C string it is. -/
def chomp (line : Text) : Text :=
  let w := line.takeWhile (· ≠ '\x00')
  match w.reverse with
  | '\n' :: '\r' :: rest => rest.reverse
  | '\n' :: rest => rest.reverse
  | _ => w

theorem fileGets_append (n : ℕ) (file : Text) :
    (fileGets n file).1 ++ (fileGets n file).2 = file := by
  induction n generalizing file with
  | zero => rfl
  | succ n ih =>
    cases file with
    | nil => rfl
    | cons c file =>
      rw [fileGets]
      split
      · rfl
      · rw [List.cons_append, ih]

theorem fileGets_lt {n : ℕ} {file : Text} (hn : 0 < n) (hfile : file ≠ []) :
    (fileGets n file).2.length < file.length := by
  obtain ⟨m, rfl⟩ : ∃ m, n = m + 1 := ⟨n - 1, by omega⟩
  cases file with
  | nil => exact absurd rfl hfile
  | cons c file =>
    rw [fileGets]
    split
    · exact Nat.lt_succ_self _
    · have hlen := congrArg List.length (fileGets_append m file)
      rw [List.length_append] at hlen
      simp only [List.length_cons]
      omega

/-! ### The headers -/

/-- `atoi`. -/
def atoi (l : Text) : ℤ :=
  match l.dropWhile isSpace with
  | '-' :: l => -(Nat.ofDigitChars 10 (l.takeWhile Char.isDigit) 0 : ℤ)
  | '+' :: l => Nat.ofDigitChars 10 (l.takeWhile Char.isDigit) 0
  | l => Nat.ofDigitChars 10 (l.takeWhile Char.isDigit) 0

/-- The white space at the end, but not the first character. -/
def trimEnd : Text → Text
  | [] => []
  | c :: l => c :: (l.reverse.dropWhile isSpace).reverse

/-- `ap_content_type_tolower`: not the parameters. -/
def contentTypeToLower (l : Text) : Text :=
  lower (l.takeWhile (· ≠ ';')) ++ l.dropWhile (· ≠ ';')

/-- `apr_date_parse_http`, `apr_rfc822_date` and the times of a request. -/
structure Dates where
  parseHttp : Text → ℤ
  rfc822 : ℤ → Text
  requestTime : ℤ
  now : ℤ
  rfc822_plain : ∀ t, '\x00' ∉ rfc822 t

/-- `ap_rationalize_mtime`. -/
def Dates.rationalize (d : Dates) (mtime : ℤ) : ℤ :=
  let now := if mtime < d.requestTime then d.requestTime else d.now
  if mtime > now then now else mtime

abbrev Table := List Header

/-- What the handler changes of a request. -/
structure Request where
  status : ℤ
  statusLine : Option Text
  contentType : Option Text
  mtime : ℤ
  headersOut : Table
  errHeadersOut : Table

/-- The request with the tables of the scan. -/
structure Scan extends Request where
  merge : Table
  cookieTable : Table

def Scan.init : Scan := ⟨⟨200, none, none, 0, [], []⟩, [], []⟩

/-- The headers of which the last one counts. -/
def setHeaders : List Text :=
  ["location".toList, "content-length".toList, "content-range".toList, "transfer-encoding".toList]

instance decidableSetHeaders (i : Text) : Decidable (i ∈ setHeaders) := inferInstance

/-- One header: its name and its value without the white space before it. -/
def scanHeader (d : Dates) (s : Scan) (w l : Text) : Scan :=
  if lower w = "content-type".toList then
    { s with contentType := some (contentTypeToLower (trimEnd l)) }
  else if lower w = "status".toList then { s with status := atoi l, statusLine := some l }
  else if lower w ∈ setHeaders then { s with headersOut := set lower s.headersOut w l }
  else if lower w = "last-modified".toList then
    let mtime := max s.mtime (d.parseHttp l)
    { s with
      mtime := mtime
      headersOut := set lower s.headersOut "Last-Modified".toList (d.rfc822 (d.rationalize mtime)) }
  else if lower w = "set-cookie".toList then { s with cookieTable := add s.cookieTable w l }
  else { s with merge := add s.merge w l }

def comma (v w : Text) : Text := v ++ ", ".toList ++ w

/-- At the blank line the headers are merged, and the cookies put in place. -/
def finishScan (s : Scan) : Request :=
  let err := compress lower comma (s.errHeadersOut ++ s.merge)
  { s.toRequest with
    errHeadersOut :=
      if s.cookieTable = [] then err
      else (err.filter fun e => lower e.1 ≠ "set-cookie".toList) ++ s.cookieTable }

/-- `ap_scan_script_header_err`: the request and the rest of the file. A line without a
colon ends it with all of the file read. -/
def scanHeaders (d : Dates) (s : Scan) (file : Text) : Request × Text :=
  if _ : file = [] then (s.toRequest, [])
  else
    let w := chomp (fileGets lineRoom file).1
    if w = [] then (finishScan s, (fileGets lineRoom file).2)
    else if ':' ∈ w then
      scanHeaders d (scanHeader d s (w.takeWhile (· ≠ ':'))
        ((w.dropWhile (· ≠ ':')).tail.dropWhile isSpace)) (fileGets lineRoom file).2
    else (s.toRequest, [])
  termination_by file.length
  decreasing_by exact fileGets_lt (by decide) (by assumption)

/-! ### The handler -/

inductive Outcome where
  | internalRedirect (location : Text)
  /-- The body is passed to the output filters of the request. -/
  | passed (r : Request) (body : Text)

def isRedirect (status : ℤ) : Bool := 300 ≤ status && status < 400

/-- The result of the scan is not looked at. -/
def asisHandler (d : Dates) (file : Text) : Outcome :=
  let (r, body) := scanHeaders d .init file
  match get lower r.headersOut "Location".toList with
  | some ('/' :: location) =>
    if r.status = 200 ∨ isRedirect r.status then .internalRedirect ('/' :: location)
    else .passed r body
  | _ => .passed r body

end StoneRidge.Archive
