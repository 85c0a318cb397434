import StoneRidge.Archive.AsisHandler
import StoneRidge.Kit.Fields

/-!
# The output filters

What the client gets of what a handler passes on: `ap_content_length_filter`
(`apache/src/server/protocol.c:1253-1350`) and `ap_http_header_filter`
(`modules/http/http_filters.c:1105-1330`), for a GET of HTTP/1.0 or later that asks for no
range, as `apache/httpd.conf` configures them. The padding of `terminate_header` is no
header of the answer.
-/

set_option autoImplicit false

namespace StoneRidge.Archive
open StoneRidge.Kit.Fields StoneRidge.Kit.PyText StoneRidge.Kit.Tables

/-- The connection that a request comes from. -/
structure Connection where
  /-- `ap_get_server_banner`. -/
  server : Text
  /-- Whether it may be kept as far as the response is not concerned. -/
  mayPersist : Bool
  /-- The client has sent the token, and what is sent back. -/
  keepAliveSent : Bool
  keepAlive : Text
  server_plain : '\x00' ∉ server
  keepAlive_plain : '\x00' ∉ keepAlive

structure Answer where
  statusLine : Text
  headers : Table
  body : Text

def Answer.status (a : Answer) : ℤ := atoi a.statusLine

/-! ### The status line -/

/-- `status_lines`, the first line of each level with the next one's. -/
def levels : List (ℕ × ℕ) := [(0, 3), (3, 11), (11, 19), (19, 46), (46, 57)]

def statusLines : List Text := [
  "100 Continue", "101 Switching Protocols", "102 Processing", "200 OK", "201 Created",
  "202 Accepted", "203 Non-Authoritative Information", "204 No Content", "205 Reset Content",
  "206 Partial Content", "207 Multi-Status", "300 Multiple Choices", "301 Moved Permanently",
  "302 Found", "303 See Other", "304 Not Modified", "305 Use Proxy", "306 unused",
  "307 Temporary Redirect", "400 Bad Request", "401 Authorization Required",
  "402 Payment Required", "403 Forbidden", "404 Not Found", "405 Method Not Allowed",
  "406 Not Acceptable", "407 Proxy Authentication Required", "408 Request Time-out",
  "409 Conflict", "410 Gone", "411 Length Required", "412 Precondition Failed",
  "413 Request Entity Too Large", "414 Request-URI Too Large", "415 Unsupported Media Type",
  "416 Requested Range Not Satisfiable", "417 Expectation Failed", "418 unused", "419 unused",
  "420 unused", "421 unused", "422 Unprocessable Entity", "423 Locked", "424 Failed Dependency",
  "425 No code", "426 Upgrade Required", "500 Internal Server Error",
  "501 Method Not Implemented", "502 Bad Gateway", "503 Service Temporarily Unavailable",
  "504 Gateway Time-out", "505 HTTP Version Not Supported", "506 Variant Also Negotiates",
  "507 Insufficient Storage", "508 unused", "509 unused", "510 Not Extended"].map String.toList

def level500 : ℕ := 46

/-- The loop of `ap_index_of_response`. -/
def indexFrom : List (ℕ × ℕ) → ℤ → ℕ
  | [], _ => level500
  | (pos, next) :: rest, status =>
    let status := status - 100
    if status < 100 then
      if pos + status.toNat < next then pos + status.toNat else level500
    else indexFrom rest status

def indexOfResponse (status : ℤ) : ℕ := if status < 100 then level500 else indexFrom levels status

def getStatusLine (status : ℤ) : Text := statusLines.getD (indexOfResponse status) []

/-- What `apr_strtoi64` reads of a text. -/
def readNumber (t : Text) : Text :=
  let space := t.takeWhile isSpace
  let sign := ((t.dropWhile isSpace).take 1).filter (· ∈ ['-', '+'])
  let digits := ((t.dropWhile isSpace).drop sign.length).takeWhile Char.isDigit
  if digits = [] then [] else space ++ sign ++ digits

def validateStatusLine (status : ℤ) (statusLine : Option Text) : Option Text :=
  statusLine.filter fun line =>
    decide (4 < line.length) && decide (atoi line = status) &&
      decide ((line.drop (readNumber line).length).head? = some ' ') &&
      decide ((readNumber line).length = 3)

/-! ### The headers -/

def isTokenStop (c : Char) : Bool :=
  c ≠ '\x00' && (c.toNat < 32 || c.toNat = 127 || c ∈ " \t()<>@,;:\\\"/[]?=".toList ||
    c ∈ ['\x7b', '\x7d'])

/-- `ap_find_token`, for which the beginning of the token is enough. -/
def findToken (line : Option Text) (tok : Text) : Bool :=
  line.any fun line => (fields isTokenStop line).any fun t => (lower t).isPrefixOf (lower tok)

def isFieldSep (c : Char) : Bool := c = ',' || isSpace c

def varyFields (v : Text) : List Text := fields isFieldSep v

def fixupVary (headersOut : Table) : Table :=
  let varies := distinct lower ((values lower headersOut (lower "Vary".toList)).flatMap varyFields)
  if varies = [] then headersOut
  else set lower headersOut "Vary".toList ([','].intercalate varies)

/-- `ap_status_drops_connection`. -/
def dropsConnection (status : ℤ) : Bool := status ∈ [400, 408, 411, 413, 414, 500, 503, 501]

/-- Whether `ap_set_keepalive` keeps the connection; a content length is there. -/
def Connection.persists (conn : Connection) (status : ℤ) (wimpy : Bool) : Bool :=
  conn.mayPersist && !dropsConnection status && !wimpy

def setKeepalive (conn : Connection) (status : ℤ) (headersOut : Table) : Table :=
  let wimpy := findToken (get lower headersOut "Connection".toList) "close".toList
  if conn.persists status wimpy then
    if conn.keepAliveSent then
      merge lower comma (set lower headersOut "Keep-Alive".toList conn.keepAlive)
        "Connection".toList "Keep-Alive".toList
    else headersOut
  else if wimpy then headersOut
  else merge lower comma headersOut "Connection".toList "close".toList

def defaultContentType : Text := "text/plain".toList
def noContentType : Text := "none".toList

def setContentType (contentType : Option Text) (headersOut : Table) : Table :=
  let ctype := contentType.getD defaultContentType
  if lower ctype = noContentType then headersOut
  else set lower headersOut "Content-Type".toList ctype

/-- The headers that are sent with status 304. -/
def notModifiedHeaders : List Text :=
  ["Connection", "Keep-Alive", "ETag", "Content-Location", "Expires", "Cache-Control", "Vary",
    "Warning", "WWW-Authenticate", "Proxy-Authenticate", "Set-Cookie", "Set-Cookie2"].map
      String.toList

def sentHeaders (status : ℤ) (headersOut : Table) : Table :=
  if status = 304 then
    notModifiedHeaders.flatMap fun name => headersOut.filter fun e => lower e.1 = lower name
  else headersOut

/-- `ap_set_content_length`. -/
def setContentLength (r : Request) (length : ℕ) : Request :=
  { r with
    headersOut := set lower r.headersOut "Content-Length".toList (toString length).toList }

/-- The two tables of a request as one, with what the filter makes of it. -/
def filteredHeaders (conn : Connection) (r : Request) : Table :=
  setContentType r.contentType
    (setKeepalive conn r.status (fixupVary (r.errHeadersOut ++ r.headersOut)))

def headerFilter (d : Dates) (conn : Connection) (r : Request) (body : Text) : Answer where
  statusLine := (validateStatusLine r.status r.statusLine).getD (getStatusLine r.status)
  headers := ("Date".toList, d.rfc822 d.requestTime) :: ("Server".toList, conn.server) ::
    sentHeaders r.status
      (unset lower (unset lower (filteredHeaders conn r) "Date".toList) "Server".toList)
  body := body

def outputFilters (d : Dates) (conn : Connection) (r : Request) (body : Text) : Answer :=
  headerFilter d conn (setContentLength r body.length) body

/-! ### What the status line says -/

/-- The statuses that the server has a line for. -/
def isKnown (status : ℕ) : Bool :=
  100 ≤ status && status ≤ 102 || 200 ≤ status && status ≤ 207 ||
    300 ≤ status && status ≤ 307 || 400 ≤ status && status ≤ 426 || 500 ≤ status && status ≤ 510

theorem atoi_getStatusLine {status : ℕ} (h : status ≤ 999) :
    atoi (getStatusLine status) = if isKnown status then (status : ℤ) else 500 := by
  have hall : ∀ n ∈ List.range 1000,
      atoi (getStatusLine n) = if isKnown n then (n : ℤ) else 500 := by decide +kernel
  exact hall status (List.mem_range.mpr (by omega))

/-! ### What the filters leave -/

/-- The fields of a Vary value, each once. -/
def variedText (v : Text) : Text := [','].intercalate (distinct lower (varyFields v))

/-- The same for several values; nothing is changed if there are no fields. -/
def varied (vs : List Text) : List Text :=
  let varies := distinct lower (vs.flatMap varyFields)
  if varies = [] then vs else [[','].intercalate varies]

/-- Whether the first Connection value asks for the end of the connection. -/
def closes (vs : List Text) : Bool := findToken vs.head? "close".toList

/-- What is added to the Connection value. -/
def Connection.token (conn : Connection) (status : ℤ) (wimpy : Bool) : Option Text :=
  if conn.persists status wimpy then
    if conn.keepAliveSent then some "Keep-Alive".toList else none
  else if wimpy then none else some "close".toList

/-- What the server itself puts under an index, whatever was there. -/
def generated (d : Dates) (conn : Connection) (status : ℤ) (wimpy : Bool) (length : ℕ)
    (i : Text) : Option Text :=
  if i = "date".toList then some (d.rfc822 d.requestTime)
  else if i = "server".toList then some conn.server
  else if i = "content-length".toList then some (toString length).toList
  else if i = "keep-alive".toList ∧ conn.persists status wimpy && conn.keepAliveSent then
    some conn.keepAlive
  else none

def isSent (status : ℤ) (i : Text) : Bool :=
  status ≠ 304 || (["date".toList, "server".toList] ++ notModifiedHeaders.map lower).contains i

/-- What is left of the values under an index that the server does not generate. -/
def filtered (conn : Connection) (status : ℤ) (wimpy : Bool) (ctype i : Text) (vs : List Text) :
    List Text :=
  if i = "content-type".toList then if lower ctype = noContentType then vs else [ctype]
  else if i = "vary".toList then varied vs
  else if i = "connection".toList then (conn.token status wimpy).elim vs (joinFirst comma vs)
  else vs

section Filters
variable {d : Dates} {conn : Connection} {r : Request} {table : Table} {status : ℤ} {i : Text}

theorem values_fixupVary : values lower (fixupVary table) i =
    if i = "vary".toList then varied (values lower table i) else values lower table i := by
  have hname : lower "Vary".toList = "vary".toList := by decide
  unfold fixupVary varied
  simp only [hname]
  by_cases hi : i = "vary".toList
  · rw [if_pos hi, hi]
    split
    · rfl
    · rw [← hname, values_set_self]
  · rw [if_neg hi]
    split
    · rfl
    · exact values_set_of_ne lower (by rw [hname]; exact hi)

theorem values_setKeepalive {wimpy : Bool}
    (hwimpy : closes (values lower table "connection".toList) = wimpy) :
    values lower (setKeepalive conn status table) i =
    if i = "connection".toList then
      (conn.token status wimpy).elim (values lower table i) (joinFirst comma (values lower table i))
    else if i = "keep-alive".toList ∧ conn.persists status wimpy && conn.keepAliveSent then
      [conn.keepAlive]
    else values lower table i := by
  have hconn : lower "Connection".toList = "connection".toList := by decide
  have hkeep : lower "Keep-Alive".toList = "keep-alive".toList := by decide
  have hne : "connection".toList ≠ "keep-alive".toList := by decide
  unfold closes at hwimpy
  unfold setKeepalive Connection.token
  rw [get_eq_head?, hconn, hwimpy]
  simp only
  by_cases hpersists : conn.persists status wimpy = true
  · rw [if_pos hpersists, if_pos hpersists]
    by_cases hsent : conn.keepAliveSent = true
    · rw [if_pos hsent, if_pos hsent]
      by_cases hi : i = "connection".toList
      · rw [if_pos hi, hi, ← hconn, values_merge_self,
          values_set_of_ne lower (by rw [hconn, hkeep]; exact hne)]
        rfl
      · rw [if_neg hi, values_merge_of_ne lower comma (by rw [hconn]; exact hi), hpersists, hsent]
        by_cases hi' : i = "keep-alive".toList
        · rw [if_pos ⟨hi', rfl⟩, hi', ← hkeep, values_set_self]
        · rw [if_neg fun h => hi' h.1, values_set_of_ne lower (by rw [hkeep]; exact hi')]
    · rw [if_neg hsent, if_neg hsent]
      have hnone : ¬ (i = "keep-alive".toList ∧
          (conn.persists status wimpy && conn.keepAliveSent) = true) := by
        simp [hsent]
      rw [if_neg hnone]
      split <;> rfl
  · rw [if_neg hpersists, if_neg hpersists]
    have hnone : ¬ (i = "keep-alive".toList ∧
        (conn.persists status wimpy && conn.keepAliveSent) = true) := by
      simp [hpersists]
    rw [if_neg hnone]
    by_cases hwimpy : wimpy = true
    · rw [if_pos hwimpy, if_pos hwimpy]
      split <;> rfl
    · rw [if_neg hwimpy, if_neg hwimpy]
      by_cases hi : i = "connection".toList
      · rw [if_pos hi, hi, ← hconn, values_merge_self]
        rfl
      · rw [if_neg hi, values_merge_of_ne lower comma (by rw [hconn]; exact hi)]

theorem values_setContentType {contentType : Option Text} :
    values lower (setContentType contentType table) i =
      if i = "content-type".toList ∧ lower (contentType.getD defaultContentType) ≠ noContentType
      then [contentType.getD defaultContentType] else values lower table i := by
  have hname : lower "Content-Type".toList = "content-type".toList := by decide
  unfold setContentType
  simp only
  by_cases hnone : lower (contentType.getD defaultContentType) = noContentType
  · rw [if_pos hnone, if_neg fun h => h.2 hnone]
  · rw [if_neg hnone]
    by_cases hi : i = "content-type".toList
    · rw [if_pos ⟨hi, hnone⟩, hi, ← hname, values_set_self]
    · rw [if_neg fun h => hi h.1, values_set_of_ne lower (by rw [hname]; exact hi)]

theorem values_flatMap {names : List Text} (hnames : (names.map lower).Nodup) :
    values lower (names.flatMap fun name => table.filter fun e => lower e.1 = lower name) i =
      if i ∈ names.map lower then values lower table i else [] := by
  induction names with
  | nil => rfl
  | cons name names ih =>
    rw [List.map_cons, List.nodup_cons] at hnames
    have hfilter := values_filter lower (fun j => decide (j = lower name)) table i
    simp only [decide_eq_true_eq] at hfilter
    rw [List.flatMap_cons, values_append, ih hnames.2, hfilter]
    simp only [List.map_cons, List.mem_cons]
    by_cases hi : i = lower name
    · rw [if_pos hi, if_pos (Or.inl hi), if_neg (hi ▸ hnames.1), List.append_nil]
    · rw [if_neg hi, List.nil_append]
      simp only [hi, false_or]

theorem isSent_iff : isSent status i = true ↔ i ∈ ["date".toList, "server".toList] ∨
    ¬ (status = 304 ∧ i ∉ notModifiedHeaders.map lower) := by
  unfold isSent
  rw [Bool.or_eq_true, decide_eq_true_eq, List.contains_iff_mem, List.mem_append, not_and_or,
    not_not]
  exact or_left_comm

theorem values_sentHeaders : values lower (sentHeaders status table) i =
    if status = 304 ∧ i ∉ notModifiedHeaders.map lower then [] else values lower table i := by
  have hnames : (notModifiedHeaders.map lower).Nodup := by decide
  unfold sentHeaders
  by_cases hstatus : status = 304
  · rw [if_pos hstatus, values_flatMap hnames]
    by_cases hi : i ∈ notModifiedHeaders.map lower
    · rw [if_pos hi, if_neg fun h => h.2 hi]
    · rw [if_neg hi, if_pos ⟨hstatus, hi⟩]
  · rw [if_neg hstatus, if_neg fun h => hstatus h.1]

theorem values_setContentLength (length : ℕ) :
    values lower ((setContentLength r length).errHeadersOut ++
        (setContentLength r length).headersOut) i =
      values lower r.errHeadersOut i ++ if i = "content-length".toList then
        [(toString length).toList] else values lower r.headersOut i := by
  have hname : lower "Content-Length".toList = "content-length".toList := by decide
  unfold setContentLength
  rw [values_append]
  congr 1
  by_cases hi : i = "content-length".toList
  · rw [if_pos hi, hi, ← hname, values_set_self]
  · rw [if_neg hi, values_set_of_ne lower (by rw [hname]; exact hi)]

/-- The values that both tables of a request have under an index. -/
def Request.held (r : Request) (i : Text) : List Text :=
  values lower (r.errHeadersOut ++ r.headersOut) i

def Request.wimpy (r : Request) : Bool := closes (r.held "connection".toList)

theorem values_filteredHeaders (d : Dates) (hi : i ∉ ["date".toList, "server".toList])
    {length : ℕ} (hlength : values lower r.errHeadersOut "content-length".toList = []) :
    values lower (filteredHeaders conn (setContentLength r length)) i =
      (generated d conn r.status r.wimpy length i).elim
        (filtered conn r.status r.wimpy (r.contentType.getD defaultContentType) i (r.held i))
        fun v => [v] := by
  have hconn : values lower ((setContentLength r length).errHeadersOut ++
      (setContentLength r length).headersOut) "connection".toList =
        r.held "connection".toList := by
    rw [values_setContentLength, if_neg (by decide), ← values_append]
    rfl
  have hdate : i ≠ "date".toList ∧ i ≠ "server".toList := by simpa using hi
  have hvary : "connection".toList ≠ "vary".toList := by decide
  have hwimpy : closes (values lower (fixupVary ((setContentLength r length).errHeadersOut ++
      (setContentLength r length).headersOut)) "connection".toList) = r.wimpy := by
    rw [values_fixupVary, if_neg hvary, hconn]
    rfl
  have hstatus : (setContentLength r length).status = r.status := rfl
  have hctype : (setContentLength r length).contentType = r.contentType := rfl
  unfold filteredHeaders generated filtered
  rw [values_setContentType, values_setKeepalive hwimpy, hstatus, hctype, if_neg hdate.1,
    if_neg hdate.2, values_fixupVary, values_setContentLength]
  have hheld : values lower r.errHeadersOut i ++ values lower r.headersOut i = r.held i :=
    (values_append lower).symm
  have hnames : ["content-length".toList, "keep-alive".toList, "content-type".toList,
    "vary".toList, "connection".toList].Nodup := by decide
  revert hlength hheld hnames
  generalize "content-length".toList = cl, "keep-alive".toList = ka, "content-type".toList = ct,
    "vary".toList = vary, "connection".toList = co
  intro hlength hheld hnames
  simp only [List.nodup_cons, List.mem_cons, List.not_mem_nil, or_false, not_or] at hnames
  obtain ⟨⟨h1, h2, h3, h4⟩, ⟨h5, h6, h7⟩, ⟨h8, h9⟩, h10, -⟩ := hnames
  by_cases hcl : i = cl
  · subst hcl
    simp [h1, h2, h3, h4, hlength]
  by_cases hka : i = ka
  · subst hka
    simp only [hcl, h5, h6, h7, hheld, true_and, false_and, if_false]
    split <;> rfl
  by_cases hct : i = ct
  · subst hct
    simp only [hcl, hka, h8, h9, hheld, true_and, false_and, if_false, if_true, ite_not]
    rfl
  simp only [hcl, hka, hct, false_and, if_false, hheld]
  by_cases hvary : i = vary
  · subst hvary
    simp only [h10, if_false, if_true]
    rfl
  by_cases hco : i = co
  · subst hco
    simp only [hvary, if_false, if_true]
    rfl
  simp only [hvary, hco, if_false]
  rfl

theorem values_unset_both {t : Table}
    (ht : t = unset lower (unset lower table "Date".toList) "Server".toList) :
    (i ∈ ["date".toList, "server".toList] → values lower t i = []) ∧
      (i ∉ ["date".toList, "server".toList] → values lower t i = values lower table i) := by
  have hdate : lower "Date".toList = "date".toList := by decide
  have hserver : lower "Server".toList = "server".toList := by decide
  have hne : "date".toList ≠ "server".toList := by decide
  subst ht
  rw [List.mem_pair, not_or]
  constructor
  · intro h
    rcases h with rfl | rfl
    · rw [values_unset_of_ne lower (by rw [hserver]; exact hne), ← hdate, values_unset_self]
    · rw [← hserver, values_unset_self]
  · intro ⟨h, h'⟩
    rw [values_unset_of_ne lower (by rw [hserver]; exact h'),
      values_unset_of_ne lower (by rw [hdate]; exact h)]

theorem values_outputFilters (body : Text)
    (hlength : values lower r.errHeadersOut "content-length".toList = []) :
    values lower (outputFilters d conn r body).headers i =
      if isSent r.status i then
        (generated d conn r.status r.wimpy body.length i).elim
          (filtered conn r.status r.wimpy (r.contentType.getD defaultContentType) i (r.held i))
          fun v => [v]
      else [] := by
  have hdate : lower "Date".toList = "date".toList := by decide
  have hserver : lower "Server".toList = "server".toList := by decide
  have hne : "date".toList ≠ "server".toList := by decide
  have hstatus : (setContentLength r body.length).status = r.status := rfl
  unfold outputFilters headerFilter
  simp only
  rw [values_cons, values_cons, hdate, hserver, hstatus]
  generalize ht : unset lower (unset lower (filteredHeaders conn (setContentLength r body.length))
    "Date".toList) "Server".toList = t
  obtain ⟨hunset, hother⟩ := values_unset_both (i := i) ht.symm
  by_cases hi : i ∈ ["date".toList, "server".toList]
  · rw [values_sentHeaders, hunset hi, ite_self, if_pos (isSent_iff.mpr (Or.inl hi))]
    unfold generated
    rcases List.mem_pair.mp hi with rfl | rfl
    · rw [if_pos rfl, if_neg (Ne.symm hne), if_pos rfl]
      rfl
    · rw [if_neg hne, if_pos rfl, if_neg (Ne.symm hne), if_pos rfl]
      rfl
  · have hne' : "date".toList ≠ i ∧ "server".toList ≠ i := by
      rw [List.mem_pair, not_or] at hi
      exact ⟨Ne.symm hi.1, Ne.symm hi.2⟩
    rw [if_neg hne'.1, if_neg hne'.2, values_sentHeaders, hother hi,
      values_filteredHeaders d hi hlength]
    by_cases hsent : isSent r.status i = true
    · rw [if_pos hsent, if_neg ((isSent_iff.mp hsent).resolve_left hi)]
    · rw [isSent_iff, not_or, not_not] at hsent
      rw [if_pos hsent.2, if_neg]
      rw [isSent_iff, not_or, not_not]
      exact hsent

end Filters

end StoneRidge.Archive
