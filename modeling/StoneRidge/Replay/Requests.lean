import Mathlib.Data.Char
import Mathlib.Data.List.Lex
import Mathlib.Data.List.Sort
import Mathlib.Data.Prod.Lex
import StoneRidge.Kit.PyText
import StoneRidge.Replay.Response

/-!
# Requests as keys of an archive

`ArchivedHttpRequest` (`httparchive.py:304-464`). Two requests are the same key if they agree
in all but the headers that are trimmed off.
-/

set_option autoImplicit false

namespace StoneRidge.Replay
open StoneRidge.Kit

def lower (t : Text) : Text := t.map Char.toLower

/-- The headers are a dictionary. -/
structure ArchivedHttpRequest where
  command : Text
  host : Text
  path : Text
  requestBody : Option Text
  headers : List Header
  isSsl : Bool
  names : (headers.map Prod.fst).Nodup

def conditionalHeaders : List Text :=
  ["if-none-match".toList, "if-match".toList, "if-modified-since".toList,
    "if-unmodified-since".toList]

def undesirableKeys : List Text :=
  ["accept".toList, "accept-charset".toList, "accept-language".toList, "connection".toList,
    "cookie".toList, "keep-alive".toList, "method".toList, "referer".toList, "scheme".toList,
    "url".toList, "version".toList, "user-agent".toList, "proxy-connection".toList]

/-- The encodings without `sdch`, and without a comma at the end. -/
def cleanEncoding (value : Text) : Text :=
  let value := PyText.without "sdch".toList 0 value
  if value.getLast? = some ',' then value.dropLast else value

def cleanHeader (h : Header) : Header :=
  if h.1 = "accept-encoding".toList then (h.1, cleanEncoding h.2) else h

def isDesirable (h : Header) : Bool := lower h.1 ∉ undesirableKeys

/-- The order of tuples. -/
def headerLe (a b : Header) : Prop := toLex a ≤ toLex b

instance decidableHeaderLe : DecidableRel headerLe := fun a b =>
  inferInstanceAs (Decidable (toLex a ≤ toLex b))

/-- `_TrimHeaders`, after which `headers` is cleaned too. -/
def trimHeaders (headers : List Header) : List Header :=
  (headers.filter isDesirable).insertionSort headerLe

theorem names_clean (headers : List Header) :
    (headers.map cleanHeader).map Prod.fst = headers.map Prod.fst := by
  rw [List.map_map]
  refine List.map_congr_left ?_
  intro h _
  unfold Function.comp cleanHeader
  split <;> rfl

/-- `__init__`. -/
def ArchivedHttpRequest.init (command host path : Text) (requestBody : Option Text)
    (headers : List Header) (isSsl : Bool) (names : (headers.map Prod.fst).Nodup) :
    ArchivedHttpRequest where
  command := command
  host := host
  path := path
  requestBody := requestBody
  headers := headers.map cleanHeader
  isSsl := isSsl
  names := by rwa [names_clean]

/-- `__repr__`, by which requests are compared. -/
structure Key where
  command : Text
  host : Text
  path : Text
  requestBody : Option Text
  trimmedHeaders : List Header
  isSsl : Bool
  deriving DecidableEq

namespace ArchivedHttpRequest
variable (request : ArchivedHttpRequest)

def key : Key :=
  ⟨request.command, request.host, request.path, request.requestBody,
    trimHeaders request.headers, request.isSsl⟩

def header (name : Text) : Option Text :=
  (request.headers.find? fun h => h.1 = name).map Prod.snd

def isConditional : Bool :=
  conditionalHeaders.any fun name => decide (name ∈ request.headers.map Prod.fst)

theorem names_filter {headers : List Header} (p : Header → Bool)
    (h : (headers.map Prod.fst).Nodup) : ((headers.filter p).map Prod.fst).Nodup :=
  h.sublist (List.filter_sublist.map Prod.fst)

def createRequestWithoutConditions : ArchivedHttpRequest :=
  .init request.command request.host request.path request.requestBody
    (request.headers.filter fun h => decide (lower h.1 ∉ conditionalHeaders)) request.isSsl
    (names_filter _ request.names)

end ArchivedHttpRequest

def sampleRequest : ArchivedHttpRequest :=
  .init "GET".toList "example.com".toList ['/'] none [] false List.nodup_nil

end StoneRidge.Replay
