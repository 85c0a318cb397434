import StoneRidge.Archive.UrlParse
import StoneRidge.Kit.PyText
import StoneRidge.Kit.Segments

/-!
# The name the server looks for

From the request line to the text that `splitout_queryargs` hashes
(`apache/src/modules/mappers/mod_rewrite.c:756-830`): `ap_getword_white` and `ap_parse_uri`
(`server/protocol.c:494-535`), `ap_unescape_url` and `ap_getparents` (`server/util.c`,
called in `server/request.c:102-130`), and the rule `^/(.*) /$1 [QSB64]`
(`apache/httpd.conf:38`).
-/

set_option autoImplicit false

namespace StoneRidge.Archive
open StoneRidge.Kit.PyText StoneRidge.Kit.Segments

/-! ### Reading the request -/

/-- A character that a word of the request line can hold. -/
def inWord (c : Char) : Bool := !isSpace c && c ≠ '\x00'

/-- `ap_getword_white`, for a path in the place of the URI. -/
def getword (path : Text) : Text := path.takeWhile inWord

/-- Slashes at the begin of a URI are one. -/
def collapseSlashes : Text → Text
  | '/' :: '/' :: uri => collapseSlashes ('/' :: uri)
  | uri => uri

def parseArgs (uri : Text) : Option Text :=
  match uri.dropWhile inPath with
  | '?' :: query => some (query.takeWhile (· ≠ '#'))
  | _ => none

/-- `ap_parse_uri` for a URI that begins with a slash: the path and the arguments. After
collapsing there is no authority before the path. -/
def parseUri (uri : Text) : Text × Option Text :=
  let uri := collapseSlashes uri
  (if pathPart uri = [] then ['/'] else pathPart uri, parseArgs uri)

/-! ### Percent escapes -/

inductive Status where
  | badRequest
  | notFound
  deriving DecidableEq

def isXdigit (c : Char) : Bool := c.isDigit || ('a' ≤ c && c ≤ 'f') || ('A' ≤ c && c ≤ 'F')

def hexValue (c : Char) : ℕ :=
  if 'A' ≤ c then (c.toNat &&& 0xdf) - 'A'.toNat + 10 else c.toNat - '0'.toNat

def x2c (a b : Char) : Char := Char.ofNat (16 * hexValue a + hexValue b)

structure Unescaped where
  text : Text
  badesc : Bool
  badpath : Bool

/-- The loop of `ap_unescape_url`. -/
def unescape : Text → Unescaped
  | [] => ⟨[], false, false⟩
  | '%' :: a :: b :: url =>
    if isXdigit a && isXdigit b then
      let c := x2c a b
      let u := unescape url
      ⟨c :: u.text, u.badesc, c = '/' || c = '\x00' || u.badpath⟩
    else
      let u := unescape (a :: b :: url)
      ⟨'%' :: u.text, true, u.badpath⟩
  | c :: url =>
    let u := unescape url
    ⟨c :: u.text, c = '%' || u.badesc, u.badpath⟩

def unescapeUrl (url : Text) : Except Status Text :=
  let u := unescape url
  if u.badesc then .error .badRequest else if u.badpath then .error .notFound else .ok u.text

/-! ### Dot segments -/

def atStart (before : Option Char) : Bool := before.all (· = '/')

/-- The first pass of `ap_getparents`, after the character `before`. -/
def removeDots : Option Char → Text → Text
  | before, '.' :: '/' :: name =>
    if atStart before then removeDots (some '/') name
    else '.' :: removeDots (some '.') ('/' :: name)
  | _, c :: name => c :: removeDots (some c) name
  | _, [] => []

/-- The second pass, from the end. -/
def removeLastDot : Text → Text
  | '.' :: name => if atStart name.head? then name else '.' :: name
  | name => name

/-- The third pass: what is before the index, from there backwards, and what is behind. -/
def removeParents : Text → Text → Text
  | before, '.' :: '.' :: '/' :: name =>
    if atStart before.head? then removeParents (before.tail.dropWhile (· ≠ '/')) name
    else removeParents ('.' :: before) ('.' :: '/' :: name)
  | before, c :: name => removeParents (c :: before) name
  | before, [] => before

/-- The fourth pass, from the end. -/
def removeLastParent : Text → Text
  | '.' :: '.' :: name =>
    if atStart name.head? then name.tail.dropWhile (· ≠ '/') else '.' :: '.' :: name
  | name => name

def getparents (name : Text) : Text :=
  let name := (removeLastDot (removeDots none name).reverse).reverse
  (removeLastParent (removeParents [] name)).reverse

/-! ### The rule -/

/-- `^/(.*)` and `/$1`: the dot matches no line break. -/
def rewriteRule : Text → Option Text
  | '/' :: filename => some ('/' :: filename.takeWhile (· ≠ '\n'))
  | _ => none

/-- What is hashed; nothing where a question mark is in the file name. -/
def splitoutQueryargs (filename : Text) (args : Option Text) : Option Text :=
  if '?' ∈ filename then none
  else
    match args with
    | some args => some (filename ++ if args ≠ [] then '?' :: args else [])
    | none => some filename

/-- `ap_process_request_internal` up to the rule, for the path. -/
def translatePath (path : Text) : Option Text :=
  match unescapeUrl path with
  | .error _ => none
  | .ok filename => rewriteRule (getparents filename)

/-- The text that is hashed for a request with this path, if one is. -/
def hashedName (path : Text) : Option Text := do
  let (path, args) := parseUri (getword path)
  let filename ← translatePath path
  splitoutQueryargs filename args

end StoneRidge.Archive
