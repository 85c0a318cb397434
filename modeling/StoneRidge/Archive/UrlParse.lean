import Mathlib.Data.List.TakeWhile
import Mathlib.Tactic

/-!
# The name of an archived response

`urlparse` (`python/src/Lib/urlparse.py:132-165`) for a request path, and the text that
`explode_archive` hashes (`tools/wprexplode.py:42-60`). A path is its bytes, one character
each. It begins with a slash, so the parser finds no scheme in it.
-/

set_option autoImplicit false

namespace StoneRidge.Archive

abbrev Text := List Char

/-! ### Parsing -/

/-- `url.split(c, 1)`, with nothing for the second part if there is none. -/
def split1 (c : Char) (url : Text) : Text × Text :=
  (url.takeWhile (· ≠ c), (url.dropWhile (· ≠ c)).tail)

def isDelimiter (c : Char) : Bool := c = '/' || c = '?' || c = '#'

/-- `_splitnetloc(url, 2)`. -/
def splitNetloc (url : Text) : Text × Text :=
  ((url.drop 2).takeWhile (!isDelimiter ·), (url.drop 2).dropWhile (!isDelimiter ·))

structure SplitResult where
  netloc : Text
  path : Text
  query : Text
  fragment : Text

/-- One bracket without the other: `Invalid IPv6 URL`. -/
def badBrackets (netloc : Text) : Bool := decide ('[' ∈ netloc) != decide (']' ∈ netloc)

/-- The network location, if there is one, and the rest. -/
def withoutNetloc (url : Text) : Text × Text :=
  if url.take 2 = ['/', '/'] then splitNetloc url else ([], url)

def urlsplit (url : Text) : Option SplitResult :=
  let (netloc, url) := withoutNetloc url
  if badBrackets netloc then none
  else
    let (url, fragment) := split1 '#' url
    let (url, query) := split1 '?' url
    some ⟨netloc, url, query, fragment⟩

/-- What follows the last slash. -/
def lastSegment (url : Text) : Text := (url.reverse.takeWhile (· ≠ '/')).reverse

def directory (url : Text) : Text := (url.reverse.dropWhile (· ≠ '/')).reverse

/-- `_splitparams`: the parameters are those of the last segment. -/
def splitParams (url : Text) : Text × Text :=
  if ';' ∈ lastSegment url then
    (directory url ++ (split1 ';' (lastSegment url)).1, (split1 ';' (lastSegment url)).2)
  else (url, [])

structure ParseResult where
  netloc : Text
  path : Text
  params : Text
  query : Text
  fragment : Text

def urlparse (url : Text) : Option ParseResult := do
  let split ← urlsplit url
  let (path, params) := splitParams split.path
  some ⟨split.netloc, path, params, split.query, split.fragment⟩

/-- The text that is hashed to name the stored file, or nothing where parsing raises. -/
def explodedName (path : Text) : Option Text := do
  let url ← urlparse path
  let name := url.path ++ url.params
  let name := if name = [] then ['/'] else name
  some (if url.query ≠ [] then name ++ '?' :: url.query else name)

/-! ### The parts of a path -/

/-- Neither a query nor a fragment begins here. -/
def inPath (c : Char) : Bool := c ≠ '?' && c ≠ '#'

def pathPart (url : Text) : Text := url.takeWhile inPath

def queryPart (url : Text) : Text :=
  match url.dropWhile inPath with
  | '?' :: query => query.takeWhile (· ≠ '#')
  | _ => []

/-- A query with its question mark, and nothing for an empty one. -/
def withMark (query : Text) : Text := if query = [] then [] else '?' :: query

/-- The path without the semicolon before the parameters. -/
def dropMark (path : Text) : Text := (splitParams path).1 ++ (splitParams path).2

def orSlash (name : Text) : Text := if name = [] then ['/'] else name

section Parts
variable {url path : Text}

theorem split_parts (url : Text) :
    (split1 '?' (split1 '#' url).1).1 = pathPart url ∧
      (split1 '?' (split1 '#' url).1).2 = queryPart url := by
  induction url with
  | nil => exact ⟨rfl, rfl⟩
  | cons c url ih =>
    unfold split1 pathPart queryPart at ih ⊢
    by_cases hhash : c = '#'
    · subst hhash
      exact ⟨by simp [inPath], by simp [inPath]⟩
    · rw [List.takeWhile_cons_of_pos (by simpa using hhash)]
      by_cases hmark : c = '?'
      · subst hmark
        exact ⟨by simp [inPath], by simp [inPath]⟩
      · have hin : inPath c = true := by simp [inPath, hhash, hmark]
        rw [List.takeWhile_cons_of_pos (by simpa using hmark),
          List.dropWhile_cons_of_pos (by simpa using hmark), List.takeWhile_cons_of_pos hin,
          List.dropWhile_cons_of_pos hin]
        exact ⟨congrArg (c :: ·) ih.1, ih.2⟩

/-- Everything but one semicolon of the last segment stays. -/
theorem dropMark_cases (path : Text) :
    (';' ∉ lastSegment path ∧ dropMark path = path) ∨
    (';' ∈ lastSegment path ∧ ∃ a b, path = a ++ ';' :: b ∧ dropMark path = a ++ b) := by
  unfold dropMark splitParams
  by_cases hmem : ';' ∈ lastSegment path
  · obtain ⟨a, b, hseg, ha⟩ := List.eq_append_cons_of_mem hmem
    have hsplit : split1 ';' (lastSegment path) = (a, b) := by
      unfold split1
      rw [hseg, List.takeWhile_append_of_pos, List.dropWhile_append_of_pos]
      · simp
      all_goals
        intro c hc
        rw [decide_eq_true_eq]
        intro heq
        exact ha (heq ▸ hc)
    have hpath : path = directory path ++ lastSegment path := by
      unfold directory lastSegment
      rw [← List.reverse_append, List.takeWhile_append_dropWhile, List.reverse_reverse]
    refine Or.inr ⟨hmem, directory path ++ a, b, ?_, ?_⟩
    · rw [List.append_assoc, ← hseg]
      exact hpath
    · rw [if_pos hmem, hsplit]
  · rw [if_neg hmem, List.append_nil]
    exact Or.inl ⟨hmem, rfl⟩

theorem dropMark_eq_self_iff : dropMark path = path ↔ ';' ∉ lastSegment path := by
  rcases dropMark_cases path with ⟨hsemi, heq⟩ | ⟨hmem, a, b, rfl, heq⟩
  · exact iff_of_true heq hsemi
  · refine iff_of_false ?_ (not_not.mpr hmem)
    intro hsame
    have hlen := congrArg List.length (heq.symm.trans hsame)
    simp at hlen

theorem mem_dropMark {c : Char} (hc : c ≠ ';') : c ∈ dropMark path ↔ c ∈ path := by
  rcases dropMark_cases path with ⟨_, heq⟩ | ⟨_, a, b, rfl, heq⟩
  · rw [heq]
  · rw [heq]
    simp [hc]

end Parts

theorem explodedName_eq (url : Text) : explodedName url =
    if badBrackets (withoutNetloc url).1 then none
    else some (orSlash (dropMark (pathPart (withoutNetloc url).2)) ++
      withMark (queryPart (withoutNetloc url).2)) := by
  obtain ⟨hpath, hquery⟩ := split_parts (withoutNetloc url).2
  unfold explodedName urlparse urlsplit
  simp only [hpath, hquery]
  cases badBrackets (withoutNetloc url).1 with
  | true => rfl
  | false =>
    change some (if queryPart (withoutNetloc url).2 ≠ [] then
      orSlash (dropMark (pathPart (withoutNetloc url).2)) ++ '?' :: queryPart (withoutNetloc url).2
      else orSlash (dropMark (pathPart (withoutNetloc url).2))) = _
    unfold withMark
    by_cases hnil : queryPart (withoutNetloc url).2 = []
    · simp [hnil]
    · simp [hnil]

end StoneRidge.Archive
