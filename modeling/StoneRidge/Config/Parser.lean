import StoneRidge.Kit.Lines
import StoneRidge.Kit.PyText

/-!
# The configuration reader

`RawConfigParser._read` (`python/src/Lib/ConfigParser.py:464-554`),
`SafeConfigParser._interpolate_some` (`:686-732`) with `ConfigParser.get` (`:594-623`), and
`get_config` (`stoneridge.py:164-189`). A file is its bytes, one character each.
-/

set_option autoImplicit false

namespace StoneRidge.Config
open StoneRidge.Kit.Lines StoneRidge.Kit.PyText

abbrev Text := List Char

inductive Error where
  | missingSectionHeader
  | parsing
  | interpolationDepth
  | interpolationSyntax
  | interpolationMissingOption
  deriving DecidableEq

/-! ### Lines -/

def isComment (line : Text) : Bool :=
  strip line = [] || line.head? = some '#' || line.head? = some ';'

/-- `line.split(None, 1)[0].lower() == 'rem' and line[0] in "rR"`. -/
def isRem (line : Text) : Bool :=
  ((line.dropWhile isSpace).takeWhile (!isSpace ·)).map Char.toLower = "rem".toList &&
    (line.head? = some 'r' || line.head? = some 'R')

def startsWithSpace (line : Text) : Bool := line.head?.any isSpace

/-- `SECTCRE`: `[`, some characters, and the first `]`. -/
def sectionHeader (line : Text) : Option Text :=
  match line with
  | '[' :: rest =>
    let header := rest.takeWhile (· ≠ ']')
    if header ≠ [] ∧ ']' ∈ rest then some header else none
  | _ => none

def isSeparator (c : Char) : Bool := c = ':' || c = '='

def rstrip (cs : Text) : Text := (cs.reverse.dropWhile isSpace).reverse

/-- `OPTCRE`: the name up to the first separator, and the value after it. -/
def optionLine (line : Text) : Option (Text × Text) :=
  match line with
  | [] => none
  | c :: _ =>
    if isSeparator c || isSpace c then none
    else
      match line.dropWhile (!isSeparator ·) with
      | [] => none
      | _ :: rest =>
        some ((rstrip (line.takeWhile (!isSeparator ·))).map Char.toLower,
          (rest.dropWhile isSpace).takeWhile (· ≠ '\n'))

/-- The value without a comment: only the first semicolon is looked at, and the character
before it is the last one if there is none. -/
def cutComment (optval : Text) : Text :=
  if ';' ∈ optval then
    let pos := optval.idxOf ';'
    let before := if pos = 0 then optval.getLast? else optval[pos - 1]?
    if before.any isSpace then optval.take pos else optval
  else optval

def optionValue (optval : Text) : Text :=
  let optval := strip (cutComment optval)
  if optval = "\"\"".toList then [] else optval

/-! ### Files -/

/-- The options of a section; while a file is read a value is a list of lines. -/
abbrev Options := Text → Option (List Text)

inductive Section where
  | defaults
  | named (name : Text)
  deriving DecidableEq

structure Reading where
  sections : Text → Option Options
  defaults : Options
  cursect : Option Section
  optname : Option Text
  /-- Whether there were lines that are no options. -/
  failed : Bool

def Reading.modify (r : Reading) (s : Section) (f : Options → Options) : Reading :=
  match s with
  | .defaults => { r with defaults := f r.defaults }
  | .named name => { r with sections := Function.update r.sections name ((r.sections name).map f) }

def Reading.enter (r : Reading) (sectname : Text) : Reading :=
  if (r.sections sectname).isSome then
    { r with cursect := some (.named sectname), optname := none }
  else if sectname = "DEFAULT".toList then { r with cursect := some .defaults, optname := none }
  else
    { r with
      sections := Function.update r.sections sectname
        (some (Function.update (fun _ => none) "__name__".toList (some [sectname])))
      cursect := some (.named sectname)
      optname := none }

/-- The loop body, for one line. -/
def readLine (r : Reading) (line : Text) : Except Error Reading :=
  if isComment line then .ok r
  else if isRem line then .ok r
  else
    match startsWithSpace line, r.cursect, r.optname with
    | true, some s, some name =>
      .ok (r.modify s fun options =>
        Function.update options name ((options name).map (· ++ [strip line])))
    | _, cursect, _ =>
      match sectionHeader line with
      | some sectname => .ok (r.enter sectname)
      | none =>
        match cursect with
        | none => .error .missingSectionHeader
        | some s =>
          match optionLine line with
          | some (optname, optval) =>
            .ok { r.modify s fun options =>
                Function.update options optname (some [optionValue optval]) with
              optname := some optname }
          | none => .ok { r with failed := true }

/-- The parser between files: its values are joined. -/
structure ConfigParser where
  sections : Text → Option (Text → Option Text)
  defaults : Text → Option Text

def ConfigParser.empty : ConfigParser := ⟨fun _ => none, fun _ => none⟩

def joined (options : Options) : Text → Option Text :=
  fun name => (options name).map (List.intercalate ['\n'])

def Reading.begin (cp : ConfigParser) : Reading where
  sections := fun name => (cp.sections name).map fun options o => (options o).map ([·])
  defaults := fun o => (cp.defaults o).map ([·])
  cursect := none
  optname := none
  failed := false

def read (cp : ConfigParser) (file : Text) : Except Error ConfigParser := do
  let r ← (readlines '\n' file).foldlM readLine (.begin cp)
  if r.failed then .error .parsing
  else .ok ⟨fun name => (r.sections name).map joined, joined r.defaults⟩

/-! ### Values -/

/-- The name and the rest after `%(`, where `%\(([^)]+)\)s` matches. -/
def interpolationVariable (rest : Text) : Option (Text × Text) :=
  match rest.dropWhile (· ≠ ')') with
  | ')' :: 's' :: rest' =>
    if rest.takeWhile (· ≠ ')') = [] then none else some (rest.takeWhile (· ≠ ')'), rest')
  | _ => none

theorem interpolationVariable_length {rest name rest' : Text}
    (h : interpolationVariable rest = some (name, rest')) : rest'.length < rest.length := by
  unfold interpolationVariable at h
  split at h
  · rename_i tail hdrop
    split at h
    · cases h
    · cases h
      have hlen := (List.dropWhile_suffix (l := rest) (· ≠ ')')).length_le
      rw [hdrop, List.length_cons, List.length_cons] at hlen
      omega
  · cases h

/-- The value of `rest`; `left` bounds how deep values are still interpolated in values. -/
def interpolateSome (map : Text → Option Text) (left : ℕ) (rest : Text) : Except Error Text :=
  match left, rest with
  | 0, _ => .error .interpolationDepth
  | _ + 1, [] => .ok []
  | left + 1, '%' :: '%' :: rest => do
    let value ← interpolateSome map (left + 1) rest
    .ok ('%' :: value)
  | left + 1, '%' :: '(' :: rest =>
    match hvar : interpolationVariable rest with
    | none => .error .interpolationSyntax
    | some (name, rest') =>
      have _hlen : rest'.length < rest.length := interpolationVariable_length hvar
      match map (name.map Char.toLower) with
      | none => .error .interpolationMissingOption
      | some v => do
        let inner ← (if '%' ∈ v then interpolateSome map left v else .ok v)
        let value ← interpolateSome map (left + 1) rest'
        .ok (inner ++ value)
  | left + 1, c :: rest =>
    if c = '%' then .error .interpolationSyntax
    else do
      let value ← interpolateSome map (left + 1) rest
      .ok (c :: value)
  termination_by (left, rest.length)
  decreasing_by
  all_goals simp_wf
  all_goals
    first
    | exact Prod.Lex.left _ _ (Nat.lt_succ_self _)
    | exact Prod.Lex.right _ (by omega)

def maxInterpolationDepth : ℕ := 10

/-- `_cp.get`, nothing where it raises that there is no such section or option. -/
def ConfigParser.get (cp : ConfigParser) (sectname option : Text) : Except Error (Option Text) :=
  if (cp.sections sectname).isNone ∧ sectname ≠ "DEFAULT".toList then .ok none
  else
    let map : Text → Option Text := fun o =>
      ((cp.sections sectname).bind fun options => options o).or (cp.defaults o)
    match map (option.map Char.toLower) with
    | none => .ok none
    | some value => (interpolateSome map maxInterpolationDepth value).map some

/-- `get_config(section, option)` after the run's configuration is read on top of the
stone ridge configuration. -/
def getConfig (main : ConfigParser) (runconf sectname option : Text) :
    Except Error (Option Text) := do
  let cp ← read main runconf
  cp.get sectname option

end StoneRidge.Config
