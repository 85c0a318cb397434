import StoneRidge.Kit.Files
import StoneRidge.Kit.PosixPath

/-!
# Shell patterns

`fnmatch.translate` and `glob.glob` of the Python library. A pattern is compiled first,
which fails where its regular expression is not a valid one. If the directory part of a
pattern is a pattern too, the directories are themselves looked for.
-/

set_option autoImplicit false

namespace StoneRidge.Kit.Glob
open StoneRidge.Kit.Files StoneRidge.Kit.PyText StoneRidge.Kit.PosixPath

inductive Piece where
  | star
  | any
  | char (c : Char)
  | set (negated : Bool) (ranges : List (Char × Char))
  deriving DecidableEq, Repr

def Piece.accepts (d : Char) : Piece → Bool
  | .star => false
  | .any => true
  | .char c => c = d
  | .set negated ranges => (ranges.any fun r => r.1 ≤ d && d ≤ r.2) != negated

/-- The inside of `[...]`; a range that runs backwards is an error. -/
def ranges? : List Char → Option (List (Char × Char))
  | [] => some []
  | c :: '-' :: d :: cs => if c ≤ d then (ranges? cs).map ((c, d) :: ·) else none
  | c :: cs => (ranges? cs).map ((c, c) :: ·)

def set? : List Char → Option Piece
  | '!' :: cs => (ranges? cs).map (.set true)
  | cs => (ranges? cs).map (.set false)

/-- What stands behind a `[` before the `]` that closes it. -/
def bracketed (cs : List Char) : Option (List Char) :=
  let j := if cs.head? = some '!' then 1 else 0
  let j := if (cs.drop j).head? = some ']' then j + 1 else j
  if ']' ∈ cs.drop j then some (cs.take (j + (cs.drop j).idxOf ']')) else none

/-- The first `skip` characters belong to a set that has been read. -/
def translate : ℕ → List Char → Option (List Piece)
  | _, [] => some []
  | skip + 1, _ :: cs => translate skip cs
  | 0, c :: cs =>
    if c = '*' then (translate 0 cs).map (.star :: ·)
    else if c = '?' then (translate 0 cs).map (.any :: ·)
    else if c = '[' then
      match bracketed cs with
      | none => (translate 0 cs).map (.char '[' :: ·)
      | some stuff => do
        let set ← set? stuff
        (translate (stuff.length + 1) cs).map (set :: ·)
    else (translate 0 cs).map (.char c :: ·)

def accepts : List Piece → List Char → Bool
  | [], cs => cs.isEmpty
  | .star :: ps, cs => cs.tails.any (accepts ps)
  | _ :: _, [] => false
  | p :: ps, c :: cs => p.accepts c && accepts ps cs

def isMagic (c : Char) : Bool := c ∈ ['*', '?', '[']

def hasMagic (s : String) : Bool := s.toList.any isMagic

/-- `posixpath.split`. -/
def split (p : String) : String × String :=
  let head := (p.toList.reverse.dropWhile (· ≠ '/')).reverse
  let tail := (p.toList.reverse.takeWhile (· ≠ '/')).reverse
  if head.all (· = '/') then (String.ofList head, String.ofList tail)
  else (String.ofList (head.reverse.dropWhile (· = '/')).reverse, String.ofList tail)

def basename (p : String) : String := (split p).2

/-- What a pattern asks of the file system. -/
structure Access where
  listdir : String → Option (List String)
  lexists : String → Bool
  isdir : String → Bool

section Glob
variable (fs : Access)

def glob1 (dirname pattern : String) : Option (List String) :=
  match fs.listdir (if dirname = "" then "." else dirname) with
  | none => some []
  | some names =>
    let names := if isHidden pattern then names else names.filter (!isHidden ·)
    (translate 0 pattern.toList).map fun pieces => names.filter fun x => accepts pieces x.toList

def glob0 (dirname basename : String) : List String :=
  if basename = "" then if fs.isdir dirname then [basename] else []
  else if fs.lexists (join dirname basename) then [basename] else []

/-- The names found in a list of directories. -/
def globIn (dirs : List String) (basename : String) : Option (List String) :=
  (dirs.mapM fun dirname =>
    (if hasMagic basename then glob1 fs dirname basename
      else some (glob0 fs dirname basename)).map (·.map (join dirname))).map List.flatten

/-- Each directory part is shorter than the pattern, so its length bounds the depth. -/
def iglob : ℕ → String → Option (List String)
  | 0, _ => some []
  | depth + 1, pathname =>
    if !hasMagic pathname then some (if fs.lexists pathname then [pathname] else [])
    else
      let (dirname, basename) := split pathname
      if dirname = "" then glob1 fs "." basename
      else
        (if hasMagic dirname then iglob depth dirname else some [dirname]).bind
          (globIn fs · basename)

/-- Nothing where a part of the pattern cannot be compiled. -/
def glob (pathname : String) : Option (List String) :=
  if pathname = "" then some [] else iglob fs pathname.toList.length pathname

/-- The directory part of a pattern for the entries of `dir`. -/
def dirPart (dir : String) : String := (split (join dir "")).1

/-- The names that a directory is known to have. -/
def Access.names (dirname : String) : List String :=
  (fs.listdir (if dirname = "" then "." else dirname)).getD []

/-- The directories in which a pattern for the entries of `dir` is looked for. -/
def Access.looked (dir : String) : Option (List String) :=
  if dirPart dir = "" then some ["."]
  else if hasMagic (dirPart dir) then glob fs (dirPart dir) else some [dirPart dir]

/-- The names in some directories that the pattern `pre*post` matches. -/
def Access.matching (dirs : List String) (pre post : String) : List String :=
  dirs.flatMap fun dirname => (fs.names dirname).filter (globbed pre post)

end Glob

section Depth
variable {fs : Access} {p : String}

/-- A directory part that is a pattern has lost the slash behind it. -/
theorem split_length (h : hasMagic (split p).1 = true) :
    (split p).1.toList.length < p.toList.length := by
  have hle : (p.toList.reverse.dropWhile (· ≠ '/')).length ≤ p.toList.length := by
    have hsuffix := (List.dropWhile_suffix (l := p.toList.reverse) (· ≠ '/')).length_le
    rwa [List.length_reverse] at hsuffix
  unfold split at h ⊢
  cases hhead : p.toList.reverse.dropWhile (· ≠ '/') with
  | nil =>
    rw [hhead] at h
    cases h
  | cons c cs =>
    have hc : c = '/' := by
      have hnot := List.head?_dropWhile_not (· ≠ '/') p.toList.reverse
      rw [hhead] at hnot
      simpa using hnot
    rw [hhead] at h hle
    simp only [List.reverse_reverse] at h ⊢
    split at h
    next hall =>
      -- slashes only, and no pattern
      exfalso
      unfold hasMagic at h
      rw [String.toList_ofList, List.any_eq_true] at h
      obtain ⟨d, hd, hmagic⟩ := h
      rw [of_decide_eq_true (List.all_eq_true.mp hall d hd)] at hmagic
      exact absurd hmagic (by decide)
    next hall =>
      rw [if_neg hall, String.toList_ofList, List.length_reverse,
        List.dropWhile_cons_of_pos (by simp [hc])]
      have hsuffix := (List.dropWhile_suffix (l := cs) (· = '/')).length_le
      rw [List.length_cons] at hle
      omega

/-- A greater depth finds nothing more. -/
theorem iglob_of_le {depth : ℕ} (hne : p ≠ "") (h : p.toList.length ≤ depth) :
    iglob fs depth p = glob fs p := by
  induction hlen : p.toList.length using Nat.strong_induction_on generalizing p depth with
  | _ n ih =>
    subst hlen
    have hpos : 0 < p.toList.length := by
      rw [List.length_pos_iff, ne_eq, String.toList_eq_nil_iff]
      exact hne
    obtain ⟨k, hk⟩ := Nat.exists_eq_succ_of_ne_zero hpos.ne'
    obtain ⟨d, rfl⟩ := Nat.exists_eq_succ_of_ne_zero (hpos.trans_le h).ne'
    unfold glob
    rw [if_neg hne, hk, iglob, iglob]
    by_cases hmagic : hasMagic (split p).1 = true
    · have hlt := split_length hmagic
      by_cases hdir : (split p).1 = ""
      · simp only [hdir, ite_true]
      · simp only [hdir, hmagic, ite_true, ite_false]
        rw [ih _ hlt hdir (by omega) rfl, ih _ hlt hdir (by omega) rfl]
    · simp only [hmagic, Bool.false_eq_true, ite_false]

theorem glob_eq (hmagic : hasMagic p = true) : glob fs p =
    if (split p).1 = "" then glob1 fs "." (split p).2
    else (if hasMagic (split p).1 then glob fs (split p).1 else some [(split p).1]).bind
      (globIn fs · (split p).2) := by
  have hne : p ≠ "" := by
    intro h
    rw [h] at hmagic
    cases hmagic
  rw [← iglob_of_le hne (Nat.le_succ _), iglob, hmagic]
  simp only [Bool.not_true, Bool.false_eq_true, ite_false]
  by_cases hdir : (split p).1 = ""
  · rw [if_pos hdir, if_pos hdir]
  · rw [if_neg hdir, if_neg hdir]
    split
    next hpart => rw [iglob_of_le hdir (split_length hpart).le]
    next => rfl

end Depth

/-! ### Patterns with one star -/

section Star
variable {pre post cs : List Char} {ps : List Piece}

theorem translate_char {c : Char} (hc : isMagic c = false) (cs : List Char) :
    translate 0 (c :: cs) = (translate 0 cs).map (.char c :: ·) := by
  unfold isMagic at hc
  simp only [List.mem_cons, List.not_mem_nil, or_false, decide_eq_false_iff_not, not_or] at hc
  rw [translate, if_neg hc.1, if_neg hc.2.1, if_neg hc.2.2]

theorem translate_plain (h : ∀ c ∈ pre, isMagic c = false) (cs : List Char) :
    translate 0 (pre ++ cs) = (translate 0 cs).map (pre.map .char ++ ·) := by
  induction pre with
  | nil => simp
  | cons c pre ih =>
    rw [List.cons_append, translate_char (h c List.mem_cons_self),
      ih fun d hd => h d (List.mem_cons_of_mem _ hd), Option.map_map]
    rfl

theorem translate_star (hpre : ∀ c ∈ pre, isMagic c = false)
    (hpost : ∀ c ∈ post, isMagic c = false) :
    translate 0 (pre ++ '*' :: post) = some (pre.map .char ++ .star :: post.map .char) := by
  have hrest := translate_plain hpost []
  rw [List.append_nil] at hrest
  rw [translate_plain hpre, translate, if_pos rfl, hrest]
  simp [translate]

theorem accepts_chars_append : accepts (pre.map .char ++ ps) cs = true ↔
    ∃ rest, cs = pre ++ rest ∧ accepts ps rest = true := by
  induction pre generalizing cs with
  | nil => simp
  | cons c pre ih =>
    cases cs with
    | nil => simp [accepts]
    | cons d cs =>
      have hstep : accepts (.char c :: (pre.map .char ++ ps)) (d :: cs) =
          ((Piece.char c).accepts d && accepts (pre.map .char ++ ps) cs) := rfl
      rw [List.map_cons, List.cons_append, hstep, Bool.and_eq_true, ih]
      simp only [Piece.accepts, decide_eq_true_eq, List.cons_append, List.cons.injEq]
      constructor
      · intro ⟨hc, rest, hrest, hps⟩
        exact ⟨rest, ⟨hc.symm, hrest⟩, hps⟩
      · intro ⟨rest, ⟨hc, hrest⟩, hps⟩
        exact ⟨hc.symm, rest, hrest, hps⟩

theorem accepts_chars : accepts (post.map .char) cs = true ↔ cs = post := by
  have h : accepts (post.map .char ++ []) cs = true ↔
      ∃ rest, cs = post ++ rest ∧ accepts [] rest = true := accepts_chars_append
  rw [List.append_nil] at h
  rw [h]
  constructor
  · intro ⟨rest, hcs, hrest⟩
    rw [accepts, List.isEmpty_iff] at hrest
    rw [hcs, hrest, List.append_nil]
  · intro hcs
    exact ⟨[], by rw [hcs, List.append_nil], rfl⟩

theorem accepts_star : accepts (pre.map .char ++ .star :: post.map .char) cs = true ↔
    ∃ filled, cs = pre ++ (filled ++ post) := by
  rw [accepts_chars_append]
  constructor
  · intro ⟨rest, hcs, hrest⟩
    rw [accepts, List.any_eq_true] at hrest
    obtain ⟨t, ht, hpost⟩ := hrest
    obtain ⟨filled, hfilled⟩ := (List.mem_tails _ _).mp ht
    rw [accepts_chars.mp hpost] at hfilled
    exact ⟨filled, by rw [hcs, hfilled]⟩
  · intro ⟨filled, hcs⟩
    refine ⟨filled ++ post, hcs, ?_⟩
    rw [accepts, List.any_eq_true]
    exact ⟨post, (List.mem_tails _ _).mpr (List.suffix_append _ _), accepts_chars.mpr rfl⟩

end Star

section Names
variable {fs : Access} {pre post dir pat : String} {names : List String}

theorem glob1_star (hpre : hasMagic pre = false) (hpost : hasMagic post = false)
    (hvisible : isHidden pre = false) (hne : dir ≠ "") (hlist : fs.listdir dir = some names) :
    glob1 fs dir (pre ++ "*" ++ post) = some (names.filter (globbed pre post)) := by
  have hplain : ∀ {s : String}, hasMagic s = false → ∀ c ∈ s.toList, isMagic c = false := by
    intro s hs c hc
    unfold hasMagic at hs
    rw [List.any_eq_false] at hs
    exact Bool.eq_false_iff.mpr (hs c hc)
  have hpattern : (pre ++ "*" ++ post).toList = pre.toList ++ '*' :: post.toList := by simp
  have hhidden : isHidden (pre ++ "*" ++ post) = false := by
    unfold isHidden at hvisible ⊢
    rw [hpattern]
    cases hlist : pre.toList with
    | nil => rfl
    | cons c cs =>
      rw [hlist] at hvisible
      exact hvisible
  unfold glob1
  rw [if_neg hne, hlist]
  simp only [hhidden, hpattern, translate_star (hplain hpre) (hplain hpost), Option.map_some,
    Bool.false_eq_true, ite_false, List.filter_filter]
  congr 1
  apply List.filter_congr
  intro x _
  rw [Bool.eq_iff_iff, Bool.and_eq_true, accepts_star]
  unfold globbed
  simp only [Bool.and_eq_true, decide_eq_true_eq, List.isPrefixOf_iff_prefix, endsWith_iff]
  constructor
  · intro ⟨⟨filled, hx⟩, hshown⟩
    refine ⟨⟨⟨hshown, hx ▸ List.prefix_append _ _⟩, ?_⟩, ?_⟩
    · rw [hx, ← List.append_assoc]
      exact List.suffix_append _ _
    · rw [hx]
      simp only [List.length_append]
      omega
  · intro ⟨⟨⟨hshown, rest, hrest⟩, hends⟩, hlen⟩
    refine ⟨?_, hshown⟩
    rw [← hrest] at hends hlen ⊢
    rw [List.length_append] at hlen
    obtain ⟨filled, hfilled⟩ :=
      List.suffix_of_suffix_length_le hends (List.suffix_append _ _) (by omega)
    exact ⟨filled, by rw [hfilled]⟩

end Names

/-! ### Patterns for the entries of any directory -/

section Entries
variable {fs : Access} {dir pat pre post : String}

theorem split_append {x : String} (hx : x.toList = [] ∨ x.toList.getLast? = some '/')
    (hpat : '/' ∉ pat.toList) : split (x ++ pat) = ((split x).1, pat) := by
  have hrev : (x ++ pat).toList.reverse = pat.toList.reverse ++ x.toList.reverse := by simp
  have hpre : ∀ c ∈ pat.toList.reverse, decide (c ≠ '/') = true := by
    intro c hc
    rw [decide_eq_true_eq]
    intro heq
    exact hpat (heq ▸ List.mem_reverse.mp hc)
  have hstop : x.toList.reverse.dropWhile (· ≠ '/') = x.toList.reverse ∧
      x.toList.reverse.takeWhile (· ≠ '/') = [] := by
    cases hlist : x.toList.reverse with
    | nil => exact ⟨rfl, rfl⟩
    | cons c cs =>
      have hc : c = '/' := by
        rcases hx with hnil | hlast
        · rw [hnil] at hlist
          cases hlist
        · rw [List.getLast?_eq_head?_reverse, hlist] at hlast
          exact Option.some.inj hlast
      exact ⟨List.dropWhile_cons_of_neg (by simp [hc]), List.takeWhile_cons_of_neg (by simp [hc])⟩
  have hdrop : (x ++ pat).toList.reverse.dropWhile (· ≠ '/') = x.toList.reverse := by
    rw [hrev, List.dropWhile_append_of_pos hpre, hstop.1]
  have htake : (x ++ pat).toList.reverse.takeWhile (· ≠ '/') = pat.toList.reverse := by
    rw [hrev, List.takeWhile_append_of_pos hpre, hstop.2, List.append_nil]
  unfold split
  simp only [hdrop, htake, hstop.1, List.reverse_reverse, String.ofList_toList]
  split
  · rfl
  · rfl

theorem join_eq_append_empty (dir : String) (hpat : '/' ∉ pat.toList) :
    join dir pat = join dir "" ++ pat := by
  have hempty : isAbs "" = false := rfl
  unfold join
  rw [isAbs_eq_false_of_no_slash hpat, hempty]
  simp only [Bool.false_eq_true, ite_false]
  split
  · rw [String.append_empty]
  · rw [String.append_empty]

theorem split_join (dir : String) (hpat : '/' ∉ pat.toList) :
    split (join dir pat) = (dirPart dir, pat) := by
  obtain ⟨x, hx, heq⟩ := join_eq_append dir "" List.not_mem_nil
  rw [String.append_empty] at heq
  rw [join_eq_append_empty dir hpat, dirPart, heq]
  exact split_append hx hpat

theorem basename_join (dir : String) (hpat : '/' ∉ pat.toList) :
    basename (join dir pat) = pat := by
  unfold basename
  rw [split_join dir hpat]

theorem basename_plain (hpat : '/' ∉ pat.toList) : basename pat = pat := by
  have hjoin : join "" pat = pat := by
    unfold join
    rw [isAbs_eq_false_of_no_slash hpat]
    simp
  have hname := basename_join "" hpat
  rwa [hjoin] at hname

theorem join_entry (hne : dir ≠ "") (hlast : dir.toList.getLast? ≠ some '/')
    (hpat : '/' ∉ pat.toList) : join dir pat = dir ++ "/" ++ pat := by
  unfold join
  rw [isAbs_eq_false_of_no_slash hpat, if_neg Bool.false_ne_true, if_neg]
  intro h
  rcases h with h | h
  · exact hne (String.toList_eq_nil_iff.mp h)
  · exact hlast h

/-- A directory that is not named with a slash at its end. -/
theorem dirPart_eq (hne : dir ≠ "") (hlast : dir.toList.getLast? ≠ some '/') :
    dirPart dir = dir := by
  have hrev : (dir ++ "/" ++ "").toList.reverse = '/' :: dir.toList.reverse := by simp
  obtain ⟨c, cs, hdir⟩ : ∃ c cs, dir.toList.reverse = c :: cs := by
    cases h : dir.toList.reverse with
    | nil =>
      rw [List.reverse_eq_nil_iff, String.toList_eq_nil_iff] at h
      exact absurd h hne
    | cons c cs => exact ⟨c, cs, rfl⟩
  have hc : c ≠ '/' := by
    intro heq
    rw [List.getLast?_eq_head?_reverse, hdir, heq] at hlast
    exact hlast rfl
  have hdrop : ('/' :: dir.toList.reverse).dropWhile (· ≠ '/') = '/' :: dir.toList.reverse :=
    List.dropWhile_cons_of_neg (by simp)
  unfold dirPart split
  rw [join_entry hne hlast List.not_mem_nil]
  simp only [hrev, hdrop]
  rw [if_neg]
  · simp only [List.reverse_reverse, hdir]
    rw [List.dropWhile_cons_of_pos (by simp), List.dropWhile_cons_of_neg (by simp [hc]), ← hdir,
      List.reverse_reverse, String.ofList_toList]
  · rw [List.all_eq_true]
    intro hall
    have hmem : c ∈ ('/' :: dir.toList.reverse).reverse := by
      rw [hdir]
      simp
    exact hc (of_decide_eq_true (hall c hmem))

theorem hasMagic_append (a b : String) : hasMagic (a ++ b) = (hasMagic a || hasMagic b) := by
  unfold hasMagic
  rw [String.toList_append, List.any_append]

theorem hasMagic_join {a b : String} (ha : hasMagic a = false) (hb : hasMagic b = false) :
    hasMagic (join a b) = false := by
  unfold join
  split_ifs
  · exact hb
  · rw [hasMagic_append, ha, hb]
    rfl
  · rw [hasMagic_append, hasMagic_append, ha, hb]
    rfl

theorem hasMagic_join_right (dir : String) (hpat : '/' ∉ pat.toList) (h : hasMagic pat = true) :
    hasMagic (join dir pat) = true := by
  rw [join_eq_append_empty dir hpat, hasMagic_append, h, Bool.or_true]

theorem glob_entry (hne : dir ≠ "") (hlast : dir.toList.getLast? ≠ some '/')
    (hdir : hasMagic dir = false) (hpat : '/' ∉ pat.toList) (hmagic : hasMagic pat = true) :
    glob fs (join dir pat) = (glob1 fs dir pat).map (·.map (join dir)) := by
  rw [glob_eq (hasMagic_join_right dir hpat hmagic), split_join dir hpat, dirPart_eq hne hlast]
  simp only [Bool.false_eq_true, ite_false, hne, hdir, Option.bind_some, globIn, hmagic, ite_true,
    List.mapM_cons, List.mapM_nil]
  cases glob1 fs dir pat with
  | none => rfl
  | some found => simp

theorem glob1_names (dirname : String) (hpre : hasMagic pre = false) (hpost : hasMagic post = false)
    (hvisible : isHidden pre = false) : glob1 fs dirname (pre ++ "*" ++ post) =
      some ((fs.names dirname).filter (globbed pre post)) := by
  have hplace : glob1 fs dirname (pre ++ "*" ++ post) =
      glob1 fs (if dirname = "" then "." else dirname) (pre ++ "*" ++ post) := by
    by_cases hempty : dirname = ""
    · rw [if_pos hempty, hempty]
      rfl
    · rw [if_neg hempty]
  have hne : (if dirname = "" then "." else dirname) ≠ "" := by
    split
    · decide
    · assumption
  rw [hplace]
  unfold Access.names
  cases hlist : fs.listdir (if dirname = "" then "." else dirname) with
  | none =>
    unfold glob1
    rw [if_neg hne, hlist]
    rfl
  | some names => exact glob1_star hpre hpost hvisible hne hlist

theorem hasMagic_star (pre post : String) : hasMagic (pre ++ "*" ++ post) = true := by
  unfold hasMagic
  simp [isMagic]

theorem globIn_names (dirs : List String) (hpre : hasMagic pre = false)
    (hpost : hasMagic post = false) (hvisible : isHidden pre = false) :
    globIn fs dirs (pre ++ "*" ++ post) = some (dirs.flatMap fun dirname =>
      ((fs.names dirname).filter (globbed pre post)).map (join dirname)) := by
  unfold globIn
  rw [hasMagic_star]
  simp only [ite_true, glob1_names _ hpre hpost hvisible, Option.map_some]
  induction dirs with
  | nil => rfl
  | cons dirname dirs ih =>
    obtain ⟨found, hfound, hflatten⟩ := Option.map_eq_some_iff.mp ih
    rw [List.mapM_cons, hfound, List.flatMap_cons, ← hflatten]
    rfl

theorem glob_join (dir : String) (hpre : hasMagic pre = false) (hpost : hasMagic post = false)
    (hvisible : isHidden pre = false) (hslash : '/' ∉ (pre ++ "*" ++ post).toList)
    (hplain : ∀ dirname, ∀ n ∈ fs.names dirname, '/' ∉ n.toList) :
    (glob fs (join dir (pre ++ "*" ++ post))).map (·.map basename) =
      (fs.looked dir).map fun dirs => fs.matching dirs pre post := by
  have hnames : ∀ dirname, (((fs.names dirname).filter (globbed pre post)).map (join dirname)).map
      basename = (fs.names dirname).filter (globbed pre post) := by
    intro dirname
    rw [List.map_map]
    refine (List.map_congr_left fun n hn => ?_).trans (List.map_id _)
    exact basename_join dirname (hplain dirname n (List.mem_filter.mp hn).1)
  rw [glob_eq (hasMagic_join_right dir hslash (hasMagic_star pre post)), split_join dir hslash]
  unfold Access.looked Access.matching
  by_cases hempty : dirPart dir = ""
  · rw [if_pos hempty, if_pos hempty, glob1_names _ hpre hpost hvisible]
    simp only [Option.map_some, List.flatMap_singleton, Option.some.injEq]
    refine (List.map_congr_left fun n hn => ?_).trans (List.map_id _)
    exact basename_plain (hplain _ n (List.mem_filter.mp hn).1)
  · rw [if_neg hempty, if_neg hempty]
    cases (if hasMagic (dirPart dir) then glob fs (dirPart dir) else some [dirPart dir]) with
    | none => rfl
    | some dirs =>
      rw [Option.bind_some, globIn_names dirs hpre hpost hvisible, Option.map_some,
        Option.map_some, List.map_flatMap]
      simp only [hnames]

end Entries

end StoneRidge.Kit.Glob
