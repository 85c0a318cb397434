import StoneRidge.Archive.FileName

/-!
# Every resource is found again

What `urlparse` takes for a network location is the begin of the path for the server, so
the number of slashes at the begin of a path matters. With one or three both see the same
path; with two the server has to drop the location by itself.
-/

set_option autoImplicit false

namespace StoneRidge.Archive
open StoneRidge.Kit.PyText StoneRidge.Kit.Segments

section Slashes
variable {path q t : Text}

theorem withoutNetloc_one (hq : q.head? ≠ some '/') :
    withoutNetloc ('/' :: q) = ([], '/' :: q) := by
  unfold withoutNetloc
  rw [if_neg]
  intro htake
  cases q with
  | nil => cases htake
  | cons c q =>
    apply hq
    simp only [List.take_succ_cons, List.cons.injEq] at htake
    rw [htake.2.1]
    rfl

/-- Two slashes stay in front of the name. -/
theorem dropMark_two (t : Text) :
    ∃ rest, dropMark ('/' :: '/' :: t) = '/' :: '/' :: rest ∧ t.length ≤ rest.length + 1 := by
  rcases dropMark_cases ('/' :: '/' :: t) with ⟨_, hdrop⟩ | ⟨_, a, b, heq, hdrop⟩
  · exact ⟨t, hdrop, Nat.le_succ _⟩
  · rw [hdrop]
    cases a with
    | nil => cases heq
    | cons c a =>
      cases a with
      | nil => cases heq
      | cons d a =>
        simp only [List.cons_append, List.cons.injEq] at heq
        obtain ⟨rfl, rfl, rfl⟩ := heq
        refine ⟨a ++ b, rfl, ?_⟩
        simp only [List.length_append, List.length_cons]
        omega

/-- From four slashes on the names differ: the server leaves only one. -/
theorem not_sameName_four (n : ℕ) (hq : q.head? ≠ some '/') :
    ¬ SameName (List.replicate (n + 4) '/' ++ q) := by
  rw [sameName_iff_parts hq]
  intro ⟨_, htrans, _⟩
  have hrest : (withoutNetloc (List.replicate (n + 4) '/' ++ q)).2 =
      '/' :: '/' :: (List.replicate n '/' ++ q) := rfl
  rw [hrest, pathPart_slash, pathPart_slash] at htrans
  obtain ⟨rest, hdrop, hlen⟩ := dropMark_two (pathPart (List.replicate n '/' ++ q))
  rw [hdrop] at htrans
  have hpart : (pathPart q).length ≤ (pathPart (List.replicate n '/' ++ q)).length := by
    unfold pathPart
    rw [List.takeWhile_append_of_pos, List.length_append]
    · omega
    · intro c hc
      rw [List.eq_of_mem_replicate hc]
      decide
  have hword : (pathPart (getword q)).length ≤ (pathPart q).length := by
    rw [pathPart_getword]
    exact (List.takeWhile_prefix _).length_le
  have hline : '\n' ∉ '/' :: pathPart (getword q) := by
    rw [pathPart_getword, ← getword_slash]
    exact newline_not_mem_getword _
  rcases translatePath_cases hline htrans with ⟨heq, _⟩ | heq | hlost
  · have hhead := head_getword hq
    apply hhead
    have htail := (List.cons.inj heq).2
    cases hgetword : getword q with
    | nil =>
      rw [hgetword] at htail
      cases htail
    | cons c rest' =>
      rw [hgetword] at htail
      unfold pathPart at htail
      rw [List.takeWhile_cons] at htail
      split at htail
      · exact congrArg some (List.cons.inj htail).1.symm
      · cases htail
  · have heq' := congrArg List.length heq
    simp only [orSlash, List.length_append, List.length_cons, List.length_nil] at heq'
    simp only [reduceCtorEq, if_false, List.length_cons] at heq'
    omega
  · simp only [orSlash, reduceCtorEq, if_false, List.length_cons] at hlost
    omega

theorem sameName_iff_literal (hq : q.head? ≠ some '/') (n : ℕ) (hn : n = 0 ∨ n = 2) :
    SameName (List.replicate (n + 1) '/' ++ q) ↔ Literal ('/' :: q) := by
  have hsplit : withoutNetloc (List.replicate (n + 1) '/' ++ q) = ([], '/' :: q) := by
    rcases hn with rfl | rfl
    · exact withoutNetloc_one hq
    · rfl
  have hne : dropMark ('/' :: pathPart q) ≠ [] := by
    rw [← List.length_pos_iff]
    apply List.length_pos_of_mem
    exact (mem_dropMark (by decide)).mpr (List.mem_cons_self (a := '/'))
  rw [sameName_iff_parts hq, hsplit, ← parts_agree_iff_literal]
  simp only [pathPart_slash, queryPart_slash]
  unfold orSlash
  rw [if_neg hne]
  constructor
  · intro ⟨_, htrans, hquery⟩
    exact ⟨htrans, hquery⟩
  · intro ⟨htrans, hquery⟩
    exact ⟨rfl, htrans, hquery⟩

end Slashes

/-! ### Two slashes -/

section TwoSlashes
variable {path netloc rest t u : Text} {segs : List Text} {c : Char}

theorem splitOn_slash (t : Text) : ('/' :: t).splitOn '/' = [] :: t.splitOn '/' :=
  List.splitOn_append_cons_self_of_not_mem List.not_mem_nil t

theorem splitOn_segment (h : '/' ∉ netloc) (t : Text) :
    (netloc ++ '/' :: t).splitOn '/' = netloc :: t.splitOn '/' :=
  List.splitOn_append_cons_self_of_not_mem h t

theorem dotFree_slash : DotFree ('/' :: t) ↔ DotFree t := by
  unfold DotFree
  rw [splitOn_slash, plain_cons]
  exact and_iff_right ⟨rfl, rfl⟩

theorem mem_joinSlash (hc : c ≠ '/') : c ∈ joinSlash segs ↔ ∃ s ∈ segs, c ∈ s := by
  induction segs with
  | nil => simp [joinSlash]
  | cons s segs ih =>
    cases segs with
    | nil => simp [joinSlash_singleton]
    | cons t rest =>
      rw [joinSlash_cons s (by simp), List.mem_append, List.mem_cons, ih]
      simp [hc]

/-- Removing dot segments adds nothing but slashes. -/
theorem mem_of_mem_getparents (hc : c ≠ '/') (h : c ∈ getparents t) : c ∈ t := by
  by_contra hnot
  have hsegs : ∀ s ∈ t.splitOn '/', c ∉ s := by
    intro s hs hmem
    apply hnot
    rw [← @List.intercalate_splitOn _ t _ _ '/']
    exact (mem_joinSlash hc).mpr ⟨s, hs, hmem⟩
  have hres : ∀ s ∈ resolve isDot isDotDot [] (t.splitOn '/'), c ∉ s :=
    forall_resolveFrom List.not_mem_nil (fun _ h => absurd h List.not_mem_nil) hsegs
  rw [getparents_eq, mem_joinSlash hc] at h
  obtain ⟨s, hs, hmem⟩ := h
  exact hres s hs hmem

theorem getparents_here (t : Text) :
    getparents ('/' :: '.' :: '/' :: t) = getparents ('/' :: t) := by
  have hdot : '/' ∉ ['.'] := by decide
  have hsplit : ('.' :: '/' :: t).splitOn '/' = ['.'] :: t.splitOn '/' := splitOn_segment hdot t
  rw [getparents_eq, getparents_eq, splitOn_slash, splitOn_slash, hsplit]
  cases hrest : t.splitOn '/' with
  | nil => exact absurd hrest (List.splitOn_ne_nil '/' t)
  | cons s segs => rfl

theorem getparents_up (t : Text) :
    getparents ('/' :: '.' :: '.' :: '/' :: t) = getparents t := by
  have hdots : '/' ∉ ['.', '.'] := by decide
  have hsplit : ('.' :: '.' :: '/' :: t).splitOn '/' = ['.', '.'] :: t.splitOn '/' :=
    splitOn_segment hdots t
  rw [getparents_eq, getparents_eq, splitOn_slash, hsplit]
  cases hrest : t.splitOn '/' with
  | nil => exact absurd hrest (List.splitOn_ne_nil '/' t)
  | cons s segs => rfl

/-- The last segment of a path, and what is before it. -/
theorem lastSegment_joinSlash {s : Text} (hs : '/' ∉ s) (init : List Text) :
    lastSegment (joinSlash (init ++ [s])) = s ∧
      directory (joinSlash (init ++ [s])) = (reversed init.reverse).reverse := by
  unfold lastSegment directory
  have hrev : '/' ∉ s.reverse := by simpa using hs
  rw [reverse_joinSlash_concat, dropWhile_reversed hrev]
  refine ⟨?_, rfl⟩
  have hsplit := List.takeWhile_append_dropWhile (p := (· ≠ '/'))
    (l := s.reverse ++ reversed init.reverse)
  rw [dropWhile_reversed hrev, List.append_left_inj] at hsplit
  rw [hsplit, List.reverse_reverse]

theorem dotFree_of_dropMark (h : DotFree (dropMark path)) : DotFree path := by
  rcases dropMark_cases path with ⟨_, hdrop⟩ | ⟨hmem, _⟩
  · rw [hdrop] at h
    exact h
  · have hslash := not_mem_of_mem_splitOn path
    have hjoin : joinSlash (path.splitOn '/') = path := List.intercalate_splitOn '/'
    obtain ⟨init, s, hsegs⟩ :=
      (List.eq_nil_or_concat' (path.splitOn '/')).resolve_left (List.splitOn_ne_nil '/' path)
    rw [hsegs] at hslash hjoin
    have hs := hslash s (by simp)
    obtain ⟨hlast, hdir⟩ := lastSegment_joinSlash hs init
    rw [hjoin] at hlast hdir
    rw [hlast] at hmem
    have hmark : dropMark path = joinSlash (init ++ [(split1 ';' s).1 ++ (split1 ';' s).2]) := by
      apply List.reverse_injective
      rw [reverse_joinSlash_concat]
      unfold dropMark splitParams
      rw [hlast, if_pos hmem, hdir]
      simp
    have hs' : '/' ∉ (split1 ';' s).1 ++ (split1 ';' s).2 := by
      intro hmem'
      apply hs
      unfold split1 at hmem'
      rcases List.mem_append.mp hmem' with hmem' | hmem'
      · exact (List.takeWhile_prefix _).subset hmem'
      · exact (List.dropWhile_suffix _).subset (List.mem_of_mem_tail hmem')
    unfold DotFree at *
    have hsplit : (dropMark path).splitOn '/' =
        init ++ [(split1 ';' s).1 ++ (split1 ';' s).2] := by
      rw [hmark]
      apply List.splitOn_intercalate
      · intro t ht
        rcases List.mem_append.mp ht with ht | ht
        · exact hslash t (List.mem_append_left _ ht)
        · rw [List.mem_singleton.mp ht]
          exact hs'
      · simp
    rw [hsplit] at h
    rw [hsegs]
    intro t ht
    rcases List.mem_append.mp ht with ht | ht
    · exact h t (List.mem_append_left _ ht)
    · rw [List.mem_singleton.mp ht]
      unfold isDot isDotDot
      rw [decide_eq_false_iff_not, decide_eq_false_iff_not]
      refine ⟨?_, ?_⟩
      · intro heq
        rw [heq] at hmem
        exact absurd hmem (by decide)
      · intro heq
        rw [heq] at hmem
        exact absurd hmem (by decide)

theorem length_dropMark_le (path : Text) : (dropMark path).length ≤ path.length := by
  rcases dropMark_cases path with ⟨_, hdrop⟩ | ⟨_, a, b, rfl, hdrop⟩
  · rw [hdrop]
  · rw [hdrop]
    simp

theorem orSlash_dropMark_slash (r : Text) :
    orSlash (dropMark ('/' :: r)) = dropMark ('/' :: r) := by
  unfold orSlash
  rw [if_neg]
  intro hnil
  have hmem : '/' ∈ dropMark ('/' :: r) := (mem_dropMark (by decide)).mpr List.mem_cons_self
  rw [hnil] at hmem
  cases hmem

/-- A segment that is no dot segment stays in front. -/
theorem dotFree_location (hloc : '/' ∉ netloc) (hrest : rest = [] ∨ ∃ r, rest = '/' :: r)
    (hdot : netloc ≠ ['.'] ∧ netloc ≠ ['.', '.']) (hfree : DotFree rest) :
    DotFree ('/' :: (netloc ++ rest)) := by
  have hplain : isDot netloc = false ∧ isDotDot netloc = false := by
    unfold isDot isDotDot
    rw [decide_eq_false_iff_not, decide_eq_false_iff_not]
    exact hdot
  rw [dotFree_slash]
  rcases hrest with rfl | ⟨r, rfl⟩
  · unfold DotFree
    rw [List.append_nil, List.splitOn_eq_singleton hloc, plain_cons]
    exact ⟨hplain, fun _ h => absurd h List.not_mem_nil⟩
  · rw [dotFree_slash] at hfree
    unfold DotFree
    rw [splitOn_segment hloc, plain_cons]
    exact ⟨hplain, hfree⟩

theorem dotFree_nil : DotFree [] := by
  unfold DotFree
  rw [List.splitOn_nil, plain_cons]
  exact ⟨⟨rfl, rfl⟩, fun _ h => absurd h List.not_mem_nil⟩

/-- With a name that the server finds, the path behind the location has no dot segments. -/
theorem dotFree_of_name (hrest : rest = [] ∨ ∃ r, rest = '/' :: r)
    (h : getparents t = orSlash (dropMark rest)) : DotFree rest := by
  rcases hrest with rfl | ⟨r, rfl⟩
  · exact dotFree_nil
  · have hfree := dotFree_getparents t
    rw [h, orSlash_dropMark_slash] at hfree
    exact dotFree_of_dropMark hfree

/-- Two dots take away the slash before them as well. -/
theorem getparents_up_ne {r : Text} (hfree : DotFree ('/' :: r)) :
    getparents ('/' :: '.' :: '.' :: '/' :: r) ≠ orSlash (dropMark ('/' :: r)) := by
  rw [getparents_up, getparents_dotFree (dotFree_slash.mp hfree), orSlash_dropMark_slash]
  intro hname
  rcases dropMark_cases ('/' :: r) with ⟨_, hdrop⟩ | ⟨_, a, b, heq, hdrop⟩
  · have hlen := congrArg List.length (hname.trans hdrop)
    rw [List.length_cons] at hlen
    omega
  · have hcount := congrArg (List.count ';') heq
    have hcount' := congrArg (List.count ';') (hname.trans hdrop)
    rw [List.count_cons_of_ne (by decide)] at hcount
    simp only [List.count_append, List.count_cons_self] at hcount hcount'
    omega

theorem getparents_here_eq_iff {r : Text} (hfree : DotFree ('/' :: r)) :
    getparents ('/' :: '.' :: '/' :: r) = orSlash (dropMark ('/' :: r)) ↔
      ';' ∉ lastSegment ('/' :: r) := by
  rw [getparents_here, getparents_dotFree hfree, orSlash_dropMark_slash, eq_comm]
  exact dropMark_eq_self_iff

theorem length_name_le (hrest : rest = [] ∨ ∃ r, rest = '/' :: r) :
    (orSlash (dropMark rest)).length ≤ rest.length + 1 ∧
      (rest ≠ [] → (orSlash (dropMark rest)).length ≤ rest.length) := by
  rcases hrest with rfl | ⟨r, rfl⟩
  · exact ⟨by decide, fun h => absurd rfl h⟩
  · rw [orSlash_dropMark_slash]
    have hlen := length_dropMark_le ('/' :: r)
    exact ⟨by omega, fun _ => hlen⟩

/-- The server drops the network location by itself if it is empty or a dot. -/
theorem translate_location_iff (hloc : '/' ∉ netloc) (hrest : rest = [] ∨ ∃ r, rest = '/' :: r)
    (hne : rest ≠ [] → netloc ≠ []) (hline : '\n' ∉ netloc ++ rest) :
    rewriteRule (getparents ('/' :: (netloc ++ rest))) = some (orSlash (dropMark rest)) ↔
      (netloc = [] ∨ netloc = ['.']) ∧ ';' ∉ lastSegment rest ∧ DotFree rest := by
  constructor
  · intro hrule
    have hline' : '\n' ∉ getparents ('/' :: (netloc ++ rest)) := by
      intro hmem
      have h := mem_of_mem_getparents (by decide) hmem
      rw [List.mem_cons] at h
      exact hline (h.resolve_left (by decide))
    have hname := ((rewriteRule_eq_some hrule).2 hline').symm
    have hfree := dotFree_of_name hrest hname
    by_cases hdots : netloc = ['.', '.']
    · exfalso
      rw [hdots] at hname
      rcases hrest with rfl | ⟨r, rfl⟩
      · exact absurd hname (by decide)
      · exact getparents_up_ne hfree hname
    · by_cases hdot : netloc = ['.']
      · refine ⟨Or.inr hdot, ?_, hfree⟩
        rw [hdot] at hname
        rcases hrest with rfl | ⟨r, rfl⟩
        · decide
        · exact (getparents_here_eq_iff hfree).mp hname
      · -- the location stays, so the name is too long
        rw [getparents_dotFree (dotFree_location hloc hrest ⟨hdot, hdots⟩ hfree)] at hname
        have hlen := congrArg List.length hname
        rw [List.length_cons, List.length_append] at hlen
        obtain ⟨hle, hle'⟩ := length_name_le hrest
        rcases hrest with rfl | hrest
        · have hnil : netloc = [] := by
            rw [← List.length_eq_zero_iff]
            simp only [List.length_nil] at hlen hle
            omega
          exact ⟨Or.inl hnil, by decide, hfree⟩
        · exfalso
          have hcons : rest ≠ [] := by
            obtain ⟨r, rfl⟩ := hrest
            simp
          have hshort := hle' hcons
          omega
  · intro ⟨hdot, hsemi, hfree⟩
    rcases hrest with rfl | ⟨r, rfl⟩
    · rcases hdot with rfl | rfl
      · decide
      · decide
    · have hdot' := hdot.resolve_left (hne (by simp))
      rw [hdot']
      have hname := (getparents_here_eq_iff hfree).mpr hsemi
      change rewriteRule (getparents ('/' :: '.' :: '/' :: r)) = _
      rw [hname, orSlash_dropMark_slash, dropMark_eq_self_iff.mpr hsemi]
      apply rewriteRule_slash
      intro hmem
      apply hline
      simp [hmem]

end TwoSlashes

/-! ### The names of all paths -/

/-- After a network location that is empty or a dot. -/
structure LiteralRest (path : Text) : Prop where
  location : (withoutNetloc path).1 = [] ∨ (withoutNetloc path).1 = ['.']
  rest : Literal (withoutNetloc path).2

def leadingSlashes (path : Text) : ℕ := (path.takeWhile (· = '/')).length

/-- When a stored response is found again. -/
def FoundAgain (path : Text) : Prop :=
  match leadingSlashes path with
  | 1 => Literal path
  | 2 => LiteralRest path
  | 3 => Literal (path.drop 2)
  | _ => False

section Names
variable {path q : Text}

theorem leadingSlashes_replicate (n : ℕ) (hq : q.head? ≠ some '/') :
    leadingSlashes (List.replicate n '/' ++ q) = n := by
  unfold leadingSlashes
  rw [List.takeWhile_append_of_pos, List.length_append, List.length_replicate]
  · cases q with
    | nil => rfl
    | cons c q =>
      rw [List.takeWhile_cons_of_neg]
      · rfl
      · rw [decide_eq_true_eq]
        intro heq
        exact hq (by rw [heq]; rfl)
  · intro c hc
    rw [List.eq_of_mem_replicate hc]
    rfl

/-- The slashes at the begin of a path. -/
theorem slashes_split (h : path.head? = some '/') :
    ∃ n q, path = List.replicate (n + 1) '/' ++ q ∧ q.head? ≠ some '/' := by
  induction path with
  | nil => cases h
  | cons c path ih =>
    cases h
    by_cases hpath : path.head? = some '/'
    · obtain ⟨n, q, heq, hq⟩ := ih hpath
      exact ⟨n + 1, q, by rw [heq]; rfl, hq⟩
    · exact ⟨0, path, rfl, hpath⟩

theorem location_parts (hq : q.head? ≠ some '/') :
    withoutNetloc ('/' :: '/' :: q) =
        (q.takeWhile (!isDelimiter ·), q.dropWhile (!isDelimiter ·)) ∧
      pathPart q = q.takeWhile (!isDelimiter ·) ++ pathPart (q.dropWhile (!isDelimiter ·)) ∧
      queryPart q = queryPart (q.dropWhile (!isDelimiter ·)) ∧
      (pathPart (q.dropWhile (!isDelimiter ·)) = [] ∨
        ∃ r, pathPart (q.dropWhile (!isDelimiter ·)) = '/' :: r) ∧
      (pathPart (q.dropWhile (!isDelimiter ·)) ≠ [] → q.takeWhile (!isDelimiter ·) ≠ []) := by
  have hin : ∀ c ∈ q.takeWhile (!isDelimiter ·), inPath c = true := by
    intro c hc
    have hdelim := List.mem_takeWhile_imp hc
    unfold isDelimiter at hdelim
    unfold inPath
    simp_all
  have hjoin := List.takeWhile_append_dropWhile (p := (!isDelimiter ·)) (l := q)
  refine ⟨rfl, ?_, ?_, ?_, ?_⟩
  · conv_lhs => rw [← hjoin]
    unfold pathPart
    rw [List.takeWhile_append_of_pos hin]
  · conv_lhs => rw [← hjoin]
    unfold queryPart
    rw [List.dropWhile_append_of_pos hin]
  · cases hdrop : q.dropWhile (!isDelimiter ·) with
    | nil => exact Or.inl rfl
    | cons d r =>
      by_cases hd : d = '/'
      · rw [hd, pathPart_slash]
        exact Or.inr ⟨_, rfl⟩
      · have hdelim := head_of_dropWhile hdrop
        refine Or.inl (List.takeWhile_cons_of_neg ?_)
        unfold isDelimiter at hdelim
        unfold inPath
        simp_all
  · intro hne hnil
    rw [hnil, List.nil_append] at hjoin
    rw [hjoin] at hne
    cases q with
    | nil => exact hne rfl
    | cons c q =>
      have hdelim := head_of_dropWhile hjoin
      apply hne
      apply List.takeWhile_cons_of_neg
      have hc : c ≠ '/' := by
        intro heq
        exact hq (by rw [heq]; rfl)
      unfold isDelimiter at hdelim
      unfold inPath
      simp_all

/-- A network location holds no slash, and no character of a word ends it. -/
theorem location_word (hloc : path = [] ∨ path = ['.']) :
    '%' ∉ path ∧ (∀ c ∈ path, inWord c = true) ∧ badBrackets path = false := by
  rcases hloc with rfl | rfl
  · exact ⟨by decide, by decide, rfl⟩
  · exact ⟨by decide, by decide, rfl⟩

theorem LiteralRest.plain (hq : q.head? ≠ some '/') (h : LiteralRest ('/' :: '/' :: q)) :
    '%' ∉ pathPart q ∧ ∀ c ∈ pathPart q, inWord c = true := by
  obtain ⟨hsplit, hpath, -, -, -⟩ := location_parts hq
  obtain ⟨hdot, hliteral⟩ := h
  rw [hsplit] at hdot hliteral
  obtain ⟨hnone, hlocword, -⟩ := location_word hdot
  obtain ⟨hpathword, -⟩ := (forall_before_fragment (by decide) _).mp hliteral.word
  rw [hpath]
  refine ⟨?_, ?_⟩
  · rw [List.mem_append, not_or]
    exact ⟨hnone, hliteral.percent⟩
  · intro c hc
    rcases List.mem_append.mp hc with hc | hc
    · exact hlocword c hc
    · exact hpathword c hc

/-- Two slashes: without escapes and within the word the server drops a location that is empty
or a dot. -/
theorem sameName_two (hq : q.head? ≠ some '/') (hpercent : '%' ∉ pathPart q)
    (hword : ∀ c ∈ pathPart q, inWord c = true) :
    SameName ('/' :: '/' :: q) ↔ LiteralRest ('/' :: '/' :: q) := by
  obtain ⟨hsplit, hpath, hquery, hrest, hne⟩ := location_parts hq
  have hparts : SameName ('/' :: '/' :: q) ↔ _ := sameName_iff_parts (n := 1) hq
  have hslash : '/' ∉ q.takeWhile (!isDelimiter ·) := by
    intro hmem
    exact absurd (List.mem_takeWhile_imp hmem) (by decide)
  change _ ↔ badBrackets (withoutNetloc ('/' :: '/' :: q)).1 = false ∧
    translatePath ('/' :: pathPart (getword q)) =
      some (orSlash (dropMark (pathPart (withoutNetloc ('/' :: '/' :: q)).2))) ∧
    queryPart (withoutNetloc ('/' :: '/' :: q)).2 = queryPart (getword q) at hparts
  have htranslate : translatePath ('/' :: pathPart (getword q)) =
        some (orSlash (dropMark (pathPart (withoutNetloc ('/' :: '/' :: q)).2))) ↔
      (q.takeWhile (!isDelimiter ·) = [] ∨ q.takeWhile (!isDelimiter ·) = ['.']) ∧
        ';' ∉ lastSegment (pathPart (q.dropWhile (!isDelimiter ·))) ∧
        DotFree (pathPart (q.dropWhile (!isDelimiter ·))) := by
    have hline : '\n' ∉ pathPart q := by
      intro hmem
      exact absurd (hword _ hmem) (by decide)
    have hpercent' : '%' ∉ '/' :: pathPart q := by
      rw [List.mem_cons, not_or]
      exact ⟨by decide, hpercent⟩
    rw [pathPart_getword, getword_of_word hword, translatePath_plain hpercent', hsplit]
    rw [hpath] at hline ⊢
    exact translate_location_iff hslash hrest hne hline
  have hargs : queryPart (withoutNetloc ('/' :: '/' :: q)).2 = queryPart (getword q) ↔
      ∀ c ∈ queryPart (q.dropWhile (!isDelimiter ·)), inWord c = true := by
    rw [hsplit]
    simp only
    rw [← hquery, queryPart_eq_getword_iff hword]
  rw [hparts, htranslate, hargs]
  constructor
  · intro ⟨_, ⟨hdot, hsemi, hfree⟩, hqueryword⟩
    refine ⟨by rw [hsplit]; exact hdot, ?_⟩
    rw [hsplit]
    refine ⟨?_, ?_, hsemi, hfree⟩
    · rw [forall_before_fragment (by decide)]
      refine ⟨?_, hqueryword⟩
      intro c hc
      apply hword
      rw [hpath]
      exact List.mem_append_right _ hc
    · intro hmem
      apply hpercent
      rw [hpath]
      exact List.mem_append_right _ hmem
  · intro ⟨hdot, hliteral⟩
    rw [hsplit] at hdot hliteral
    obtain ⟨-, -, hbad⟩ := location_word hdot
    obtain ⟨-, hqueryword⟩ := (forall_before_fragment (by decide) _).mp hliteral.word
    exact ⟨by rw [hsplit]; exact hbad, ⟨hdot, hliteral.params, hliteral.dots⟩, hqueryword⟩

/-- The name under which a response is stored is the name the server looks for if nothing in
the path, with one slash at its begin or three, means anything but itself: every character
belongs to the request line, there is no escape, no parameter of the last segment and no dot
segment. Only from behind two slashes can something else decode to the same name. -/
theorem sameName_foundAgain (path : Text) (h : path.head? = some '/') :
    (FoundAgain path → SameName path) ∧
      ((leadingSlashes path = 2 → '%' ∉ pathPart path ∧ ∀ c ∈ pathPart path, inWord c = true) →
        SameName path → FoundAgain path) := by
  obtain ⟨n, q, rfl, hq⟩ := slashes_split h
  unfold FoundAgain
  rw [leadingSlashes_replicate (n + 1) hq]
  match n with
  | 0 =>
    have hiff := sameName_iff_literal hq 0 (Or.inl rfl)
    exact ⟨hiff.mpr, fun _ => hiff.mp⟩
  | 1 =>
    constructor
    · intro hrest
      obtain ⟨hpercent, hword⟩ := LiteralRest.plain hq hrest
      exact (sameName_two hq hpercent hword).mpr hrest
    · intro hplain hsame
      obtain ⟨hpercent, hword⟩ := hplain rfl
      change '%' ∉ pathPart ('/' :: '/' :: q) at hpercent
      change ∀ c ∈ pathPart ('/' :: '/' :: q), inWord c = true at hword
      rw [pathPart_slash, pathPart_slash] at hpercent hword
      rw [List.mem_cons, List.mem_cons, not_or, not_or] at hpercent
      rw [List.forall_mem_cons, List.forall_mem_cons] at hword
      exact (sameName_two hq hpercent.2.2 hword.2.2).mp hsame
  | 2 =>
    have hiff := sameName_iff_literal hq 2 (Or.inr rfl)
    exact ⟨hiff.mpr, fun _ => hiff.mp⟩
  | n + 3 =>
    have hnot := not_sameName_four n hq
    exact ⟨False.elim, fun _ hsame => hnot hsame⟩

theorem sameName_index : SameName "/index.html?a;b".toList ∧ ¬ SameName "//host/a".toList := by
  constructor
  · apply (sameName_foundAgain "/index.html?a;b".toList rfl).1
    change Literal "/index.html?a;b".toList
    refine ⟨by decide, by decide, by decide, ?_⟩
    unfold DotFree Plain
    decide
  · intro hsame
    have hfound : LiteralRest "//host/a".toList :=
      (sameName_foundAgain "//host/a".toList rfl).2 (fun _ => by decide) hsame
    exact absurd hfound.location (by decide)

/-- The semicolon before the parameters is not hashed for the archive. -/
theorem params_not_sameName : ¬ SameName "/a;b".toList := by
  intro ⟨name, hexploded, hhashed⟩
  have heq := hexploded.trans hhashed.symm
  exact absurd heq (by decide)

end Names

end StoneRidge.Archive
