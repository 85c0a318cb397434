import StoneRidge.Archive.ServerPath
import StoneRidge.Kit.Lines

/-!
# Dot segments

The four passes of `ap_getparents` over the characters are the four passes over the
segments between the slashes, so together they resolve the path.
-/

set_option autoImplicit false

namespace StoneRidge.Archive
open StoneRidge.Kit.Segments

def isDot (s : Text) : Bool := s = ['.']

def isDotDot (s : Text) : Bool := s = ['.', '.']

def joinSlash (segs : List Text) : Text := List.intercalate ['/'] segs

/-- The segments in reverse, each behind its slash. -/
def reversed (stack : List Text) : Text := stack.flatMap fun s => '/' :: s.reverse

section Passes
variable {s rest : Text} {segs stack : List Text} {before : Option Char}

theorem joinSlash_singleton (s : Text) : joinSlash [s] = s := List.intercalate_singleton

theorem joinSlash_cons (s : Text) (h : segs ≠ []) :
    joinSlash (s :: segs) = s ++ '/' :: joinSlash segs := by
  unfold joinSlash
  cases segs with
  | nil => exact absurd rfl h
  | cons t rest => rw [List.intercalate_cons_cons, List.append_assoc, List.singleton_append]

theorem reverse_joinSlash_concat (s : Text) (segs : List Text) :
    (joinSlash (segs ++ [s])).reverse = s.reverse ++ reversed segs.reverse := by
  unfold reversed
  induction segs with
  | nil => simp [joinSlash_singleton]
  | cons t segs ih =>
    rw [List.cons_append, joinSlash_cons t (by simp), List.reverse_append, List.reverse_cons, ih,
      List.reverse_cons, List.flatMap_append]
    simp

/-! ### First pass -/

theorem removeDots_cons {c : Char} (h : c ≠ '.' ∨ rest.head? ≠ some '/' ∨ atStart before = false) :
    removeDots before (c :: rest) = c :: removeDots (some c) rest := by
  by_cases hdot : c = '.' ∧ rest.head? = some '/'
  · obtain ⟨rfl, hhead⟩ := hdot
    obtain ⟨name, rfl⟩ := List.head?_eq_some_iff.mp hhead
    have hstart : atStart before = false := by
      rcases h with h | h | h
      · exact absurd rfl h
      · exact absurd hhead h
      · exact h
    rw [removeDots, hstart, if_neg Bool.false_ne_true]
  · rw [removeDots]
    intro name hc hrest
    exact hdot ⟨hc, by rw [hrest]; rfl⟩

/-- A segment that is no dot is passed over. -/
theorem removeDots_segment (hs : '/' ∉ s) (h : s ≠ ['.'] ∨ atStart before = false) :
    removeDots before (s ++ '/' :: rest) = s ++ '/' :: removeDots (some '/') rest := by
  induction s generalizing before with
  | nil =>
    rw [List.nil_append, removeDots_cons (Or.inl (by decide))]
    rfl
  | cons c s ih =>
    rw [List.mem_cons, not_or] at hs
    have hinner : atStart (some c) = false := by
      unfold atStart
      simpa using Ne.symm hs.1
    rw [List.cons_append, removeDots_cons, ih hs.2 (Or.inr hinner)]
    · rfl
    · cases s with
      | nil =>
        rcases h with h | h
        · exact Or.inl fun heq => h (heq ▸ rfl)
        · exact Or.inr (Or.inr h)
      | cons d s =>
        refine Or.inr (Or.inl ?_)
        rw [List.mem_cons, not_or] at hs
        intro heq
        exact hs.2.1 (Option.some.inj heq).symm

theorem removeDots_last (hs : '/' ∉ s) : removeDots before s = s := by
  induction s generalizing before with
  | nil => rw [removeDots]
  | cons c s ih =>
    rw [List.mem_cons, not_or] at hs
    rw [removeDots_cons, ih hs.2]
    refine Or.inr (Or.inl ?_)
    intro heq
    exact hs.2 (List.mem_of_head? heq)

theorem removeDots_joinSlash (hsegs : ∀ s ∈ segs, '/' ∉ s) (hstart : atStart before = true) :
    removeDots before (joinSlash segs) = joinSlash (dropHere isDot segs) := by
  induction segs generalizing before with
  | nil => rfl
  | cons s segs ih =>
    rw [List.forall_mem_cons] at hsegs
    cases segs with
    | nil => rw [dropHere, joinSlash_singleton, removeDots_last hsegs.1]
    | cons t rest =>
      have hne : t :: rest ≠ [] := by simp
      have hrest := ih hsegs.2 (rfl : atStart (some '/') = true)
      unfold dropHere
      rw [joinSlash_cons s hne]
      by_cases hdot : s = ['.']
      · rw [if_pos (by simpa [isDot] using hdot), hdot]
        change removeDots before ('.' :: '/' :: joinSlash (t :: rest)) = _
        rw [removeDots, if_pos hstart, hrest]
      · rw [if_neg (by simpa [isDot] using hdot), joinSlash_cons s (dropHere_ne_nil hne),
          removeDots_segment hsegs.1 (Or.inl hdot), hrest]

/-! ### Second pass -/

theorem reversed_cons (s : Text) (stack : List Text) :
    reversed (s :: stack) = '/' :: (s.reverse ++ reversed stack) := by
  unfold reversed
  rw [List.flatMap_cons, List.cons_append]

theorem atStart_reversed (hs : '/' ∉ s) (stack : List Text) :
    atStart (s ++ reversed stack).head? = decide (s = []) := by
  cases s with
  | nil =>
    cases stack with
    | nil => rfl
    | cons t stack =>
      rw [reversed_cons]
      rfl
  | cons c s =>
    rw [List.mem_cons, not_or] at hs
    unfold atStart
    simpa using Ne.symm hs.1

theorem head_reversed {c : Char} (hc : c ≠ '/') (stack : List Text) (rest : Text) :
    reversed stack ≠ c :: rest := by
  cases stack with
  | nil => simp [reversed]
  | cons t stack =>
    rw [reversed_cons]
    intro heq
    exact hc (List.cons.inj heq).1.symm

/-- The last characters of a segment, with what comes before them. -/
theorem reverse_append_reversed {c : Char} (hc : c ≠ '/')
    (h : s.reverse ++ reversed stack = c :: rest) :
    ∃ cs, s = cs.reverse ++ [c] ∧ rest = cs ++ reversed stack := by
  cases hrev : s.reverse with
  | nil =>
    rw [hrev, List.nil_append] at h
    exact absurd h (head_reversed hc stack rest)
  | cons d cs =>
    rw [hrev, List.cons_append] at h
    obtain ⟨rfl, rfl⟩ := List.cons.inj h
    refine ⟨cs, ?_, rfl⟩
    rw [← List.reverse_reverse s, hrev, List.reverse_cons]

theorem removeLastDot_eq (hs : '/' ∉ s) (stack : List Text) :
    removeLastDot (s.reverse ++ reversed stack) =
      (if isDot s then [] else s).reverse ++ reversed stack := by
  unfold isDot
  by_cases hdot : s = ['.']
  · have hstart := atStart_reversed (List.not_mem_nil (a := '/')) stack
    rw [List.nil_append] at hstart
    rw [hdot]
    change removeLastDot ('.' :: reversed stack) = reversed stack
    rw [removeLastDot, hstart]
    rfl
  · rw [if_neg (by simpa using hdot)]
    unfold removeLastDot
    split
    · rename_i name heq
      obtain ⟨cs, rfl, rfl⟩ := reverse_append_reversed (by decide) heq
      have hcs : '/' ∉ cs := by simpa using hs
      rw [atStart_reversed hcs, if_neg, heq]
      rw [decide_eq_true_eq]
      intro hnil
      exact hdot (by rw [hnil]; rfl)
    · rfl

theorem lastHere_concat (init : List Text) (s : Text) :
    lastHere isDot [] (init ++ [s]) = init ++ [if isDot s then [] else s] := by
  induction init with
  | nil =>
    rw [List.nil_append, List.nil_append, lastHere]
    split <;> rfl
  | cons t init ih =>
    rw [List.cons_append, lastHere_cons (by simp), ih]
    rfl

theorem removeLastDot_joinSlash (hne : segs ≠ []) (hsegs : ∀ s ∈ segs, '/' ∉ s) :
    (removeLastDot (joinSlash segs).reverse).reverse = joinSlash (lastHere isDot [] segs) := by
  obtain ⟨init, s, rfl⟩ := (List.eq_nil_or_concat' segs).resolve_left hne
  have hs := hsegs s (by simp)
  rw [reverse_joinSlash_concat, removeLastDot_eq hs, lastHere_concat,
    ← reverse_joinSlash_concat, List.reverse_reverse]

/-! ### Third pass -/

theorem dropWhile_reversed (hs : '/' ∉ s) (stack : List Text) :
    (s ++ reversed stack).dropWhile (· ≠ '/') = reversed stack := by
  rw [List.dropWhile_append_of_pos]
  · cases stack with
    | nil => rfl
    | cons t stack =>
      rw [reversed_cons]
      rfl
  · intro c hc
    rw [decide_eq_true_eq]
    intro heq
    exact hs (heq ▸ hc)

theorem tail_dropWhile_reversed (hstack : ∀ s ∈ stack, '/' ∉ s) :
    (reversed stack).tail.dropWhile (· ≠ '/') = reversed stack.tail := by
  cases stack with
  | nil => rfl
  | cons s stack =>
    rw [reversed_cons, List.tail_cons, List.tail_cons, dropWhile_reversed]
    simpa using hstack s List.mem_cons_self

theorem removeParents_cons {before : Text} {c : Char}
    (h : c ≠ '.' ∨ rest.take 2 ≠ ['.', '/'] ∨ atStart before.head? = false) :
    removeParents before (c :: rest) = removeParents (c :: before) rest := by
  by_cases hdot : c = '.' ∧ rest.take 2 = ['.', '/']
  · obtain ⟨rfl, htake⟩ := hdot
    have hstart : atStart before.head? = false := by
      rcases h with h | h | h
      · exact absurd rfl h
      · exact absurd htake h
      · exact h
    have hrest := List.take_append_drop 2 rest
    rw [htake] at hrest
    rw [← hrest]
    change removeParents before ('.' :: '.' :: '/' :: rest.drop 2) = _
    rw [removeParents, hstart, if_neg Bool.false_ne_true]
    rfl
  · rw [removeParents]
    intro name hc hrest
    exact hdot ⟨hc, by rw [hrest]; rfl⟩

theorem removeParents_segment {before : Text} (hs : '/' ∉ s)
    (h : s ≠ ['.', '.'] ∨ atStart before.head? = false) :
    removeParents before (s ++ '/' :: rest) = removeParents ('/' :: (s.reverse ++ before)) rest := by
  induction s generalizing before with
  | nil =>
    rw [List.nil_append, removeParents_cons (Or.inl (by decide))]
    rfl
  | cons c s ih =>
    rw [List.mem_cons, not_or] at hs
    have hinner : atStart (c :: before).head? = false := by
      unfold atStart
      simpa using Ne.symm hs.1
    rw [List.cons_append, removeParents_cons, ih hs.2 (Or.inr hinner)]
    · simp
    · rcases h with h | h
      · by_cases hc : c = '.'
        · refine Or.inr (Or.inl ?_)
          intro htake
          cases s with
          | nil => simp at htake
          | cons d s =>
            cases s with
            | nil =>
              apply h
              simp only [List.cons_append, List.take_succ_cons, List.cons.injEq] at htake
              rw [hc, htake.1]
            | cons e s =>
              simp only [List.cons_append, List.take_succ_cons, List.cons.injEq] at htake
              apply hs.2
              rw [htake.2.1]
              simp
        · exact Or.inl hc
      · exact Or.inr (Or.inr h)

theorem removeParents_last {before : Text} (hs : '/' ∉ s) :
    removeParents before s = s.reverse ++ before := by
  induction s generalizing before with
  | nil => rw [removeParents, List.reverse_nil, List.nil_append]
  | cons c s ih =>
    rw [List.mem_cons, not_or] at hs
    rw [removeParents_cons, ih hs.2]
    · simp
    · refine Or.inr (Or.inl ?_)
      intro htake
      apply hs.2
      apply List.mem_of_mem_take (i := 2)
      rw [htake]
      simp

theorem removeParents_joinSlash (hne : segs ≠ []) (hsegs : ∀ s ∈ segs, '/' ∉ s)
    (hstack : ∀ s ∈ stack, '/' ∉ s) :
    ∃ s rest, popUps isDotDot stack segs = s :: rest ∧ '/' ∉ s ∧ (∀ t ∈ rest, '/' ∉ t) ∧
      removeParents (reversed stack) (joinSlash segs) = s.reverse ++ reversed rest := by
  induction segs generalizing stack with
  | nil => exact absurd rfl hne
  | cons s segs ih =>
    rw [List.forall_mem_cons] at hsegs
    cases segs with
    | nil =>
      refine ⟨s, stack, rfl, hsegs.1, hstack, ?_⟩
      rw [joinSlash_singleton, removeParents_last hsegs.1]
    | cons t rest =>
      have htail : ∀ s ∈ stack.tail, '/' ∉ s := fun s hs => hstack s (List.mem_of_mem_tail hs)
      have hstart := atStart_reversed (List.not_mem_nil (a := '/')) stack
      rw [List.nil_append] at hstart
      rw [popUps_cons (by simp), joinSlash_cons s (by simp)]
      by_cases hdots : s = ['.', '.']
      · rw [if_pos (by simpa [isDotDot] using hdots), hdots]
        change ∃ s' rest', _ ∧ _ ∧ _ ∧
          removeParents (reversed stack) ('.' :: '.' :: '/' :: joinSlash (t :: rest)) = _
        rw [removeParents, hstart, if_pos (by rfl), tail_dropWhile_reversed hstack]
        exact ih (by simp) hsegs.2 htail
      · rw [if_neg (by simpa [isDotDot] using hdots),
          removeParents_segment hsegs.1 (Or.inl hdots), ← reversed_cons]
        exact ih (by simp) hsegs.2 (List.forall_mem_cons.mpr ⟨hsegs.1, hstack⟩)

/-! ### Fourth pass -/

theorem removeLastParent_eq (hs : '/' ∉ s) (hstack : ∀ s ∈ stack, '/' ∉ s) :
    ∃ s' stack', lastUp isDotDot [] (s :: stack) = s' :: stack' ∧
      removeLastParent (s.reverse ++ reversed stack) = s'.reverse ++ reversed stack' := by
  unfold lastUp
  by_cases hdots : s = ['.', '.']
  · have hstart := atStart_reversed (List.not_mem_nil (a := '/')) stack
    rw [List.nil_append] at hstart
    refine ⟨[], stack.tail, if_pos (by simpa [isDotDot] using hdots), ?_⟩
    rw [hdots]
    change removeLastParent ('.' :: '.' :: reversed stack) = _
    rw [removeLastParent, hstart, if_pos (by rfl), tail_dropWhile_reversed hstack]
    rfl
  · refine ⟨s, stack, if_neg (by simpa [isDotDot] using hdots), ?_⟩
    unfold removeLastParent
    split
    · rename_i name heq
      obtain ⟨cs, hcs, hrest⟩ := reverse_append_reversed (by decide) heq
      have hrest' : cs.reverse.reverse ++ reversed stack = '.' :: name := by
        rw [List.reverse_reverse, hrest]
      obtain ⟨cs', hcs', hname'⟩ := reverse_append_reversed (by decide) hrest'
      have hname : '/' ∉ cs' := by
        rw [hcs, hcs'] at hs
        simpa using hs
      rw [hname', atStart_reversed hname, if_neg, heq, hname']
      rw [decide_eq_true_eq]
      intro hnil
      exact hdots (by rw [hcs, hcs', hnil]; rfl)
    · rfl

theorem not_mem_of_mem_splitOn (t : Text) : ∀ s ∈ t.splitOn '/', '/' ∉ s := by
  induction t using StoneRidge.Kit.Lines.lines_induction '/' with
  | nil =>
    intro s hs
    rw [List.mem_singleton.mp hs]
    exact List.not_mem_nil
  | last t ht hne =>
    intro s hs
    rw [List.splitOn_eq_singleton ht, List.mem_singleton] at hs
    exact hs ▸ ht
  | line t rest ht ih =>
    intro s hs
    rw [List.splitOn_append_cons_self_of_not_mem ht, List.mem_cons] at hs
    rcases hs with rfl | hs
    · exact ht
    · exact ih s hs

theorem getparents_eq (name : Text) :
    getparents name = joinSlash (resolve isDot isDotDot [] (name.splitOn '/')) := by
  have hne := List.splitOn_ne_nil '/' name
  have hslash := not_mem_of_mem_splitOn name
  have hjoin : joinSlash (name.splitOn '/') = name := List.intercalate_splitOn '/'
  have hdrop : ∀ s ∈ dropHere isDot (name.splitOn '/'), '/' ∉ s := forall_dropHere hslash
  have hlast : ∀ s ∈ lastHere isDot [] (dropHere isDot (name.splitOn '/')), '/' ∉ s :=
    forall_lastHere List.not_mem_nil hdrop
  obtain ⟨s, rest, hpop, hs, hrest, hparents⟩ :=
    removeParents_joinSlash (lastHere_ne_nil (dropHere_ne_nil hne)) hlast
      fun _ h => absurd h (List.not_mem_nil (a := _))
  obtain ⟨s', stack', hup, hlastParent⟩ := removeLastParent_eq hs hrest
  have hpasses : (lastUp isDotDot [] (popUps isDotDot []
      (lastHere isDot [] (dropHere isDot (name.splitOn '/'))))).reverse =
      resolve isDot isDotDot [] (name.splitOn '/') := passes_eq_resolveFrom rfl hne
  rw [hpop, hup, List.reverse_cons] at hpasses
  unfold getparents
  simp only
  rw [← hjoin, removeDots_joinSlash hslash rfl, removeLastDot_joinSlash
    (dropHere_ne_nil hne) hdrop]
  change (removeLastParent (removeParents (reversed []) _)).reverse = _
  rw [hparents, hlastParent, hjoin, ← hpasses, ← List.reverse_reverse (joinSlash _),
    reverse_joinSlash_concat, List.reverse_reverse]

end Passes

/-! ### What is lost -/

/-- No segment is a dot or two dots. -/
def DotFree (path : Text) : Prop := Plain isDot isDotDot (path.splitOn '/')

section Lost
variable {t : Text} {segs : List Text}

theorem getparents_dotFree (h : DotFree t) : getparents t = t := by
  rw [getparents_eq, resolve_plain h]
  exact List.intercalate_splitOn '/'

theorem splitOn_getparents (t : Text) :
    (getparents t).splitOn '/' = resolve isDot isDotDot [] (t.splitOn '/') := by
  rw [getparents_eq]
  apply List.splitOn_intercalate
  · exact forall_resolveFrom List.not_mem_nil (fun _ h => absurd h List.not_mem_nil)
      (not_mem_of_mem_splitOn t)
  · exact resolveFrom_ne_nil (List.splitOn_ne_nil '/' t)

theorem dotFree_getparents (t : Text) : DotFree (getparents t) := by
  unfold DotFree
  rw [splitOn_getparents]
  exact plain_resolve ⟨rfl, rfl⟩

theorem total_eq (h : segs ≠ []) : total List.length segs = (joinSlash segs).length + 1 := by
  induction segs with
  | nil => exact absurd rfl h
  | cons s segs ih =>
    rw [total_cons]
    cases segs with
    | nil => rw [joinSlash_singleton, total_nil]
    | cons t rest =>
      rw [ih (by simp), joinSlash_cons s (by simp), List.length_append, List.length_cons]
      omega

/-- A path with dot segments gets shorter by two characters, unless it only loses a dot at
its end. -/
theorem getparents_cases (t : Text) :
    DotFree t ∨ t = getparents t ++ ['.'] ∨ (getparents t).length + 2 ≤ t.length := by
  have hne := List.splitOn_ne_nil '/' t
  have hjoin : joinSlash (t.splitOn '/') = t := List.intercalate_splitOn '/'
  have hres : resolve isDot isDotDot [] (t.splitOn '/') ≠ [] := resolveFrom_ne_nil hne
  rcases @resolveFrom_cases Text isDot isDotDot [] List.length rfl (by simp [isDot])
      (by simp [isDotDot]) [] (t.splitOn '/') with hplain | ⟨init, s, hsplit, hs, hres'⟩ | hlen
  · exact Or.inl hplain
  · refine Or.inr (Or.inl ?_)
    rw [getparents_eq]
    unfold resolve
    rw [hres', List.reverse_nil, List.nil_append]
    apply List.reverse_injective
    have hdot : s = ['.'] := by simpa [isDot] using hs
    rw [← hjoin, hsplit, List.reverse_append, reverse_joinSlash_concat, reverse_joinSlash_concat,
      hdot]
    rfl
  · refine Or.inr (Or.inr ?_)
    have htotal := total_eq hres
    unfold resolve at htotal
    rw [htotal, total_nil, total_eq hne, hjoin] at hlen
    rw [getparents_eq]
    unfold resolve
    omega

end Lost

end StoneRidge.Archive
