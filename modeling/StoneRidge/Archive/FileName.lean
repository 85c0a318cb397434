import StoneRidge.Archive.DotSegments

/-!
# One name for one resource

When the name of the stored file is the name the server looks for.
-/

set_option autoImplicit false

namespace StoneRidge.Archive
open StoneRidge.Kit.PyText StoneRidge.Kit.Segments

section Translate
variable {path f t u : Text}

/-! ### What the server makes of a path -/

theorem unescape_plain (h : '%' ∉ t) : unescape t = ⟨t, false, false⟩ := by
  induction t using unescape.induct with
  | case1 => rfl
  | case2 a b url _ _ => exact absurd List.mem_cons_self h
  | case3 a b url _ _ => exact absurd List.mem_cons_self h
  | case4 c url hnot ih =>
    rw [List.mem_cons, not_or] at h
    rw [unescape, ih h.2]
    · simp [Ne.symm h.1]
    · exact hnot

theorem unescapeUrl_plain (h : '%' ∉ t) : unescapeUrl t = .ok t := by
  unfold unescapeUrl
  rw [unescape_plain h]
  rfl

/-- Every percent sign that is no error takes away two characters. -/
theorem unescape_length (t : Text) :
    (unescape t).text.length ≤ t.length ∧
      ('%' ∈ t → (unescape t).badesc = false → (unescape t).text.length + 2 ≤ t.length) := by
  induction t using unescape.induct with
  | case1 => exact ⟨Nat.le_refl _, fun h => absurd h List.not_mem_nil⟩
  | case2 a b url hx ih =>
    rw [unescape, if_pos hx]
    simp only [List.length_cons]
    exact ⟨by omega, fun _ _ => by omega⟩
  | case3 a b url hx ih =>
    rw [unescape, if_neg hx]
    simp only [List.length_cons] at ih ⊢
    exact ⟨by omega, fun _ h => absurd h (by decide)⟩
  | case4 c url hnot ih =>
    rw [unescape]
    · simp only [List.length_cons, List.mem_cons]
      refine ⟨by omega, ?_⟩
      intro hmem hok
      rw [Bool.or_eq_false_iff, decide_eq_false_iff_not] at hok
      have hurl := ih.2 (hmem.resolve_left fun heq => hok.1 heq.symm) hok.2
      omega
    · exact hnot

theorem unescapeUrl_length (h : unescapeUrl t = .ok u) :
    u.length ≤ t.length ∧ ('%' ∈ t → u.length + 2 ≤ t.length) := by
  unfold unescapeUrl at h
  simp only at h
  split at h
  · cases h
  · rename_i hbad
    split at h
    · cases h
    · cases h
      have hlen := unescape_length t
      exact ⟨hlen.1, fun hmem => hlen.2 hmem (by simpa using hbad)⟩

theorem rewriteRule_eq_some (h : rewriteRule t = some f) :
    f <+: t ∧ ('\n' ∉ t → f = t) := by
  unfold rewriteRule at h
  split at h
  · rename_i filename
    cases h
    refine ⟨?_, ?_⟩
    · exact List.cons_prefix_cons.mpr ⟨rfl, List.takeWhile_prefix _⟩
    · intro hline
      rw [List.takeWhile_eq_self_iff.mpr]
      intro c hc
      rw [decide_eq_true_eq]
      intro heq
      exact hline (heq ▸ List.mem_cons_of_mem _ hc)
  · cases h

theorem rewriteRule_slash (hline : '\n' ∉ t) : rewriteRule ('/' :: t) = some ('/' :: t) := by
  unfold rewriteRule
  simp only
  rw [List.takeWhile_eq_self_iff.mpr]
  intro c hc
  rw [decide_eq_true_eq]
  intro heq
  exact hline (heq ▸ hc)

theorem translatePath_plain (hpercent : '%' ∉ t) :
    translatePath t = rewriteRule (getparents t) := by
  unfold translatePath
  rw [unescapeUrl_plain hpercent]

/-- The path that is found is the path of the request, or that without a dot at the end,
or it is shorter by two characters. -/
theorem translatePath_cases (hline : '\n' ∉ path) (h : translatePath path = some f) :
    (f = path ∧ '%' ∉ path ∧ DotFree path) ∨ path = f ++ ['.'] ∨ f.length + 2 ≤ path.length := by
  by_cases hpercent : '%' ∈ path
  · refine Or.inr (Or.inr ?_)
    unfold translatePath at h
    split at h
    · cases h
    · rename_i u hu
      have hlen := (unescapeUrl_length hu).2 hpercent
      have hle := (rewriteRule_eq_some h).1.length_le
      rcases getparents_cases u with hfree | heq | hlost
      · rw [getparents_dotFree hfree] at hle
        omega
      · have heq' := congrArg List.length heq
        rw [List.length_append, List.length_singleton] at heq'
        omega
      · omega
  · rw [translatePath_plain hpercent] at h
    have hrule := rewriteRule_eq_some h
    rcases getparents_cases path with hfree | heq | hlost
    · rw [getparents_dotFree hfree] at hrule
      exact Or.inl ⟨hrule.2 hline, hpercent, hfree⟩
    · have hline' : '\n' ∉ getparents path := by
        intro hmem
        apply hline
        rw [heq]
        exact List.mem_append_left _ hmem
      rw [hrule.2 hline']
      exact Or.inr (Or.inl heq)
    · have hle := hrule.1.length_le
      exact Or.inr (Or.inr (by omega))

end Translate

/-! ### The parts of both names -/

/-- The request path as it is, and its parts mean to both what they say. -/
structure Literal (path : Text) : Prop where
  word : ∀ c ∈ path.takeWhile (· ≠ '#'), inWord c = true
  percent : '%' ∉ pathPart path
  params : ';' ∉ lastSegment (pathPart path)
  dots : DotFree (pathPart path)

/-- The archive and the server hash the same text. -/
def SameName (path : Text) : Prop :=
  ∃ name, explodedName path = some name ∧ hashedName path = some name

section Parts
variable {path q a b : Text}

theorem not_mem_pathPart (url : Text) : '?' ∉ pathPart url := by
  intro hmem
  exact absurd (List.mem_takeWhile_imp hmem) (by decide)

/-- A name without a question mark, and a query, are found again in the text. -/
theorem append_withMark_inj {q q' : Text} (ha : '?' ∉ a) (hb : '?' ∉ b) :
    a ++ withMark q = b ++ withMark q' ↔ a = b ∧ q = q' := by
  have htake : ∀ t q : Text, '?' ∉ t → (t ++ withMark q).takeWhile (· ≠ '?') = t := by
    intro t q ht
    rw [List.takeWhile_append_of_pos]
    · unfold withMark
      split <;> simp
    · intro c hc
      rw [decide_eq_true_eq]
      intro heq
      exact ht (heq ▸ hc)
  constructor
  · intro heq
    have hab : a = b := by
      rw [← htake a q ha, heq, htake b q' hb]
    rw [hab, List.append_cancel_left_eq] at heq
    refine ⟨hab, ?_⟩
    unfold withMark at heq
    split at heq
    · split at heq
      · simp_all
      · cases heq
    · split at heq
      · cases heq
      · exact (List.cons.inj heq).2
  · intro ⟨hab, hq⟩
    rw [hab, hq]

theorem splitoutQueryargs_eq (filename uri : Text) :
    splitoutQueryargs filename (parseArgs uri) =
      if '?' ∈ filename then none else some (filename ++ withMark (queryPart uri)) := by
  unfold splitoutQueryargs parseArgs queryPart withMark
  split
  · rfl
  · split
    · rename_i args heq
      split at heq
      · cases heq
        split <;> simp_all
      · cases heq
    · rename_i heq
      split at heq
      · cases heq
      · simp

theorem collapseSlashes_replicate {n : ℕ} (hq : q.head? ≠ some '/') :
    collapseSlashes (List.replicate (n + 1) '/' ++ q) = '/' :: q := by
  induction n with
  | zero =>
    change collapseSlashes ('/' :: q) = '/' :: q
    rw [collapseSlashes]
    intro uri heq
    rw [List.cons.injEq] at heq
    exact hq (by rw [heq.2]; rfl)
  | succ n ih =>
    change collapseSlashes ('/' :: '/' :: (List.replicate n '/' ++ q)) = _
    rw [collapseSlashes]
    exact ih

theorem head_getword (hq : q.head? ≠ some '/') : (getword q).head? ≠ some '/' := by
  intro heq
  obtain ⟨t, ht⟩ := List.head?_eq_some_iff.mp heq
  have hpre : getword q <+: q := List.takeWhile_prefix _
  rw [ht] at hpre
  obtain ⟨u, hu⟩ := hpre
  exact hq (by rw [← hu]; rfl)

theorem parseUri_replicate {n : ℕ} (hq : q.head? ≠ some '/') :
    parseUri (getword (List.replicate (n + 1) '/' ++ q)) =
      ('/' :: pathPart (getword q), parseArgs (getword q)) := by
  have hword : getword (List.replicate (n + 1) '/' ++ q) =
      List.replicate (n + 1) '/' ++ getword q := by
    unfold getword
    rw [List.takeWhile_append_of_pos]
    intro c hc
    rw [List.eq_of_mem_replicate hc]
    decide
  have hpath : pathPart ('/' :: getword q) = '/' :: pathPart (getword q) :=
    List.takeWhile_cons_of_pos (by decide)
  have hargs : parseArgs ('/' :: getword q) = parseArgs (getword q) := by
    unfold parseArgs
    rw [List.dropWhile_cons_of_pos (by decide)]
  unfold parseUri
  simp only
  rw [hword, collapseSlashes_replicate (head_getword hq), hpath, hargs, if_neg (by simp)]

theorem hashedName_eq {n : ℕ} (hq : q.head? ≠ some '/') :
    hashedName (List.replicate (n + 1) '/' ++ q) =
      (translatePath ('/' :: pathPart (getword q))).bind fun filename =>
        if '?' ∈ filename then none else some (filename ++ withMark (queryPart (getword q))) := by
  unfold hashedName
  rw [parseUri_replicate hq]
  simp only [splitoutQueryargs_eq]
  rfl

theorem sameName_iff_parts {n : ℕ} (hq : q.head? ≠ some '/') :
    SameName (List.replicate (n + 1) '/' ++ q) ↔
      badBrackets (withoutNetloc (List.replicate (n + 1) '/' ++ q)).1 = false ∧
      translatePath ('/' :: pathPart (getword q)) =
        some (orSlash (dropMark (pathPart (withoutNetloc (List.replicate (n + 1) '/' ++ q)).2))) ∧
      queryPart (withoutNetloc (List.replicate (n + 1) '/' ++ q)).2 = queryPart (getword q) := by
  generalize hsplit : withoutNetloc (List.replicate (n + 1) '/' ++ q) = parts
  obtain ⟨netloc, rest⟩ := parts
  have hmark : '?' ∉ orSlash (dropMark (pathPart rest)) := by
    unfold orSlash
    split
    · decide
    · rw [mem_dropMark (by decide)]
      exact not_mem_pathPart rest
  unfold SameName
  rw [hashedName_eq hq, explodedName_eq, hsplit]
  constructor
  · intro ⟨name, hexploded, hhashed⟩
    split at hexploded
    · cases hexploded
    · rename_i hbad
      cases hexploded
      rw [Option.bind_eq_some_iff] at hhashed
      obtain ⟨filename, htrans, hname⟩ := hhashed
      split at hname
      · cases hname
      · rename_i hfile
        have hparts := (append_withMark_inj hfile hmark).mp (Option.some.inj hname)
        refine ⟨by simpa using hbad, ?_, hparts.2.symm⟩
        rw [htrans, hparts.1]
  · intro ⟨hbad, htrans, hquery⟩
    refine ⟨orSlash (dropMark (pathPart rest)) ++ withMark (queryPart rest), ?_, ?_⟩
    · rw [hbad]
      rfl
    · rw [htrans, Option.bind_some, if_neg hmark, hquery]

end Parts

/-! ### Literal paths -/

section LiteralPaths
variable {path q : Text}

theorem getword_of_word (h : ∀ c ∈ path, inWord c = true) : getword path = path :=
  List.takeWhile_eq_self_iff.mpr h

theorem newline_not_mem_getword (path : Text) : '\n' ∉ getword path := by
  intro hmem
  exact absurd (List.mem_takeWhile_imp hmem) (by decide)

/-- Both find the same path exactly if nothing in it has a meaning of its own. -/
theorem translatePath_eq_dropMark_iff (path : Text) :
    translatePath (getword ('/' :: path)) = some (dropMark ('/' :: path)) ↔
      (∀ c ∈ '/' :: path, inWord c = true) ∧ '%' ∉ '/' :: path ∧
        ';' ∉ lastSegment ('/' :: path) ∧ DotFree ('/' :: path) := by
  constructor
  · intro htrans
    have hpre : getword ('/' :: path) <+: '/' :: path := List.takeWhile_prefix _
    have hlen := hpre.length_le
    have hcases := translatePath_cases (newline_not_mem_getword ('/' :: path)) htrans
    generalize '/' :: path = P at *
    rcases dropMark_cases P with ⟨hsemi, hdrop⟩ | ⟨_, a, b, rfl, hdrop⟩
    · rw [hdrop] at hcases
      rcases hcases with ⟨heq, hpercent, hfree⟩ | heq | hlost
      · rw [← heq] at hpercent hfree
        exact ⟨List.takeWhile_eq_self_iff.mp heq.symm, hpercent, hsemi, hfree⟩
      · have heq' := congrArg List.length heq
        rw [List.length_append, List.length_singleton] at heq'
        omega
      · omega
    · exfalso
      rw [hdrop] at hcases
      simp only [List.length_append, List.length_cons] at hlen hcases
      rcases hcases with ⟨heq, _⟩ | heq | hlost
      · -- the last character is no character of a word, but it is in the name
        obtain ⟨rest, hrest⟩ := hpre
        have hlenRest := congrArg List.length hrest
        rw [← heq] at hlenRest
        simp only [List.length_append, List.length_cons] at hlenRest
        obtain ⟨c, rfl⟩ := List.length_eq_one_iff.mp (show rest.length = 1 by omega)
        have hbad : inWord c = false := by
          by_contra hgood
          rw [Bool.not_eq_false] at hgood
          have hall : getword (a ++ ';' :: b) = a ++ ';' :: b := by
            apply getword_of_word
            intro d hd
            rw [← hrest] at hd
            rcases List.mem_append.mp hd with hd | hd
            · exact List.mem_takeWhile_imp hd
            · rw [List.mem_singleton.mp hd]
              exact hgood
          rw [hall] at heq
          have hlen' := congrArg List.length heq
          simp at hlen'
        have hmem : c ∈ a ++ b := by
          have hc : c ∈ a ++ ';' :: b := by
            rw [← hrest]
            simp
          have hne : c ≠ ';' := by
            intro hc'
            rw [hc'] at hbad
            exact absurd hbad (by decide)
          simpa [hne] using hc
        rw [heq] at hmem
        rw [List.mem_takeWhile_imp hmem] at hbad
        cases hbad
      · -- only a dot is lost, but the name has lost a semicolon
        have hlen' := congrArg List.length heq
        simp only [List.length_append, List.length_singleton] at hlen'
        have hall : getword (a ++ ';' :: b) = a ++ ';' :: b := by
          apply hpre.eq_of_length
          rw [hlen', List.length_append, List.length_cons]
          omega
        rw [hall] at heq
        have hcount := congrArg (List.count ';') heq
        simp only [List.count_append, List.count_cons_self] at hcount
        have hzero : List.count ';' ['.'] = 0 := by decide
        omega
      · omega
  · intro ⟨hword, hpercent, hsemi, hfree⟩
    have hline := newline_not_mem_getword ('/' :: path)
    rw [getword_of_word hword] at hline ⊢
    rw [translatePath_plain hpercent, getparents_dotFree hfree, dropMark_eq_self_iff.mpr hsemi]
    apply rewriteRule_slash
    intro hmem
    exact hline (List.mem_cons_of_mem _ hmem)

theorem getword_takeWhile (p : Char → Bool) (t : Text) :
    (getword t).takeWhile p = getword (t.takeWhile p) := by
  unfold getword
  rw [List.takeWhile_takeWhile, List.takeWhile_takeWhile]
  congr 1
  funext c
  rw [decide_eq_decide]
  exact and_comm

theorem forall_before_fragment {p : Char → Prop} (hmark : p '?') (url : Text) :
    (∀ c ∈ url.takeWhile (· ≠ '#'), p c) ↔
      (∀ c ∈ pathPart url, p c) ∧ ∀ c ∈ queryPart url, p c := by
  obtain ⟨hpath, hquery⟩ := split_parts url
  rw [← hpath, ← hquery]
  unfold split1
  simp only
  generalize url.takeWhile (· ≠ '#') = t
  constructor
  · intro hall
    refine ⟨?_, ?_⟩
    · intro c hc
      exact hall c ((List.takeWhile_prefix _).subset hc)
    · intro c hc
      exact hall c ((List.dropWhile_suffix _).subset (List.mem_of_mem_tail hc))
  · intro ⟨hleft, hright⟩ c hc
    rw [← List.takeWhile_append_dropWhile (p := (· ≠ '?')) (l := t)] at hc
    rcases List.mem_append.mp hc with hc | hc
    · exact hleft c hc
    · cases hdrop : t.dropWhile (· ≠ '?') with
      | nil =>
        rw [hdrop] at hc
        cases hc
      | cons d rest =>
        rw [hdrop] at hc hright
        have hd : d = '?' := by simpa using head_of_dropWhile hdrop
        rcases List.mem_cons.mp hc with rfl | hc
        · rw [hd]
          exact hmark
        · exact hright c hc

theorem pathPart_getword (q : Text) : pathPart (getword q) = getword (pathPart q) :=
  getword_takeWhile inPath q

theorem queryPart_getword (h : ∀ c ∈ pathPart q, inWord c = true) :
    queryPart (getword q) = getword (queryPart q) := by
  have hword : getword q = pathPart q ++ getword (q.dropWhile inPath) := by
    unfold getword pathPart at *
    rw [← List.takeWhile_append_of_pos h, List.takeWhile_append_dropWhile]
  have hin : ∀ c ∈ pathPart q, inPath c = true := fun c hc => List.mem_takeWhile_imp hc
  unfold queryPart
  rw [hword, List.dropWhile_append_of_pos hin]
  cases hdrop : q.dropWhile inPath with
  | nil => rfl
  | cons d rest =>
    have hd := head_of_dropWhile hdrop
    have hcases : d = '?' ∨ d = '#' := by
      unfold inPath at hd
      by_cases hmark : d = '?'
      · exact Or.inl hmark
      · simp [hmark] at hd
        exact Or.inr hd
    have htake : getword (d :: rest) = d :: getword rest := by
      apply List.takeWhile_cons_of_pos
      rcases hcases with rfl | rfl <;> decide
    rw [htake, List.dropWhile_cons_of_neg (by simp [hd])]
    rcases hcases with rfl | rfl
    · exact getword_takeWhile _ rest
    · rfl

theorem queryPart_eq_getword_iff (h : ∀ c ∈ pathPart q, inWord c = true) :
    queryPart q = queryPart (getword q) ↔ ∀ c ∈ queryPart q, inWord c = true := by
  rw [queryPart_getword h]
  unfold getword
  rw [eq_comm, List.takeWhile_eq_self_iff]

theorem pathPart_slash (q : Text) : pathPart ('/' :: q) = '/' :: pathPart q :=
  List.takeWhile_cons_of_pos (by decide)

theorem queryPart_slash (q : Text) : queryPart ('/' :: q) = queryPart q := by
  unfold queryPart
  rw [List.dropWhile_cons_of_pos (by decide)]

theorem getword_slash (q : Text) : getword ('/' :: q) = '/' :: getword q :=
  List.takeWhile_cons_of_pos (by decide)

theorem parts_agree_iff_literal (q : Text) :
    (translatePath ('/' :: pathPart (getword q)) = some (dropMark ('/' :: pathPart q)) ∧
      queryPart q = queryPart (getword q)) ↔ Literal ('/' :: q) := by
  rw [pathPart_getword, ← getword_slash, translatePath_eq_dropMark_iff, ← pathPart_slash]
  constructor
  · intro ⟨⟨hword, hpercent, hsemi, hfree⟩, hquery⟩
    refine ⟨?_, hpercent, hsemi, hfree⟩
    rw [forall_before_fragment (by decide)]
    refine ⟨hword, ?_⟩
    rw [queryPart_slash]
    apply (queryPart_eq_getword_iff _).mp hquery
    intro c hc
    apply hword
    rw [pathPart_slash]
    exact List.mem_cons_of_mem _ hc
  · intro h
    obtain ⟨hpath, hquery⟩ := (forall_before_fragment (by decide) _).mp h.word
    refine ⟨⟨hpath, h.percent, h.params, h.dots⟩, ?_⟩
    rw [queryPart_slash] at hquery
    apply (queryPart_eq_getword_iff _).mpr hquery
    intro c hc
    apply hpath
    rw [pathPart_slash]
    exact List.mem_cons_of_mem _ hc

end LiteralPaths

end StoneRidge.Archive
