import Mathlib
import StoneRidge.Archive.Answered

/-!
# What is sent for a header

The values that the client gets under the name of a recorded header.
-/

set_option autoImplicit false

namespace StoneRidge.Archive
open StoneRidge.Kit.Fields StoneRidge.Kit.PyText StoneRidge.Kit.Tables

/-! ### What is sent -/

/-- The answer that is made of the scan. -/
def scanAnswer (d : Dates) (conn : Connection) (r : ArchivedResponse) : Answer :=
  outputFilters d conn (finishScan (scanOf d r)) r.responseData.flatten

/-- The type that the handler passes on. -/
def typeOf (d : Dates) (r : ArchivedResponse) : Text :=
  (answered d (writtenHeaders r) "content-type".toList).head?.getD defaultContentType

/-- What the answer to a response holds under an index. -/
def sentValues (d : Dates) (conn : Connection) (r : ArchivedResponse) (i : Text) : List Text :=
  if isSent r.status i then
    (ownValue d conn r i).elim
      (filtered conn r.status (closing r) (typeOf d r) i
        (if i = "content-type".toList then [] else answered d (writtenHeaders r) i)) fun v => [v]
  else []

section Sent
variable {d : Dates} {conn : Connection} {r : ArchivedResponse} {i : Text}

theorem scanned_scanOf (hstatus : ∀ h ∈ writtenHeaders r, lower h.1 ≠ "status".toList) :
    Scanned d (writtenHeaders r) (scanOf d r) ∧ (scanOf d r).status = r.status ∧
      (scanOf d r).statusLine = some (seen (statusHeader r).2) := by
  obtain ⟨hscanned, hsame, hline⟩ := scanned_all (writtenHeaders r) hstatus (scanned_statusScan d r)
  refine ⟨hscanned, hsame.trans (status_statusScan d r), hline.trans ?_⟩
  rw [statusScan_eq]

theorem status_scanAnswer (hstatus : ∀ h ∈ writtenHeaders r, lower h.1 ≠ "status".toList) :
    (scanAnswer d conn r).status = r.status ↔
      isKnown r.status ∨ r.reason ≠ [] ∧ r.reason ≠ ['\r'] ∧ r.reason.head? ≠ some '\x00' := by
  obtain ⟨_, hsame, hline⟩ := scanned_scanOf (d := d) hstatus
  exact status_outputFilters hsame hline

theorem values_scanAnswer (hstatus : ∀ h ∈ writtenHeaders r, lower h.1 ≠ "status".toList)
    (hi : i ≠ "status".toList) :
    values lower (scanAnswer d conn r).headers i = sentValues d conn r i := by
  obtain ⟨hscanned, hsame, _⟩ := scanned_scanOf (d := d) hstatus
  have hlength : values lower (finishScan (scanOf d r)).errHeadersOut "content-length".toList =
      [] := by
    have hnone : "content-length".toList ≠ "set-cookie".toList ∧
        isMerged "content-length".toList = false := by decide
    rw [values_err hscanned, if_neg hnone.1, hnone.2, if_neg Bool.false_ne_true]
  have hwimpy : (finishScan (scanOf d r)).wimpy = closing r := by
    have hne : "connection".toList ≠ "status".toList ∧
        "connection".toList ≠ "content-type".toList := by decide
    unfold Request.wimpy closing
    rw [held_finishScan hscanned hne.1, if_neg hne.2, answered_merged (by decide)]
  have hcode : (finishScan (scanOf d r)).status = r.status := hsame
  unfold scanAnswer sentValues ownValue typeOf
  rw [values_outputFilters _ hlength, hwimpy, hcode, held_finishScan hscanned hi,
    contentType_finishScan hscanned]

end Sent

/-! ### Values of headers -/

section Repeated
variable {d : Dates} {hs : List Header} {h h' : Header} {i v w : Text}

theorem sameValue_type (hname : lower h.1 = "content-type".toList) :
    SameValue h.1 v w ↔ lower (strip v) = lower (strip w) := by
  unfold SameValue
  rw [if_pos hname]

theorem sameValue_of_ne (hname : lower h.1 ≠ "content-type".toList) :
    SameValue h.1 v w ↔ strip v = strip w := by
  unfold SameValue
  rw [if_neg hname]

theorem isSpace_of_le {c : Char} (hc : 33 ≤ c.toNat) : isSpace c = false := by
  unfold isSpace
  rw [decide_eq_false_iff_not]
  intro hmem
  simp only [List.mem_cons, List.not_mem_nil, or_false] at hmem
  rcases hmem with rfl | rfl | rfl | rfl | rfl | rfl <;> exact absurd hc (by decide)

theorem isSpace_toLower (c : Char) : isSpace c.toLower = isSpace c := by
  rcases toLower_cases c with ⟨_, hsame⟩ | ⟨hrange, hlower⟩
  · rw [hsame]
  · rw [isSpace_of_le (c := c) (by omega), isSpace_of_le (by omega)]

theorem strip_lower (t : Text) : strip (lower t) = lower (strip t) := by
  have hspace : isSpace ∘ Char.toLower = isSpace := funext isSpace_toLower
  unfold strip lower
  rw [List.dropWhile_map, hspace, ← List.map_reverse, List.dropWhile_map, hspace, List.map_reverse]

theorem lower_lower (t : Text) : lower (lower t) = lower t := by
  unfold lower
  rw [List.map_map]
  apply List.map_congr_left
  intro c _
  exact c.toLower_toLower_eq_toLower

theorem strip_trimEnd (l : Text) : strip (trimEnd l) = strip l := by
  cases l with
  | nil => rfl
  | cons c l =>
    have hsplit := List.takeWhile_append_dropWhile (p := isSpace) (l := l.reverse)
    have hl : l = (l.reverse.dropWhile isSpace).reverse ++
        (l.reverse.takeWhile isSpace).reverse := by
      rw [← List.reverse_append, hsplit, List.reverse_reverse]
    have hspace : ∀ e ∈ (l.reverse.takeWhile isSpace).reverse, isSpace e = true := by
      intro e he
      exact List.mem_takeWhile_imp (List.mem_reverse.mp he)
    unfold trimEnd
    conv_rhs => rw [hl, ← List.cons_append, strip_append_space hspace]

theorem lower_contentType (l : Text) : lower (contentTypeToLower l) = lower l := by
  have hsplit := List.takeWhile_append_dropWhile (p := (· ≠ ';')) (l := l)
  unfold contentTypeToLower
  conv_rhs => rw [← hsplit]
  unfold lower
  rw [List.map_append, List.map_append]
  congr 1
  exact lower_lower _

theorem lower_strip_contentType (l : Text) :
    lower (strip (contentTypeToLower (trimEnd l))) = lower (strip l) := by
  rw [← strip_lower, lower_contentType, strip_lower, strip_trimEnd]

/-- Without the white space before it, only that at the end is left to be trimmed. -/
theorem trimEnd_dropWhile (l : Text) : trimEnd (l.dropWhile isSpace) = strip l := by
  unfold strip
  cases hl : l.dropWhile isSpace with
  | nil => rfl
  | cons c t =>
    have hc : isSpace c = false := by
      have hnot := List.head?_dropWhile_not isSpace l
      rw [hl] at hnot
      simpa using hnot
    have hrev : (c :: t).reverse.dropWhile isSpace = t.reverse.dropWhile isSpace ++ [c] := by
      rw [List.reverse_cons, List.dropWhile_append]
      split
      · rename_i hnil
        rw [List.isEmpty_iff.mp hnil, List.dropWhile_cons_of_neg (by simp [hc])]
        rfl
      · rfl
    rw [hrev, List.reverse_append]
    rfl

theorem trimEnd_seen (hv : '\x00' ∉ v) : trimEnd (seen v) = strip v := by
  rw [← strip_seen hv]
  unfold seen
  rw [trimEnd_dropWhile, strip_dropWhile]

theorem values_seen (hs : List Header) (i : Text) :
    values lower (seenHeaders hs) i = (hs.filter fun h => lower h.1 = i).map fun h => seen h.2 := by
  unfold values seenHeaders
  rw [List.filter_map, List.map_map]
  rfl

theorem mem_values_seen (hh : h ∈ hs) : seen h.2 ∈ values lower (seenHeaders hs) (lower h.1) := by
  rw [values_seen, List.mem_map]
  exact ⟨h, List.mem_filter.mpr ⟨hh, decide_eq_true rfl⟩, rfl⟩

theorem exists_last (hh : h ∈ hs) : ∃ h' ∈ hs, lower h'.1 = lower h.1 ∧
    (values lower (seenHeaders hs) (lower h.1)).getLast? = some (seen h'.2) := by
  cases hlast : (values lower (seenHeaders hs) (lower h.1)).getLast? with
  | none =>
    rw [List.getLast?_eq_none_iff] at hlast
    exact absurd (hlast ▸ mem_values_seen hh) List.not_mem_nil
  | some l =>
    have hmem := List.mem_of_getLast? hlast
    rw [values_seen, List.mem_map] at hmem
    obtain ⟨h', hh', rfl⟩ := hmem
    rw [List.mem_filter, decide_eq_true_eq] at hh'
    exact ⟨h', hh'.1, hh'.2, rfl⟩

/-- Each value but one adds a comma of its own. -/
theorem count_joinAll (vs : List Text) :
    ∀ w ∈ joinAll comma vs, w.count ',' + 1 = (vs.map fun v => v.count ',' + 1).sum := by
  induction vs with
  | nil =>
    intro w hw
    cases hw
  | cons v vs ih =>
    intro w hw
    rw [List.map_cons, List.sum_cons]
    unfold joinAll at hw
    split at hw
    · rename_i hnil
      rw [joinAll_eq_nil.mp hnil, List.map_nil, List.sum_nil, List.mem_singleton.mp hw, Nat.add_zero]
    · rename_i w' ws hcons
      have hrest := ih w' (by rw [hcons]; exact List.mem_cons_self)
      have hsep : (", ".toList).count ',' = 1 := by decide
      rw [List.mem_singleton.mp hw]
      unfold comma
      rw [List.count_append, List.count_append, hsep]
      omega

theorem count_seen (hv : '\x00' ∉ v) : (seen v).count ',' = v.count ',' := by
  rw [← count_strip (by decide), strip_seen hv, count_strip (by decide)]

/-- Two headers that are merged are lost. -/
theorem count_merged (hsub : [h, h'].Sublist hs) (hname : lower h.1 = lower h'.1)
    (hnul : '\x00' ∉ h.2 ∧ '\x00' ∉ h'.2)
    (hw : w ∈ joinAll comma (values lower (seenHeaders hs) (lower h.1))) :
    h.2.count ',' < w.count ',' := by
  have hfilter := (hsub.filter fun e => lower e.1 = lower h.1).map fun e => (seen e.2).count ',' + 1
  rw [List.filter_cons, if_pos (decide_eq_true rfl), List.filter_cons,
    if_pos (decide_eq_true hname.symm), List.filter_nil, List.map_cons, List.map_singleton,
    count_seen hnul.1, count_seen hnul.2] at hfilter
  have hsum := hfilter.sum_le_sum (by intro n _; exact Nat.zero_le n)
  have hcount := count_joinAll _ w hw
  rw [values_seen, List.map_map] at hcount
  simp only [List.sum_cons, List.sum_nil] at hsum
  have heq : ((hs.filter fun e => lower e.1 = lower h.1).map fun e => (seen e.2).count ',' + 1) =
      (hs.filter fun e => lower e.1 = lower h.1).map
        ((fun v => v.count ',' + 1) ∘ fun e => seen e.2) := rfl
  rw [heq] at hsum
  omega

/-- The values that are merged have no more commas than what comes of them. -/
theorem count_le_joinAll (hh : h ∈ hs) (hnul : '\x00' ∉ h.2)
    (hw : w ∈ joinAll comma (values lower (seenHeaders hs) (lower h.1))) :
    h.2.count ',' ≤ w.count ',' := by
  have hcount := count_joinAll _ w hw
  have hmem : h.2.count ',' + 1 ∈
      (values lower (seenHeaders hs) (lower h.1)).map fun v => v.count ',' + 1 := by
    rw [← count_seen hnul]
    exact List.mem_map_of_mem (mem_values_seen hh)
  have hle := List.single_le_sum (fun n _ => Nat.zero_le n) _ hmem
  omega

/-- The scan finds a value from its first character on. -/
theorem head?_seen (hv : '\x00' ∉ v) : (seen v).head? = (strip v).head? := by
  unfold seen
  rw [← head?_strip, ← strip_dropWhile]
  exact congrArg List.head? (strip_seen hv)

end Repeated

/-! ### Kinds of headers -/

section Kinds
variable {d : Dates} {conn : Connection} {r : ArchivedResponse} {h : Header} {i v w : Text}

theorem ownValue_eq_none (hi : i ∉ ["date".toList, "server".toList, "content-length".toList,
    "keep-alive".toList]) : ownValue d conn r i = none := by
  simp only [List.mem_cons, List.not_mem_nil, or_false, not_or] at hi
  unfold ownValue generated
  rw [if_neg hi.1, if_neg hi.2.1, if_neg hi.2.2.1, if_neg fun h => hi.2.2.2 h.1]

theorem sentValues_own (hsent : isSent r.status i = true) (hown : ownValue d conn r i = some w) :
    sentValues d conn r i = [w] := by
  unfold sentValues
  rw [if_pos hsent, hown]
  rfl

theorem sentValues_type (hsent : isSent r.status "content-type".toList = true) :
    sentValues d conn r "content-type".toList =
      if lower (typeOf d r) = noContentType then [] else [typeOf d r] := by
  unfold sentValues filtered
  rw [if_pos hsent, ownValue_eq_none (by decide), if_pos rfl, if_pos rfl]
  rfl

theorem sentValues_vary (hsent : isSent r.status "vary".toList = true) :
    sentValues d conn r "vary".toList =
      varied (joinAll comma (values lower (seenHeaders (writtenHeaders r)) "vary".toList)) := by
  have hne : "vary".toList ≠ "content-type".toList := by decide
  unfold sentValues filtered
  rw [if_pos hsent, ownValue_eq_none (by decide), if_neg hne, if_neg hne, if_pos rfl,
    answered_merged (by decide)]
  rfl

theorem sentValues_connection (hsent : isSent r.status "connection".toList = true) :
    sentValues d conn r "connection".toList =
      (conn.token r.status (closing r)).elim
        (joinAll comma (values lower (seenHeaders (writtenHeaders r)) "connection".toList))
        (joinFirst comma
          (joinAll comma (values lower (seenHeaders (writtenHeaders r)) "connection".toList))) := by
  have hne : "connection".toList ≠ "content-type".toList ∧ "connection".toList ≠ "vary".toList := by
    decide
  unfold sentValues filtered
  rw [if_pos hsent, ownValue_eq_none (by decide), if_neg hne.1, if_neg hne.1, if_neg hne.2,
    if_pos rfl, answered_merged (by decide)]
  rfl

/-- Other values are sent as the handler passes them on. -/
theorem sentValues_other (hsent : isSent r.status i = true) (hown : ownValue d conn r i = none)
    (hi : i ∉ ["content-type".toList, "vary".toList, "connection".toList]) :
    sentValues d conn r i = answered d (writtenHeaders r) i := by
  simp only [List.mem_cons, List.not_mem_nil, or_false, not_or] at hi
  unfold sentValues filtered
  rw [if_pos hsent, hown, if_neg hi.1, if_neg hi.1, if_neg hi.2.1, if_neg hi.2.2]
  rfl

theorem isSent_of_mem (hv : v ∈ sentValues d conn r i) : isSent r.status i = true := by
  unfold sentValues at hv
  split at hv
  · assumption
  · cases hv

/-- The type that is passed on is that of the last header for it. -/
theorem exists_type (hnul : ∀ e ∈ writtenHeaders r, '\x00' ∉ e.2) (hh : h ∈ writtenHeaders r)
    (htype : lower h.1 = "content-type".toList) : ∃ h' ∈ writtenHeaders r,
      lower h'.1 = lower h.1 ∧ typeOf d r = contentTypeToLower (strip h'.2) := by
  obtain ⟨h', hh', hname, hlast⟩ := exists_last hh
  refine ⟨h', hh', hname, ?_⟩
  unfold typeOf
  rw [answered_type, ← htype, hlast, Option.map_some, trimEnd_seen (hnul h' hh')]
  rfl

end Kinds

/-! ### Vary -/

section Vary
variable {hs : List Header} {h : Header} {vs : List Text} {v w : Text}

theorem isFieldSep_of_isSpace {c : Char} (hc : isSpace c = true) : isFieldSep c = true := by
  unfold isFieldSep
  rw [hc, Bool.or_true]

theorem varyFields_strip (v : Text) : varyFields (strip v) = varyFields v := by
  obtain ⟨a, b, hv, ha, hb⟩ := strip_split v
  unfold varyFields
  conv_rhs => rw [hv]
  rw [fields_append_right fun c hc => isFieldSep_of_isSpace (hb c hc),
    fields_append_left fun c hc => isFieldSep_of_isSpace (ha c hc)]

theorem varyFields_seen (hv : '\x00' ∉ v) : varyFields (seen v) = varyFields v := by
  rw [← varyFields_strip, strip_seen hv, varyFields_strip]

theorem varyFields_comma (v w : Text) : varyFields (comma v w) = varyFields v ++ varyFields w := by
  have hcomma : comma v w = v ++ ',' :: ([' '] ++ w) := by
    unfold comma
    rw [List.append_assoc]
    rfl
  unfold varyFields
  rw [hcomma, fields_append_cons (by decide), fields_append_left (by decide)]

theorem varyFields_joinAll (vs : List Text) :
    (joinAll comma vs).flatMap varyFields = vs.flatMap varyFields := by
  induction vs with
  | nil => rfl
  | cons v vs ih =>
    rcases joinAll_cons comma v vs with ⟨rfl, hone⟩ | ⟨w, hw, hjoin⟩
    · rw [hone]
    · rw [hw, List.flatMap_singleton] at ih
      rw [hjoin, List.flatMap_singleton, varyFields_comma, List.flatMap_cons, ih]

/-- Fields are put together without white space. -/
theorem strip_intercalate {fs : List Text} (hfs : ∀ f ∈ fs, ∀ c ∈ f, isFieldSep c = false) :
    strip ([','].intercalate fs) = [','].intercalate fs := by
  have hnone : ∀ c ∈ [','].intercalate fs, isSpace c = false := by
    intro c hc
    rcases mem_intercalate hc with rfl | ⟨f, hf, hmem⟩
    · decide
    · have hsep := hfs f hf c hmem
      unfold isFieldSep at hsep
      rw [Bool.or_eq_false_iff] at hsep
      exact hsep.2
  apply strip_eq
  · intro c hc
    exact hnone c (List.mem_of_head? hc)
  · intro c hc
    exact hnone c (List.mem_of_getLast? hc)

theorem plain_distinct (v : Text) : ∀ f ∈ distinct lower (varyFields v),
    f ≠ [] ∧ ∀ c ∈ f, isFieldSep c = false := by
  intro f hf
  obtain ⟨hne, hplain⟩ := mem_fields (distinct_subset hf)
  exact ⟨hne, fun c hc => (hplain c hc).2⟩

theorem strip_variedText (v : Text) : strip (variedText v) = variedText v :=
  strip_intercalate fun f hf => (plain_distinct v f hf).2

theorem varyFields_variedText (v : Text) :
    varyFields (variedText v) = distinct lower (varyFields v) :=
  fields_intercalate (by decide) (plain_distinct v)

/-- A text that has been put together stays as it is. -/
theorem variedText_variedText (v : Text) : variedText (variedText v) = variedText v := by
  unfold variedText
  have hfields := varyFields_variedText v
  unfold variedText at hfields
  rw [hfields, distinct_of_nodup (nodup_distinct lower _)]

theorem variedText_strip (v : Text) : variedText (strip v) = variedText v := by
  unfold variedText
  rw [varyFields_strip]

theorem varied_singleton (v : Text) :
    varied [v] = if varyFields v = [] then [v] else [variedText v] := by
  unfold varied variedText
  simp only [List.flatMap_singleton, distinct_eq_nil_iff]

end Vary

end StoneRidge.Archive
