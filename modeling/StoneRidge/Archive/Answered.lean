import StoneRidge.Archive.Served

/-!
# The headers of an answer

Where the lines fit, the scan finds the headers that were written; what the answer holds
under each name.
-/

set_option autoImplicit false

namespace StoneRidge.Archive
open StoneRidge.Kit.PyText StoneRidge.Kit.Tables

/-! ### The scan of a response -/

def statusHeader (r : ArchivedResponse) : Header :=
  ("Status".toList, (toString r.status).toList ++ ' ' :: r.reason)

/-- The scan after the status line. -/
def statusScan (d : Dates) (r : ArchivedResponse) : Scan :=
  scanHeader d .init "Status".toList (seen (statusHeader r).2)

/-- The scan after all headers. -/
def scanOf (d : Dates) (r : ArchivedResponse) : Scan :=
  scanAll d (statusScan d r) (writtenHeaders r)

section ScanOf
variable {d : Dates} {r : ArchivedResponse} {h : Header} {i v : Text}

theorem statusLine_eq (r : ArchivedResponse) : statusLine r = headerLine (statusHeader r) := by
  unfold statusLine headerLine statusHeader
  simp

theorem mem_writtenHeaders : h ∈ writtenHeaders r ↔ h ∈ r.headers ∧ isChunked h = false := by
  unfold writtenHeaders
  rw [List.mem_filter, List.mem_mergeSort, Bool.not_eq_true']

theorem written_lines (hmem : h ∈ writtenHeaders r) :
    ':' ∉ h.1 ∧ '\n' ∉ h.1 ∧ '\n' ∉ h.2 := by
  obtain ⟨hh, _⟩ := mem_writtenHeaders.mp hmem
  obtain ⟨_, hcolon, hline⟩ := r.names h hh
  exact ⟨hcolon, hline, r.values h hh⟩

theorem digit_ne {n : ℕ} {c : Char} (hc : c.isDigit = false) : c ∉ Nat.toDigits 10 n := by
  intro hmem
  rw [isDigit_of_mem_toDigits hmem] at hc
  cases hc

/-- A number is read up to the blank behind it. -/
theorem atoi_digits (n : ℕ) {w : Text} (hw : w.head? = some ' ') :
    atoi (Nat.toDigits 10 n ++ w) = n := by
  obtain ⟨c, cs, hcs⟩ := List.exists_cons_of_ne_nil (@Nat.toDigits_ne_nil n 10)
  have hdigit : c.isDigit = true := isDigit_of_mem_toDigits (n := n) (by simp [hcs])
  have hminus : c ≠ '-' := by
    intro heq
    rw [heq] at hdigit
    exact absurd hdigit (by decide)
  have hplus : c ≠ '+' := by
    intro heq
    rw [heq] at hdigit
    exact absurd hdigit (by decide)
  have hspace : (Nat.toDigits 10 n ++ w).dropWhile isSpace = Nat.toDigits 10 n ++ w := by
    rw [hcs, List.cons_append]
    exact List.dropWhile_cons_of_neg (by simp [isSpace_of_isDigit hdigit])
  have htake : (Nat.toDigits 10 n ++ w).takeWhile Char.isDigit = Nat.toDigits 10 n := by
    obtain ⟨w', rfl⟩ : ∃ w', w = ' ' :: w' := by
      cases w with
      | nil => cases hw
      | cons c' w' =>
        cases hw
        exact ⟨w', rfl⟩
    rw [List.takeWhile_append_of_pos fun c hc => isDigit_of_mem_toDigits hc,
      List.takeWhile_cons_of_neg (by decide), List.append_nil]
  have hvalue : Nat.ofDigitChars 10 ((Nat.toDigits 10 n ++ w).takeWhile Char.isDigit) 0 = n := by
    rw [htake, Nat.ofDigitChars_ten_toDigits]
  unfold atoi
  rw [hspace]
  split
  · rename_i heq
    rw [hcs] at heq
    exact absurd (List.cons.inj heq).1 hminus
  · rename_i heq
    rw [hcs] at heq
    exact absurd (List.cons.inj heq).1 hplus
  · rw [hvalue]

theorem head?_chomp_space (t : Text) : (chomp (' ' :: t ++ ['\n'])).head? = some ' ' := by
  have hword : (' ' :: t ++ ['\n']).takeWhile (· ≠ '\x00') =
      ' ' :: (t ++ ['\n']).takeWhile (· ≠ '\x00') := by
    rw [List.cons_append, List.takeWhile_cons_of_pos (by decide)]
  unfold chomp
  rw [hword]
  generalize (t ++ ['\n']).takeWhile (· ≠ '\x00') = w
  simp only [List.reverse_cons]
  cases w.reverse with
  | nil => rfl
  | cons c cs =>
    by_cases hc : c = '\n'
    · subst hc
      cases cs with
      | nil => rfl
      | cons c' cs =>
        by_cases hc' : c' = '\r'
        · subst hc'
          simp
        · simp [hc']
    · simp [hc]

theorem statusScan_eq (d : Dates) (r : ArchivedResponse) : statusScan d r =
    { Scan.init with
      status := atoi (seen (statusHeader r).2)
      statusLine := some (seen (statusHeader r).2) } := by
  have hother : lower "Status".toList ≠ "content-type".toList := by decide
  have hstatus : lower "Status".toList = "status".toList := by decide
  unfold statusScan scanHeader
  rw [if_neg hother, if_pos hstatus]

/-- The value of the status line is the number with what is behind it. -/
theorem seen_statusHeader (r : ArchivedResponse) : seen (statusHeader r).2 =
    Nat.toDigits 10 r.status ++ chomp (' ' :: (r.reason ++ ['\n'])) := by
  have hdigits : (toString r.status).toList = Nat.toDigits 10 r.status := Nat.toList_repr
  have hnul : '\x00' ∉ ' ' :: Nat.toDigits 10 r.status := by
    rw [List.mem_cons, not_or]
    exact ⟨by decide, digit_ne (by decide)⟩
  have hline : ' ' :: (statusHeader r).2 ++ ['\n'] =
      (' ' :: Nat.toDigits 10 r.status) ++ ' ' :: (r.reason ++ ['\n']) := by
    unfold statusHeader
    rw [hdigits]
    simp
  have hspace : (Nat.toDigits 10 r.status ++ chomp (' ' :: (r.reason ++ ['\n']))).dropWhile isSpace
      = Nat.toDigits 10 r.status ++ chomp (' ' :: (r.reason ++ ['\n'])) := by
    obtain ⟨c, cs, hcs⟩ := List.exists_cons_of_ne_nil (@Nat.toDigits_ne_nil r.status 10)
    have hdigit : c.isDigit = true := isDigit_of_mem_toDigits (n := r.status) (by simp [hcs])
    rw [hcs, List.cons_append]
    exact List.dropWhile_cons_of_neg (by simp [isSpace_of_isDigit hdigit])
  unfold seen
  rw [hline, chomp_append hnul, List.cons_append, List.dropWhile_cons_of_pos (by decide), hspace]

theorem status_statusScan (d : Dates) (r : ArchivedResponse) :
    (statusScan d r).status = r.status := by
  rw [statusScan_eq, seen_statusHeader]
  exact atoi_digits r.status (head?_chomp_space r.reason)

theorem scanned_statusScan (d : Dates) (r : ArchivedResponse) : Scanned d [] (statusScan d r) := by
  rw [statusScan_eq]
  exact ⟨rfl, rfl, fun _ _ => rfl, rfl, fun _ _ _ => rfl, rfl, rfl, rfl⟩

/-- The line of a response as the C string that it is. -/
theorem chomp_reason {t : Text} (ht : '\n' ∉ t) : chomp (' ' :: (t ++ ['\n'])) =
    if '\x00' ∈ t then ' ' :: t.takeWhile (· ≠ '\x00')
    else if t.getLast? = some '\r' then ' ' :: t.dropLast else ' ' :: t := by
  unfold chomp
  rw [List.takeWhile_cons_of_pos (by decide)]
  by_cases hnul : '\x00' ∈ t
  · have hshort : (t.takeWhile (· ≠ '\x00')).length ≠ t.length := by
      intro hlen
      rw [← (List.takeWhile_prefix (· ≠ '\x00')).eq_of_length hlen] at hnul
      exact absurd (List.mem_takeWhile_imp hnul) (by decide)
    rw [List.takeWhile_append, if_neg hshort, if_pos hnul]
    have hline : '\n' ∉ t.takeWhile (· ≠ '\x00') := fun h => ht ((List.takeWhile_prefix _).subset h)
    generalize t.takeWhile (· ≠ '\x00') = w at hline
    simp only [List.reverse_cons]
    rw [← List.mem_reverse] at hline
    cases hw : w.reverse with
    | nil => rfl
    | cons c cs =>
      rw [hw] at hline
      have hc : c ≠ '\n' := fun h => hline (h ▸ List.mem_cons_self)
      simp [hc]
  · have hall : ∀ c ∈ t ++ ['\n'], decide (c ≠ '\x00') = true := by
      intro c hc
      rw [decide_eq_true_eq]
      intro heq
      subst heq
      rcases List.mem_append.mp hc with hc | hc
      · exact hnul hc
      · exact absurd hc (by decide)
    rw [List.takeWhile_eq_self_iff.mpr hall, if_neg hnul]
    simp only [List.reverse_cons, List.reverse_append, List.reverse_nil, List.nil_append,
      List.cons_append]
    rcases List.eq_nil_or_concat t with rfl | ⟨w, c, rfl⟩
    · rfl
    · rw [List.concat_eq_append, List.getLast?_append, List.dropLast_concat, List.reverse_append]
      by_cases hc : c = '\r'
      · simp [hc]
      · simp [hc]

/-- The line is long enough unless there is no reason in it. -/
theorem length_chomp_reason {t : Text} (ht : '\n' ∉ t) :
    1 < (chomp (' ' :: (t ++ ['\n']))).length ↔
      t ≠ [] ∧ t ≠ ['\r'] ∧ t.head? ≠ some '\x00' := by
  rw [chomp_reason ht]
  split
  · rename_i hnul
    cases t with
    | nil => cases hnul
    | cons c t =>
      by_cases hc : c = '\x00'
      · simp [hc]
      · have hcr : c :: t ≠ ['\r'] := by
          intro heq
          rw [heq] at hnul
          exact absurd hnul (by decide)
        simp [hc, hcr]
  · rename_i hnul
    have hhead : t.head? ≠ some '\x00' := fun h => hnul (List.mem_of_head? h)
    rw [← and_assoc, and_iff_left hhead]
    rcases List.eq_nil_or_concat t with rfl | ⟨w, c, rfl⟩
    · simp
    · rw [List.concat_eq_append, List.getLast?_append, List.dropLast_concat]
      by_cases hc : c = '\r'
      · subst hc
        have hw : w ++ ['\r'] = ['\r'] ↔ w = [] := by simp
        simp [hw, List.length_pos_iff]
      · have hne : w ++ [c] ≠ ['\r'] := by
          intro heq
          have hlast := congrArg List.getLast? heq
          rw [List.getLast?_append] at hlast
          exact hc (Option.some.inj hlast)
        simp [hc, hne]

theorem readNumber_digits (n : ℕ) {w : Text} (hw : w.head? = some ' ') :
    readNumber (Nat.toDigits 10 n ++ w) = Nat.toDigits 10 n := by
  obtain ⟨w', rfl⟩ := List.head?_eq_some_iff.mp hw
  obtain ⟨c, cs, hcs⟩ := List.exists_cons_of_ne_nil (@Nat.toDigits_ne_nil n 10)
  have hdigit : c.isDigit = true := isDigit_of_mem_toDigits (n := n) (by simp [hcs])
  have hspace := isSpace_of_isDigit hdigit
  have hsign : decide (c ∈ ['-', '+']) = false := by
    rw [decide_eq_false_iff_not]
    intro hmem
    rcases List.mem_pair.mp hmem with rfl | rfl
    · exact absurd hdigit (by decide)
    · exact absurd hdigit (by decide)
  have htake : (Nat.toDigits 10 n ++ ' ' :: w').takeWhile Char.isDigit = Nat.toDigits 10 n := by
    rw [List.takeWhile_append_of_pos fun c hc => isDigit_of_mem_toDigits hc,
      List.takeWhile_cons_of_neg (by decide), List.append_nil]
  have hskip : (Nat.toDigits 10 n ++ ' ' :: w').takeWhile isSpace = [] ∧
      (Nat.toDigits 10 n ++ ' ' :: w').dropWhile isSpace = Nat.toDigits 10 n ++ ' ' :: w' := by
    rw [hcs, List.cons_append]
    exact ⟨List.takeWhile_cons_of_neg (by simp [hspace]),
      List.dropWhile_cons_of_neg (by simp [hspace])⟩
  have hnone : ((Nat.toDigits 10 n ++ ' ' :: w').take 1).filter (· ∈ ['-', '+']) = [] := by
    rw [hcs, List.cons_append, List.take_succ_cons, List.take_zero, List.filter_cons, hsign]
    rfl
  unfold readNumber
  simp only [hskip.1, hskip.2, hnone, List.length_nil, List.drop_zero, htake, Nat.toDigits_ne_nil,
    if_false, List.nil_append]

theorem length_status (r : ArchivedResponse) : (Nat.toDigits 10 r.status).length = 3 := by
  have hle := (Nat.length_toDigits_le_iff (b := 10) (n := r.status) (k := 3) (by decide)
    (by decide)).mpr (by have h := r.status_digits.2; omega)
  have hlt := mt (Nat.length_toDigits_le_iff (b := 10) (n := r.status) (k := 2) (by decide)
    (by decide)).mp (by have h := r.status_digits.1; omega)
  omega

/-- The recorded status is answered unless the line has no reason and the server does not
know the status. -/
theorem status_outputFilters {conn : Connection} {q : Request} {body : Text}
    (hstatus : q.status = r.status) (hline : q.statusLine = some (seen (statusHeader r).2)) :
    (outputFilters d conn q body).status = r.status ↔
      isKnown r.status ∨ r.reason ≠ [] ∧ r.reason ≠ ['\r'] ∧ r.reason.head? ≠ some '\x00' := by
  have hspace := head?_chomp_space r.reason
  rw [List.cons_append] at hspace
  have hatoi := atoi_digits r.status hspace
  have hdrop : (Nat.toDigits 10 r.status ++ chomp (' ' :: (r.reason ++ ['\n']))).drop
      (Nat.toDigits 10 r.status).length = chomp (' ' :: (r.reason ++ ['\n'])) :=
    List.drop_left
  have hvalid : validateStatusLine q.status q.statusLine =
      if 1 < (chomp (' ' :: (r.reason ++ ['\n']))).length then
        some (Nat.toDigits 10 r.status ++ chomp (' ' :: (r.reason ++ ['\n']))) else none := by
    have hlen : 4 < 3 + (chomp (' ' :: (r.reason ++ ['\n']))).length ↔
        1 < (chomp (' ' :: (r.reason ++ ['\n']))).length := by omega
    unfold validateStatusLine
    rw [hline, hstatus, seen_statusHeader, Option.filter_some, hatoi,
      readNumber_digits r.status hspace, hdrop, hspace, List.length_append, length_status]
    simp only [hlen, decide_true, Bool.and_true, decide_eq_true_eq]
  have hline' : (outputFilters d conn q body).status =
      atoi ((validateStatusLine q.status q.statusLine).getD (getStatusLine q.status)) := rfl
  rw [hline', hvalid, ← length_chomp_reason r.reason_line]
  split
  · rename_i hlong
    rw [Option.getD_some, hatoi]
    simp [hlong]
  · rename_i hshort
    rw [Option.getD_none, hstatus, atoi_getStatusLine r.status_digits.2]
    by_cases hknown : isKnown r.status = true
    · rw [if_pos hknown]
      simp [hknown]
    · have h500 : r.status ≠ 500 := by
        intro heq
        rw [heq] at hknown
        exact hknown (by decide)
      rw [if_neg hknown]
      constructor
      · intro heq
        omega
      · intro h
        exact (h.elim hknown hshort).elim

theorem scanHeaders_asisFile (hfit : Fits r) (hnul : ∀ h ∈ writtenHeaders r, '\x00' ∉ h.1) :
    scanHeaders d .init (asisFile r) = (finishScan (scanOf d r), r.responseData.flatten) := by
  have hname : ':' ∉ "Status".toList ∧ '\n' ∉ "Status".toList ∧ '\x00' ∉ "Status".toList := by
    decide
  have hstatus : '\n' ∉ (statusHeader r).2 := by
    have hdigits : (toString r.status).toList = Nat.toDigits 10 r.status := Nat.toList_repr
    unfold statusHeader
    rw [hdigits, List.mem_append, List.mem_cons, not_or, not_or]
    exact ⟨digit_ne (by decide), by decide, r.reason_line⟩
  have hfile : asisFile r = headerLine (statusHeader r) ++
      ((writtenHeaders r).flatMap headerLine ++ '\n' :: r.responseData.flatten) := by
    unfold asisFile
    rw [statusLine_eq, List.append_assoc]
  have hfit' := hfit.1
  rw [statusLine_eq] at hfit'
  rw [hfile, scanHeaders_header hname.1 ⟨hname.2.1, hstatus⟩ hname.2.2 hfit']
  exact scanHeaders_all (fun h hh => (written_lines hh).1) (fun h hh => (written_lines hh).2) hnul
    hfit.2 _ _

end ScanOf

/-! ### What is in the answer -/

/-- What the answer holds for headers under one index. -/
def answered (d : Dates) (hs : List Header) (i : Text) : List Text :=
  let vs := values lower (seenHeaders hs) i
  if i = "content-type".toList then (vs.getLast?.map fun l => contentTypeToLower (trimEnd l)).toList
  else if i ∈ setHeaders then vs.getLast?.toList
  else if i = "last-modified".toList then
    if vs = [] then [] else [d.rfc822 (d.rationalize (latest d hs))]
  else if i = "set-cookie".toList then vs
  else joinAll comma vs

section Answered
variable {d : Dates} {s : Scan} {hs : List Header} {h : Header} {i v : Text}

theorem values_err (hscanned : Scanned d hs s) (i : Text) :
    values lower (finishScan s).errHeadersOut i =
      if i = "set-cookie".toList then values lower (seenHeaders hs) i
      else if isMerged i then joinAll comma (values lower (seenHeaders hs) i) else [] := by
  have hmerge : values lower (compress lower comma (s.errHeadersOut ++ s.merge)) i =
      if isMerged i then joinAll comma (values lower (seenHeaders hs) i) else [] := by
    rw [values_compress, hscanned.err, List.nil_append, hscanned.merge, values_filter]
    split <;> rfl
  have hcookies : values lower s.cookieTable i =
      if i = "set-cookie".toList then values lower (seenHeaders hs) i else [] := by
    rw [hscanned.cookies]
    have hfilter := values_filter lower (fun j => decide (j = "set-cookie".toList))
      (seenHeaders hs) i
    rw [hfilter]
    by_cases hi : i = "set-cookie".toList
    · rw [if_pos (decide_eq_true hi), if_pos hi]
    · rw [if_neg (by rw [decide_eq_true_eq]; exact hi), if_neg hi]
  have hnone : isMerged "set-cookie".toList = false := by decide
  unfold finishScan
  simp only
  split
  · rename_i hempty
    rw [hmerge]
    by_cases hi : i = "set-cookie".toList
    · rw [hempty, if_pos hi] at hcookies
      rw [if_pos hi, ← hcookies, hi, hnone, if_neg Bool.false_ne_true, values_nil]
    · rw [if_neg hi]
  · rw [values_append, hcookies]
    by_cases hi : i = "set-cookie".toList
    · rw [if_pos hi, if_pos hi, hi, values_filter_self, List.nil_append]
    · rw [if_neg hi, if_neg hi, values_filter_ne lower hi, hmerge, List.append_nil]

/-- What the tables of the request hold under each index. -/
theorem held_finishScan (hscanned : Scanned d hs s) (hi : i ≠ "status".toList) :
    (finishScan s).held i = if i = "content-type".toList then [] else answered d hs i := by
  have hout : (finishScan s).headersOut = s.headersOut := rfl
  unfold Request.held answered
  simp only
  rw [values_append, values_err hscanned, hout]
  by_cases htype : i = "content-type".toList
  · have hnone : i ≠ "set-cookie".toList ∧ isMerged i = false ∧ i ∉ setHeaders ∧
        i ≠ "last-modified".toList := by
      rw [htype]
      decide
    rw [if_neg hnone.1, hnone.2.1, if_neg Bool.false_ne_true, if_pos htype,
      hscanned.rest i hnone.2.2.1 hnone.2.2.2]
    rfl
  · rw [if_neg htype, if_neg htype]
    by_cases hset : i ∈ setHeaders
    · have hnone : ∀ j ∈ setHeaders, j ≠ "set-cookie".toList ∧ isMerged j = false := by decide
      obtain ⟨hcookie, hmerged⟩ := hnone i hset
      rw [if_neg hcookie, hmerged, if_neg Bool.false_ne_true, if_pos hset, hscanned.last i hset]
      rfl
    · rw [if_neg hset]
      by_cases hlm : i = "last-modified".toList
      · have hnone : i ≠ "set-cookie".toList ∧ isMerged i = false := by
          rw [hlm]
          decide
        rw [if_neg hnone.1, hnone.2, if_neg Bool.false_ne_true, if_pos hlm, hlm, hscanned.dated]
        rfl
      · rw [if_neg hlm, hscanned.rest i hset hlm, List.append_nil]
        by_cases hcookie : i = "set-cookie".toList
        · rw [if_pos hcookie, if_pos hcookie]
        · have hmerged : isMerged i = true := by
            unfold isMerged
            rw [decide_eq_true_eq]
            exact ⟨htype, hi, hset, hlm, hcookie⟩
          rw [if_neg hcookie, if_neg hcookie, if_pos hmerged]

theorem answered_type : answered d hs "content-type".toList =
    ((values lower (seenHeaders hs) "content-type".toList).getLast?.map
      fun l => contentTypeToLower (trimEnd l)).toList := by
  unfold answered
  simp only
  rw [if_pos trivial]

theorem contentType_finishScan (hscanned : Scanned d hs s) :
    (finishScan s).contentType = (answered d hs "content-type".toList).head? := by
  have hct : (finishScan s).contentType = s.contentType := rfl
  rw [hct, hscanned.contentType, answered_type]
  exact Option.head?_toList.symm

theorem answered_set (hi : i ∈ setHeaders) :
    answered d hs i = (values lower (seenHeaders hs) i).getLast?.toList := by
  have hnone : ∀ j ∈ setHeaders, j ≠ "content-type".toList := by decide
  unfold answered
  simp only
  rw [if_neg (hnone i hi), if_pos hi]

theorem answered_dated : answered d hs "last-modified".toList =
    if values lower (seenHeaders hs) "last-modified".toList = [] then []
    else [d.rfc822 (d.rationalize (latest d hs))] := by
  have hnone : "last-modified".toList ≠ "content-type".toList ∧
      "last-modified".toList ∉ setHeaders := by decide
  unfold answered
  simp only
  rw [if_neg hnone.1, if_neg hnone.2, if_pos trivial]

theorem answered_cookie : answered d hs "set-cookie".toList =
    values lower (seenHeaders hs) "set-cookie".toList := by
  have hnone : "set-cookie".toList ≠ "content-type".toList ∧ "set-cookie".toList ∉ setHeaders ∧
      "set-cookie".toList ≠ "last-modified".toList := by decide
  unfold answered
  simp only
  rw [if_neg hnone.1, if_neg hnone.2.1, if_neg hnone.2.2, if_pos trivial]

theorem answered_merged (hi : isMerged i = true) :
    answered d hs i = joinAll comma (values lower (seenHeaders hs) i) := by
  unfold isMerged at hi
  rw [decide_eq_true_eq] at hi
  obtain ⟨htype, _, hset, hlm, hcookie⟩ := hi
  unfold answered
  simp only
  rw [if_neg htype, if_neg hset, if_neg hlm, if_neg hcookie]

end Answered

end StoneRidge.Archive
