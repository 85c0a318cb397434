import StoneRidge.Archive.AsisHandler

/-!
# Scanning a stored file

What the scan finds in the lines that were written, one header after the other.
-/

set_option autoImplicit false

namespace StoneRidge.Archive
open StoneRidge.Kit.PyText StoneRidge.Kit.Tables

/-- The value of a header as the scan finds it behind the colon. -/
def seen (v : Text) : Text := (chomp (' ' :: v ++ ['\n'])).dropWhile isSpace

section Lines
variable {d : Dates} {s : Scan} {t v file : Text} {h : Header}

theorem fileGets_line {n : ℕ} (ht : '\n' ∉ t) (hn : t.length + 1 ≤ n) (file : Text) :
    fileGets n (t ++ '\n' :: file) = (t ++ ['\n'], file) := by
  induction t generalizing n with
  | nil =>
    obtain ⟨m, rfl⟩ : ∃ m, n = m + 1 := ⟨n - 1, by simp only [List.length_nil] at hn; omega⟩
    rw [List.nil_append, fileGets, if_pos rfl]
    rfl
  | cons c t ih =>
    rw [List.mem_cons, not_or] at ht
    simp only [List.length_cons] at hn
    obtain ⟨m, rfl⟩ : ∃ m, n = m + 1 := ⟨n - 1, by omega⟩
    rw [List.cons_append, fileGets, if_neg (Ne.symm ht.1), ih ht.2 (by omega)]
    rfl

/-- The end of the line does not concern what is before a blank. -/
theorem chomp_append (ht : '\x00' ∉ t) (v : Text) :
    chomp (t ++ ' ' :: v) = t ++ chomp (' ' :: v) := by
  have hall : ∀ c ∈ t, decide (c ≠ '\x00') = true := by
    intro c hc
    rw [decide_eq_true_eq]
    intro heq
    exact ht (heq ▸ hc)
  unfold chomp
  rw [List.takeWhile_append_of_pos hall, List.takeWhile_cons_of_pos (by decide)]
  generalize v.takeWhile (· ≠ '\x00') = w
  simp only [List.reverse_append, List.reverse_cons, List.append_assoc, List.singleton_append]
  cases w.reverse with
  | nil => rfl
  | cons c cs =>
    by_cases hc : c = '\n'
    · subst hc
      cases cs with
      | nil => simp
      | cons c' cs =>
        by_cases hc' : c' = '\r'
        · subst hc'
          simp
        · simp [hc']
    · simp [hc]

theorem chomp_headerLine (hname : '\x00' ∉ h.1) :
    chomp (headerLine h) = h.1 ++ ':' :: chomp (' ' :: h.2 ++ ['\n']) := by
  have hcolon : '\x00' ∉ h.1 ++ [':'] := by
    rw [List.mem_append, not_or]
    exact ⟨hname, by decide⟩
  have hline : headerLine h = (h.1 ++ [':']) ++ ' ' :: (h.2 ++ ['\n']) := by
    unfold headerLine
    simp
  rw [hline, chomp_append hcolon]
  simp

theorem takeWhile_colon (hcolon : ':' ∉ t) (v : Text) :
    (t ++ ':' :: v).takeWhile (· ≠ ':') = t ∧ (t ++ ':' :: v).dropWhile (· ≠ ':') = ':' :: v := by
  have hall : ∀ c ∈ t, decide (c ≠ ':') = true := by
    intro c hc
    rw [decide_eq_true_eq]
    intro heq
    exact hcolon (heq ▸ hc)
  rw [List.takeWhile_append_of_pos hall, List.dropWhile_append_of_pos hall]
  exact ⟨by simp, by simp⟩

theorem scanHeaders_header (hcolon : ':' ∉ h.1) (hline : '\n' ∉ h.1 ∧ '\n' ∉ h.2)
    (hname : '\x00' ∉ h.1) (hfit : (headerLine h).length ≤ lineRoom) (file : Text) :
    scanHeaders d s (headerLine h ++ file) =
      scanHeaders d (scanHeader d s h.1 (seen h.2)) file := by
  have hgets : fileGets lineRoom (headerLine h ++ file) = (headerLine h, file) := by
    have hsplit : headerLine h ++ file = (h.1 ++ ": ".toList ++ h.2) ++ '\n' :: file := by
      unfold headerLine
      simp
    have hlen : (h.1 ++ ": ".toList ++ h.2).length + 1 ≤ lineRoom := by
      unfold headerLine at hfit
      rw [List.length_append, List.length_singleton] at hfit
      exact hfit
    rw [hsplit, fileGets_line _ hlen]
    · rfl
    · rw [List.mem_append, List.mem_append, not_or, not_or]
      exact ⟨⟨hline.1, by decide⟩, hline.2⟩
  have hne : headerLine h ++ file ≠ [] := by
    unfold headerLine
    simp
  obtain ⟨htake, hdrop⟩ := takeWhile_colon hcolon (chomp (' ' :: h.2 ++ ['\n']))
  rw [scanHeaders, dif_neg hne]
  simp only [hgets, chomp_headerLine hname]
  rw [if_neg (by simp), if_pos (by simp), htake, hdrop]
  rfl

theorem scanHeaders_blank (file : Text) :
    scanHeaders d s ('\n' :: file) = (finishScan s, file) := by
  rw [scanHeaders, dif_neg (by simp)]
  rfl

/-- The headers of a file. -/
def scanAll (d : Dates) (s : Scan) (hs : List Header) : Scan :=
  hs.foldl (fun s h => scanHeader d s h.1 (seen h.2)) s

theorem scanHeaders_all {hs : List Header} (hcolon : ∀ h ∈ hs, ':' ∉ h.1)
    (hline : ∀ h ∈ hs, '\n' ∉ h.1 ∧ '\n' ∉ h.2) (hname : ∀ h ∈ hs, '\x00' ∉ h.1)
    (hfit : ∀ h ∈ hs, (headerLine h).length ≤ lineRoom) (s : Scan) (file : Text) :
    scanHeaders d s (hs.flatMap headerLine ++ '\n' :: file) =
      (finishScan (scanAll d s hs), file) := by
  induction hs generalizing s with
  | nil => exact scanHeaders_blank file
  | cons h hs ih =>
    rw [List.forall_mem_cons] at hcolon hline hname hfit
    rw [List.flatMap_cons, List.append_assoc,
      scanHeaders_header hcolon.1 hline.1 hname.1 hfit.1, ih hcolon.2 hline.2 hname.2 hfit.2]
    rfl

/-- The white space around a value does not matter. -/
theorem strip_seen (hv : '\x00' ∉ v) : strip (seen v) = strip v := by
  have hall : ∀ c ∈ ' ' :: v ++ ['\n'], decide (c ≠ '\x00') = true := by
    intro c hc
    rw [decide_eq_true_eq]
    intro heq
    subst heq
    simp only [List.cons_append, List.mem_cons, List.mem_append, List.not_mem_nil, or_false] at hc
    rcases hc with hc | hc | hc
    · exact absurd hc (by decide)
    · exact hv hc
    · exact absurd hc (by decide)
  have hspace : strip (' ' :: v ++ ['\n']) = strip v := by
    rw [strip_append_space (by decide), strip_cons_space (by decide)]
  have hchomp : strip (chomp (' ' :: v ++ ['\n'])) = strip (' ' :: v ++ ['\n']) := by
    unfold chomp
    rw [List.takeWhile_eq_self_iff.mpr hall]
    simp only
    split
    · rename_i rest heq
      have hsplit : ' ' :: v ++ ['\n'] = rest.reverse ++ ['\r', '\n'] := by
        rw [← List.reverse_reverse (' ' :: v ++ ['\n']), heq]
        simp
      rw [hsplit, strip_append_space (by decide)]
    · rename_i rest _ heq
      have hsplit : ' ' :: v ++ ['\n'] = rest.reverse ++ ['\n'] := by
        rw [← List.reverse_reverse (' ' :: v ++ ['\n']), heq]
        simp
      rw [hsplit, strip_append_space (by decide)]
    · rfl
  unfold seen
  rw [strip_dropWhile, hchomp, hspace]

end Lines

/-! ### What has been found -/

/-- The headers that are merged. -/
def isMerged (i : Text) : Bool :=
  decide (i ≠ "content-type".toList ∧ i ≠ "status".toList ∧ i ∉ setHeaders ∧
    i ≠ "last-modified".toList ∧ i ≠ "set-cookie".toList)

def seenHeaders (hs : List Header) : List Header := hs.map fun h => (h.1, seen h.2)

/-- The latest of the modification times. -/
def latest (d : Dates) (hs : List Header) : ℤ :=
  (values lower (seenHeaders hs) "last-modified".toList).foldl (fun m l => max m (d.parseHttp l)) 0

/-- The tables after some headers. -/
structure Scanned (d : Dates) (hs : List Header) (s : Scan) : Prop where
  contentType : s.contentType = ((values lower (seenHeaders hs) "content-type".toList).getLast?).map
    fun l => contentTypeToLower (trimEnd l)
  mtime : s.mtime = latest d hs
  last : ∀ i ∈ setHeaders,
    values lower s.headersOut i = ((values lower (seenHeaders hs) i).getLast?).toList
  dated : values lower s.headersOut "last-modified".toList =
    if values lower (seenHeaders hs) "last-modified".toList = [] then []
    else [d.rfc822 (d.rationalize (latest d hs))]
  rest : ∀ i, i ∉ setHeaders → i ≠ "last-modified".toList → values lower s.headersOut i = []
  merge : s.merge = (seenHeaders hs).filter fun e => isMerged (lower e.1)
  cookies : s.cookieTable = (seenHeaders hs).filter fun e => lower e.1 = "set-cookie".toList
  err : s.errHeadersOut = []

section Found
variable {d : Dates} {s : Scan} {hs : List Header} {h : Header}

theorem values_seen_self (hs : List Header) (h : Header) :
    values lower (seenHeaders (hs ++ [h])) (lower h.1) =
      values lower (seenHeaders hs) (lower h.1) ++ [seen h.2] := by
  unfold seenHeaders
  rw [List.map_append, values_append, List.map_singleton, values_cons, if_pos rfl, values_nil]

theorem values_seen_of_ne {i : Text} (hs : List Header) (hi : lower h.1 ≠ i) :
    values lower (seenHeaders (hs ++ [h])) i = values lower (seenHeaders hs) i := by
  unfold seenHeaders
  rw [List.map_append, values_append, List.map_singleton, values_cons, if_neg hi, values_nil,
    List.append_nil]

theorem filter_seen_concat (p : Header → Bool) (hs : List Header) (h : Header) :
    (seenHeaders (hs ++ [h])).filter p =
      (seenHeaders hs).filter p ++ if p (h.1, seen h.2) then [(h.1, seen h.2)] else [] := by
  unfold seenHeaders
  rw [List.map_append, List.filter_append]
  congr 1
  rw [List.map_singleton, List.filter_cons, List.filter_nil]

theorem latest_self (hs : List Header) (hi : lower h.1 = "last-modified".toList) :
    latest d (hs ++ [h]) = max (latest d hs) (d.parseHttp (seen h.2)) := by
  unfold latest
  rw [← hi, values_seen_self, List.foldl_append]
  rfl

theorem latest_of_ne (hs : List Header) (hi : lower h.1 ≠ "last-modified".toList) :
    latest d (hs ++ [h]) = latest d hs := by
  unfold latest
  rw [values_seen_of_ne hs hi]

/-- Headers of no concern to the tables but for one of them. -/
theorem Scanned.skip (hs' : Scanned d hs s) (hct : lower h.1 ≠ "content-type".toList)
    (hset : lower h.1 ∉ setHeaders) (hlm : lower h.1 ≠ "last-modified".toList)
    {merge cookies : Table}
    (hmerge : merge = (seenHeaders (hs ++ [h])).filter fun e => isMerged (lower e.1))
    (hcookies : cookies =
      (seenHeaders (hs ++ [h])).filter fun e => lower e.1 = "set-cookie".toList) :
    Scanned d (hs ++ [h]) { s with merge := merge, cookieTable := cookies } := by
  refine ⟨?_, ?_, ?_, ?_, hs'.rest, hmerge, hcookies, hs'.err⟩
  · rw [values_seen_of_ne hs hct]
    exact hs'.contentType
  · rw [latest_of_ne hs hlm]
    exact hs'.mtime
  · intro i hi
    have hne : lower h.1 ≠ i := by
      intro heq
      exact hset (heq ▸ hi)
    rw [values_seen_of_ne hs hne]
    exact hs'.last i hi
  · rw [values_seen_of_ne hs hlm, latest_of_ne hs hlm]
    exact hs'.dated

/-- Headers that are neither merged nor cookies leave these tables. -/
theorem Scanned.tables (hs' : Scanned d hs s) (hmerged : isMerged (lower h.1) = false)
    (hcookie : lower h.1 ≠ "set-cookie".toList) :
    s.merge = ((seenHeaders (hs ++ [h])).filter fun e => isMerged (lower e.1)) ∧
      s.cookieTable =
        (seenHeaders (hs ++ [h])).filter fun e => lower e.1 = "set-cookie".toList := by
  have hcookie' : ¬ decide (lower h.1 = "set-cookie".toList) = true := by
    rw [decide_eq_true_eq]
    exact hcookie
  rw [filter_seen_concat, filter_seen_concat, hmerged, if_neg Bool.false_ne_true, if_neg hcookie',
    List.append_nil, List.append_nil]
  exact ⟨hs'.merge, hs'.cookies⟩

theorem Scanned.header (hs' : Scanned d hs s) (hstatus : lower h.1 ≠ "status".toList) :
    Scanned d (hs ++ [h]) (scanHeader d s h.1 (seen h.2)) := by
  unfold scanHeader
  by_cases hct : lower h.1 = "content-type".toList
  · obtain ⟨hmerge, hcookies⟩ := hs'.tables (h := h) (by rw [hct]; decide) (by rw [hct]; decide)
    have hlm : lower h.1 ≠ "last-modified".toList := by
      rw [hct]
      decide
    rw [if_pos hct]
    refine ⟨?_, ?_, ?_, ?_, hs'.rest, hmerge, hcookies, hs'.err⟩
    · rw [← hct, values_seen_self, List.getLast?_concat]
      rfl
    · rw [latest_of_ne hs hlm]
      exact hs'.mtime
    · intro i hi
      have hne : lower h.1 ≠ i := by
        intro heq
        rw [← heq, hct] at hi
        exact absurd hi (by decide)
      rw [values_seen_of_ne hs hne]
      exact hs'.last i hi
    · rw [values_seen_of_ne hs hlm, latest_of_ne hs hlm]
      exact hs'.dated
  · rw [if_neg hct, if_neg hstatus]
    by_cases hset : lower h.1 ∈ setHeaders
    · have hmerged : isMerged (lower h.1) = false := by
        unfold isMerged
        rw [decide_eq_false_iff_not]
        intro hall
        exact hall.2.2.1 hset
      have hdistinct : ∀ i ∈ setHeaders, i ≠ "set-cookie".toList ∧ i ≠ "last-modified".toList := by
        decide
      obtain ⟨hcookie, hlm⟩ := hdistinct _ hset
      obtain ⟨hmerge, hcookies⟩ := hs'.tables hmerged hcookie
      rw [if_pos hset]
      refine ⟨?_, ?_, ?_, ?_, ?_, hmerge, hcookies, hs'.err⟩
      · rw [values_seen_of_ne hs hct]
        exact hs'.contentType
      · rw [latest_of_ne hs hlm]
        exact hs'.mtime
      · intro i hi
        by_cases heq : i = lower h.1
        · rw [heq, values_set_self, values_seen_self, List.getLast?_concat]
          rfl
        · rw [values_set_of_ne lower heq, values_seen_of_ne hs (Ne.symm heq)]
          exact hs'.last i hi
      · rw [values_set_of_ne lower (Ne.symm hlm), values_seen_of_ne hs hlm, latest_of_ne hs hlm]
        exact hs'.dated
      · intro i hi hne
        have heq : i ≠ lower h.1 := by
          intro heq
          exact hi (heq ▸ hset)
        rw [values_set_of_ne lower heq]
        exact hs'.rest i hi hne
    · rw [if_neg hset]
      by_cases hlm : lower h.1 = "last-modified".toList
      · have hname : lower "Last-Modified".toList = "last-modified".toList := by decide
        obtain ⟨hmerge, hcookies⟩ :=
          hs'.tables (h := h) (by rw [hlm]; decide) (by rw [hlm]; decide)
        rw [if_pos hlm]
        refine ⟨?_, ?_, ?_, ?_, ?_, hmerge, hcookies, hs'.err⟩
        · rw [values_seen_of_ne hs hct]
          exact hs'.contentType
        · rw [latest_self hs hlm, ← hs'.mtime]
        · intro i hi
          have hne : lower h.1 ≠ i := by
            intro heq
            exact hset (heq ▸ hi)
          rw [values_set_of_ne lower (by rw [hname, ← hlm]; exact Ne.symm hne),
            values_seen_of_ne hs hne]
          exact hs'.last i hi
        · have hself := values_set_self lower (t := s.headersOut) (k := "Last-Modified".toList)
            (v := d.rfc822 (d.rationalize (max s.mtime (d.parseHttp (seen h.2)))))
          rw [hname] at hself
          rw [latest_self hs hlm, ← hlm, values_seen_self, if_neg (by simp), ← hs'.mtime, hlm]
          exact hself
        · intro i hi hne
          rw [values_set_of_ne lower (by rw [hname]; exact hne)]
          exact hs'.rest i hi hne
      · rw [if_neg hlm]
        by_cases hcookie : lower h.1 = "set-cookie".toList
        · rw [if_pos hcookie]
          apply hs'.skip hct hset hlm
          · have hmerged : isMerged (lower h.1) = false := by
              rw [hcookie]
              decide
            rw [filter_seen_concat, hmerged, if_neg Bool.false_ne_true, List.append_nil]
            exact hs'.merge
          · rw [filter_seen_concat, if_pos (decide_eq_true hcookie), ← hs'.cookies]
            rfl
        · have hmerged : isMerged (lower h.1) = true := by
            unfold isMerged
            rw [decide_eq_true_eq]
            exact ⟨hct, hstatus, hset, hlm, hcookie⟩
          rw [if_neg hcookie]
          apply hs'.skip hct hset hlm
          · rw [filter_seen_concat, if_pos hmerged, ← hs'.merge]
            rfl
          · have hcookie' : ¬ decide (lower h.1 = "set-cookie".toList) = true := by
              rw [decide_eq_true_eq]
              exact hcookie
            rw [filter_seen_concat, if_neg hcookie', List.append_nil]
            exact hs'.cookies

theorem scanned_all (hs : List Header) (hstatus : ∀ h ∈ hs, lower h.1 ≠ "status".toList)
    (hstart : Scanned d [] s) :
    Scanned d hs (scanAll d s hs) ∧ (scanAll d s hs).status = s.status ∧
      (scanAll d s hs).statusLine = s.statusLine := by
  induction hs using List.reverseRecOn with
  | nil => exact ⟨hstart, rfl, rfl⟩
  | append_singleton hs h ih =>
    have hlast := hstatus h (by simp)
    obtain ⟨hscanned, hsame⟩ := ih fun h' hh' => hstatus h' (List.mem_append_left _ hh')
    have hstep : scanAll d s (hs ++ [h]) = scanHeader d (scanAll d s hs) h.1 (seen h.2) := by
      unfold scanAll
      rw [List.foldl_append]
      rfl
    rw [hstep]
    refine ⟨hscanned.header hlast, ?_⟩
    rw [← hsame.1, ← hsame.2]
    unfold scanHeader
    split_ifs <;> exact ⟨rfl, rfl⟩

end Found

end StoneRidge.Archive
