import StoneRidge.Archive.OutputFilters
import StoneRidge.Archive.ScanHeaders

/-!
# Serving a stored response

When the answer from a stored file is the response that was recorded.
-/

set_option autoImplicit false

namespace StoneRidge.Archive
open StoneRidge.Kit.Fields StoneRidge.Kit.PyText StoneRidge.Kit.Tables

/-- The same but for the white space around it and, in a content type, the case of
letters. -/
def SameValue (name v v' : Text) : Prop :=
  if lower name = "content-type".toList then lower (strip v) = lower (strip v')
  else strip v = strip v'

def Delivered (a : Answer) (h : Header) : Prop :=
  ∃ e ∈ a.headers, lower e.1 = lower h.1 ∧ SameValue h.1 h.2 e.2

/-- The file of a response answers with its status, its headers and its body. -/
def Served (d : Dates) (conn : Connection) (r : ArchivedResponse) : Prop :=
  ∃ q body, asisHandler d (asisFile r) = .passed q body ∧
    (outputFilters d conn q body).status = r.status ∧
    (∀ h ∈ r.headers, isChunked h = false → Delivered (outputFilters d conn q body) h) ∧
    (outputFilters d conn q body).body = r.responseData.flatten

/-- No line is longer than the scan reads at once. -/
def Fits (r : ArchivedResponse) : Prop :=
  (statusLine r).length ≤ lineRoom ∧ ∀ h ∈ writtenHeaders r, (headerLine h).length ≤ lineRoom

/-- Whether the recorded Connection value asks for the end of the connection. -/
def closing (r : ArchivedResponse) : Bool :=
  closes (joinAll comma (values lower (seenHeaders (writtenHeaders r)) "connection".toList))

/-- What the server writes itself under an index when it answers with a response. -/
def ownValue (d : Dates) (conn : Connection) (r : ArchivedResponse) (i : Text) : Option Text :=
  generated d conn r.status (closing r) r.responseData.flatten.length i

/-- Headers with one name that the server does not mix up. -/
def MayRepeat (d : Dates) (conn : Connection) (r : ArchivedResponse) (h h' : Header) : Prop :=
  lower h.1 = "set-cookie".toList ∨ lower h.1 = "last-modified".toList ∨
    (ownValue d conn r (lower h.1)).isSome ∨
    lower h.1 ∈ setHeaders ∧ strip h.2 = strip h'.2 ∨
    lower h.1 = "vary".toList ∧ varyFields h.2 ≠ [] ∧ strip h.2 = strip h'.2 ∨
    lower h.1 = "content-type".toList ∧ lower (strip h.2) = lower (strip h'.2)

/-- The headers of a response mean nothing else to the server. -/
structure Unaltered (d : Dates) (conn : Connection) (r : ArchivedResponse) : Prop where
  nul : ∀ h ∈ writtenHeaders r, '\x00' ∉ h.1 ∧ '\x00' ∉ h.2
  status : ∀ h ∈ writtenHeaders r, lower h.1 ≠ "status".toList
  reason : isKnown r.status ∨ r.reason ≠ [] ∧ r.reason ≠ ['\r'] ∧ r.reason.head? ≠ some '\x00'
  repeated : (writtenHeaders r).Pairwise fun h h' =>
    lower h.1 = lower h'.1 → MayRepeat d conn r h h'
  dates : ∀ h ∈ writtenHeaders r, lower h.1 = "last-modified".toList →
    strip h.2 = strip (d.rfc822 (d.rationalize (latest d (writtenHeaders r))))
  redirect : ∀ h ∈ writtenHeaders r, lower h.1 = "location".toList →
    r.status = 200 ∨ isRedirect r.status → (strip h.2).head? ≠ some '/'
  own : ∀ h ∈ writtenHeaders r, ∀ v, ownValue d conn r (lower h.1) = some v → strip h.2 = strip v
  typed : ∀ h ∈ writtenHeaders r, lower h.1 = "content-type".toList →
    lower (strip h.2) ≠ noContentType
  vary : ∀ h ∈ writtenHeaders r, lower h.1 = "vary".toList →
    varyFields h.2 = [] ∨ strip h.2 = variedText h.2
  connection : ∀ h ∈ writtenHeaders r, lower h.1 = "connection".toList →
    conn.token r.status (closing r) = none
  notModified : ∀ h ∈ writtenHeaders r, isSent r.status (lower h.1)

/-! ### What never is in an answer -/

/-- A field without the characters and the name that no field can have. -/
structure Proper (e : Header) : Prop where
  name : '\x00' ∉ e.1
  value : '\x00' ∉ e.2
  status : lower e.1 ≠ "status".toList

structure ProperScan (s : Scan) : Prop where
  contentType : ∀ ct, s.contentType = some ct → '\x00' ∉ ct
  headersOut : ∀ e ∈ s.headersOut, Proper e
  err : ∀ e ∈ s.errHeadersOut, Proper e
  merge : ∀ e ∈ s.merge, Proper e
  cookies : ∀ e ∈ s.cookieTable, Proper e

section ProperScans
variable {d : Dates} {s : Scan} {t w l file : Text} {h : Header}

theorem toLower_cases (c : Char) : ¬ (65 ≤ c.toNat ∧ c.toNat ≤ 90) ∧ c.toLower = c ∨
    (65 ≤ c.toNat ∧ c.toNat ≤ 90) ∧ c.toLower.toNat = c.toNat + 32 := by
  unfold Char.toLower
  split
  · rename_i hrange
    have hge : 65 ≤ c.val.toNat := hrange.1
    have hle : c.val.toNat ≤ 90 := hrange.2
    have h32 : ('a'.val - 'A'.val).toNat = 32 := by decide
    refine Or.inr ⟨⟨hge, hle⟩, ?_⟩
    show (c.val + ('a'.val - 'A'.val)).toNat = c.val.toNat + 32
    rw [UInt32.toNat_add, h32]
    omega
  · rename_i hrange
    exact Or.inl ⟨hrange, rfl⟩

theorem eq_nul_of_toLower {c : Char} (hc : c.toLower = '\x00') : c = '\x00' := by
  rcases toLower_cases c with ⟨_, hsame⟩ | ⟨_, hlower⟩
  · rw [← hsame, hc]
  · rw [hc] at hlower
    have h0 : ('\x00').toNat = 0 := by decide
    omega

theorem nul_mem_lower : '\x00' ∈ lower t ↔ '\x00' ∈ t := by
  unfold lower
  rw [List.mem_map]
  constructor
  · intro ⟨c, hmem, hc⟩
    exact eq_nul_of_toLower hc ▸ hmem
  · intro hmem
    exact ⟨'\x00', hmem, by decide⟩

theorem nul_mem_strip : '\x00' ∈ strip t ↔ '\x00' ∈ t := by
  rw [← List.count_pos_iff, ← List.count_pos_iff, count_strip (by decide)]

theorem mem_chomp {c : Char} (h : c ∈ chomp t) : c ∈ t ∧ c ≠ '\x00' := by
  have hword : c ∈ t.takeWhile (· ≠ '\x00') := by
    unfold chomp at h
    simp only at h
    split at h
    · rename_i rest heq
      rw [← List.mem_reverse, heq]
      simp_all
    · rename_i rest _ heq
      rw [← List.mem_reverse, heq]
      simp_all
    · exact h
  exact ⟨(List.takeWhile_prefix _).subset hword, by simpa using List.mem_takeWhile_imp hword⟩

theorem mem_trimEnd {c : Char} (h : c ∈ trimEnd l) : c ∈ l := by
  cases l with
  | nil => exact h
  | cons c' l =>
    rcases List.mem_cons.mp h with rfl | h
    · exact List.mem_cons_self
    · have hsub := (List.dropWhile_suffix (l := l.reverse) isSpace).subset (List.mem_reverse.mp h)
      exact List.mem_cons_of_mem _ (List.mem_reverse.mp hsub)

theorem nul_not_mem_contentTypeToLower (hl : '\x00' ∉ l) : '\x00' ∉ contentTypeToLower l := by
  unfold contentTypeToLower
  rw [List.mem_append, not_or, nul_mem_lower]
  refine ⟨?_, ?_⟩
  · intro hmem
    exact hl ((List.takeWhile_prefix _).subset hmem)
  · intro hmem
    exact hl ((List.dropWhile_suffix _).subset hmem)

theorem nul_comma {v : Text} (hv : '\x00' ∉ v) (hw : '\x00' ∉ w) : '\x00' ∉ comma v w := by
  unfold comma
  rw [List.mem_append, List.mem_append, not_or, not_or]
  exact ⟨⟨hv, by decide⟩, hw⟩

theorem proper_set {table : Table} (htable : ∀ e ∈ table, Proper e) (hw : '\x00' ∉ w)
    (hl : '\x00' ∉ l) (hstatus : lower w ≠ "status".toList) :
    ∀ e ∈ set lower table w l, Proper e := by
  intro e he
  rcases mem_set lower he with hmem | ⟨hv, hk | ⟨v, hv'⟩⟩
  · exact htable e hmem
  · exact ⟨hk ▸ hw, hv ▸ hl, hk ▸ hstatus⟩
  · have hproper := htable _ hv'
    exact ⟨hproper.name, hv ▸ hl, hproper.status⟩

theorem proper_add {table : Table} (htable : ∀ e ∈ table, Proper e) (hw : '\x00' ∉ w)
    (hl : '\x00' ∉ l) (hstatus : lower w ≠ "status".toList) : ∀ e ∈ add table w l, Proper e := by
  intro e he
  rcases List.mem_append.mp he with he | he
  · exact htable e he
  · rw [List.mem_singleton.mp he]
    exact ⟨hw, hl, hstatus⟩

theorem ProperScan.header (hs : ProperScan s) (hw : '\x00' ∉ w) (hl : '\x00' ∉ l) :
    ProperScan (scanHeader d s w l) := by
  unfold scanHeader
  by_cases hct : lower w = "content-type".toList
  · rw [if_pos hct]
    refine ⟨?_, hs.headersOut, hs.err, hs.merge, hs.cookies⟩
    intro ct heq
    cases heq
    exact nul_not_mem_contentTypeToLower fun hmem => hl (mem_trimEnd hmem)
  · rw [if_neg hct]
    by_cases hstatus : lower w = "status".toList
    · rw [if_pos hstatus]
      exact ⟨hs.contentType, hs.headersOut, hs.err, hs.merge, hs.cookies⟩
    · rw [if_neg hstatus]
      by_cases hset : lower w ∈ setHeaders
      · rw [if_pos hset]
        exact ⟨hs.contentType, proper_set hs.headersOut hw hl hstatus, hs.err, hs.merge, hs.cookies⟩
      · rw [if_neg hset]
        by_cases hlm : lower w = "last-modified".toList
        · rw [if_pos hlm]
          exact ⟨hs.contentType,
            proper_set hs.headersOut (by decide) (d.rfc822_plain _) (by decide), hs.err, hs.merge,
            hs.cookies⟩
        · rw [if_neg hlm]
          by_cases hcookie : lower w = "set-cookie".toList
          · rw [if_pos hcookie]
            exact ⟨hs.contentType, hs.headersOut, hs.err, hs.merge,
              proper_add hs.cookies hw hl hstatus⟩
          · rw [if_neg hcookie]
            exact ⟨hs.contentType, hs.headersOut, hs.err, proper_add hs.merge hw hl hstatus,
              hs.cookies⟩

/-- The request of a scan holds proper fields only. -/
structure ProperRequest (r : Request) : Prop where
  contentType : ∀ ct, r.contentType = some ct → '\x00' ∉ ct
  headersOut : ∀ e ∈ r.headersOut, Proper e
  err : ∀ e ∈ r.errHeadersOut, Proper e

theorem ProperScan.finish (hs : ProperScan s) : ProperRequest (finishScan s) := by
  have hall : ∀ e ∈ s.errHeadersOut ++ s.merge, Proper e := by
    intro e he
    rcases List.mem_append.mp he with he | he
    · exact hs.err e he
    · exact hs.merge e he
  have hmerged : ∀ e ∈ compress lower comma (s.errHeadersOut ++ s.merge), Proper e := by
    intro e he
    obtain ⟨hv, v, hmem⟩ := mem_compress (p := fun v : Text => '\x00' ∉ v) lower
      (fun v w => nul_comma) (fun e he => (hall e he).value) he
    have hproper := hall _ hmem
    exact ⟨hproper.name, hv, hproper.status⟩
  refine ⟨hs.contentType, hs.headersOut, ?_⟩
  unfold finishScan
  simp only
  intro e he
  split at he
  · exact hmerged e he
  · rcases List.mem_append.mp he with he | he
    · exact hmerged e (List.mem_of_mem_filter he)
    · exact hs.cookies e he

theorem proper_scanHeaders (hs : ProperScan s) (file : Text) :
    ProperRequest (scanHeaders d s file).1 := by
  induction hlen : file.length using Nat.strong_induction_on generalizing s file with
  | _ n ih =>
    have hrequest : ProperRequest s.toRequest := ⟨hs.contentType, hs.headersOut, hs.err⟩
    rw [scanHeaders]
    split
    · exact hrequest
    · rename_i hfile
      simp only
      split
      · exact hs.finish
      · split
        · have hnul : '\x00' ∉ chomp (fileGets lineRoom file).1 := fun hmem => (mem_chomp hmem).2 rfl
          apply ih _ (hlen ▸ fileGets_lt (by decide) hfile) _ _ rfl
          apply hs.header
          · intro hmem
            exact hnul ((List.takeWhile_prefix _).subset hmem)
          · intro hmem
            have hdrop := (List.dropWhile_suffix _).subset hmem
            exact hnul ((List.dropWhile_suffix _).subset (List.mem_of_mem_tail hdrop))
        · exact hrequest

theorem proper_passed {r : Request} {body : Text} (h : asisHandler d file = .passed r body) :
    ProperRequest r := by
  have hinit : ProperScan .init :=
    ⟨fun _ h => absurd h (by simp [Scan.init]), fun _ h => absurd h List.not_mem_nil,
      fun _ h => absurd h List.not_mem_nil, fun _ h => absurd h List.not_mem_nil,
      fun _ h => absurd h List.not_mem_nil⟩
  have hproper : ProperRequest (scanHeaders d .init file).1 := proper_scanHeaders hinit file
  have hpassed : r = (scanHeaders d .init file).1 := by
    unfold asisHandler at h
    simp only at h
    split at h
    · split at h
      · cases h
      · cases h
        rfl
    · cases h
      rfl
  rw [hpassed]
  exact hproper

theorem proper_merge {table : Table} (htable : ∀ e ∈ table, Proper e) (hw : '\x00' ∉ w)
    (hl : '\x00' ∉ l) (hstatus : lower w ≠ "status".toList) :
    ∀ e ∈ merge lower comma table w l, Proper e := by
  intro e he
  rcases mem_merge lower he with hmem | rfl | ⟨v, hv, hjoin⟩
  · exact htable e hmem
  · exact ⟨hw, hl, hstatus⟩
  · have hproper := htable _ hv
    exact ⟨hproper.name, hjoin ▸ nul_comma hproper.value hl, hproper.status⟩

theorem proper_fixupVary {table : Table} (htable : ∀ e ∈ table, Proper e) :
    ∀ e ∈ fixupVary table, Proper e := by
  unfold fixupVary
  simp only
  split
  · exact htable
  · apply proper_set htable (by decide) _ (by decide)
    intro hmem
    rcases mem_intercalate hmem with hcomma | ⟨f, hf, hnul⟩
    · exact absurd hcomma (by decide)
    · obtain ⟨v, hv, hfield⟩ := List.mem_flatMap.mp (distinct_subset hf)
      obtain ⟨e, he, _, rfl⟩ := (mem_values lower).mp hv
      exact (htable e he).value ((mem_fields hfield).2 _ hnul).1

theorem proper_setKeepalive {conn : Connection} {status : ℤ} {table : Table}
    (htable : ∀ e ∈ table, Proper e) : ∀ e ∈ setKeepalive conn status table, Proper e := by
  unfold setKeepalive
  simp only
  split
  · split
    · exact proper_merge (proper_set htable (by decide) conn.keepAlive_plain (by decide))
        (by decide) (by decide) (by decide)
    · exact htable
  · split
    · exact htable
    · exact proper_merge htable (by decide) (by decide) (by decide)

theorem proper_outputFilters {conn : Connection} {r : Request} (hr : ProperRequest r)
    (body : Text) : ∀ e ∈ (outputFilters d conn r body).headers, Proper e := by
  have hlength : '\x00' ∉ (toString body.length).toList := by
    intro hmem
    have hdigit := isDigit_of_mem_toDigits (n := body.length) (Nat.toList_repr ▸ hmem)
    exact absurd hdigit (by decide)
  have hboth : ∀ e ∈ (setContentLength r body.length).errHeadersOut ++
      (setContentLength r body.length).headersOut, Proper e := by
    intro e he
    rcases List.mem_append.mp he with he | he
    · exact hr.err e he
    · exact proper_set hr.headersOut (by decide) hlength (by decide) e he
  have hkept : ∀ e ∈ setKeepalive conn r.status (fixupVary
      ((setContentLength r body.length).errHeadersOut ++
        (setContentLength r body.length).headersOut)), Proper e :=
    proper_setKeepalive (proper_fixupVary hboth)
  have hall : ∀ e ∈ filteredHeaders conn (setContentLength r body.length), Proper e := by
    unfold filteredHeaders setContentType
    simp only
    split
    · exact hkept
    · apply proper_set hkept (by decide) _ (by decide)
      cases hct : r.contentType with
      | none =>
        show '\x00' ∉ (r.contentType.getD defaultContentType)
        rw [hct]
        decide
      | some ct =>
        show '\x00' ∉ (r.contentType.getD defaultContentType)
        rw [hct]
        exact hr.contentType ct hct
  intro e he
  unfold outputFilters headerFilter at he
  simp only at he
  rcases List.mem_cons.mp he with rfl | he
  · have hname : '\x00' ∉ "Date".toList ∧ lower "Date".toList ≠ "status".toList := by decide
    exact ⟨hname.1, d.rfc822_plain _, hname.2⟩
  rcases List.mem_cons.mp he with rfl | he
  · have hname : '\x00' ∉ "Server".toList ∧ lower "Server".toList ≠ "status".toList := by decide
    exact ⟨hname.1, conn.server_plain, hname.2⟩
  have hunset : e ∈ unset lower (unset lower (filteredHeaders conn
      (setContentLength r body.length)) "Date".toList) "Server".toList := by
    unfold sentHeaders at he
    split at he
    · obtain ⟨_, _, hmem⟩ := List.mem_flatMap.mp he
      exact List.mem_of_mem_filter hmem
    · exact he
  exact hall e (List.mem_of_mem_filter (List.mem_of_mem_filter hunset))

theorem Delivered.proper {a : Answer} (ha : ∀ e ∈ a.headers, Proper e) (h' : Delivered a h) :
    ('\x00' ∉ h.1 ∧ '\x00' ∉ h.2) ∧ lower h.1 ≠ "status".toList := by
  obtain ⟨e, he, hname, hvalue⟩ := h'
  have hproper := ha e he
  refine ⟨⟨?_, ?_⟩, hname ▸ hproper.status⟩
  · rw [← nul_mem_lower, ← hname, nul_mem_lower]
    exact hproper.name
  · unfold SameValue at hvalue
    split at hvalue
    · rw [← nul_mem_strip, ← nul_mem_lower, hvalue, nul_mem_lower, nul_mem_strip]
      exact hproper.value
    · rw [← nul_mem_strip, hvalue, nul_mem_strip]
      exact hproper.value

end ProperScans

end StoneRidge.Archive
