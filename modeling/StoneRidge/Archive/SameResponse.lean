import StoneRidge.Archive.SentValues

/-!
# The response that is answered

Each kind of header has its own condition for being answered as it was recorded.
-/

set_option autoImplicit false

namespace StoneRidge.Archive
open StoneRidge.Kit.Fields StoneRidge.Kit.PyText StoneRidge.Kit.Tables

/-! ### Headers with one name -/

section Repeats
variable {d : Dates} {conn : Connection} {r : ArchivedResponse} {h h' : Header}

theorem MayRepeat.ofSet (hset : lower h.1 ∈ setHeaders) (hsame : strip h.2 = strip h'.2) :
    MayRepeat d conn r h h' :=
  Or.inr (Or.inr (Or.inr (Or.inl ⟨hset, hsame⟩)))

theorem MayRepeat.ofVary (hvary : lower h.1 = "vary".toList) (hne : varyFields h.2 ≠ [])
    (hsame : strip h.2 = strip h'.2) : MayRepeat d conn r h h' :=
  Or.inr (Or.inr (Or.inr (Or.inr (Or.inl ⟨hvary, hne, hsame⟩))))

theorem MayRepeat.ofType (htype : lower h.1 = "content-type".toList)
    (hsame : lower (strip h.2) = lower (strip h'.2)) : MayRepeat d conn r h h' :=
  Or.inr (Or.inr (Or.inr (Or.inr (Or.inr ⟨htype, hsame⟩))))

/-- Where each repeated header is kept or none is, their values are alike. -/
theorem MayRepeat.alike (hrep : MayRepeat d conn r h h') (hcookie : lower h.1 ≠ "set-cookie".toList)
    (hlm : lower h.1 ≠ "last-modified".toList) (hown : ownValue d conn r (lower h.1) = none) :
    lower h.1 ∈ setHeaders ∧ strip h.2 = strip h'.2 ∨
      lower h.1 = "vary".toList ∧ varyFields h.2 ≠ [] ∧ strip h.2 = strip h'.2 ∨
      lower h.1 = "content-type".toList ∧ lower (strip h.2) = lower (strip h'.2) := by
  rcases hrep with h1 | h1 | h1 | halike
  · exact absurd h1 hcookie
  · exact absurd h1 hlm
  · rw [hown] at h1
    cases h1
  · exact halike

end Repeats

/-! ### From what is sent -/

section Necessary
variable {d : Dates} {conn : Connection} {r : ArchivedResponse} {h h' : Header}

/-- Each header is sent as it was recorded. -/
def AllSent (d : Dates) (conn : Connection) (r : ArchivedResponse) : Prop :=
  ∀ e ∈ writtenHeaders r, ∃ v ∈ sentValues d conn r (lower e.1), SameValue e.1 e.2 v

theorem own_of_sent (hall : AllSent d conn r) (hh : h ∈ writtenHeaders r) {v : Text}
    (hown : ownValue d conn r (lower h.1) = some v) : strip h.2 = strip v := by
  obtain ⟨v', hv', hsame⟩ := hall h hh
  have htype : lower h.1 ≠ "content-type".toList := by
    intro htype
    rw [htype, ownValue_eq_none (by decide)] at hown
    cases hown
  rw [sentValues_own (isSent_of_mem hv') hown, List.mem_singleton] at hv'
  rw [(sameValue_of_ne htype).mp hsame, hv']

theorem type_of_sent (hall : AllSent d conn r) (hh : h ∈ writtenHeaders r)
    (htype : lower h.1 = "content-type".toList) :
    lower (strip h.2) = lower (strip (typeOf d r)) ∧ lower (typeOf d r) ≠ noContentType := by
  obtain ⟨v, hv, hsame⟩ := hall h hh
  have hsent := isSent_of_mem hv
  rw [htype] at hv hsent
  rw [sentValues_type hsent] at hv
  split at hv
  · cases hv
  · rename_i hnone
    rw [List.mem_singleton.mp hv] at hsame
    exact ⟨(sameValue_type htype).mp hsame, hnone⟩

theorem typed_of_sent (hnul : ∀ e ∈ writtenHeaders r, '\x00' ∉ e.2) (hall : AllSent d conn r)
    (hh : h ∈ writtenHeaders r) (htype : lower h.1 = "content-type".toList) :
    lower (strip h.2) ≠ noContentType := by
  obtain ⟨hsame, hnone⟩ := type_of_sent hall hh htype
  obtain ⟨h', hh', hname, hlast⟩ := exists_type (d := d) hnul hh htype
  have hsame' := (type_of_sent hall hh' (hname.trans htype)).1
  rw [hlast, lower_contentType] at hnone
  rw [hsame, ← hsame']
  exact hnone

theorem connection_of_sent (hnul : ∀ e ∈ writtenHeaders r, '\x00' ∉ e.2) (hall : AllSent d conn r)
    (hh : h ∈ writtenHeaders r) (hconn : lower h.1 = "connection".toList) :
    conn.token r.status (closing r) = none := by
  obtain ⟨v, hv, hsame⟩ := hall h hh
  have hsent := isSent_of_mem hv
  have htype : lower h.1 ≠ "content-type".toList := by
    rw [hconn]
    decide
  rw [sameValue_of_ne htype] at hsame
  rw [hconn] at hv hsent
  rw [sentValues_connection hsent] at hv
  cases htoken : conn.token r.status (closing r) with
  | none => rfl
  | some w =>
    have hmem := mem_values_seen hh
    rw [hconn] at hmem
    obtain ⟨w', hw'⟩ := joinAll_eq_singleton comma (List.ne_nil_of_mem hmem)
    rw [htoken, Option.elim_some, hw', joinFirst, List.mem_singleton] at hv
    have hle := count_le_joinAll (w := w') hh (hnul h hh) (by rw [hconn, hw']; simp)
    have hcount : h.2.count ',' = v.count ',' := by
      rw [← count_strip (by decide), hsame, count_strip (by decide)]
    have hsep : (", ".toList).count ',' = 1 := by decide
    unfold comma at hv
    rw [hv, List.count_append, List.count_append, hsep] at hcount
    omega

/-- What is sent for a Vary header, by its fields. -/
theorem vary_of_sent (hall : AllSent d conn r)
    (hh : h ∈ writtenHeaders r) (hvary : lower h.1 = "vary".toList) {w : Text}
    (hw : joinAll comma (values lower (seenHeaders (writtenHeaders r)) "vary".toList) = [w]) :
    varyFields w = [] ∧ varyFields h.2 = [] ∧ strip h.2 = strip w ∨
      varyFields w ≠ [] ∧ varyFields h.2 ≠ [] ∧ strip h.2 = variedText h.2 ∧
        strip h.2 = variedText w := by
  obtain ⟨v, hv, hsame⟩ := hall h hh
  have hsent := isSent_of_mem hv
  have htype : lower h.1 ≠ "content-type".toList := by
    rw [hvary]
    decide
  rw [sameValue_of_ne htype] at hsame
  rw [hvary] at hv hsent
  rw [sentValues_vary hsent, hw, varied_singleton] at hv
  split at hv
  · rename_i hnone
    rw [List.mem_singleton.mp hv] at hsame
    refine Or.inl ⟨hnone, ?_, hsame⟩
    rw [← varyFields_strip, hsame, varyFields_strip, hnone]
  · rename_i hsome
    rw [List.mem_singleton.mp hv, strip_variedText] at hsame
    refine Or.inr ⟨hsome, ?_, ?_, hsame⟩
    · rw [← varyFields_strip, hsame, varyFields_variedText, ne_eq, distinct_eq_nil_iff]
      exact hsome
    · rw [← variedText_strip, hsame, variedText_variedText]

/-- A repeated Vary header has fields and the same text each time: merged values have a comma
more than one of them alone. -/
theorem vary_repeated (hnul : ∀ e ∈ writtenHeaders r, '\x00' ∉ e.2) (hall : AllSent d conn r)
    (hsub : [h, h'].Sublist (writtenHeaders r)) (hname : lower h.1 = lower h'.1)
    (hvary : lower h.1 = "vary".toList) : varyFields h.2 ≠ [] ∧ strip h.2 = strip h'.2 := by
  have hh : h ∈ writtenHeaders r := hsub.subset (by simp)
  have hh' : h' ∈ writtenHeaders r := hsub.subset (by simp)
  obtain ⟨w, hw⟩ := joinAll_eq_singleton comma (List.ne_nil_of_mem (mem_values_seen hh))
  have hless : h.2.count ',' < w.count ',' :=
    count_merged hsub hname ⟨hnul h hh, hnul h' hh'⟩ (by rw [hw]; exact List.mem_singleton_self w)
  rw [hvary] at hw
  rcases vary_of_sent hall hh hvary hw with ⟨_, _, hone⟩ | ⟨hsome, hne, _, hone⟩
  · rw [← count_strip (by decide), hone, count_strip (by decide)] at hless
    exact absurd hless (lt_irrefl _)
  · rcases vary_of_sent hall hh' (hname ▸ hvary) hw with ⟨hnone, _⟩ | ⟨_, _, _, hone'⟩
    · exact absurd hnone hsome
    · exact ⟨hne, hone.trans hone'.symm⟩

theorem repeated_of_sent (hnul : ∀ e ∈ writtenHeaders r, '\x00' ∉ e.2)
    (hstatus : ∀ e ∈ writtenHeaders r, lower e.1 ≠ "status".toList) (hall : AllSent d conn r) :
    (writtenHeaders r).Pairwise fun h h' => lower h.1 = lower h'.1 → MayRepeat d conn r h h' := by
  rw [List.pairwise_iff_forall_sublist]
  intro h h' hsub hname
  have hh : h ∈ writtenHeaders r := hsub.subset (by simp)
  have hh' : h' ∈ writtenHeaders r := hsub.subset (by simp)
  obtain ⟨v, hv, hsame⟩ := hall h hh
  obtain ⟨v', hv', hsame'⟩ := hall h' hh'
  have hsent := isSent_of_mem hv
  by_cases hcookie : lower h.1 = "set-cookie".toList
  · exact Or.inl hcookie
  by_cases hlm : lower h.1 = "last-modified".toList
  · exact Or.inr (Or.inl hlm)
  cases hown : ownValue d conn r (lower h.1) with
  | some w => exact Or.inr (Or.inr (Or.inl (Option.isSome_of_eq_some hown)))
  | none =>
  by_cases htype : lower h.1 = "content-type".toList
  · have hsame := (type_of_sent hall hh htype).1
    have hsame' := (type_of_sent hall hh' (hname ▸ htype)).1
    exact .ofType htype (hsame.trans hsame'.symm)
  have hcount : h.2.count ',' = v.count ',' := by
    rw [← count_strip (by decide), (sameValue_of_ne htype).mp hsame, count_strip (by decide)]
  have hlost : ∀ w ∈ joinAll comma (values lower (seenHeaders (writtenHeaders r)) (lower h.1)),
      h.2.count ',' < w.count ',' := fun w hw => count_merged hsub hname ⟨hnul h hh, hnul h' hh'⟩ hw
  by_cases hvary : lower h.1 = "vary".toList
  · obtain ⟨hne, hsame⟩ := vary_repeated hnul hall hsub hname hvary
    exact .ofVary hvary hne hsame
  by_cases hconn : lower h.1 = "connection".toList
  · have htoken := connection_of_sent hnul hall hh hconn
    rw [hconn] at hv hsent hlost
    rw [sentValues_connection hsent, htoken, Option.elim_none] at hv
    have hless := hlost v hv
    omega
  have hothers : lower h.1 ∉ ["content-type".toList, "vary".toList, "connection".toList] := by
    simp only [List.mem_cons, List.not_mem_nil, or_false, not_or]
    exact ⟨htype, hvary, hconn⟩
  rw [sentValues_other hsent hown hothers] at hv
  by_cases hset : lower h.1 ∈ setHeaders
  · rw [sameValue_of_ne htype] at hsame
    rw [sameValue_of_ne (hname ▸ htype)] at hsame'
    rw [← hname, sentValues_other hsent hown hothers, answered_set hset, Option.mem_toList] at hv'
    rw [answered_set hset, Option.mem_toList] at hv
    have heq : v = v' := Option.mem_unique hv hv'
    exact .ofSet hset (by rw [hsame, hsame', heq])
  · have hmerged : isMerged (lower h.1) = true := by
      unfold isMerged
      rw [decide_eq_true_eq]
      exact ⟨htype, hstatus h hh, hset, hlm, hcookie⟩
    rw [answered_merged hmerged] at hv
    have hless := hlost v hv
    omega

theorem dates_of_sent (hall : AllSent d conn r) (hh : h ∈ writtenHeaders r)
    (hlm : lower h.1 = "last-modified".toList) :
    strip h.2 = strip (d.rfc822 (d.rationalize (latest d (writtenHeaders r)))) := by
  obtain ⟨v, hv, hsame⟩ := hall h hh
  have hsent := isSent_of_mem hv
  have htype : lower h.1 ≠ "content-type".toList := by
    rw [hlm]
    decide
  have hne : values lower (seenHeaders (writtenHeaders r)) "last-modified".toList ≠ [] := by
    rw [← hlm]
    exact List.ne_nil_of_mem (mem_values_seen hh)
  rw [hlm] at hv hsent
  rw [sentValues_other hsent (ownValue_eq_none (by decide)) (by decide), answered_dated, if_neg hne,
    List.mem_singleton] at hv
  rw [(sameValue_of_ne htype).mp hsame, hv]

/-- The location that the handler looks at. -/
def scanLocation (r : ArchivedResponse) : Option Text :=
  (values lower (seenHeaders (writtenHeaders r)) "location".toList).getLast?

theorem mem_of_scanLocation {l : Text} (hl : scanLocation r = some l) :
    ∃ e ∈ writtenHeaders r, lower e.1 = "location".toList ∧ seen e.2 = l := by
  have hmem := List.mem_of_getLast? hl
  rw [values_seen, List.mem_map] at hmem
  obtain ⟨e, he, hseen⟩ := hmem
  rw [List.mem_filter, decide_eq_true_eq] at he
  exact ⟨e, he.1, he.2, hseen⟩

/-- A recorded location is the one that is looked at. -/
theorem location_of_sent (hnul : ∀ e ∈ writtenHeaders r, '\x00' ∉ e.2) (hall : AllSent d conn r)
    (hh : h ∈ writtenHeaders r) (hname : lower h.1 = "location".toList) :
    ∃ l, scanLocation r = some l ∧ l.head? = (strip h.2).head? := by
  obtain ⟨v, hv, hsame⟩ := hall h hh
  have hsent := isSent_of_mem hv
  have htype : lower h.1 ≠ "content-type".toList := by
    rw [hname]
    decide
  rw [hname] at hv hsent
  rw [sentValues_other hsent (ownValue_eq_none (by decide)) (by decide), answered_set (by decide),
    Option.mem_toList] at hv
  obtain ⟨e, he, _, rfl⟩ := mem_of_scanLocation hv
  refine ⟨seen e.2, hv, ?_⟩
  rw [(sameValue_of_ne htype).mp hsame, strip_seen (hnul e he), head?_seen (hnul e he)]

end Necessary

/-! ### To what is sent -/

section Sufficient
variable {d : Dates} {conn : Connection} {r : ArchivedResponse} {h h' : Header}

theorem MayRepeat.symm (hrep : MayRepeat d conn r h h') (hname : lower h.1 = lower h'.1) :
    MayRepeat d conn r h' h := by
  rcases hrep with hcookie | hlm | hown | ⟨hset, hsame⟩ | ⟨hvary, hne, hsame⟩ | ⟨htype, hsame⟩
  · exact Or.inl (hname ▸ hcookie)
  · exact Or.inr (Or.inl (hname ▸ hlm))
  · exact Or.inr (Or.inr (Or.inl (hname ▸ hown)))
  · exact .ofSet (hname ▸ hset) hsame.symm
  · rw [← varyFields_strip, hsame, varyFields_strip] at hne
    exact .ofVary (hname ▸ hvary) hne hsame.symm
  · exact .ofType (hname ▸ htype) hsame.symm

theorem mayRepeat_of_mem (hun : Unaltered d conn r) (hh : h ∈ writtenHeaders r)
    (hh' : h' ∈ writtenHeaders r) (hname : lower h.1 = lower h'.1) (hne : h ≠ h') :
    MayRepeat d conn r h h' := by
  have hsymm : Std.Symm fun h h' : Header =>
      lower h.1 = lower h'.1 → MayRepeat d conn r h h' :=
    ⟨fun a b hab hname => (hab hname.symm).symm hname.symm⟩
  exact hun.repeated.forall hh hh' hne hname

theorem same_of_set (hun : Unaltered d conn r) (hh : h ∈ writtenHeaders r)
    (hh' : h' ∈ writtenHeaders r) (hname : lower h.1 = lower h'.1) (hset : lower h.1 ∈ setHeaders)
    (hown : ownValue d conn r (lower h.1) = none) : strip h.2 = strip h'.2 := by
  have hnone : ∀ i ∈ setHeaders, i ≠ "set-cookie".toList ∧ i ≠ "last-modified".toList ∧
      i ≠ "vary".toList ∧ i ≠ "content-type".toList := by decide
  obtain ⟨hcookie, hlm, hvary, htype⟩ := hnone _ hset
  by_cases heq : h = h'
  · rw [heq]
  · rcases (mayRepeat_of_mem hun hh hh' hname heq).alike hcookie hlm hown with h1 | h1 | h1
    · exact h1.2
    · exact absurd h1.1 hvary
    · exact absurd h1.1 htype

theorem same_of_type (hun : Unaltered d conn r) (hh : h ∈ writtenHeaders r)
    (hh' : h' ∈ writtenHeaders r) (hname : lower h.1 = lower h'.1)
    (htype : lower h.1 = "content-type".toList) : lower (strip h.2) = lower (strip h'.2) := by
  have hnone : "content-type".toList ≠ "set-cookie".toList ∧
      "content-type".toList ≠ "last-modified".toList ∧ "content-type".toList ∉ setHeaders ∧
      "content-type".toList ≠ "vary".toList := by
    decide
  have hown : ownValue d conn r "content-type".toList = none := ownValue_eq_none (by decide)
  rw [← htype] at hnone hown
  obtain ⟨hcookie, hlm, hset, hvary⟩ := hnone
  by_cases heq : h = h'
  · rw [heq]
  · rcases (mayRepeat_of_mem hun hh hh' hname heq).alike hcookie hlm hown with h1 | h1 | h1
    · exact absurd h1.1 hset
    · exact absurd h1.1 hvary
    · exact h1.2

/-- A header that may not be repeated is the only one with its name. -/
theorem values_single (hun : Unaltered d conn r) (hh : h ∈ writtenHeaders r)
    (hnot : ∀ e ∈ writtenHeaders r, ∀ e' ∈ writtenHeaders r, lower e.1 = lower h.1 →
      lower e'.1 = lower h.1 → ¬ MayRepeat d conn r e e') :
    values lower (seenHeaders (writtenHeaders r)) (lower h.1) = [seen h.2] := by
  have hmem : h ∈ (writtenHeaders r).filter fun e => lower e.1 = lower h.1 :=
    List.mem_filter.mpr ⟨hh, decide_eq_true rfl⟩
  have hpair := hun.repeated.filter fun e => lower e.1 = lower h.1
  have hname : ∀ e ∈ (writtenHeaders r).filter fun e => lower e.1 = lower h.1,
      e ∈ writtenHeaders r ∧ lower e.1 = lower h.1 := by
    intro e he
    rw [List.mem_filter, decide_eq_true_eq] at he
    exact he
  rw [values_seen]
  cases hfilter : (writtenHeaders r).filter fun e => lower e.1 = lower h.1 with
  | nil =>
    rw [hfilter] at hmem
    cases hmem
  | cons e es =>
    rw [hfilter] at hmem hpair hname
    rw [List.forall_mem_cons] at hname
    cases es with
    | nil => rw [List.mem_singleton.mp hmem, List.map_singleton]
    | cons e' es =>
      rw [List.forall_mem_cons] at hname
      obtain ⟨⟨he, hename⟩, ⟨he', hename'⟩, _⟩ := hname
      have hfirst := (List.pairwise_cons.mp hpair).1 e' List.mem_cons_self
      exact absurd (hfirst (hename.trans hename'.symm)) (hnot e he e' he' hename hename')

theorem not_mayRepeat (hmerged : isMerged (lower h.1) = true)
    (hown : ownValue d conn r (lower h.1) = none) (hvary : lower h.1 ≠ "vary".toList) :
    ¬ MayRepeat d conn r h h' := by
  unfold isMerged at hmerged
  rw [decide_eq_true_eq] at hmerged
  obtain ⟨htype, _, hset, hlm, hcookie⟩ := hmerged
  intro hrep
  rcases hrep.alike hcookie hlm hown with h1 | h1 | h1
  · exact hset h1.1
  · exact hvary h1.1
  · exact htype h1.1

theorem values_of_merged (hun : Unaltered d conn r) (hh : h ∈ writtenHeaders r)
    (hmerged : isMerged (lower h.1) = true) (hown : ownValue d conn r (lower h.1) = none)
    (hvary : lower h.1 ≠ "vary".toList) :
    values lower (seenHeaders (writtenHeaders r)) (lower h.1) = [seen h.2] := by
  apply values_single hun hh
  intro e _ e' _ hname _
  rw [← hname] at hmerged hown hvary
  exact not_mayRepeat hmerged hown hvary

theorem fields_of_mayRepeat (hvary : lower h.1 = "vary".toList) (hrep : MayRepeat d conn r h h') :
    varyFields h.2 ≠ [] ∧ strip h.2 = strip h'.2 := by
  have hnone : "vary".toList ≠ "set-cookie".toList ∧ "vary".toList ≠ "last-modified".toList ∧
      "vary".toList ∉ setHeaders ∧ "vary".toList ≠ "content-type".toList := by decide
  have hown : ownValue d conn r "vary".toList = none := ownValue_eq_none (by decide)
  rw [← hvary] at hnone hown
  obtain ⟨hcookie, hlm, hset, htype⟩ := hnone
  rcases hrep.alike hcookie hlm hown with h1 | h1 | h1
  · exact absurd h1.1 hset
  · exact h1.2
  · exact absurd h1.1 htype

/-- A Vary header without fields is the only one. -/
theorem sent_vary (hun : Unaltered d conn r) (hh : h ∈ writtenHeaders r)
    (hvary : lower h.1 = "vary".toList) :
    ∃ v ∈ sentValues d conn r "vary".toList, strip h.2 = strip v := by
  have hsent := hun.notModified h hh
  have hseen := varyFields_seen (hun.nul h hh).2
  have hmem := mem_values_seen hh
  rw [hvary] at hsent hmem
  by_cases hnone : varyFields h.2 = []
  · have hsingle := values_single hun hh fun e he e' he' hname hname' hrep => by
      by_cases heq : h = e
      · exact (fields_of_mayRepeat (hname.trans hvary) hrep).1 (heq ▸ hnone)
      · exact (fields_of_mayRepeat hvary (mayRepeat_of_mem hun hh he hname.symm heq)).1 hnone
    rw [hvary] at hsingle
    refine ⟨seen h.2, ?_, (strip_seen (hun.nul h hh).2).symm⟩
    rw [sentValues_vary hsent, hsingle]
    have hjoin : joinAll comma [seen h.2] = [seen h.2] := rfl
    rw [hjoin, varied_singleton, hseen, if_pos hnone]
    exact List.mem_singleton_self _
  · have hall : ∀ v ∈ values lower (seenHeaders (writtenHeaders r)) "vary".toList,
        varyFields v = varyFields h.2 := by
      intro v hv
      rw [values_seen, List.mem_map] at hv
      obtain ⟨e, he, rfl⟩ := hv
      rw [List.mem_filter, decide_eq_true_eq] at he
      rw [varyFields_seen (hun.nul e he.1).2]
      by_cases heq : h = e
      · rw [heq]
      · have hsame := (fields_of_mayRepeat hvary
          (mayRepeat_of_mem hun hh he.1 (hvary.trans he.2.symm) heq)).2
        rw [← varyFields_strip, ← hsame, varyFields_strip]
    obtain ⟨w, hw⟩ := joinAll_eq_singleton comma (List.ne_nil_of_mem hmem)
    have hdistinct : distinct lower (varyFields w) = distinct lower (varyFields h.2) := by
      have hfields := varyFields_joinAll (values lower (seenHeaders (writtenHeaders r))
        "vary".toList)
      rw [hw, List.flatMap_singleton] at hfields
      rw [hfields]
      exact distinct_flatMap (List.ne_nil_of_mem hmem) hall
    have hsome : varyFields w ≠ [] := by
      intro hnil
      rw [hnil] at hdistinct
      exact hnone (distinct_eq_nil_iff.mp hdistinct.symm)
    refine ⟨variedText w, ?_, ?_⟩
    · rw [sentValues_vary hsent, hw, varied_singleton, if_neg hsome]
      exact List.mem_singleton_self _
    · rw [strip_variedText, ((hun.vary h hh hvary).resolve_left hnone)]
      unfold variedText
      rw [hdistinct]

theorem sent_type (hun : Unaltered d conn r) (hh : h ∈ writtenHeaders r)
    (htype : lower h.1 = "content-type".toList) :
    ∃ v ∈ sentValues d conn r "content-type".toList, lower (strip h.2) = lower (strip v) := by
  have hnul := fun e he => (hun.nul e he).2
  have hsent := hun.notModified h hh
  rw [htype] at hsent
  obtain ⟨e, he, hename, htypeOf⟩ := exists_type (d := d) hnul hh htype
  have hnone : lower (typeOf d r) ≠ noContentType := by
    rw [htypeOf, lower_contentType]
    exact hun.typed e he (hename.trans htype)
  refine ⟨typeOf d r, ?_, ?_⟩
  · rw [sentValues_type hsent, if_neg hnone]
    exact List.mem_singleton_self _
  · rw [htypeOf, ← trimEnd_seen (hnul e he), lower_strip_contentType, strip_seen (hnul e he)]
    exact same_of_type hun hh he hename.symm htype

theorem sent_connection (hun : Unaltered d conn r) (hh : h ∈ writtenHeaders r)
    (hconn : lower h.1 = "connection".toList) :
    ∃ v ∈ sentValues d conn r "connection".toList, strip h.2 = strip v := by
  have hsent := hun.notModified h hh
  have htoken := hun.connection h hh hconn
  have hplain : isMerged "connection".toList = true ∧
      "connection".toList ≠ "vary".toList := by decide
  have hown : ownValue d conn r "connection".toList = none := ownValue_eq_none (by decide)
  rw [← hconn] at hplain hown
  have hsingle := values_of_merged hun hh hplain.1 hown hplain.2
  rw [hconn] at hsent hsingle
  refine ⟨seen h.2, ?_, (strip_seen (hun.nul h hh).2).symm⟩
  rw [sentValues_connection hsent, htoken, Option.elim_none, hsingle]
  exact List.mem_singleton_self _

/-- What the handler passes on of a header that the filters leave alone. -/
theorem sent_other (hun : Unaltered d conn r) (hh : h ∈ writtenHeaders r)
    (hown : ownValue d conn r (lower h.1) = none) (htype : lower h.1 ≠ "content-type".toList)
    (hvary : lower h.1 ≠ "vary".toList) :
    ∃ v ∈ answered d (writtenHeaders r) (lower h.1), strip h.2 = strip v := by
  have hmem := mem_values_seen hh
  have hstrip : strip h.2 = strip (seen h.2) := (strip_seen (hun.nul h hh).2).symm
  by_cases hset : lower h.1 ∈ setHeaders
  · obtain ⟨h', hh', hname, hlast⟩ := exists_last hh
    refine ⟨seen h'.2, ?_, ?_⟩
    · rw [answered_set hset, hlast]
      exact List.mem_singleton_self _
    · rw [strip_seen (hun.nul h' hh').2]
      exact same_of_set hun hh hh' hname.symm hset hown
  by_cases hlm : lower h.1 = "last-modified".toList
  · have hne := List.ne_nil_of_mem hmem
    refine ⟨d.rfc822 (d.rationalize (latest d (writtenHeaders r))), ?_, hun.dates h hh hlm⟩
    rw [hlm] at hne
    rw [hlm, answered_dated, if_neg hne]
    exact List.mem_singleton_self _
  by_cases hcookie : lower h.1 = "set-cookie".toList
  · refine ⟨seen h.2, ?_, hstrip⟩
    rw [hcookie] at hmem
    rw [hcookie, answered_cookie]
    exact hmem
  · have hmerged : isMerged (lower h.1) = true := by
      unfold isMerged
      rw [decide_eq_true_eq]
      exact ⟨htype, hun.status h hh, hset, hlm, hcookie⟩
    refine ⟨seen h.2, ?_, hstrip⟩
    rw [answered_merged hmerged, values_of_merged hun hh hmerged hown hvary]
    exact List.mem_singleton_self _

theorem allSent_of_unaltered (hun : Unaltered d conn r) : AllSent d conn r := by
  intro h hh
  have hsent := hun.notModified h hh
  by_cases htype : lower h.1 = "content-type".toList
  · obtain ⟨v, hv, hsame⟩ := sent_type hun hh htype
    exact ⟨v, htype ▸ hv, (sameValue_type htype).mpr hsame⟩
  simp only [sameValue_of_ne htype]
  cases hown : ownValue d conn r (lower h.1) with
  | some w =>
    refine ⟨w, ?_, hun.own h hh w hown⟩
    rw [sentValues_own hsent hown]
    exact List.mem_singleton_self w
  | none =>
  by_cases hvary : lower h.1 = "vary".toList
  · rw [hvary]
    exact sent_vary hun hh hvary
  by_cases hconn : lower h.1 = "connection".toList
  · rw [hconn]
    exact sent_connection hun hh hconn
  have hothers : lower h.1 ∉ ["content-type".toList, "vary".toList, "connection".toList] := by
    simp only [List.mem_cons, List.not_mem_nil, or_false, not_or]
    exact ⟨htype, hvary, hconn⟩
  rw [sentValues_other hsent hown hothers]
  exact sent_other hun hh hown htype hvary

end Sufficient

/-! ### The answer of a response -/

section Answer
variable {d : Dates} {conn : Connection} {r : ArchivedResponse} {h : Header}

theorem delivered_iff {a : Answer} : Delivered a h ↔
    ∃ v ∈ values lower a.headers (lower h.1), SameValue h.1 h.2 v := by
  unfold Delivered
  constructor
  · intro ⟨e, he, hname, hsame⟩
    exact ⟨e.2, (mem_values lower).mpr ⟨e, he, hname, rfl⟩, hsame⟩
  · intro ⟨v, hv, hsame⟩
    obtain ⟨e, he, hname, rfl⟩ := (mem_values lower).mp hv
    exact ⟨e, he, hname, hsame⟩

theorem get_location (hstatus : ∀ h ∈ writtenHeaders r, lower h.1 ≠ "status".toList) :
    get lower (finishScan (scanOf d r)).headersOut "Location".toList = scanLocation r := by
  have hname : lower "Location".toList = "location".toList := by decide
  have hlast := (scanned_scanOf (d := d) hstatus).1.last "location".toList (by decide)
  rw [get_eq_head?, hname]
  show (values lower (scanOf d r).headersOut "location".toList).head? = _
  rw [hlast]
  unfold scanLocation
  cases (values lower (seenHeaders (writtenHeaders r)) "location".toList).getLast? <;> rfl

theorem redirects_scanOf (hstatus : ∀ h ∈ writtenHeaders r, lower h.1 ≠ "status".toList) :
    (finishScan (scanOf d r)).status = 200 ∨ isRedirect (finishScan (scanOf d r)).status ↔
      r.status = 200 ∨ isRedirect r.status := by
  have hcode : (finishScan (scanOf d r)).status = r.status := (scanned_scanOf hstatus).2.1
  have h200 : (r.status : ℤ) = 200 ↔ r.status = 200 := by omega
  rw [hcode, h200]

/-- Where the lines fit, the handler sees the headers that were written. -/
theorem asisHandler_redirected {l : Text} (hfit : Fits r)
    (hnul : ∀ h ∈ writtenHeaders r, '\x00' ∉ h.1)
    (hstatus : ∀ h ∈ writtenHeaders r, lower h.1 ≠ "status".toList)
    (hlocation : scanLocation r = some ('/' :: l)) (hcode : r.status = 200 ∨ isRedirect r.status) :
    asisHandler d (asisFile r) = .internalRedirect ('/' :: l) := by
  unfold asisHandler
  rw [scanHeaders_asisFile hfit hnul]
  simp only [get_location hstatus, hlocation]
  exact if_pos ((redirects_scanOf hstatus).mpr hcode)

theorem asisHandler_passed (hfit : Fits r) (hnul : ∀ h ∈ writtenHeaders r, '\x00' ∉ h.1)
    (hstatus : ∀ h ∈ writtenHeaders r, lower h.1 ≠ "status".toList)
    (hstays : ∀ l, scanLocation r = some ('/' :: l) → ¬ (r.status = 200 ∨ isRedirect r.status)) :
    asisHandler d (asisFile r) =
      .passed (finishScan (scanOf d r)) r.responseData.flatten := by
  unfold asisHandler
  rw [scanHeaders_asisFile hfit hnul]
  simp only [get_location hstatus]
  split
  · rename_i l hlocation
    exact if_neg fun hcode => hstays l hlocation ((redirects_scanOf hstatus).mp hcode)
  · rfl

theorem delivered_scanAnswer (hstatus : ∀ h ∈ writtenHeaders r, lower h.1 ≠ "status".toList)
    (hh : h ∈ writtenHeaders r) : Delivered (scanAnswer d conn r) h ↔
      ∃ v ∈ sentValues d conn r (lower h.1), SameValue h.1 h.2 v := by
  rw [delivered_iff, values_scanAnswer hstatus (hstatus h hh)]

theorem served_of_unaltered (hfit : Fits r) (h : Unaltered d conn r) : Served d conn r := by
  have hpassed : asisHandler d (asisFile r) =
      .passed (finishScan (scanOf d r)) r.responseData.flatten := by
    apply asisHandler_passed hfit (fun e he => (h.nul e he).1) h.status
    intro l hlocation hcode
    obtain ⟨e, he, hname, hseen⟩ := mem_of_scanLocation hlocation
    have hhead := head?_seen (h.nul e he).2
    rw [hseen] at hhead
    exact absurd hhead.symm (h.redirect e he hname hcode)
  refine ⟨_, _, hpassed, (status_scanAnswer h.status).mpr h.reason, ?_, rfl⟩
  intro e he hchunked
  have hmem : e ∈ writtenHeaders r := mem_writtenHeaders.mpr ⟨he, hchunked⟩
  exact (delivered_scanAnswer h.status hmem).mpr (allSent_of_unaltered h e hmem)

theorem unaltered_of_served (hfit : Fits r) (h : Served d conn r) : Unaltered d conn r := by
  obtain ⟨q, body, hpassed, hcode, hheaders, _⟩ := h
  have hdelivered : ∀ e ∈ writtenHeaders r, Delivered (outputFilters d conn q body) e := by
    intro e he
    obtain ⟨hmem, hchunked⟩ := mem_writtenHeaders.mp he
    exact hheaders e hmem hchunked
  have hproper := fun e he =>
    (hdelivered e he).proper (proper_outputFilters (proper_passed hpassed) body)
  have hnul : ∀ e ∈ writtenHeaders r, '\x00' ∉ e.1 ∧ '\x00' ∉ e.2 := fun e he => (hproper e he).1
  have hstatus : ∀ e ∈ writtenHeaders r, lower e.1 ≠ "status".toList := fun e he => (hproper e he).2
  have hnames : ∀ e ∈ writtenHeaders r, '\x00' ∉ e.1 := fun e he => (hnul e he).1
  have hredirect : ∀ l, scanLocation r = some ('/' :: l) →
      ¬ (r.status = 200 ∨ isRedirect r.status) := by
    intro l hlocation hredirected
    rw [asisHandler_redirected hfit hnames hstatus hlocation hredirected] at hpassed
    cases hpassed
  rw [asisHandler_passed hfit hnames hstatus hredirect] at hpassed
  obtain ⟨rfl, rfl⟩ := Outcome.passed.inj hpassed
  have hall : AllSent d conn r := fun e he =>
    (delivered_scanAnswer hstatus he).mp (hdelivered e he)
  have hvalues : ∀ e ∈ writtenHeaders r, '\x00' ∉ e.2 := fun e he => (hnul e he).2
  refine ⟨hnul, hstatus, (status_scanAnswer hstatus).mp hcode,
    repeated_of_sent hvalues hstatus hall, ?_, ?_, ?_, ?_, ?_, ?_, ?_⟩
  · intro e he hlm
    exact dates_of_sent hall he hlm
  · intro e he hname hcode hhead
    obtain ⟨l, hl, hfirst⟩ := location_of_sent hvalues hall he hname
    obtain ⟨l', rfl⟩ := List.head?_eq_some_iff.mp (hfirst.trans hhead)
    exact hredirect l' hl hcode
  · intro e he v hown
    exact own_of_sent hall he hown
  · intro e he htype
    exact typed_of_sent hvalues hall he htype
  · intro e he hvary
    have hmem := mem_values_seen he
    rw [hvary] at hmem
    obtain ⟨w, hw⟩ := joinAll_eq_singleton comma (List.ne_nil_of_mem hmem)
    rcases vary_of_sent hall he hvary hw with ⟨_, hnone, _⟩ | ⟨_, _, hsame, _⟩
    · exact Or.inl hnone
    · exact Or.inr hsame
  · intro e he hconn
    exact connection_of_sent hvalues hall he hconn
  · intro e he
    obtain ⟨v, hv, _⟩ := hall e he
    exact isSent_of_mem hv

/-- Dates for responses without one. -/
def plainDates : Dates := ⟨fun _ => 0, fun _ => "Thu, 01 Jan 1970 00:00:00 GMT".toList, 0, 0,
  fun _ => by decide⟩

/-- A browser that keeps its connection. -/
def browser : Connection :=
  ⟨"Apache/2.2.19 (Unix)".toList, true, true, "timeout=5, max=100".toList, by decide, by decide⟩

def page : ArchivedResponse where
  status := 200
  reason := "OK".toList
  headers := [("Content-Type".toList, "text/html".toList)]
  responseData := ["<p>".toList, "</p>".toList]
  status_digits := by decide
  reason_line := by decide
  names := by decide
  values := by decide

def moved : ArchivedResponse where
  status := 302
  reason := "Found".toList
  headers := [("Location".toList, "/x".toList)]
  responseData := []
  status_digits := by decide
  reason_line := by decide
  names := by decide
  values := by decide

end Answer

end StoneRidge.Archive
