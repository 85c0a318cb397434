import StoneRidge.Results.Recorder

/-!
# Collating results

What `StoneRidgeCollator.run` makes of one out file (`srcollator.py:33-96`), and when
the results of a test survive the way from `do_write_result` to the upload.
-/

set_option autoImplicit false

namespace StoneRidge.Results
open StoneRidge.Kit.Grouping

/-- The info file of the run; what the collator only copies is of any type. -/
structure Info (I : Type) where
  date : ℤ
  rest : I

/-- A dictionary's `items` are its entries in some order. -/
structure DictOrder where
  items : Properties → Properties
  items_perm : ∀ own, (items own).Perm own

structure Collated where
  results : Groups String ℤ
  resultsAux : Groups String ℤ

/-- An upload file. -/
structure Upload (I : Type) where
  info : I
  date : ℤ
  suite : String
  ldap : String
  collated : Collated

/-- The loop body for one value. -/
def collateValue (k : String) (c : Collated) (v : Stamp) : Collated :=
  if k = "total" then { c with resultsAux := c.resultsAux.push "totals" v.total }
  else
    { results := c.results.push k v.total
      resultsAux := (c.resultsAux.push (k ++ "_start") v.start).push (k ++ "_stop") v.stop }

def collateItems (items : Properties) : Collated :=
  items.foldl (fun c p => p.2.foldl (collateValue p.1) c) ⟨.empty, .empty⟩

/-- `fname.split('.')[0]`. -/
def suite (fname : String) : String := String.ofList (fname.toList.takeWhile (· ≠ '.'))

/-- Nothing where the out file holds null, which has no `items`. -/
def collate {I : Type} (order : DictOrder) (info : Info I) (ldap : Option String)
    (fname : String) (testinfo : Recorded) : Option (Upload I) :=
  testinfo.map fun own =>
    { info := info.rest
      date := info.date
      suite := suite fname
      ldap := ldap.getD "nightly"
      collated := collateItems (order.items own) }

/-! ### What is collated -/

/-- What an entry adds to `results_aux[x]`. -/
def auxOf (x k : String) (vs : List Stamp) : List ℤ :=
  if k = "total" then if x = "totals" then vs.map Stamp.total else []
  else if x = k ++ "_start" then vs.map Stamp.start
  else if x = k ++ "_stop" then vs.map Stamp.stop
  else []

section Collating
variable {k k' x : String} {items : Properties}

theorem last_ne {s t : String} (h : s.toList.getLast? ≠ t.toList.getLast?) : s ≠ t := by
  intro heq
  rw [heq] at h
  exact h rfl

theorem start_ne_stop (k k' : String) : k ++ "_start" ≠ k' ++ "_stop" := by
  apply last_ne
  rw [String.toList_append, String.toList_append, List.getLast?_append, List.getLast?_append]
  show some 't' ≠ some 'p'
  decide

theorem start_ne_totals (k : String) : k ++ "_start" ≠ "totals" := by
  apply last_ne
  rw [String.toList_append, List.getLast?_append]
  show some 't' ≠ some 's'
  decide

theorem stop_ne_totals (k : String) : k ++ "_stop" ≠ "totals" := by
  apply last_ne
  rw [String.toList_append, List.getLast?_append]
  show some 'p' ≠ some 's'
  decide

theorem collateValue_results (k x : String) (c : Collated) (vs : List Stamp) :
    (vs.foldl (collateValue k) c).results x =
      extend (c.results x) (if k = x then if x = "total" then [] else vs.map Stamp.total else []) := by
  induction vs generalizing c with
  | nil => simp [extend_nil]
  | cons v vs ih =>
    rw [List.foldl_cons, ih]
    unfold collateValue
    by_cases hk : k = "total"
    · by_cases hx : k = x
      · subst hx
        simp [hk]
      · have hx' : "total" ≠ x := hk ▸ hx
        simp [hk, hx']
    · rw [if_neg hk]
      simp only [push_apply, extend_append]
      by_cases hx : k = x
      · subst hx
        simp [hk]
      · simp [hx]

theorem collateValue_aux (k x : String) (c : Collated) (vs : List Stamp) :
    (vs.foldl (collateValue k) c).resultsAux x = extend (c.resultsAux x) (auxOf x k vs) := by
  induction vs generalizing c with
  | nil => simp [auxOf, extend_nil]
  | cons v vs ih =>
    rw [List.foldl_cons, ih]
    unfold collateValue auxOf
    by_cases hk : k = "total"
    · simp only [if_pos hk, push_apply, extend_append]
      by_cases hx : x = "totals"
      · simp [hx]
      · simp [hx, Ne.symm hx]
    · simp only [if_neg hk, push_apply, extend_append]
      by_cases hstart : x = k ++ "_start"
      · have hne := (start_ne_stop k k).symm
        simp [hstart, hne]
      · by_cases hstop : x = k ++ "_stop"
        · simp [hstop]
        · simp [hstart, hstop, Ne.symm hstart, Ne.symm hstop]

theorem foldl_results (items : Properties) (c : Collated) (x : String) :
    (items.foldl (fun c p => p.2.foldl (collateValue p.1) c) c).results x =
      extend (c.results x)
        (collect (fun vs => if x = "total" then [] else vs.map Stamp.total) x items) := by
  induction items generalizing c with
  | nil => rfl
  | cons p items ih =>
    rw [List.foldl_cons, ih, collateValue_results, extend_append]
    rfl

theorem foldl_aux (items : Properties) (c : Collated) (x : String) :
    (items.foldl (fun c p => p.2.foldl (collateValue p.1) c) c).resultsAux x =
      extend (c.resultsAux x) (items.flatMap fun p => auxOf x p.1 p.2) := by
  induction items generalizing c with
  | nil => rfl
  | cons p items ih =>
    rw [List.foldl_cons, ih, collateValue_aux, extend_append]
    rfl

theorem aux_start (hk : k ≠ "total") (items : Properties) :
    (items.flatMap fun p => auxOf (k ++ "_start") p.1 p.2) =
      collect (List.map Stamp.start) k items := by
  unfold collect
  congr 1
  funext p
  unfold auxOf
  by_cases hp : p.1 = "total"
  · rw [if_pos hp, if_neg (start_ne_totals k), if_neg (hp ▸ Ne.symm hk)]
  · rw [if_neg hp]
    by_cases heq : p.1 = k
    · rw [if_pos (heq ▸ rfl), if_pos heq]
    · rw [if_neg fun h => heq ((String.append_left_inj _).mp h).symm, if_neg (start_ne_stop k p.1),
        if_neg heq]

theorem aux_stop (hk : k ≠ "total") (items : Properties) :
    (items.flatMap fun p => auxOf (k ++ "_stop") p.1 p.2) =
      collect (List.map Stamp.stop) k items := by
  unfold collect
  congr 1
  funext p
  unfold auxOf
  by_cases hp : p.1 = "total"
  · rw [if_pos hp, if_neg (stop_ne_totals k), if_neg (hp ▸ Ne.symm hk)]
  · rw [if_neg hp, if_neg (start_ne_stop p.1 k).symm]
    by_cases heq : p.1 = k
    · rw [if_pos (heq ▸ rfl), if_pos heq]
    · rw [if_neg fun h => heq ((String.append_left_inj _).mp h).symm, if_neg heq]

theorem aux_totals (items : Properties) :
    (items.flatMap fun p => auxOf "totals" p.1 p.2) =
      collect (List.map Stamp.total) "total" items := by
  unfold collect
  congr 1
  funext p
  unfold auxOf
  by_cases hp : p.1 = "total"
  · rw [if_pos hp, if_pos rfl, if_pos hp]
  · rw [if_neg hp, if_neg (start_ne_totals p.1).symm, if_neg (stop_ne_totals p.1).symm, if_neg hp]

theorem aux_other (hx : x ≠ "totals")
    (hk : ∀ k, k ≠ "total" → x ≠ k ++ "_start" ∧ x ≠ k ++ "_stop") (items : Properties) :
    (items.flatMap fun p => auxOf x p.1 p.2) = [] := by
  rw [List.flatMap_eq_nil_iff]
  intro p _
  unfold auxOf
  by_cases hp : p.1 = "total"
  · rw [if_pos hp, if_neg hx]
  · rw [if_neg hp, if_neg (hk p.1 hp).1, if_neg (hk p.1 hp).2]

end Collating

/-! ### From the calls to the upload -/

/-- The dictionaries hold exactly the values of the calls, in order. -/
structure RoundTrip (calls : List Call) (c : Collated) : Prop where
  results : ∀ k, k ≠ "total" → c.results k = extend none ((values calls k).map Stamp.total)
  start : ∀ k, k ≠ "total" →
    c.resultsAux (k ++ "_start") = extend none ((values calls k).map Stamp.start)
  stop : ∀ k, k ≠ "total" →
    c.resultsAux (k ++ "_stop") = extend none ((values calls k).map Stamp.stop)
  totals : c.resultsAux "totals" = extend none ((values calls "total").map Stamp.total)
  noTotal : c.results "total" = none
  others : ∀ x, x ≠ "totals" → (∀ k, k ≠ "total" → x ≠ k ++ "_start" ∧ x ≠ k ++ "_stop") →
    c.resultsAux x = none

section Calls
variable {calls : List Call} {own : Properties}

/-- The properties give back the values of a key, unless that is `__proto__`. -/
theorem Holds.collect_eq (h : Holds calls own) {items : Properties} (hperm : items.Perm own)
    (f : Stamp → ℤ) {k : String} (hk : k ≠ "__proto__") :
    collect (List.map f) k items = (values calls k).map f := by
  have hnodup : (items.map Prod.fst).Nodup := (hperm.map Prod.fst).nodup_iff.mpr h.nodup
  by_cases hmem : k ∈ own.map Prod.fst
  · obtain ⟨⟨k', vs⟩, hp, rfl⟩ := List.mem_map.mp hmem
    rw [collect_of_lookup hnodup (hperm.mem_iff.mpr hp), h.entry k' vs hp]
  · have hnone : ¬ ∃ c ∈ calls, c.key = k := fun hex => hmem ((h.keys k).mpr ⟨hk, hex⟩)
    rw [collect_of_not_mem fun h' => hmem ((hperm.map Prod.fst).mem_iff.mp h'),
      values_eq_nil hnone]
    rfl

theorem Holds.roundTrip (h : Holds calls own) {items : Properties} (hperm : items.Perm own)
    (hproto : ∀ c ∈ calls, c.key ≠ "__proto__") : RoundTrip calls (collateItems items) := by
  have hcollect : ∀ (f : Stamp → ℤ) k, collect (List.map f) k items = (values calls k).map f := by
    intro f k
    by_cases hk : k = "__proto__"
    · subst hk
      have hmem : "__proto__" ∉ items.map Prod.fst := by
        intro hmem
        exact ((h.keys _).mp ((hperm.map Prod.fst).mem_iff.mp hmem)).1 rfl
      rw [collect_of_not_mem hmem, values_eq_nil]
      · rfl
      · intro ⟨c, hc, hkey⟩
        exact hproto c hc hkey
    · exact h.collect_eq hperm f hk
  unfold collateItems
  refine ⟨?_, ?_, ?_, ?_, ?_, ?_⟩
  · intro k hk
    rw [foldl_results]
    simp only [if_neg hk]
    rw [hcollect]
    rfl
  · intro k hk
    rw [foldl_aux, aux_start hk, hcollect]
    rfl
  · intro k hk
    rw [foldl_aux, aux_stop hk, hcollect]
    rfl
  · rw [foldl_aux, aux_totals, hcollect]
    rfl
  · have hnil : collect (fun _ => ([] : List ℤ)) "total" items = [] := by
      unfold collect
      rw [List.flatMap_eq_nil_iff]
      intro p _
      exact ite_self []
    rw [foldl_results]
    simp only [if_true]
    rw [hnil]
    rfl
  · intro x hx hk
    rw [foldl_aux, aux_other hx hk]
    rfl

/-- The values of the key `__proto__` do not come through. -/
theorem Holds.not_roundTrip (h : Holds calls own) {items : Properties} (hperm : items.Perm own)
    {c : Call} (hc : c ∈ calls) (hkey : c.key = "__proto__") :
    ¬ RoundTrip calls (collateItems items) := by
  intro hround
  have hresults := hround.results "__proto__" (by decide)
  have hmem : "__proto__" ∉ items.map Prod.fst := by
    intro hmem
    exact ((h.keys _).mp ((hperm.map Prod.fst).mem_iff.mp hmem)).1 rfl
  have hvalues : c.val ∈ values calls "__proto__" := by
    unfold values
    exact List.mem_map_of_mem (List.mem_filter.mpr ⟨hc, decide_eq_true hkey⟩)
  unfold collateItems at hresults
  rw [foldl_results, collect_of_not_mem hmem] at hresults
  unfold extend at hresults
  rw [if_pos rfl, if_neg] at hresults
  · cases hresults
  · intro hnil
    rw [List.map_eq_nil_iff.mp hnil] at hvalues
    cases hvalues

end Calls

/-- The results of a test come through whole exactly if there are any, and their keys
are ones that the recording object supports. -/
theorem roundTrip_iff {I : Type} (order : DictOrder) (info : Info I) (ldap : Option String)
    (fname : String) (calls : List Call) :
    (∃ recorded upload, record calls = some recorded ∧
      collate order info ldap fname recorded = some upload ∧ RoundTrip calls upload.collated) ↔
      calls ≠ [] ∧ Recordable calls := by
  rcases record_spec calls with ⟨hnone, d, hd, hkey⟩ | ⟨hlast, results, hsome, hnull, hholds⟩
  · refine iff_of_false ?_ ?_
    · intro ⟨recorded, upload, hrec, _⟩
      rw [hnone] at hrec
      cases hrec
    · intro ⟨_, hrecordable⟩
      exact hrecordable.2 d hd hkey
  · cases results with
    | none =>
      refine iff_of_false ?_ ?_
      · intro ⟨recorded, upload, hrec, hcollate, _⟩
        rw [hsome] at hrec
        cases hrec
        cases hcollate
      · intro ⟨hne, _⟩
        exact hne (hnull.mp rfl)
    | some own =>
      have hne : calls ≠ [] := fun h => by cases hnull.mpr h
      by_cases hproto : ∀ c ∈ calls, c.key ≠ "__proto__"
      · refine iff_of_true ?_ ⟨hne, hproto, hlast⟩
        exact ⟨some own, _, hsome, rfl, hholds.roundTrip (order.items_perm own) hproto⟩
      · refine iff_of_false ?_ fun h => hproto h.2.1
        push Not at hproto
        obtain ⟨c, hc, hkey⟩ := hproto
        intro ⟨recorded, upload, hrec, hcollate, hround⟩
        rw [hsome] at hrec
        cases hrec
        cases hcollate
        exact hholds.not_roundTrip (order.items_perm own) hc hkey hround

/-- A test without results: null is written, and the collator raises. -/
theorem no_results_not_collated : ¬ ∃ recorded upload, record [] = some recorded ∧
    collate ⟨id, fun _ => .refl _⟩ ⟨0, ()⟩ none "fake.js.out" recorded = some upload ∧
    RoundTrip [] upload.collated := by
  intro ⟨recorded, upload, hrec, hcollate, _⟩
  cases hrec
  cases hcollate

end StoneRidge.Results
