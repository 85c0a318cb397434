import StoneRidge.Kit.Grouping

/-!
# Recording results in a test

`do_write_result` and `do_save_results` (`srdata.js:14-64`). The results are an object
whose own properties hold the values by key. The methods and the prototype of an object
are reached through its properties too, so two keys are special: after the key
`hasOwnProperty` the test for a key is no longer a function, and assigning `__proto__`
makes no property. Times are integers that the numbers of the language represent.
-/

set_option autoImplicit false

namespace StoneRidge.Results
open StoneRidge.Kit.Grouping

structure Stamp where
  start : ℤ
  stop : ℤ
  total : ℤ
  deriving DecidableEq

/-- A call of `do_write_result`. -/
structure Call where
  key : String
  start : ℤ
  stop : ℤ
  deriving DecidableEq

def Call.val (c : Call) : Stamp := ⟨c.start, c.stop, c.stop - c.start⟩

/-- The own properties of an object. -/
abbrev Properties := List (String × List Stamp)

/-- `STONERIDGE_RESULTS`, first null; also what is written to the file. -/
abbrev Recorded := Option Properties

/-- Nothing where the call raises a `TypeError`. -/
def doWriteResult (results : Recorded) (c : Call) : Option Recorded :=
  let own := results.getD []
  if "hasOwnProperty" ∈ own.map Prod.fst then none
  else if c.key ∈ own.map Prod.fst then
    some (some (own.map fun p => if p.1 = c.key then (p.1, p.2 ++ [c.val]) else p))
  else if c.key = "__proto__" then some (some own)
  else some (some (own ++ [(c.key, [c.val])]))

/-- The calls of a test, then `do_save_results`. -/
def record (calls : List Call) : Option Recorded := calls.foldlM doWriteResult none

/-- The values of the calls with key `k`. -/
def values (calls : List Call) (k : String) : List Stamp :=
  (calls.filter fun c => c.key = k).map Call.val

/-- The calls use no key in a way that the object does not support. -/
def Recordable (calls : List Call) : Prop :=
  (∀ c ∈ calls, c.key ≠ "__proto__") ∧ ∀ c ∈ calls.dropLast, c.key ≠ "hasOwnProperty"

/-- The properties hold the values of the calls, except of those with key `__proto__`. -/
structure Holds (calls : List Call) (own : Properties) : Prop where
  nodup : (own.map Prod.fst).Nodup
  entry : ∀ k vs, (k, vs) ∈ own → vs = values calls k
  keys : ∀ k, k ∈ own.map Prod.fst ↔ k ≠ "__proto__" ∧ ∃ c ∈ calls, c.key = k

section Recording
variable {calls : List Call} {own : Properties} {c : Call}

theorem values_append (calls : List Call) (c : Call) (k : String) :
    values (calls ++ [c]) k = values calls k ++ if c.key = k then [c.val] else [] := by
  unfold values
  rw [List.filter_append, List.map_append]
  by_cases h : c.key = k <;> simp [h]

theorem values_eq_nil {k : String} (h : ¬ ∃ c ∈ calls, c.key = k) : values calls k = [] := by
  unfold values
  rw [List.map_eq_nil_iff, List.filter_eq_nil_iff]
  intro c hc
  rw [decide_eq_true_eq]
  intro heq
  exact h ⟨c, hc, heq⟩

theorem holds_nil : Holds [] [] := by
  refine ⟨List.nodup_nil, ?_, ?_⟩
  · intro k vs h
    cases h
  · intro k
    simp

theorem map_push_keys (own : Properties) (c : Call) :
    (own.map fun p => if p.1 = c.key then (p.1, p.2 ++ [c.val]) else p).map Prod.fst =
      own.map Prod.fst := by
  rw [List.map_map]
  apply List.map_congr_left
  intro p _
  rw [Function.comp_apply]
  split <;> rfl

theorem Holds.push (h : Holds calls own) (hkey : c.key ∈ own.map Prod.fst) :
    Holds (calls ++ [c]) (own.map fun p => if p.1 = c.key then (p.1, p.2 ++ [c.val]) else p) := by
  refine ⟨?_, ?_, ?_⟩
  · rw [map_push_keys]
    exact h.nodup
  · intro k vs hmem
    obtain ⟨⟨k', vs'⟩, hmem', heq⟩ := List.mem_map.mp hmem
    rw [values_append]
    by_cases hk : k' = c.key
    · simp only [if_pos hk, Prod.mk.injEq] at heq
      obtain ⟨rfl, rfl⟩ := heq
      rw [if_pos hk.symm, h.entry k' vs' hmem']
    · simp only [if_neg hk, Prod.mk.injEq] at heq
      obtain ⟨rfl, rfl⟩ := heq
      rw [if_neg (Ne.symm hk), List.append_nil]
      exact h.entry k' vs' hmem'
  · intro k
    rw [map_push_keys, h.keys]
    refine and_congr_right fun _ => ?_
    constructor
    · intro ⟨d, hd, hdk⟩
      exact ⟨d, List.mem_append_left _ hd, hdk⟩
    · intro ⟨d, hd, hdk⟩
      rcases List.mem_append.mp hd with hd | hd
      · exact ⟨d, hd, hdk⟩
      · rw [List.mem_singleton] at hd
        subst hd
        subst hdk
        exact ((h.keys _).mp hkey).2

theorem Holds.add (h : Holds calls own) (hproto : c.key ≠ "__proto__")
    (hkey : c.key ∉ own.map Prod.fst) : Holds (calls ++ [c]) (own ++ [(c.key, [c.val])]) := by
  refine ⟨?_, ?_, ?_⟩
  · rw [List.map_append, List.nodup_append]
    refine ⟨h.nodup, List.nodup_singleton _, ?_⟩
    intro k hk k' hk' heq
    rw [List.map_singleton, List.mem_singleton] at hk'
    rw [heq, hk'] at hk
    exact hkey hk
  · intro k vs hmem
    rw [values_append]
    rcases List.mem_append.mp hmem with hmem | hmem
    · have hne : c.key ≠ k := by
        intro heq
        exact hkey (heq ▸ List.mem_map_of_mem hmem)
      rw [if_neg hne, List.append_nil]
      exact h.entry k vs hmem
    · rw [List.mem_singleton, Prod.mk.injEq] at hmem
      obtain ⟨rfl, rfl⟩ := hmem
      have hnil := values_eq_nil fun hex => hkey ((h.keys c.key).mpr ⟨hproto, hex⟩)
      rw [hnil, if_pos rfl]
      rfl
  · intro k
    rw [List.map_append, List.mem_append, h.keys]
    constructor
    · intro hk
      rcases hk with ⟨hk, d, hd, hdk⟩ | hk
      · exact ⟨hk, d, List.mem_append_left _ hd, hdk⟩
      · rw [List.map_singleton, List.mem_singleton] at hk
        subst hk
        exact ⟨hproto, c, List.mem_append_right _ List.mem_cons_self, rfl⟩
    · intro ⟨hk, d, hd, hdk⟩
      rcases List.mem_append.mp hd with hd | hd
      · exact .inl ⟨hk, d, hd, hdk⟩
      · rw [List.mem_singleton] at hd
        subst hd
        subst hdk
        exact .inr List.mem_cons_self

theorem Holds.proto (h : Holds calls own) (hproto : c.key = "__proto__") :
    Holds (calls ++ [c]) own := by
  refine ⟨h.nodup, ?_, ?_⟩
  · intro k vs hmem
    have hne : c.key ≠ k := by
      intro heq
      exact ((h.keys k).mp (List.mem_map_of_mem hmem)).1 (heq.symm.trans hproto)
    rw [values_append, if_neg hne, List.append_nil]
    exact h.entry k vs hmem
  · intro k
    rw [h.keys]
    refine and_congr_right fun hk => ?_
    constructor
    · intro ⟨d, hd, hdk⟩
      exact ⟨d, List.mem_append_left _ hd, hdk⟩
    · intro ⟨d, hd, hdk⟩
      rcases List.mem_append.mp hd with hd | hd
      · exact ⟨d, hd, hdk⟩
      · rw [List.mem_singleton] at hd
        subst hd
        exact absurd (hdk.symm.trans hproto) hk

theorem record_append (calls : List Call) (c : Call) :
    record (calls ++ [c]) = (record calls).bind fun results => doWriteResult results c := by
  unfold record
  rw [List.foldlM_append]
  simp

/-- What a call does to properties that hold the calls before it. -/
theorem doWriteResult_holds {results : Recorded} (h : Holds calls (results.getD [])) :
    (doWriteResult results c = none ∧ ∃ d ∈ calls, d.key = "hasOwnProperty") ∨
      ((∀ d ∈ calls, d.key ≠ "hasOwnProperty") ∧
        ∃ own, doWriteResult results c = some (some own) ∧ Holds (calls ++ [c]) own) := by
  unfold doWriteResult
  by_cases hmethod : "hasOwnProperty" ∈ (results.getD []).map Prod.fst
  · rw [if_pos hmethod]
    exact .inl ⟨rfl, ((h.keys _).mp hmethod).2⟩
  · rw [if_neg hmethod]
    refine .inr ⟨?_, ?_⟩
    · intro d hd heq
      exact hmethod ((h.keys _).mpr ⟨by decide, d, hd, heq⟩)
    · by_cases hkey : c.key ∈ (results.getD []).map Prod.fst
      · rw [if_pos hkey]
        exact ⟨_, rfl, h.push hkey⟩
      · rw [if_neg hkey]
        by_cases hproto : c.key = "__proto__"
        · rw [if_pos hproto]
          exact ⟨_, rfl, h.proto hproto⟩
        · rw [if_neg hproto]
          exact ⟨_, rfl, h.add hproto hkey⟩

/-- What a sequence of calls records: nothing without calls, an error if there is a call
after one with the key `hasOwnProperty`. -/
theorem record_spec (calls : List Call) :
    (record calls = none ∧ ∃ c ∈ calls.dropLast, c.key = "hasOwnProperty") ∨
      ((∀ c ∈ calls.dropLast, c.key ≠ "hasOwnProperty") ∧
        ∃ results, record calls = some results ∧ (results = none ↔ calls = []) ∧
          Holds calls (results.getD [])) := by
  induction calls using List.reverseRecOn with
  | nil => exact .inr ⟨by simp, none, rfl, by simp, holds_nil⟩
  | append_singleton calls c ih =>
    rw [record_append, List.dropLast_concat]
    rcases ih with ⟨hnone, d, hd, hkey⟩ | ⟨_, results, hsome, _, hholds⟩
    · rw [hnone]
      exact .inl ⟨rfl, d, List.mem_of_mem_dropLast hd, hkey⟩
    · rw [hsome, Option.bind_some]
      rcases @doWriteResult_holds calls c results hholds with ⟨hnone, hex⟩ | ⟨hall, own, hown, h⟩
      · exact .inl ⟨hnone, hex⟩
      · exact .inr ⟨hall, some own, hown, by simp, h⟩

end Recording

end StoneRidge.Results
