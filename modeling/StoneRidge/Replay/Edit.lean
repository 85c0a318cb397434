import StoneRidge.Replay.Response

/-!
# Edits of an archive

When an edited archive can be loaded again, and what an edit that changes nothing leaves.
-/

set_option autoImplicit false

namespace StoneRidge.Replay
open StoneRidge.Kit.TextSplit

variable {τ : Type}

/-! ### Headers -/

theorem find_setHeaderIn_of_ne {key other value : Text} (h : other ≠ key) (headers : List Header) :
    (ArchivedHttpResponse.setHeaderIn key value headers).find? (fun e => e.1 = other) =
      headers.find? fun e => e.1 = other := by
  induction headers with
  | nil => simp [ArchivedHttpResponse.setHeaderIn, h.symm]
  | cons e headers ih =>
    unfold ArchivedHttpResponse.setHeaderIn
    by_cases hkey : e.1 = key
    · rw [if_pos hkey, List.find?_cons_of_neg (by simpa using h.symm),
        List.find?_cons_of_neg (by simpa [hkey] using h.symm)]
    · rw [if_neg hkey, List.find?_cons, List.find?_cons, ih]

section Chunks
variable {zlib : Zlib} {r : ArchivedHttpResponse τ} {text : Text}

theorem getHeader_withLength {key : Text} (h : key ≠ "content-length".toList) :
    (withLength r).getHeader key = r.getHeader key := by
  unfold withLength
  split
  · rfl
  · exact congrArg (Option.map Prod.snd) (find_setHeaderIn_of_ne h r.headers)

theorem responseData_withLength : (withLength r).responseData = r.responseData := by
  unfold withLength
  split <;> rfl

theorem delays_withLength : (withLength r).delays = r.delays := by
  unfold withLength
  split <;> rfl

theorem getHeader_setData {key : Text} (h : key ≠ "content-length".toList) :
    (setData zlib r text).getHeader key = r.getHeader key :=
  getHeader_withLength h

theorem isCompressed_setData : (setData zlib r text).isCompressed = r.isCompressed := by
  unfold ArchivedHttpResponse.isCompressed
  rw [getHeader_setData (by decide)]

theorem responseData_setData : (setData zlib r text).responseData = editedChunks zlib r text :=
  responseData_withLength

theorem delays_setData : (setData zlib r text).delays = r.delays := delays_withLength

theorem length_setData (hzlib : ∀ chunks use_gzip,
      (zlib.compressChunks chunks use_gzip).length = chunks.length) :
    (setData zlib r text).responseData.length = (split chunkEditSeparator text).length := by
  rw [responseData_setData]
  unfold editedChunks
  split
  · exact hzlib _ _
  · rfl

end Chunks

/-! ### Loading -/

section Load
variable [Zero τ] {ρ : Type} {r : ArchivedHttpResponse τ} {json : Json τ} {zlib : Zlib}
  {archive archive' : List (ρ × ArchivedHttpResponse τ)}

theorem fixDelays_of_eq {delays : Delays τ} {n : ℕ} (h : delays.data.length = n) :
    fixDelays n (.delays delays) = .ok delays :=
  if_neg (not_not_intro h)

theorem fixDelays_of_ne {delays : Delays τ} {n : ℕ} (h : delays.data.length ≠ n) :
    fixDelays n (.delays delays) = .error (.delayMismatch delays.data.length n) :=
  if_pos h

theorem setstate_of_wellFormed (h : WellFormed r) : setstate r = .ok r := by
  unfold setstate
  rw [fixDelays_of_eq h]
  rfl

theorem setstate_of_not_wellFormed (h : ¬ WellFormed r) :
    setstate r = .error (.delayMismatch r.delays.data.length r.responseData.length) := by
  unfold setstate
  rw [fixDelays_of_ne h]
  rfl

theorem load_iff : (∃ loaded, load archive = .ok loaded) ↔ ∀ e ∈ archive, WellFormed e.2 := by
  induction archive with
  | nil => simp [load]
  | cons e archive ih =>
    rw [List.forall_mem_cons, ← ih]
    by_cases hwf : WellFormed e.2
    · rw [load, setstate_of_wellFormed hwf]
      cases hload : load archive with
      | error failure => simp [hwf, bind, Except.bind]
      | ok loaded => simp [hwf, bind, Except.bind, pure, Except.pure]
    · rw [load, setstate_of_not_wellFormed hwf]
      simp [hwf, bind, Except.bind]

/-- Delays that are accepted are as many as there were chunks before. -/
theorem length_setDelays {delaysText : Text} {r' : ArchivedHttpResponse τ}
    (h : setDelays json r delaysText = .ok r') :
    r'.responseData = r.responseData ∧ r'.delays.data.length = r.responseData.length := by
  unfold setDelays at h
  generalize (json.loads delaysText).getD (.delays r.delays) = loaded at h
  cases loaded with
  | falsy =>
    obtain rfl := Except.ok.inj h
    exact ⟨rfl, List.length_replicate⟩
  | delays delays =>
    by_cases hlen : delays.data.length = r.responseData.length
    · rw [fixDelays_of_eq hlen] at h
      obtain rfl := Except.ok.inj h
      exact ⟨rfl, hlen⟩
    · rw [fixDelays_of_ne hlen] at h
      cases h
  | other => cases h

/-- After an edit the chunks still have their delays exactly if there are as many as before. -/
theorem wellFormed_edited {r' : ArchivedHttpResponse τ} {text : Text}
    (hzlib : ∀ chunks use_gzip, (zlib.compressChunks chunks use_gzip).length = chunks.length)
    (hwf : WellFormed r) (h : setResponseFromText json zlib r text = .ok r') :
    WellFormed r' ↔ ∀ delays data, split delayEditSeparator text = [delays, data] →
      (split chunkEditSeparator data).length = r.responseData.length := by
  unfold setResponseFromText at h
  split at h
  · rename_i delays data hsplit
    cases hdelays : setDelays json r delays with
    | error failure =>
      rw [hdelays] at h
      cases h
    | ok m =>
      rw [hdelays] at h
      obtain rfl := Except.ok.inj h
      obtain ⟨-, hlen⟩ := length_setDelays hdelays
      have hwf' : WellFormed (setData zlib m data) ↔
          r.responseData.length = (split chunkEditSeparator data).length := by
        unfold WellFormed
        rw [length_setData hzlib, delays_setData, hlen]
      rw [hwf']
      constructor
      · intro heq delays' data' hsplit'
        rw [hsplit] at hsplit'
        simp only [List.cons.injEq, and_true] at hsplit'
        rw [← hsplit'.2, heq]
      · intro hall
        exact (hall delays data hsplit).symm
  · rename_i hskip
    obtain rfl := Except.ok.inj h
    refine iff_of_true hwf ?_
    intro delays data hsplit
    exact absurd hsplit (hskip delays data)

/-- An edited archive can be loaded exactly if the edited text has as many chunks as the
response had. -/
theorem edited_loads_iff {isMatch : ρ → Bool} {editor : Text → Text}
    (hzlib : ∀ chunks use_gzip, (zlib.compressChunks chunks use_gzip).length = chunks.length)
    (hwf : ∀ e ∈ archive, WellFormed e.2)
    (hedit : edit json zlib isMatch editor archive = .ok archive') :
    (∃ loaded, load archive' = .ok loaded) ↔
      ∀ e, (archive.find? fun e => isMatch e.1) = some e →
        ∀ text, getResponseAsText json zlib e.2 = .ok text →
          ∀ delays data, split delayEditSeparator (editor text) = [delays, data] →
            (split chunkEditSeparator data).length = e.2.responseData.length := by
  rw [load_iff]
  induction archive generalizing archive' with
  | nil =>
    obtain rfl := Except.ok.inj hedit
    simp
  | cons e archive ih =>
    rw [List.forall_mem_cons] at hwf
    unfold edit at hedit
    by_cases hmatch : isMatch e.1 = true
    · rw [if_pos hmatch] at hedit
      cases htext : getResponseAsText json zlib e.2 with
      | error failure =>
        rw [htext] at hedit
        cases hedit
      | ok text =>
        cases hset : setResponseFromText json zlib e.2 (editor text) with
        | error failure =>
          simp only [htext, hset, bind, Except.bind] at hedit
          cases hedit
        | ok r' =>
          simp only [htext, hset, bind, Except.bind] at hedit
          obtain rfl := Except.ok.inj hedit
          have hfind : ((e :: archive).find? fun e => isMatch e.1) = some e :=
            List.find?_cons_of_pos hmatch
          rw [List.forall_mem_cons, and_iff_left hwf.2, wellFormed_edited hzlib hwf.1 hset, hfind]
          constructor
          · intro hall e' he' text' htext' delays data hsplit
            obtain rfl := Option.some.inj he'
            obtain rfl := Except.ok.inj (htext.symm.trans htext')
            exact hall delays data hsplit
          · intro hall delays data hsplit
            exact hall e rfl text htext delays data hsplit
    · rw [if_neg hmatch] at hedit
      cases hrest : edit json zlib isMatch editor archive with
      | error failure =>
        rw [hrest] at hedit
        cases hedit
      | ok archive'' =>
        rw [hrest] at hedit
        obtain rfl := Except.ok.inj hedit
        have hfind : ((e :: archive).find? fun e => isMatch e.1) =
            archive.find? fun e => isMatch e.1 :=
          List.find?_cons_of_neg hmatch
        rw [List.forall_mem_cons, and_iff_right hwf.1, ih hwf.2 hrest, hfind]

end Load

/-! ### A page of two chunks -/

def sampleZlib : Zlib := ⟨fun chunks _ => chunks, fun chunks _ => some chunks⟩

def sampleDelays : Text :=
  "\x7b\n  \"headers\": 0, \n  \"data\": [\n    0, \n    0\n  ]\n\x7d".toList

def sampleJson : Json ℕ where
  dumps _ := sampleDelays
  loads text := if text = sampleDelays then some (.delays ⟨0, [0, 0]⟩) else none

def samplePage : ArchivedHttpResponse ℕ :=
  ⟨11, 200, "OK".toList, [("content-type".toList, "text/html".toList)],
    ["<head>".toList, "a".toList], ⟨0, [0, 0]⟩⟩

/-- An editor in which the two chunks are joined. -/
def joinChunks (_ : Text) : Text :=
  delayEditSeparator.intercalate [sampleDelays, "<head>a".toList]

theorem joined_not_loaded :
    ¬ ∃ loaded, load [((), setData sampleZlib samplePage "<head>a".toList)] = .ok loaded := by
  intro h
  have hlength := (@edited_loads_iff ℕ _ Unit sampleJson sampleZlib [((), samplePage)] _
    (fun _ => true) joinChunks (fun _ _ => rfl) (by decide) rfl).mp h _ rfl _ rfl
    sampleDelays "<head>a".toList (by decide)
  revert hlength
  decide

/-! ### An edit that changes nothing -/

section Unedited
variable [Zero τ] {r : ArchivedHttpResponse τ} {json : Json τ} {zlib : Zlib}

/-- What stands before the `W` of the separator of the delays and is found nowhere in JSON. -/
def delayMark : Text := ['\n', '[', 'W']

theorem borderless_delayMark : Borderless delayMark := by decide

theorem borderless_chunk : Borderless chunkEditSeparator := by decide

theorem delayMark_absent {text : Text} (h : 'W' ∉ text) : ¬ delayMark <:+: text := by
  intro hoccurs
  exact h (hoccurs.subset (by decide))

/-- The text of a response falls into its two parts, unless the second contains the separator. -/
theorem split_response_text {delays data : Text} (hdelays : 'W' ∉ delays) :
    split delayEditSeparator (delayEditSeparator.intercalate [delays, data]) =
      delays :: split delayEditSeparator data := by
  have hjoin : delayEditSeparator.intercalate [delays, data] =
      delays ++ (delayEditSeparator ++ data) := by
    simp [List.intercalate, List.intersperse]
  have hsep : delayEditSeparator = delayMark ++ delayEditSeparator.drop 3 := by decide
  rw [hjoin, hsep]
  exact split_append (by decide) borderless_delayMark (delayMark_absent hdelays)

/-- The response after its text has gone through the editor unchanged. -/
def unedited (json : Json τ) (zlib : Zlib) (r : ArchivedHttpResponse τ) :
    Except Failure (ArchivedHttpResponse τ) := do
  let text ← getResponseAsText json zlib r
  setResponseFromText json zlib r text

theorem set_response_unedited {data : Text} (hwf : WellFormed r)
    (hloads : json.loads (json.dumps r.delays) = some (.delays r.delays))
    (hdumps : 'W' ∉ json.dumps r.delays) :
    setResponseFromText json zlib r
      (delayEditSeparator.intercalate [json.dumps r.delays, data]) =
      .ok (if delayEditSeparator <:+: data then r else setData zlib r data) := by
  unfold setResponseFromText
  rw [split_response_text hdumps]
  by_cases hoccurs : delayEditSeparator <:+: data
  · rw [if_pos hoccurs]
    have hlong : (split delayEditSeparator data).length ≠ 1 := by
      rw [Ne, split_length_eq_one_iff (by decide), not_not]
      exact hoccurs
    split
    · rename_i heq
      rw [List.cons.injEq] at heq
      rw [heq.2] at hlong
      exact absurd rfl hlong
    · rfl
  · rw [if_neg hoccurs, split_of_absent hoccurs]
    have hset : setDelays json r (json.dumps r.delays) = .ok r := by
      unfold setDelays
      rw [hloads, Option.getD_some, fixDelays_of_eq hwf]
      rfl
    simp only [hset, bind, Except.bind, pure, Except.pure]

/-- A response that is not compressed keeps its chunks through an edit that changes nothing
exactly if it is skipped or its chunks are found again; one that is not text loses them. -/
theorem unedited_iff (hwf : WellFormed r) (hplain : r.isCompressed = false)
    (hloads : json.loads (json.dumps r.delays) = some (.delays r.delays))
    (hdumps : 'W' ∉ json.dumps r.delays) :
    ∃ r', unedited json zlib r = .ok r' ∧ r'.delays = r.delays ∧
      (r'.responseData = r.responseData ↔
        if r.isText then
          delayEditSeparator <:+: chunkEditSeparator.intercalate r.responseData ∨
            r.responseData ≠ [] ∧ ∀ chunk ∈ r.responseData, ¬ chunkEditSeparator <:+: chunk
        else r.responseData = [[]]) := by
  by_cases htext : r.isText = true
  · have hget : getResponseAsText json zlib r = .ok (delayEditSeparator.intercalate
        [json.dumps r.delays, chunkEditSeparator.intercalate r.responseData]) := by
      unfold getResponseAsText getDataAsText
      rw [if_pos htext, hplain, if_neg Bool.false_ne_true]
      rfl
    have hset : unedited json zlib r = .ok
        (if delayEditSeparator <:+: chunkEditSeparator.intercalate r.responseData then r
        else setData zlib r (chunkEditSeparator.intercalate r.responseData)) := by
      rw [unedited, hget]
      exact set_response_unedited hwf hloads hdumps
    refine ⟨_, hset, ?_, ?_⟩
    · split
      · rfl
      · exact delays_setData
    · rw [if_pos htext]
      by_cases hoccurs : delayEditSeparator <:+: chunkEditSeparator.intercalate r.responseData
      · rw [if_pos hoccurs]
        exact iff_of_true rfl (Or.inl hoccurs)
      · rw [if_neg hoccurs, or_iff_right hoccurs, responseData_setData, editedChunks, hplain,
          if_neg Bool.false_ne_true]
        exact split_intercalate_iff (by decide) borderless_chunk
  · have hget : getResponseAsText json zlib r = .ok (delayEditSeparator.intercalate
        [json.dumps r.delays, []]) := by
      unfold getResponseAsText getDataAsText
      rw [if_neg htext]
      rfl
    have hoccurs : ¬ delayEditSeparator <:+: [] := by decide
    refine ⟨setData zlib r [], ?_, delays_setData, ?_⟩
    · rw [unedited, hget]
      refine (set_response_unedited hwf hloads hdumps).trans ?_
      rw [if_neg hoccurs]
    · rw [if_neg htext, responseData_setData, editedChunks, hplain, if_neg Bool.false_ne_true,
        split_of_absent (by decide)]
      exact eq_comm

theorem unedited_page : ∃ r', unedited sampleJson sampleZlib samplePage = .ok r' ∧
    r'.delays = samplePage.delays ∧ (r'.responseData = samplePage.responseData ↔
      if samplePage.isText then
        delayEditSeparator <:+: chunkEditSeparator.intercalate samplePage.responseData ∨
          samplePage.responseData ≠ [] ∧
            ∀ chunk ∈ samplePage.responseData, ¬ chunkEditSeparator <:+: chunk
      else samplePage.responseData = [[]]) :=
  unedited_iff (by decide) (by decide) rfl (by decide)

end Unedited

end StoneRidge.Replay
