import StoneRidge.Kit.PyText
import StoneRidge.Replay.Edit

/-!
# Scripts injected into pages

`_InjectScripts` (`httpclient.py:29-82`). The script goes into the text of a page after the
first tag of a kind, and so into one of its chunks; the others stay as they were recorded.
-/

set_option autoImplicit false

namespace StoneRidge.Replay
open StoneRidge.Kit StoneRidge.Kit.TextSplit

/-! ### The tags -/

/-- What stands before the first `>`, and after it. -/
def closeTag (text : Text) : Option (Text × Text) :=
  match text.dropWhile (· ≠ '>') with
  | [] => none
  | _ :: rest => some (text.takeWhile (· ≠ '>'), rest)

def openTag (tag text : Text) : Option (Text × Text) :=
  if (text.take tag.length).map Char.toLower = tag then
    (closeTag (text.drop tag.length)).map fun m => (text.take tag.length ++ m.1, m.2)
  else none

/-- `headRe` and `htmlRe`: the tag is looked for after up to so many characters. A match
ends with a `>`, which is left out here. -/
def matchTag (tag : Text) : ℕ → Text → Option (Text × Text)
  | 0, text => openTag tag text
  | n + 1, text =>
    match openTag tag text, text with
    | some m, _ => some m
    | none, [] => none
    | none, c :: text => (matchTag tag n text).map fun m => (c :: m.1, m.2)

def headRe (text : Text) : Option (Text × Text) := matchTag "<head".toList 256 text

def htmlRe (text : Text) : Option (Text × Text) := matchTag "<html".toList 256 text

def openScript : Text := "<script".toList

def closeScript : Text := "/script".toList

/-- `<script>%s</script>` without its last character. -/
def scriptElement (injectScript : Text) : Text :=
  openScript ++ '>' :: (injectScript ++ '<' :: closeScript)

/-- `InsertScriptAfter` at the first tag that is found; nothing where there is none. -/
def insertScript (injectScript text : Text) : Option Text :=
  ((headRe text).or (htmlRe text)).map fun m =>
    m.1 ++ '>' :: (scriptElement injectScript ++ '>' :: m.2)

/-! ### The response -/

section Inject
variable {τ : Type} (zlib : Zlib) (injectScript : Text) (r : ArchivedHttpResponse τ)

/-- `contentType.startswith('text/html')`. -/
def isHtml : Bool :=
  match r.getHeader "content-type".toList with
  | none => false
  | some contentType => "text/html".toList.isPrefixOf contentType

/-- The text with the script, where it is put into it. -/
def injectedText (text : Text) : Option Text :=
  if text ≠ [] ∧ ¬ injectScript <:+: text then insertScript injectScript text else none

/-- The copy that gets the script, if there is one. -/
def injectedCopy : Except Failure (Option (ArchivedHttpResponse τ)) :=
  if isHtml r then do
    let text ← getDataAsText zlib r
    return (injectedText injectScript (text.getD [])).map (setData zlib r)
  else .ok none

def injectScripts : Except Failure (ArchivedHttpResponse τ) :=
  (injectedCopy zlib injectScript r).map (·.getD r)

end Inject

/-! ### Where the script goes -/

theorem closeTag_eq {text before rest : Text} (h : closeTag text = some (before, rest)) :
    text = before ++ '>' :: rest := by
  unfold closeTag at h
  cases hdrop : text.dropWhile (· ≠ '>') with
  | nil =>
    rw [hdrop] at h
    cases h
  | cons c after =>
    rw [hdrop] at h
    simp only [Option.some.injEq, Prod.mk.injEq] at h
    obtain ⟨rfl, rfl⟩ := h
    have hc := PyText.head_of_dropWhile hdrop
    have hgt : c = '>' := by simpa using hc
    have hsplit : text.takeWhile (· ≠ '>') ++ text.dropWhile (· ≠ '>') = text :=
      List.takeWhile_append_dropWhile
    rw [hdrop, hgt] at hsplit
    exact hsplit.symm

theorem openTag_eq {tag text before rest : Text} (h : openTag tag text = some (before, rest)) :
    text = before ++ '>' :: rest := by
  unfold openTag at h
  by_cases htag : (text.take tag.length).map Char.toLower = tag
  · rw [if_pos htag] at h
    obtain ⟨⟨inner, after⟩, hclose, heq⟩ := Option.map_eq_some_iff.mp h
    rw [Prod.mk.injEq] at heq
    obtain ⟨rfl, rfl⟩ := heq
    have hdrop := closeTag_eq hclose
    rw [List.append_assoc, ← hdrop, List.take_append_drop]
  · rw [if_neg htag] at h
    cases h

theorem matchTag_eq {tag : Text} {n : ℕ} {text before rest : Text}
    (h : matchTag tag n text = some (before, rest)) : text = before ++ '>' :: rest := by
  induction n generalizing text before with
  | zero => exact openTag_eq h
  | succ n ih =>
    cases hopen : openTag tag text with
    | some m =>
      simp only [matchTag, hopen] at h
      obtain rfl := Option.some.inj h
      exact openTag_eq hopen
    | none =>
      cases text with
      | nil =>
        simp only [matchTag, hopen] at h
        cases h
      | cons c text =>
        simp only [matchTag, hopen] at h
        obtain ⟨⟨inner, after⟩, hmatch, heq⟩ := Option.map_eq_some_iff.mp h
        rw [Prod.mk.injEq] at heq
        obtain ⟨rfl, rfl⟩ := heq
        rw [ih hmatch, List.cons_append]

theorem insertScript_eq {injectScript text text' : Text}
    (h : insertScript injectScript text = some text') :
    ∃ before rest, text = before ++ '>' :: rest ∧
      text' = before ++ '>' :: (scriptElement injectScript ++ '>' :: rest) := by
  obtain ⟨⟨before, rest⟩, hfound, rfl⟩ := Option.map_eq_some_iff.mp h
  refine ⟨before, rest, ?_, rfl⟩
  rcases Option.or_eq_some_iff.mp hfound with hhead | ⟨-, hhtml⟩
  · exact matchTag_eq hhead
  · exact matchTag_eq hhtml

theorem script_occurs (injectScript before rest : Text) :
    injectScript <:+: before ++ '>' :: (scriptElement injectScript ++ '>' :: rest) := by
  have heq : before ++ '>' :: (scriptElement injectScript ++ '>' :: rest) =
      before ++ '>' :: (openScript ++ ['>']) ++ injectScript ++
        '<' :: (closeScript ++ '>' :: rest) := by
    simp only [scriptElement, List.append_assoc, List.cons_append, List.nil_append]
  rw [heq]
  exact List.infix_append _ _ _

theorem not_infix_scriptElement {injectScript : Text}
    (h : ¬ chunkEditSeparator <:+: injectScript) :
    ¬ chunkEditSeparator <:+: scriptElement injectScript := by
  intro hoccurs
  rcases infix_of_mid (by decide) (by decide) hoccurs with hopen | hrest
  · revert hopen
    decide
  · rcases infix_of_mid (by decide) (by decide) hrest with hscript | hclose
    · exact h hscript
    · revert hclose
      decide

section Injected
variable {τ : Type} {zlib : Zlib} {injectScript : Text} {r : ArchivedHttpResponse τ}

theorem isText_of_isHtml (h : isHtml r = true) : r.isText = true := by
  unfold isHtml at h
  unfold ArchivedHttpResponse.isText
  cases hget : r.getHeader "content-type".toList with
  | none =>
    rw [hget] at h
    cases h
  | some contentType =>
    rw [hget] at h
    have hprefix : "text/".toList <+: contentType :=
      (show "text/".toList <+: "text/html".toList by decide).trans
        (List.isPrefixOf_iff_prefix.mp h)
    show ("text/".toList.isPrefixOf contentType || _) = true
    rw [List.isPrefixOf_iff_prefix.mpr hprefix, Bool.true_or]

theorem isHtml_setData {text : Text} : isHtml (setData zlib r text) = isHtml r := by
  unfold isHtml
  rw [getHeader_setData (by decide)]

/-- The text of a page that is not compressed. -/
theorem get_data_plain (hplain : r.isCompressed = false) (hhtml : isHtml r = true) :
    getDataAsText zlib r = .ok (some (chunkEditSeparator.intercalate r.responseData)) := by
  unfold getDataAsText
  rw [if_pos (isText_of_isHtml hhtml), hplain, if_neg Bool.false_ne_true]

theorem injectScripts_plain (hplain : r.isCompressed = false) (hhtml : isHtml r = true) :
    injectScripts zlib injectScript r =
      .ok (match injectedText injectScript (chunkEditSeparator.intercalate r.responseData) with
        | none => r
        | some text => setData zlib r text) := by
  unfold injectScripts injectedCopy
  rw [if_pos hhtml, get_data_plain hplain hhtml]
  simp only [bind, Except.bind, pure, Except.pure, Option.getD_some, Except.map]
  cases injectedText injectScript (chunkEditSeparator.intercalate r.responseData) <;> rfl

/-- A page that is not compressed stays, or one of its chunks gets the script; a second
injection changes nothing. -/
theorem injectScripts_chunk (hplain : r.isCompressed = false)
    (hchunks : ∀ chunk ∈ r.responseData, ¬ chunkEditSeparator <:+: chunk)
    (hscript : ¬ chunkEditSeparator <:+: injectScript) :
    ∃ r', injectScripts zlib injectScript r = .ok r' ∧
      injectScripts zlib injectScript r' = .ok r' ∧ r'.delays = r.delays ∧
      (r' = r ∨ ∃ before p q after, r.responseData = before ++ (p ++ q) :: after ∧
        r'.responseData = before ++ (p ++ (scriptElement injectScript ++ '>' :: q)) :: after) := by
  by_cases hhtml : isHtml r = true
  · have hinject := @injectScripts_plain τ zlib injectScript r hplain hhtml
    cases htext : injectedText injectScript (chunkEditSeparator.intercalate r.responseData) with
    | none =>
      rw [htext] at hinject
      exact ⟨r, hinject, hinject, rfl, Or.inl rfl⟩
    | some text =>
      rw [htext] at hinject
      have hinsert : insertScript injectScript
          (chunkEditSeparator.intercalate r.responseData) = some text := by
        unfold injectedText at htext
        split at htext
        · exact htext
        · cases htext
      have hne : r.responseData ≠ [] := by
        intro hnil
        rw [hnil] at htext
        cases htext
      obtain ⟨before, rest, hjoin, rfl⟩ := insertScript_eq hinsert
      have hfound := split_intercalate (by decide) borderless_chunk hne hchunks
      obtain ⟨first, p, q, after, hold, hnew⟩ := @split_insert _ _ chunkEditSeparator (by decide)
        before rest (scriptElement injectScript) '>' '>' (by decide) (by decide)
        (not_infix_scriptElement hscript)
      have hchunks' : (setData zlib r
          (before ++ '>' :: (scriptElement injectScript ++ '>' :: rest))).responseData =
          first ++ (p ++ (scriptElement injectScript ++ '>' :: q)) :: after := by
        rw [responseData_setData, editedChunks, hplain, if_neg Bool.false_ne_true, hnew]
      refine ⟨_, hinject, ?_, delays_setData, Or.inr ⟨first, p, q, after, ?_, hchunks'⟩⟩
      · have hplain' : (setData zlib r (before ++ '>' :: (scriptElement injectScript ++
            '>' :: rest))).isCompressed = false := isCompressed_setData.trans hplain
        have hhtml' : isHtml (setData zlib r (before ++ '>' :: (scriptElement injectScript ++
            '>' :: rest))) = true := isHtml_setData.trans hhtml
        rw [injectScripts_plain hplain' hhtml', hchunks', ← hnew, intercalate_split (by decide),
          injectedText, if_neg]
        rintro ⟨-, hnot⟩
        exact hnot (script_occurs injectScript before rest)
      · rw [← hold, ← hjoin, hfound]
  · have hinject : injectScripts zlib injectScript r = .ok r := by
      unfold injectScripts injectedCopy
      rw [if_neg hhtml]
      rfl
    exact ⟨r, hinject, hinject, rfl, Or.inl rfl⟩

theorem injectScripts_page :
    ∃ r', injectScripts sampleZlib "x".toList samplePage = .ok r' ∧
      injectScripts sampleZlib "x".toList r' = .ok r' ∧ r'.delays = samplePage.delays ∧
      (r' = samplePage ∨ ∃ before p q after, samplePage.responseData = before ++ (p ++ q) :: after ∧
        r'.responseData =
          before ++ (p ++ (scriptElement "x".toList ++ '>' :: q)) :: after) :=
  injectScripts_chunk (by decide) (by decide) (by decide)

end Injected

end StoneRidge.Replay
