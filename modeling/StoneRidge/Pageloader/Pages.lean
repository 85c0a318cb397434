import Mathlib.Data.List.GetD
import StoneRidge.Pageloader.Loader

/-!
# One record for each page

What any order of events keeps true of the page loader: between two pages exactly one
thing is under way, and the timers that are pending are those of its phase.
-/

set_option autoImplicit false

namespace StoneRidge.Pageloader
open StoneRidge.Results StoneRidge.Kit.Machine

section Phases
variable (cfg : LoaderSetting) (s : Loader)

/-- The timeout of the current page. -/
def pageTimeout : List Timer :=
  if 0 < cfg.timeout then [⟨s.timeoutEvent, .loadFail, s.pageIndex⟩] else []

/-- How far the loader is with the current page. -/
inductive Phase : Prop where
  | starting (id : ℤ) (page : ℕ) (htimers : s.timers = [⟨id, .plLoadPage, page⟩])
      (hload : s.loadListener = false) (hpaint : s.paintListener = false)
  | loading (htimers : s.timers = pageTimeout cfg s) (hpaint : s.paintListener = false)
  | loaded (id : ℤ) (page : ℕ) (htimers : s.timers = pageTimeout cfg s ++ [⟨id, .waitForPainted, page⟩])
      (hload : s.loadListener = false) (hpaint : s.paintListener = false)
  | painting (htimers : s.timers = pageTimeout cfg s) (hload : s.loadListener = false)
  /-- A handler has raised after it had cleared the timeout. -/
  | stuck (htimers : s.timers = []) (hload : s.loadListener = false)
      (hpaint : s.paintListener = false)

/-- The calls have recorded the first pages. -/
structure Recording (calls : List Call) : Prop where
  recorded : record calls = some s.results
  keys : calls.map Call.key = cfg.pageUrls.take calls.length

/-- The page after those that are recorded is under way. -/
structure UnderWay (calls : List Call) : Prop extends Recording cfg s calls where
  index : s.pageIndex = calls.length
  page : calls.length < cfg.pageUrls.length
  running : s.quit = false
  unsaved : s.saved = []

structure Stopped (calls : List Call) : Prop extends Recording cfg s calls where
  quits : s.quit = true
  saved : s.saved = [] ∨ (s.saved = [s.results] ∧ calls.length = cfg.pageUrls.length)

def Inv : Prop := ∃ calls, (UnderWay cfg s calls ∧ Phase cfg s) ∨ Stopped cfg s calls

/-- Right after a page is recorded: the next one is about to be loaded, or there is none. -/
def Next (calls : List Call) : Prop :=
  (UnderWay cfg s calls ∧ (∃ id page, s.timers = [⟨id, .plLoadPage, page⟩]) ∧
      s.loadListener = false ∧ s.paintListener = false) ∨
    (Stopped cfg s calls ∧ s.saved = [s.results])

end Phases

section Steps
variable {cfg : LoaderSetting} {s s' : Loader} {answers : Answers} {calls : List Call}

theorem mem_pageTimeout {t : Timer} (h : t ∈ pageTimeout cfg s) :
    t.callback = .loadFail ∧ t.page = s.pageIndex := by
  unfold pageTimeout at h
  split at h
  · rw [List.mem_singleton.mp h]
    exact ⟨rfl, rfl⟩
  · cases h

/-- In `_loadHandler` no timer is left. -/
theorem cleared (h : s.timers = pageTimeout cfg s) :
    (if 0 < cfg.timeout then s.clearTimeout s.timeoutEvent else s) = { s with timers := [] } := by
  unfold pageTimeout at h
  split
  next hpos =>
    rw [if_pos hpos] at h
    simp only [Loader.clearTimeout, h]
    simp
  next hpos =>
    rw [if_neg hpos] at h
    rw [← h]

/-- Recording a page adds its call. -/
theorem Recording.snoc (h : Recording cfg s calls) (hn : calls.length < cfg.pageUrls.length)
    {c : Call} {results : Recorded} (hkey : c.key = cfg.pageUrls.getD calls.length "undefined")
    (hc : doWriteResult s.results c = some results) (hs : s'.results = results) :
    Recording cfg s' (calls ++ [c]) where
  recorded := by rw [record_append, h.recorded, Option.bind_some, hc, hs]
  keys := by
    rw [List.map_append, h.keys, List.length_append, List.length_singleton,
      List.take_succ_eq_append_getElem hn, List.map_singleton, hkey, List.getD_eq_getElem _ _ hn]

theorem Next.inv (h : Next cfg s calls) : Inv cfg s := by
  rcases h with ⟨hway, ⟨id, page, htimers⟩, hload, hpaint⟩ | ⟨hstopped, -⟩
  · exact ⟨calls, .inl ⟨hway, .starting id page htimers hload hpaint⟩⟩
  · exact ⟨calls, .inr hstopped⟩

theorem Next.recording (h : Next cfg s calls) : Recording cfg s calls := by
  rcases h with ⟨hway, -⟩ | ⟨hstopped, -⟩
  · exact hway.toRecording
  · exact hstopped.toRecording

theorem plNextPage_next (h : UnderWay cfg s calls) (htimers : s.timers = [])
    (hload : s.loadListener = false) (hpaint : s.paintListener = false) {c : Call}
    {results : Recorded} (hkey : c.key = cfg.pageUrls.getD calls.length "undefined")
    (hc : doWriteResult s.results c = some results) :
    Next cfg (plNextPage cfg { s with results := results }) (calls ++ [c]) := by
  have hlen : (calls ++ [c]).length = calls.length + 1 := by
    rw [List.length_append, List.length_singleton]
  have hrec : ∀ s' : Loader, s'.results = results → Recording cfg s' (calls ++ [c]) :=
    fun s' => h.toRecording.snoc h.page hkey hc
  have hindex := h.index
  have hpage := h.page
  unfold plNextPage
  split
  next hlt =>
    dsimp only at hlt
    refine .inl ⟨⟨hrec _ rfl, ?_, by omega, h.running, h.unsaved⟩,
      ⟨s.nextTimer, s.pageIndex + 1, ?_⟩, hload, hpaint⟩
    · simp only [Loader.setTimeout, hlen, hindex]
    · simp only [Loader.setTimeout, htimers, List.nil_append]
  next hlt =>
    dsimp only at hlt
    have hsaved : (plStop false { s with results := results }).saved = [results] := by
      simp only [plStop, h.unsaved, List.nil_append, Bool.false_eq_true, if_false]
    exact .inr ⟨⟨hrec _ rfl, rfl, .inr ⟨hsaved, by omega⟩⟩, hsaved⟩

theorem UnderWay.congr (h : UnderWay cfg s calls) (hresults : s'.results = s.results)
    (hindex : s'.pageIndex = s.pageIndex) (hquit : s'.quit = s.quit) (hsaved : s'.saved = s.saved) :
    UnderWay cfg s' calls where
  recorded := by rw [hresults, h.recorded]
  keys := h.keys
  index := by rw [hindex, h.index]
  page := h.page
  running := by rw [hquit, h.running]
  unsaved := by rw [hsaved, h.unsaved]

theorem loadHandler_inv (h : UnderWay cfg s calls) (htimers : s.timers = pageTimeout cfg s)
    (hload : s.loadListener = false) (hpaint : s.paintListener = false) :
    Inv cfg (loadHandler cfg answers s) := by
  have hnow : UnderWay cfg { s with timers := [] } calls := h.congr rfl rfl rfl rfl
  have hstuck : Inv cfg { s with timers := [] } := ⟨calls, .inl ⟨hnow, .stuck rfl hload hpaint⟩⟩
  unfold loadHandler
  rw [cleared htimers]
  split
  · unfold plRecordTime
    cases hc : doWriteResult s.results
        ⟨cfg.pageUrls.getD s.pageIndex "undefined", s.startTime, answers.now⟩ with
    | none =>
      simp only [hc, Option.map_none]
      exact hstuck
    | some results =>
      simp only [hc, Option.map_some]
      refine (plNextPage_next hnow rfl hload hpaint ?_ hc).inv
      rw [h.index]
  · exact hstuck

theorem loadFail_inv (h : UnderWay cfg s calls) : Inv cfg (loadFail s) :=
  ⟨calls, .inr ⟨⟨h.recorded, h.keys⟩, rfl, .inl h.unsaved⟩⟩

/-- `plLoadPage` sets the timeout of the page and listens for its load event. -/
structure Requested (cfg : LoaderSetting) (s s' : Loader) : Prop where
  results : s'.results = s.results
  pageIndex : s'.pageIndex = s.pageIndex
  quit : s'.quit = s.quit
  saved : s'.saved = s.saved
  timers : s'.timers = s.timers ++ pageTimeout cfg s'
  loadListener : s'.loadListener = true
  paintListener : s.paintListener = false → s'.paintListener = false

theorem plLoadPage_requested (answers : Answers) (s : Loader) :
    Requested cfg s (plLoadPage cfg answers s) := by
  unfold plLoadPage removeLastAddedListener
  by_cases ht : 0 < cfg.timeout <;> cases hr : s.removable <;> cases hm : cfg.useMozAfterPaint <;>
    constructor <;> simp [ht, pageTimeout, Loader.setTimeout]

theorem plLoadPage_inv (h : UnderWay cfg s calls) (htimers : s.timers = [])
    (hpaint : s.paintListener = false) : Inv cfg (plLoadPage cfg answers s) := by
  have hreq := @plLoadPage_requested cfg answers s
  refine ⟨calls, .inl ⟨h.congr hreq.results hreq.pageIndex hreq.quit hreq.saved, .loading ?_ ?_⟩⟩
  · rw [hreq.timers, htimers, List.nil_append]
  · exact hreq.paintListener hpaint

theorem waitForPainted_inv (h : UnderWay cfg s calls) (htimers : s.timers = pageTimeout cfg s)
    (hload : s.loadListener = false) (hpaint : s.paintListener = false) :
    Inv cfg (waitForPainted cfg answers s) := by
  unfold waitForPainted
  split
  · exact loadHandler_inv h htimers hload hpaint
  · cases s.gPaintListener with
    | true => exact ⟨calls, .inl ⟨h.congr rfl rfl rfl rfl, .painting htimers hload⟩⟩
    | false => exact ⟨calls, .inl ⟨h.congr rfl rfl rfl rfl, .painting htimers hload⟩⟩

theorem getElem?_snoc {α : Type} {l : List α} {x t : α} {i : ℕ} (h : (l ++ [x])[i]? = some t) :
    t ∈ l ∨ (t = x ∧ (l ++ [x]).eraseIdx i = l) := by
  rcases lt_or_ge i l.length with hi | hi
  · rw [List.getElem?_append_left hi] at h
    exact .inl (List.mem_of_getElem? h)
  · rw [List.getElem?_append_right hi, List.getElem?_singleton] at h
    split at h
    next heq =>
      rw [List.eraseIdx_append_of_length_le hi, heq]
      exact .inr ⟨(Option.some.inj h).symm, List.append_nil l⟩
    next => cases h

/-- A timer that fires is the timeout of the page or the timer of the phase. -/
theorem fire_inv {i : ℕ} {t : Timer} (h : UnderWay cfg s calls) (hphase : Phase cfg s)
    (ht : s.timers[i]? = some t) :
    Inv cfg (call cfg t.callback answers { s with timers := s.timers.eraseIdx i }) := by
  have hnow : ∀ ts, UnderWay cfg { s with timers := ts } calls := fun _ => h.congr rfl rfl rfl rfl
  have htimeout : t ∈ pageTimeout cfg s →
      Inv cfg (call cfg t.callback answers { s with timers := s.timers.eraseIdx i }) := by
    intro hmem
    rw [(mem_pageTimeout hmem).1]
    exact loadFail_inv (hnow _)
  cases hphase with
  | starting id page htimers hload hpaint =>
    rw [htimers] at ht ⊢
    rcases getElem?_snoc (l := []) ht with hmem | ⟨rfl, herase⟩
    · cases hmem
    · rw [List.nil_append] at herase
      rw [herase]
      exact plLoadPage_inv (hnow []) rfl hpaint
  | loading htimers hpaint => exact htimeout (htimers ▸ List.mem_of_getElem? ht)
  | loaded id page htimers hload hpaint =>
    rcases getElem?_snoc (htimers ▸ ht) with hmem | ⟨rfl, herase⟩
    · exact htimeout hmem
    · rw [htimers, herase]
      exact waitForPainted_inv (hnow _) rfl hload hpaint
  | painting htimers hload => exact htimeout (htimers ▸ List.mem_of_getElem? ht)
  | stuck htimers hload hpaint =>
    rw [htimers] at ht
    cases ht

theorem load_inv {topLevel : Bool} (h : UnderWay cfg s calls) (hphase : Phase cfg s)
    (hlistens : s.loadListener = true) : Inv cfg (plLoadHandler topLevel s) := by
  cases topLevel with
  | false => exact ⟨calls, .inl ⟨h, hphase⟩⟩
  | true =>
    cases hphase with
    | loading htimers hpaint =>
      refine ⟨calls, .inl ⟨h.congr rfl rfl rfl rfl, .loaded s.nextTimer s.pageIndex ?_ rfl hpaint⟩⟩
      simp only [plLoadHandler, Loader.setTimeout, if_true, htimers]
      rfl
    | starting id page htimers hload | loaded id page htimers hload | painting htimers hload
    | stuck htimers hload =>
      rw [hload] at hlistens
      cases hlistens

theorem painted_inv (h : UnderWay cfg s calls) (hphase : Phase cfg s)
    (hlistens : s.paintListener = true) : Inv cfg (plPainted cfg answers s) := by
  cases hphase with
  | painting htimers hload => exact loadHandler_inv (h.congr rfl rfl rfl rfl) htimers hload rfl
  | starting id page htimers hload hpaint | loaded id page htimers hload hpaint
  | loading htimers hpaint | stuck htimers hload hpaint =>
    rw [hpaint] at hlistens
    cases hlistens

theorem Inv.step {e : Event} (hinv : Inv cfg s) (h : step cfg e s = some s') : Inv cfg s' := by
  obtain ⟨hquit, hcases⟩ := step_cases h
  obtain ⟨calls, ⟨hway, hphase⟩ | hstopped⟩ := hinv
  · rcases hcases with ⟨topLevel, -, hlistens, rfl⟩ | ⟨answers, -, hlistens, rfl⟩ |
      ⟨i, answers, t, -, ht, rfl⟩
    · exact load_inv hway hphase hlistens
    · exact painted_inv hway hphase hlistens
    · exact fire_inv hway hphase ht
  · rw [hstopped.quits] at hquit
    cases hquit

theorem Inv.init : Inv cfg Loader.init :=
  ⟨[], .inl ⟨⟨⟨rfl, rfl⟩, rfl, List.length_pos_of_ne_nil cfg.nonempty, rfl, rfl⟩,
    .starting 1 0 rfl rfl rfl⟩⟩

theorem Inv.run {es : List Event} (h : Kit.Machine.run (Pageloader.step cfg) es Loader.init = some s) :
    Inv cfg s := by
  refine @run_invariant _ _ _ _ _ _ (Inv cfg) (fun _ => True) ?_ (fun _ _ => trivial) Inv.init h
  intro e s s' _ hinv hstep
  exact hinv.step hstep

end Steps

/-! ### The results of the first pages -/

/-- The results have the values of the calls, each under its own key. -/
structure Exactly (calls : List Call) (own : Properties) : Prop where
  nodup : (own.map Prod.fst).Nodup
  entry : ∀ k vs, (k, vs) ∈ own → vs = values calls k
  keys : ∀ k, k ∈ own.map Prod.fst ↔ ∃ c ∈ calls, c.key = k

/-- The results are one for each of the first `k` pages, they are written at most once and
only for all pages, and the timeout of none of these pages can still fire. -/
structure Sound (cfg : LoaderSetting) (s : Loader) (k : ℕ) : Prop where
  pages : k ≤ cfg.pageUrls.length
  results : ∃ calls : List Call, calls.map Call.key = cfg.pageUrls.take k ∧
    Exactly calls (s.results.getD [])
  saved : s.saved = [] ∨ (s.saved = [s.results] ∧ k = cfg.pageUrls.length)
  timeouts : s.quit = false → ∀ t ∈ s.timers, t.callback = .loadFail → k ≤ t.page

/-- A page with the URL `__proto__` comes after one that makes recording impossible. -/
def Storable (urls : List String) : Prop :=
  ∀ j : ℕ, urls[j]? = some "__proto__" → ∃ i : ℕ, i < j ∧ urls[i]? = some "hasOwnProperty"

section Soundness
variable {cfg : LoaderSetting} {s : Loader} {calls : List Call}

theorem Recording.length_le (h : Recording cfg s calls) : calls.length ≤ cfg.pageUrls.length := by
  have hlen := congrArg List.length h.keys
  rw [List.length_map, List.length_take] at hlen
  omega

theorem Recording.url (h : Recording cfg s calls) {i : ℕ} (hi : i < calls.length) :
    cfg.pageUrls[i]? = some calls[i].key := by
  have hkey : (calls.map Call.key)[i]? = some calls[i].key := by
    rw [List.getElem?_map, List.getElem?_eq_getElem hi, Option.map_some]
  rwa [h.keys, List.getElem?_take_of_lt hi] at hkey

theorem Recording.holds (h : Recording cfg s calls) :
    (∀ c ∈ calls.dropLast, c.key ≠ "hasOwnProperty") ∧ Holds calls (s.results.getD []) := by
  rcases record_spec calls with ⟨hnone, -⟩ | ⟨hall, results, hsome, -, hholds⟩
  · rw [h.recorded] at hnone
    cases hnone
  · rw [h.recorded] at hsome
    cases hsome
    exact ⟨hall, hholds⟩

/-- Without a page `__proto__` nothing that is recorded is lost. -/
theorem Recording.exactly (h : Recording cfg s calls) (hstore : Storable cfg.pageUrls) :
    Exactly calls (s.results.getD []) := by
  obtain ⟨hall, hholds⟩ := h.holds
  refine ⟨hholds.nodup, hholds.entry, fun k => ?_⟩
  rw [hholds.keys, and_iff_right_iff_imp]
  rintro ⟨c, hc, hkey⟩ rfl
  obtain ⟨j, hj, rfl⟩ := List.getElem_of_mem hc
  obtain ⟨i, hij, hi⟩ := hstore j (by rw [h.url hj, hkey])
  rw [h.url (hij.trans hj)] at hi
  have hmem : calls[i] ∈ calls.dropLast := by
    rw [List.mem_iff_getElem?]
    refine ⟨i, ?_⟩
    rw [List.getElem?_dropLast, if_pos (by omega), List.getElem?_eq_getElem]
  exact hall _ hmem (Option.some.inj hi)

theorem Phase.timeout_page (h : Phase cfg s) {t : Timer} (ht : t ∈ s.timers)
    (hc : t.callback = .loadFail) : t.page = s.pageIndex := by
  have hpage : t ∈ pageTimeout cfg s → t.page = s.pageIndex := fun hmem => (mem_pageTimeout hmem).2
  cases h with
  | starting id page htimers =>
    rw [htimers, List.mem_singleton] at ht
    subst ht
    cases hc
  | loading htimers => exact hpage (htimers ▸ ht)
  | loaded id page htimers =>
    rw [htimers, List.mem_append, List.mem_singleton] at ht
    rcases ht with ht | rfl
    · exact hpage ht
    · cases hc
  | painting htimers => exact hpage (htimers ▸ ht)
  | stuck htimers =>
    rw [htimers] at ht
    cases ht

theorem Inv.sound (h : Inv cfg s) (hstore : Storable cfg.pageUrls) : ∃ k, Sound cfg s k := by
  obtain ⟨calls, ⟨hway, hphase⟩ | hstopped⟩ := h
  · refine ⟨calls.length, hway.page.le, ⟨calls, hway.keys, hway.exactly hstore⟩, .inl hway.unsaved, ?_⟩
    intro _ t ht hc
    rw [hphase.timeout_page ht hc, hway.index]
  · refine ⟨calls.length, hstopped.length_le, ⟨calls, hstopped.keys, hstopped.exactly hstore⟩,
      hstopped.saved, ?_⟩
    intro hquit
    rw [hstopped.quits] at hquit
    cases hquit

/-- A page `__proto__` is not among those of a state that is sound. -/
theorem Recording.proto_not_lt (h : Recording cfg s calls) {j k : ℕ}
    (hj : cfg.pageUrls[j]? = some "__proto__") (hs : Sound cfg s k) : ¬ j < k := by
  intro hjk
  obtain ⟨calls', hkeys, hexact⟩ := hs.results
  have hmem : "__proto__" ∈ calls'.map Call.key := by
    rw [hkeys]
    exact List.mem_of_getElem? (by rw [List.getElem?_take_of_lt hjk, hj])
  have hown := (hexact.keys _).mpr (List.mem_map.mp hmem)
  exact ((h.holds.2.keys _).mp hown).1 rfl

/-- If the method is lost, a state that is sound has recorded a page that takes it. -/
theorem Recording.page_of_method (h : Recording cfg s calls) {k : ℕ}
    (hmethod : ∃ i, i < calls.length ∧ cfg.pageUrls[i]? = some "hasOwnProperty")
    (hs : Sound cfg s k) : ∃ i, i < k ∧ cfg.pageUrls[i]? = some "hasOwnProperty" := by
  obtain ⟨calls', hkeys, hexact⟩ := hs.results
  obtain ⟨i, hi, heq⟩ := hmethod
  rw [h.url hi] at heq
  have hown := (h.holds.2.keys "hasOwnProperty").mpr
    ⟨by decide, calls[i], List.getElem_mem hi, Option.some.inj heq⟩
  have hmem := List.mem_map.mpr ((hexact.keys _).mp hown)
  rw [hkeys] at hmem
  obtain ⟨n, hn⟩ := List.mem_iff_getElem?.mp hmem
  have hnk : n < k := by
    by_contra hge
    rw [List.getElem?_take, if_neg hge] at hn
    cases hn
  rw [List.getElem?_take_of_lt hnk] at hn
  exact ⟨n, hnk, hn⟩

end Soundness

/-! ### Runs that record -/

section Runs
variable {cfg : LoaderSetting} {s : Loader} {calls : List Call}

/-- Nothing is left to paint, and there is a document. -/
def complete : Answers := ⟨false, true, 0⟩

theorem loadHandler_next (h : UnderWay cfg s calls) (htimers : s.timers = pageTimeout cfg s)
    (hload : s.loadListener = false) (hpaint : s.paintListener = false)
    (hno : ∀ d ∈ calls, d.key ≠ "hasOwnProperty") :
    ∃ c, Next cfg (loadHandler cfg complete s) (calls ++ [c]) := by
  set c : Call := ⟨cfg.pageUrls.getD s.pageIndex "undefined", s.startTime, complete.now⟩ with hc
  refine ⟨c, ?_⟩
  unfold loadHandler plRecordTime
  have hdoc : complete.documentElement = true := rfl
  rw [cleared htimers]
  simp only [hdoc, if_true]
  rcases @doWriteResult_holds calls c s.results h.holds.2 with ⟨-, d, hd, hkey⟩ | ⟨-, own, hown, -⟩
  · exact absurd hkey (hno d hd)
  · simp only [← hc, hown, Option.map_some]
    have hnow : UnderWay cfg { s with timers := [] } calls := h.congr rfl rfl rfl rfl
    refine plNextPage_next hnow rfl hload hpaint ?_ hown
    rw [hc, h.index]

theorem record_page {id : ℤ} {page : ℕ} (h : UnderWay cfg s calls)
    (htimers : s.timers = [⟨id, .plLoadPage, page⟩]) (hpaint : s.paintListener = false)
    (hno : ∀ d ∈ calls, d.key ≠ "hasOwnProperty") :
    ∃ es s' c, run (step cfg) es s = some s' ∧ Next cfg s' (calls ++ [c]) := by
  -- the timer of `plLoadPage`
  set s₁ := plLoadPage cfg complete { s with timers := [] } with hs₁
  have hreq : Requested cfg { s with timers := [] } s₁ := plLoadPage_requested complete _
  have hway₁ : UnderWay cfg s₁ calls :=
    h.congr hreq.results hreq.pageIndex hreq.quit hreq.saved
  have hfirst : step cfg (.fire 0 complete) s = some s₁ := by
    simp [step, h.running, htimers, call, hs₁]
  -- the load event
  have hload : step cfg (.load true) s₁ = some (plLoadHandler true s₁) := by
    simp [step, hway₁.running, hreq.loadListener]
  -- the timer of `waitForPainted`
  set s₃ := { plLoadHandler true s₁ with timers := pageTimeout cfg s₁ } with hs₃
  obtain ⟨c, hnext⟩ := @loadHandler_next cfg s₃ calls (hway₁.congr rfl rfl rfl rfl) rfl rfl
    (hreq.paintListener hpaint) hno
  have htimers₂ : (plLoadHandler true s₁).timers =
      pageTimeout cfg s₁ ++ [⟨s₁.nextTimer, .waitForPainted, s₁.pageIndex⟩] := by
    have ht := hreq.timers
    simp only [List.nil_append] at ht
    simp only [plLoadHandler, if_true, Loader.setTimeout, ht]
  have hlast : step cfg (.fire (pageTimeout cfg s₁).length complete) (plLoadHandler true s₁) =
      some (loadHandler cfg complete s₃) := by
    have hpending : (plLoadHandler true s₁).timers[(pageTimeout cfg s₁).length]? =
        some ⟨s₁.nextTimer, .waitForPainted, s₁.pageIndex⟩ := by
      rw [htimers₂]
      simp
    have herase : (plLoadHandler true s₁).timers.eraseIdx (pageTimeout cfg s₁).length =
        pageTimeout cfg s₁ := by
      rw [htimers₂, List.eraseIdx_append_of_length_le le_rfl]
      simp
    have hquit : (plLoadHandler true s₁).quit = false := hway₁.running
    rw [step_fire hquit hpending, herase]
    rfl
  refine ⟨[.fire 0 complete, .load true, .fire (pageTimeout cfg s₁).length complete],
    loadHandler cfg complete s₃, c, ?_, hnext⟩
  simp only [run, hfirst, hload, hlast, Option.bind_some]

theorem next_init : Next cfg Loader.init [] :=
  .inl ⟨⟨⟨rfl, rfl⟩, rfl, List.length_pos_of_ne_nil cfg.nonempty, rfl, rfl⟩, ⟨1, 0, rfl⟩, rfl, rfl⟩

/-- Some run records the first `m` pages, unless the method is lost before the last of them. -/
theorem run_pages {m : ℕ} (hm : m ≤ cfg.pageUrls.length)
    (hno : ∀ i, i + 1 < m → cfg.pageUrls[i]? ≠ some "hasOwnProperty") :
    ∃ es s calls, run (step cfg) es Loader.init = some s ∧ Next cfg s calls ∧ calls.length = m := by
  induction m with
  | zero => exact ⟨[], Loader.init, [], rfl, next_init, rfl⟩
  | succ m ih =>
    obtain ⟨es, s, calls, hrun, hnext, hlen⟩ := ih (by omega) fun i hi => hno i (by omega)
    rcases hnext with ⟨hway, ⟨id, page, htimers⟩, -, hpaint⟩ | ⟨hstopped, hsaved⟩
    · have hkeys : ∀ d ∈ calls, d.key ≠ "hasOwnProperty" := by
        intro d hd hkey
        obtain ⟨i, hi, rfl⟩ := List.getElem_of_mem hd
        exact hno i (by omega) (by rw [hway.url hi, hkey])
      obtain ⟨es', s', c, hrun', hnext'⟩ := record_page hway htimers hpaint hkeys
      refine ⟨es ++ es', s', calls ++ [c], ?_, hnext', ?_⟩
      · rw [run_append hrun, hrun']
      · rw [List.length_append, hlen, List.length_singleton]
    · rcases hstopped.saved with hnil | ⟨-, hall⟩
      · rw [hnil] at hsaved
        cases hsaved
      · omega

/-- If every run is sound, the pages can be stored. -/
theorem storable_of_sound
    (h : ∀ es s, run (step cfg) es Loader.init = some s → ∃ k, Sound cfg s k) :
    Storable cfg.pageUrls := by
  intro j hj
  by_contra hbefore
  have hj' : j < cfg.pageUrls.length := (List.getElem?_eq_some_iff.mp hj).1
  have hproto : ∀ {i : ℕ}, cfg.pageUrls[i]? = some "hasOwnProperty" → j < i := by
    intro i hi
    rcases lt_trichotomy i j with hlt | rfl | hgt
    · exact absurd ⟨i, hlt, hi⟩ hbefore
    · rw [hj] at hi
      exact absurd hi (by decide)
    · exact hgt
  by_cases hex : ∃ i, i + 1 < cfg.pageUrls.length ∧ cfg.pageUrls[i]? = some "hasOwnProperty"
  · -- the run goes on until the method is lost
    classical
    obtain ⟨hi, hmethod⟩ := Nat.find_spec hex
    have hmin : ∀ i, i < Nat.find hex → cfg.pageUrls[i]? ≠ some "hasOwnProperty" :=
      fun i hlt heq => Nat.find_min hex hlt ⟨by omega, heq⟩
    obtain ⟨es, s, calls, hrun, hnext, hlen⟩ :=
      @run_pages cfg (Nat.find hex + 1) (by omega) fun i hlt => hmin i (by omega)
    obtain ⟨k, hsound⟩ := h es s hrun
    have hrec := hnext.recording
    obtain ⟨i, hik, hi⟩ := hrec.page_of_method ⟨Nat.find hex, by omega, hmethod⟩ hsound
    exact hrec.proto_not_lt hj hsound ((hproto hi).trans hik)
  · -- every page is recorded, and the file is written
    obtain ⟨es, s, calls, hrun, hnext, hlen⟩ :=
      @run_pages cfg cfg.pageUrls.length le_rfl fun i hlt heq => hex ⟨i, hlt, heq⟩
    obtain ⟨k, hsound⟩ := h es s hrun
    rcases hnext with ⟨hway, -⟩ | ⟨hstopped, hsaved⟩
    · have hpage := hway.page
      omega
    · rcases hsound.saved with hnil | ⟨-, hk⟩
      · rw [hnil] at hsaved
        cases hsaved
      · exact hstopped.proto_not_lt hj hsound (by omega)

end Runs

/-- Every state of every run is sound exactly if no page's results are assigned to the
prototype of the object. -/
theorem loader_sound_iff (cfg : LoaderSetting) :
    (∀ es s, run (step cfg) es Loader.init = some s → ∃ k, Sound cfg s k) ↔
      Storable cfg.pageUrls :=
  ⟨storable_of_sound, fun hstore _ _ hrun => (Inv.run hrun).sound hstore⟩

/-- The manifest has the one URL `__proto__`. -/
def protoSetting : LoaderSetting := ⟨["__proto__"], by decide, -1, false⟩

/-- When the file is written, the page is not among the results. -/
theorem proto_page_lost : ∃ s,
    run (step protoSetting) [.fire 0 complete, .load true, .fire 0 complete] Loader.init = some s ∧
      s.saved = [some []] ∧ ¬ ∃ k, Sound protoSetting s k := by
  refine ⟨_, rfl, by decide, ?_⟩
  rintro ⟨k, hsound⟩
  rcases hsound.saved with hnil | ⟨-, rfl⟩
  · cases hnil
  · obtain ⟨calls, hkeys, hexact⟩ := hsound.results
    have hmem : "__proto__" ∈ calls.map Call.key := by
      rw [hkeys]
      decide
    have hown := (hexact.keys "__proto__").mpr (List.mem_map.mp hmem)
    cases hown

end StoneRidge.Pageloader
