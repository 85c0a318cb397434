import StoneRidge.Kit.Machine
import StoneRidge.Results.Recorder

/-!
# The page loader

The handlers of `srpl.js:89-280` for a browser that is not remote, as a machine driven by
the events of the browser. It starts where `plInit` has read the manifest and set the
first timer. A step is one event for a listener that is registered, or one pending timer
that fires, in any order. What a handler asks the browser is part of the event. A handler
that raises has done what comes before.
-/

set_option autoImplicit false

namespace StoneRidge.Pageloader
open StoneRidge.Results StoneRidge.Kit.Machine

structure LoaderSetting where
  /-- The URLs of the manifest. -/
  pageUrls : List String
  nonempty : pageUrls ≠ []
  timeout : ℤ
  useMozAfterPaint : Bool

inductive Callback where
  | plLoadPage
  | loadFail
  | waitForPainted
  deriving DecidableEq

structure Timer where
  id : ℤ
  callback : Callback
  /-- The page that was current when the timer was set. No handler looks at it. -/
  page : ℕ
  deriving DecidableEq

structure Loader where
  pageIndex : ℕ
  startTime : ℤ
  timeoutEvent : ℤ
  gPaintListener : Bool
  /-- `removeLastAddedListener` is a function. -/
  removable : Bool
  /-- `plLoadHandler` listens for load events of the browser. -/
  loadListener : Bool
  /-- `plPainted` listens for paint events of the window. -/
  paintListener : Bool
  timers : List Timer
  nextTimer : ℤ
  /-- `STONERIDGE_RESULTS` -/
  results : Recorded
  /-- What each call of `do_save_results` has written. -/
  saved : List Recorded
  quit : Bool

/-- What a handler finds. -/
structure Answers where
  isMozAfterPaintPending : Bool
  /-- There is a document element. -/
  documentElement : Bool
  now : ℤ

inductive Event where
  /-- A load event of the document of the browser, or of anything else in it. -/
  | load (topLevel : Bool)
  | mozAfterPaint (answers : Answers)
  /-- The timer at this place of those that are pending. -/
  | fire (i : ℕ) (answers : Answers)

namespace Loader

def setTimeout (s : Loader) (c : Callback) : Loader :=
  { s with
    timers := s.timers ++ [⟨s.nextTimer, c, s.pageIndex⟩]
    nextTimer := s.nextTimer + 1 }

def clearTimeout (s : Loader) (id : ℤ) : Loader :=
  { s with timers := s.timers.filter fun t => t.id ≠ id }

/-- The end of `plInit`. -/
def init : Loader :=
  { pageIndex := 0, startTime := 0, timeoutEvent := -1, gPaintListener := false,
    removable := false, loadListener := false, paintListener := false, timers := [],
    nextTimer := 1, results := none, saved := [], quit := false : Loader }.setTimeout .plLoadPage

end Loader

section Handlers
variable (cfg : LoaderSetting)

def removeLastAddedListener (s : Loader) : Loader :=
  if cfg.useMozAfterPaint then
    { s with loadListener := false, paintListener := false, gPaintListener := false }
  else { s with loadListener := false }

def plLoadPage (answers : Answers) (s : Loader) : Loader :=
  let s := if s.removable then removeLastAddedListener cfg s else s
  let s := { s with loadListener := true, removable := true }
  let s := if 0 < cfg.timeout then { s.setTimeout .loadFail with timeoutEvent := s.nextTimer } else s
  { s with startTime := answers.now }

/-- That writing the file may fail does not matter here: no exception leaves this. The
paint listener is removed from the browser, where it never was. -/
def plStop (force : Bool) (s : Loader) : Loader :=
  let s := if force then s else { s with pageIndex := 0, saved := s.saved ++ [s.results] }
  { s with loadListener := false, quit := true }

def loadFail (s : Loader) : Loader := plStop true s

def plNextPage (s : Loader) : Loader :=
  if s.pageIndex < cfg.pageUrls.length - 1 then
    { s with pageIndex := s.pageIndex + 1 }.setTimeout .plLoadPage
  else plStop false s

/-- Nothing where `do_write_result` raises. -/
def plRecordTime (start stop : ℤ) (s : Loader) : Option Loader :=
  (doWriteResult s.results ⟨cfg.pageUrls.getD s.pageIndex "undefined", start, stop⟩).map
    fun results => { s with results := results }

/-- `_loadHandler` -/
def loadHandler (answers : Answers) (s : Loader) : Loader :=
  let s := if 0 < cfg.timeout then s.clearTimeout s.timeoutEvent else s
  -- looking for a property of null raises
  if answers.documentElement then
    match plRecordTime cfg s.startTime answers.now s with
    | none => s
    | some s => plNextPage cfg s
  else s

def plLoadHandler (topLevel : Bool) (s : Loader) : Loader :=
  if topLevel then { s with loadListener := false }.setTimeout .waitForPainted else s

def waitForPainted (answers : Answers) (s : Loader) : Loader :=
  if !answers.isMozAfterPaintPending || !cfg.useMozAfterPaint then loadHandler cfg answers s
  else
    let s := if s.gPaintListener then s else { s with paintListener := true }
    { s with gPaintListener := true }

def plPainted (answers : Answers) (s : Loader) : Loader :=
  loadHandler cfg answers { s with paintListener := false, gPaintListener := false }

def call (c : Callback) (answers : Answers) (s : Loader) : Loader :=
  match c with
  | .plLoadPage => plLoadPage cfg answers s
  | .loadFail => loadFail s
  | .waitForPainted => waitForPainted cfg answers s

/-- Once the application quits, no event is delivered. -/
def step (e : Event) (s : Loader) : Option Loader :=
  if s.quit then none
  else
    match e with
    | .load topLevel => if s.loadListener then some (plLoadHandler topLevel s) else none
    | .mozAfterPaint answers => if s.paintListener then some (plPainted cfg answers s) else none
    | .fire i answers =>
      s.timers[i]?.map fun t => call cfg t.callback answers { s with timers := s.timers.eraseIdx i }

variable {cfg} in
theorem step_cases {e : Event} {s s' : Loader} (h : step cfg e s = some s') :
    s.quit = false ∧
      ((∃ topLevel, e = .load topLevel ∧ s.loadListener = true ∧ s' = plLoadHandler topLevel s) ∨
        (∃ answers, e = .mozAfterPaint answers ∧ s.paintListener = true ∧
          s' = plPainted cfg answers s) ∨
        (∃ i answers t, e = .fire i answers ∧ s.timers[i]? = some t ∧
          s' = call cfg t.callback answers { s with timers := s.timers.eraseIdx i })) := by
  cases hquit : s.quit with
  | true => simp [step, hquit] at h
  | false =>
    refine ⟨rfl, ?_⟩
    cases e with
    | load topLevel =>
      cases hload : s.loadListener with
      | true => simp_all [step]
      | false => simp [step, hquit, hload] at h
    | mozAfterPaint answers =>
      cases hpaint : s.paintListener with
      | true => simp_all [step]
      | false => simp [step, hquit, hpaint] at h
    | fire i answers =>
      simp only [step, hquit, Bool.false_eq_true, if_false] at h
      obtain ⟨t, ht, rfl⟩ := Option.map_eq_some_iff.mp h
      exact .inr (.inr ⟨i, answers, t, rfl, ht, rfl⟩)

variable {cfg} in
theorem step_fire {i : ℕ} {answers : Answers} {t : Timer} {s : Loader} (hquit : s.quit = false)
    (ht : s.timers[i]? = some t) : step cfg (.fire i answers) s =
      some (call cfg t.callback answers { s with timers := s.timers.eraseIdx i }) := by
  rw [step, if_neg (by rw [hquit]; nofun)]
  simp only [ht, Option.map_some]

end Handlers

end StoneRidge.Pageloader
