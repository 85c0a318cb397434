import StoneRidge.Replay.Server

/-!
# What is archived is replayed

An archived response is the answer to its request in either mode, in any order of events,
until a command to record. In replay mode with nothing in progress every answer is a function
of the archive.
-/

set_option autoImplicit false

namespace StoneRidge.Replay
open StoneRidge.Kit StoneRidge.Kit.Machine

variable {τ : Type}

/-! ### Lengths do not matter -/

section Lengths
variable {setup : Setup} {isRecordMode : Bool} {x y : ArchivedHttpResponse τ}

theorem isHtml_complete : isHtml (complete x) = isHtml x := by
  unfold isHtml
  rw [getHeader_complete (by decide)]

theorem get_data_complete (zlib : Zlib) :
    getDataAsText zlib (complete x) = getDataAsText zlib x := by
  have htext : (complete x).isText = x.isText := by
    unfold ArchivedHttpResponse.isText
    rw [getHeader_complete (by decide)]
  have hcompressed : (complete x).isCompressed = x.isCompressed := by
    unfold ArchivedHttpResponse.isCompressed
    rw [getHeader_complete (by decide)]
  have hgzip : (complete x).isGzip = x.isGzip := by
    unfold ArchivedHttpResponse.isGzip
    rw [getHeader_complete (by decide)]
  unfold getDataAsText
  rw [htext, hcompressed, hgzip, responseData_complete]

theorem copyOf_complete : copyOf setup isRecordMode (complete x) = copyOf setup isRecordMode x := by
  have hset : setData setup.zlib (complete x) = setData setup.zlib x :=
    funext fun text => setData_complete setup.zlib text
  unfold copyOf injectedCopy
  rw [isHtml_complete, get_data_complete, hset]

theorem sent_complete : sent setup isRecordMode (complete x) = sent setup isRecordMode x := by
  unfold sent
  rw [copyOf_complete]
  cases copyOf setup isRecordMode x with
  | error failure => rfl
  | ok copy =>
    cases copy with
    | none => exact congrArg some complete_complete
    | some copy => rfl

theorem sent_congr (h : complete x = complete y) :
    sent setup isRecordMode x = sent setup isRecordMode y := by
  rw [← sent_complete, h, sent_complete]

/-- A compressed page whose chunks cannot be uncompressed. -/
def Undecodable (zlib : Zlib) (r : ArchivedHttpResponse τ) : Prop :=
  isHtml r = true ∧ r.isCompressed = true ∧ zlib.uncompressChunks r.responseData r.isGzip = none

instance decidableUndecodable (zlib : Zlib) (r : ArchivedHttpResponse τ) :
    Decidable (Undecodable zlib r) :=
  inferInstanceAs (Decidable (_ ∧ _))

theorem sent_eq_none_iff : sent setup false x = none ↔ Undecodable setup.zlib x := by
  unfold sent copyOf injectedCopy Undecodable
  rw [if_neg fun h => Bool.false_ne_true h.1]
  by_cases hhtml : isHtml x = true
  · rw [if_pos hhtml]
    unfold getDataAsText
    rw [if_pos (isText_of_isHtml hhtml)]
    by_cases hcompressed : x.isCompressed = true
    · rw [if_pos hcompressed]
      cases setup.zlib.uncompressChunks x.responseData x.isGzip <;>
        simp [hhtml, hcompressed, bind, Except.bind, pure, Except.pure]
    · rw [if_neg hcompressed]
      simp [hcompressed, bind, Except.bind, pure, Except.pure]
  · rw [if_neg hhtml]
    simp [hhtml]

theorem sent_mode (hscript : setup.injectScript ≠ []) (isRecordMode : Bool) :
    sent setup isRecordMode x = sent setup false x := by
  unfold sent copyOf
  rw [if_neg fun h => hscript h.2, if_neg fun h => hscript h.2]

end Lengths

/-! ### The requests of a run -/

/-- A request that no custom handler answers goes to the archive. -/
def archiveRequest (request : ArchivedHttpRequest) : List ArchivedHttpRequest :=
  if customHandle request = .nothing then [request] else []

def Event.toArchive : Event τ → List ArchivedHttpRequest
  | .request r => archiveRequest r
  | .fetched _ _ | .callback _ => []

def toArchive (events : List (Event τ)) : List ArchivedHttpRequest :=
  events.flatMap Event.toArchive

theorem archiveRequest_of_handled {request : ArchivedHttpRequest}
    (h : customHandle request ≠ .nothing) : archiveRequest request = [] :=
  if_neg h

/-! ### An archived response stays -/

section Kept
variable {setup : Setup} {k : Key} {x : ArchivedHttpResponse τ} {n : ℕ} {s s' : Server τ}
  {asked : List ArchivedHttpRequest}

theorem filter_archiveRequest_of_ne {request : ArchivedHttpRequest} (h : request.key ≠ k) :
    (archiveRequest request).filter (·.key = k) = [] := by
  unfold archiveRequest
  split
  · rw [List.filter_cons_of_neg (by simpa using h), List.filter_nil]
  · rfl

/-- The response is archived up to its length, no fetch for its key is under way, and no
command is about to clear the archive; from the `n`-th answer on, each request with the key
has been answered once, with the response. -/
structure Kept (setup : Setup) (k : Key) (x : ArchivedHttpResponse τ) (n : ℕ)
    (asked : List ArchivedHttpRequest) (s : Server τ) : Prop where
  archived : ∃ y, s.archive.lookup k = some y ∧ complete y = complete x
  fetching : ∀ request ∈ s.fetching, request.key ≠ k
  commands : ∀ c ∈ s.commands, .clearArchive ∉ c.2
  count : n ≤ s.answers.length
  answers : ((s.answers.drop n).filter fun a => a.1.key = k ∧ customHandle a.1 = .nothing) =
    asked.map fun request => (request, sent setup false x)

theorem Kept.answer {request : ArchivedHttpRequest} {response : Option (ArchivedHttpResponse τ)}
    (h : Kept setup k x n asked s)
    (hresponse : request.key = k → customHandle request = .nothing →
      response = sent setup false x) :
    Kept setup k x n (asked ++ (archiveRequest request).filter (·.key = k))
      (s.answer request response) where
  archived := h.archived
  fetching := h.fetching
  commands := h.commands
  count := by
    have hcount := h.count
    show n ≤ (s.answers ++ [(request, response)]).length
    rw [List.length_append]
    omega
  answers := by
    show ((s.answers ++ [(request, response)]).drop n).filter _ = _
    rw [List.drop_append_of_le_length h.count, List.filter_append, h.answers, List.map_append]
    congr 1
    by_cases hkey : request.key = k
    · by_cases hnothing : customHandle request = .nothing
      · simp [archiveRequest, hkey, hnothing, hresponse hkey hnothing]
      · simp [archiveRequest, hnothing]
    · rw [filter_archiveRequest_of_ne hkey]
      simp [hkey]

/-- An answer to a request with another key, or out of a custom handler. -/
theorem Kept.answerOther {request : ArchivedHttpRequest} (h : Kept setup k x n asked s)
    (hother : request.key ≠ k ∨ customHandle request ≠ .nothing)
    (response : Option (ArchivedHttpResponse τ)) :
    Kept setup k x n asked (s.answer request response) := by
  have hnone : (archiveRequest request).filter (·.key = k) = [] := by
    rcases hother with hkey | hhandled
    · exact filter_archiveRequest_of_ne hkey
    · rw [archiveRequest_of_handled hhandled, List.filter_nil]
  have hanswer : Kept setup k x n (asked ++ (archiveRequest request).filter (·.key = k))
      (s.answer request response) := h.answer fun hkey hnothing => by
    rcases hother with hne | hhandled
    · exact absurd hkey hne
    · exact absurd hnothing hhandled
  rwa [hnone, List.append_nil] at hanswer

/-- An insertion under another key, or of the response itself. -/
theorem Kept.insert {key : Key} {y : ArchivedHttpResponse τ} (h : Kept setup k x n asked s)
    (hy : key = k → complete y = complete x) :
    Kept setup k x n asked { s with archive := s.archive.insert key y } where
  archived := by
    by_cases hkey : key = k
    · exact ⟨y, by rw [hkey, AList.lookup_insert], hy hkey⟩
    · obtain ⟨z, hz, hzx⟩ := h.archived
      exact ⟨z, by rw [AList.lookup_insert_ne (Ne.symm hkey)]; exact hz, hzx⟩
  fetching := h.fetching
  commands := h.commands
  count := h.count
  answers := h.answers

theorem Kept.serve {isRecordMode : Bool} {request : ArchivedHttpRequest} {key : Key}
    {y : ArchivedHttpResponse τ} (hscript : setup.injectScript ≠ []) (h : Kept setup k x n asked s)
    (hy : key = k → complete y = complete x) (hkey : request.key = k → key = k) :
    Kept setup k x n (asked ++ (archiveRequest request).filter (·.key = k))
      (s.serve setup isRecordMode request key y) := by
  unfold Server.serve
  apply Kept.answer
  · split
    · exact h.insert fun hk => complete_complete.trans (hy hk)
    · exact h
  · intro hrequest _
    rw [sent_mode hscript]
    exact sent_congr (hy (hkey hrequest))

theorem Kept.serveOther {isRecordMode : Bool} {request : ArchivedHttpRequest} {key : Key}
    {y : ArchivedHttpResponse τ} (h : Kept setup k x n asked s) (hkey : key ≠ k)
    (hrequest : request.key ≠ k) :
    Kept setup k x n asked (s.serve setup isRecordMode request key y) := by
  unfold Server.serve
  apply Kept.answerOther _ (Or.inl hrequest)
  split
  · exact h.insert fun hk => absurd hk hkey
  · exact h

section Steps
variable [Zero τ]

theorem Kept.replayFetch (hscript : setup.injectScript ≠ []) {request : ArchivedHttpRequest}
    (h : Kept setup k x n asked s) :
    Kept setup k x n (asked ++ (archiveRequest request).filter (·.key = k))
      (s.replayFetch setup request) := by
  obtain ⟨y, hy, hyx⟩ := h.archived
  unfold Server.replayFetch
  by_cases hkey : request.key = k
  · have hfind : s.archive.find setup.parsedate request = .archived k y := by
      unfold HttpArchive.find
      rw [hkey, hy]
    rw [hfind]
    exact h.serve hscript (fun _ => hyx) fun _ => rfl
  · have hvacuous : ∀ response : Option (ArchivedHttpResponse τ),
        Kept setup k x n (asked ++ (archiveRequest request).filter (·.key = k))
          (s.answer request response) := fun response => h.answer fun hk => absurd hk hkey
    split
    · rename_i key response hfind
      refine h.serve hscript ?_ fun hk => absurd hk hkey
      intro hk
      have hlookup := find_archived hfind
      rw [hk, hy] at hlookup
      obtain rfl := Option.some.inj hlookup
      exact hyx
    · exact hvacuous _
    · exact hvacuous _
    · exact hvacuous _

omit [Zero τ] in
theorem Kept.recordFetch (hscript : setup.injectScript ≠ []) {request : ArchivedHttpRequest}
    (h : Kept setup k x n asked s) :
    Kept setup k x n (asked ++ (archiveRequest request).filter (·.key = k))
      (s.recordFetch setup request) := by
  obtain ⟨y, hy, hyx⟩ := h.archived
  unfold Server.recordFetch
  split
  · rename_i response hlookup
    refine h.serve hscript ?_ fun hk => hk
    intro hk
    rw [hk, hy] at hlookup
    obtain rfl := Option.some.inj hlookup
    exact hyx
  · rename_i hlookup
    have hkey : request.key ≠ k := by
      intro hk
      rw [hk, hy] at hlookup
      cases hlookup
    rw [filter_archiveRequest_of_ne hkey, List.append_nil]
    refine ⟨h.archived, ?_, h.commands, h.count, h.answers⟩
    intro other hother
    rcases List.mem_append.mp hother with hold | hnew
    · exact h.fetching other hold
    · rw [List.mem_singleton] at hnew
      rw [hnew]
      exact hkey

theorem Kept.fetched {i : ℕ}
    {response : Option (ArchivedHttpResponse τ)} (h : Kept setup k x n asked s)
    (hstep : s.fetched setup i response = some s') : Kept setup k x n asked s' := by
  obtain ⟨request, hrequest, rfl⟩ := Option.map_eq_some_iff.mp hstep
  have hkey : request.key ≠ k := h.fetching request (List.mem_of_getElem? hrequest)
  have herase : Kept setup k x n asked { s with fetching := s.fetching.eraseIdx i } :=
    ⟨h.archived, fun other hother => h.fetching other (List.mem_of_mem_eraseIdx hother),
      h.commands, h.count, h.answers⟩
  dsimp only
  split
  · exact herase.answerOther (Or.inl hkey) _
  · exact (herase.insert fun hk => absurd hk hkey).serveOther hkey hkey

omit [Zero τ] in
theorem Kept.call {callback : Callback} (h : Kept setup k x n asked s)
    (hcallback : callback ≠ .clearArchive) : Kept setup k x n asked (s.call callback) := by
  cases callback with
  | clearArchive => exact absurd rfl hcallback
  | initializeArchiveHosts => exact ⟨h.archived, h.fetching, h.commands, h.count, h.answers⟩
  | setFetch isRecordMode => exact ⟨h.archived, h.fetching, h.commands, h.count, h.answers⟩

theorem callback_cases {i : ℕ} (h : s.callback i = some s') :
    ∃ request callback callbacks, s.commands[i]? = some (request, callback :: callbacks) ∧
      (callbacks = [] ∧ s' = Server.answer request (some (complete (createResponse 200)))
        { s.call callback with commands := s.commands.eraseIdx i } ∨
      s' = { s.call callback with commands := s.commands.set i (request, callbacks) }) := by
  unfold Server.callback at h
  split at h
  · rename_i request callback callbacks hcommand
    refine ⟨request, callback, callbacks, hcommand, ?_⟩
    by_cases hlast : callbacks = []
    · rw [if_pos hlast] at h
      exact Or.inl ⟨hlast, (Option.some.inj h).symm⟩
    · rw [if_neg hlast] at h
      exact Or.inr (Option.some.inj h).symm
  · cases h

/-- A command is answered by a handler, so it is no request to the archive. -/
structure Commands (s : Server τ) : Prop where
  handled : ∀ c ∈ s.commands, customHandle c.1 ≠ .nothing

theorem Kept.callback {i : ℕ} (h : Kept setup k x n asked s) (hcommands : Commands s)
    (hstep : s.callback i = some s') : Kept setup k x n asked s' := by
  obtain ⟨request, callback, callbacks, hcommand, hs'⟩ := callback_cases hstep
  have hmem := List.mem_of_getElem? hcommand
  have hclear := h.commands _ hmem
  rw [List.mem_cons, not_or] at hclear
  have hcall := h.call (Ne.symm hclear.1)
  rcases hs' with ⟨-, rfl⟩ | rfl
  · have herase :
        Kept setup k x n asked { s.call callback with commands := s.commands.eraseIdx i } :=
      ⟨hcall.archived, hcall.fetching,
        fun c hc => h.commands c (List.mem_of_mem_eraseIdx hc), hcall.count, hcall.answers⟩
    exact herase.answerOther (Or.inr (hcommands.handled _ hmem)) _
  · refine ⟨hcall.archived, hcall.fetching, ?_, hcall.count, hcall.answers⟩
    intro c hc
    rcases List.mem_or_eq_of_mem_set hc with hold | rfl
    · exact h.commands c hold
    · exact hclear.2

theorem Kept.request (hscript : setup.injectScript ≠ []) {request : ArchivedHttpRequest}
    (h : Kept setup k x n asked s) (hkeeps : customHandle request ≠ .setMode true) :
    Kept setup k x n (asked ++ (archiveRequest request).filter (·.key = k))
      (s.request setup request) := by
  unfold Server.request
  cases hhandle : customHandle request with
  | generated status => exact h.answer fun _ hnothing => nomatch hhandle.symm.trans hnothing
  | setMode isRecordMode =>
    cases isRecordMode with
    | true => exact absurd hhandle hkeeps
    | false =>
      rw [archiveRequest_of_handled (by rw [hhandle]; exact Handled.noConfusion),
        List.filter_nil, List.append_nil]
      refine ⟨h.archived, h.fetching, ?_, h.count, h.answers⟩
      intro c hc
      rcases List.mem_append.mp hc with hold | hnew
      · exact h.commands c hold
      · rw [List.mem_singleton] at hnew
        rw [hnew]
        show Callback.clearArchive ∉ replayCallbacks
        decide
  | status => exact h.answer fun _ hnothing => nomatch hhandle.symm.trans hnothing
  | nothing =>
    dsimp only
    split
    · exact h.recordFetch hscript
    · exact h.replayFetch hscript

end Steps

/-! ### Commands -/

section Commands
variable [Zero τ] {i : ℕ}

theorem commands_replayFetch (request : ArchivedHttpRequest) :
    (s.replayFetch setup request).commands = s.commands := by
  unfold Server.replayFetch
  split <;> rfl

omit [Zero τ] in
theorem commands_recordFetch (request : ArchivedHttpRequest) :
    (s.recordFetch setup request).commands = s.commands := by
  unfold Server.recordFetch
  split <;> rfl

theorem commands_fetched {response : Option (ArchivedHttpResponse τ)}
    (h : s.fetched setup i response = some s') : s'.commands = s.commands := by
  obtain ⟨request, -, rfl⟩ := Option.map_eq_some_iff.mp h
  dsimp only
  split <;> rfl

theorem Commands.callback (h : Commands s) (hstep : s.callback i = some s') : Commands s' := by
  obtain ⟨request, callback, callbacks, hcommand, hs'⟩ := callback_cases hstep
  have hhandled : customHandle request ≠ .nothing := h.handled _ (List.mem_of_getElem? hcommand)
  refine ⟨?_⟩
  rcases hs' with ⟨-, rfl⟩ | rfl
  · intro c hc
    exact h.handled c (List.mem_of_mem_eraseIdx hc)
  · intro c hc
    rcases List.mem_or_eq_of_mem_set hc with hold | rfl
    · exact h.handled c hold
    · exact hhandled

theorem Commands.request {request : ArchivedHttpRequest} (h : Commands s) :
    Commands (s.request setup request) := by
  unfold Server.request
  cases hhandle : customHandle request with
  | generated status => exact ⟨h.handled⟩
  | setMode isRecordMode =>
    refine ⟨?_⟩
    intro c hc
    rcases List.mem_append.mp hc with hold | hnew
    · exact h.handled c hold
    · rw [List.mem_singleton] at hnew
      rw [hnew, hhandle]
      exact Handled.noConfusion
  | status => exact ⟨h.handled⟩
  | nothing =>
    dsimp only
    split
    · exact ⟨by rw [commands_recordFetch]; exact h.handled⟩
    · exact ⟨by rw [commands_replayFetch]; exact h.handled⟩

theorem Commands.step {e : Event τ} (h : Commands s) (hstep : step setup e s = some s') :
    Commands s' := by
  cases e with
  | request request =>
    obtain rfl := Option.some.inj hstep
    exact h.request
  | fetched i response => exact ⟨by rw [commands_fetched hstep]; exact h.handled⟩
  | callback i => exact h.callback hstep

end Commands

/-! ### Runs -/

section Run
variable [Zero τ] {events : List (Event τ)}

theorem Kept.step (hscript : setup.injectScript ≠ []) {e : Event τ} (h : Kept setup k x n asked s)
    (hcommands : Commands s) (hkeeps : e.Keeps) (hstep : step setup e s = some s') :
    Kept setup k x n (asked ++ e.toArchive.filter (·.key = k)) s' := by
  cases e with
  | request request =>
    obtain rfl := Option.some.inj hstep
    exact h.request hscript (hkeeps request rfl)
  | fetched i response =>
    show Kept setup k x n (asked ++ []) s'
    rw [List.append_nil]
    exact h.fetched hstep
  | callback i =>
    show Kept setup k x n (asked ++ []) s'
    rw [List.append_nil]
    exact h.callback hcommands hstep

theorem Kept.run (hscript : setup.injectScript ≠ []) (h : Kept setup k x n asked s)
    (hcommands : Commands s) (hkeeps : ∀ e ∈ events, e.Keeps)
    (hrun : Machine.run (Replay.step setup) events s = some s') :
    Kept setup k x n (asked ++ (toArchive events).filter (·.key = k)) s' := by
  induction events generalizing asked s with
  | nil =>
    obtain rfl := Option.some.inj hrun
    rwa [← List.append_nil asked] at h
  | cons e events ih =>
    obtain ⟨m, hstep, hrest⟩ := run_cons hrun
    have hm := h.step hscript hcommands (hkeeps e List.mem_cons_self) hstep
    have hall := ih hm (hcommands.step hstep)
      (fun e he => hkeeps e (List.mem_cons_of_mem _ he)) hrest
    unfold toArchive
    rw [List.flatMap_cons, List.filter_append, ← List.append_assoc]
    exact hall

omit [Zero τ] in
theorem commands_start {isRecordMode : Bool} {archive : HttpArchive τ} :
    Commands (Server.start isRecordMode archive) := by
  refine ⟨?_⟩
  intro c hc
  cases hc

theorem commands_run {isRecordMode : Bool} {archive : HttpArchive τ}
    (hrun : run (step setup) events (Server.start isRecordMode archive) = some s) : Commands s :=
  @run_invariant _ _ _ _ _ _ Commands (fun _ => True) (fun _ _ _ _ h hstep => h.step hstep)
    (fun _ _ => trivial) commands_start hrun

/-- Once a response is archived with no fetch for its key under way, it stays archived until a
command to record, and every request with its key gets exactly one answer, which it is, in
either mode and whatever else is under way. It is sent unless it cannot be uncompressed. -/
theorem archived_answered {isRecordMode : Bool} {archive : HttpArchive τ}
    {before : List (Event τ)} (hscript : setup.injectScript ≠ [])
    (hbefore : run (step setup) before (Server.start isRecordMode archive) = some s)
    (harchived : s.archive.lookup k = some x) (hfetching : ∀ request ∈ s.fetching, request.key ≠ k)
    (hclear : ∀ c ∈ s.commands, .clearArchive ∉ c.2) (hkeeps : ∀ e ∈ events, e.Keeps)
    (hrun : run (step setup) events s = some s') :
    (∃ y, s'.archive.lookup k = some y ∧ complete y = complete x) ∧
      ((s'.answers.drop s.answers.length).filter
        fun a => a.1.key = k ∧ customHandle a.1 = .nothing) =
          ((toArchive events).filter (·.key = k)).map
            (fun request => (request, sent setup false x)) ∧
      (sent setup false x = none ↔ Undecodable setup.zlib x) := by
  have hkept : Kept setup k x s.answers.length [] s := by
    refine ⟨⟨x, harchived, rfl⟩, hfetching, hclear, le_rfl, ?_⟩
    rw [List.drop_length]
    rfl
  have hall := hkept.run hscript (commands_run hbefore) hkeeps hrun
  exact ⟨hall.archived, hall.answers, sent_eq_none_iff⟩

/-- A page that is fetched once and then asked for again. -/
theorem archived_answered_page :
    ∃ s s', run (Replay.step sampleSetup)
        [.request sampleRequest, .fetched 0 (some samplePage)] (Server.start true ∅) = some s ∧
      run (Replay.step sampleSetup) [.request sampleRequest] s = some s' ∧
      ((s'.answers.drop s.answers.length).filter
        fun a => a.1.key = sampleRequest.key ∧ customHandle a.1 = .nothing) =
          ((toArchive [Event.request (τ := ℕ) sampleRequest]).filter
            (·.key = sampleRequest.key)).map
            (fun request => (request, sent sampleSetup false samplePage)) := by
  refine ⟨_, _, rfl, rfl, ?_⟩
  refine (@archived_answered ℕ sampleSetup sampleRequest.key samplePage _ _ _
    [.request sampleRequest] true ∅ [.request sampleRequest, .fetched 0 (some samplePage)]
    (by decide) rfl (by decide) (by decide) (by decide) ?_ rfl).2.1
  intro e he request hrequest
  rw [List.mem_singleton] at he
  rw [he] at hrequest
  obtain rfl := Event.request.inj hrequest
  decide

end Run

end Kept

end StoneRidge.Replay
