import StoneRidge.Replay.Replayed

/-!
# A server that only replays

Started on a loaded archive and given no command to record, the server answers each request
by a function of the archive, and the name server sends every archived host to the proxy.
-/

set_option autoImplicit false

namespace StoneRidge.Replay
open StoneRidge.Kit StoneRidge.Kit.Machine

variable {τ : Type}

/-! ### Archives that are the same up to lengths -/

def SameArchive (a b : HttpArchive τ) : Prop :=
  ∀ key, (a.lookup key).map complete = (b.lookup key).map complete

section Same
variable {setup : Setup} {a b : HttpArchive τ} {x y : ArchivedHttpResponse τ}

theorem SameArchive.insert {key : Key} (h : SameArchive a b) (hkey : b.lookup key = some x) :
    SameArchive a (b.insert key (complete x)) := by
  intro other
  by_cases heq : other = key
  · rw [heq, h key, hkey, AList.lookup_insert]
    exact congrArg some complete_complete.symm
  · rw [AList.lookup_insert_ne heq]
    exact h other

theorem SameArchive.mem_iff (h : SameArchive a b) (key : Key) : key ∈ a ↔ key ∈ b := by
  rw [← AList.lookup_isSome, ← AList.lookup_isSome]
  have hkey := congrArg Option.isSome (h key)
  rw [Option.isSome_map, Option.isSome_map] at hkey
  rw [hkey]

theorem SameArchive.mem_hosts (h : SameArchive a b) (host : Text) :
    host ∈ hosts a ↔ host ∈ hosts b := by
  have hkeys : ∀ key, key ∈ a.keys ↔ key ∈ b.keys := by
    intro key
    rw [← AList.mem_keys, ← AList.mem_keys]
    exact h.mem_iff key
  unfold hosts
  rw [List.mem_map, List.mem_map]
  simp only [hkeys]

/-- The entries under a key are the same up to their lengths. -/
theorem SameArchive.cases (h : SameArchive a b) (key : Key) :
    a.lookup key = none ∧ b.lookup key = none ∨
      ∃ x y, a.lookup key = some x ∧ b.lookup key = some y ∧ complete x = complete y := by
  have hkey := h key
  cases hx : a.lookup key with
  | none =>
    rw [hx] at hkey
    exact Or.inl ⟨rfl, Option.map_eq_none_iff.mp hkey.symm⟩
  | some x =>
    rw [hx] at hkey
    obtain ⟨y, hy, hyx⟩ := Option.map_eq_some_iff.mp hkey.symm
    exact Or.inr ⟨x, y, rfl, hy, hyx.symm⟩

theorem status_congr (h : complete x = complete y) : x.status = y.status := by
  rw [← status_complete, h, status_complete]

theorem conditional_complete (parsedate : Parsedate) (request : ArchivedHttpRequest) :
    getConditionalStatus parsedate request (complete x) =
      getConditionalStatus parsedate request x := by
  unfold getConditionalStatus
  rw [insensitive_complete (by decide), insensitive_complete (by decide)]

theorem conditional_congr (parsedate : Parsedate) (request : ArchivedHttpRequest)
    (h : complete x = complete y) : getConditionalStatus parsedate request x =
      getConditionalStatus parsedate request y := by
  rw [← conditional_complete, h, conditional_complete]

/-- The answer to a request out of an archive. -/
def replayAnswer [Zero τ] (setup : Setup) (archive : HttpArchive τ) (request : ArchivedHttpRequest) :
    Option (ArchivedHttpResponse τ) :=
  match archive.find setup.parsedate request with
  | .archived _ response => sent setup false response
  | .made response => sent setup false response
  | .nothing => some notFound
  | .raised => none

/-- A condition on the entity tag, which is compared with the tag of the response. -/
def AsksTag (request : ArchivedHttpRequest) : Prop :=
  ∃ header ∈ ["if-match".toList, "if-none-match".toList], ∃ value,
    request.header header = some value ∧ value ≠ []

/-- A condition on the entity tag of an archived response that has none. -/
def Untagged (archive : HttpArchive τ) (request : ArchivedHttpRequest) : Prop :=
  archive.lookup request.key = none ∧ request.isConditional = true ∧
    ∃ response, archive.lookup request.createRequestWithoutConditions.key = some response ∧
      response.status = 200 ∧ getHeaderCaseInsensitive response "etag".toList = none ∧
      AsksTag request

theorem etagStatus_eq_none_iff {request : ArchivedHttpRequest} {responseEtag : Option Text}
    {status matched unmatched : ℤ} {header : Text} :
    etagStatus request responseEtag status matched unmatched header = none ↔
      responseEtag = none ∧ ∃ value, request.header header = some value ∧ value ≠ [] := by
  unfold etagStatus
  cases hvalue : request.header header with
  | none => simp
  | some value => by_cases hnil : value = [] <;> simp [hnil]

theorem conditional_eq_none_iff {parsedate : Parsedate} {request : ArchivedHttpRequest} :
    getConditionalStatus parsedate request x = none ↔
      getHeaderCaseInsensitive x "etag".toList = none ∧ AsksTag request := by
  have hasks : AsksTag request ↔
      (∃ value, request.header "if-match".toList = some value ∧ value ≠ []) ∨
        ∃ value, request.header "if-none-match".toList = some value ∧ value ≠ [] := by
    unfold AsksTag
    rw [List.exists_mem_cons_iff, List.exists_mem_cons_iff]
    simp
  rw [hasks, and_or_left]
  change (etagStatus request (getHeaderCaseInsensitive x "etag".toList) 200 200 412
    "if-match".toList).bind _ = none ↔ _
  cases hmatch : etagStatus request (getHeaderCaseInsensitive x "etag".toList) 200 200 412
      "if-match".toList with
  | none => exact iff_of_true rfl (Or.inl (etagStatus_eq_none_iff.mp hmatch))
  | some status =>
    have hfirst := etagStatus_eq_none_iff.not.mp (hmatch ▸ Option.some_ne_none status)
    rw [or_iff_right hfirst]
    change (etagStatus request (getHeaderCaseInsensitive x "etag".toList) status 304
      (if isGetOrHead request then 200 else 412) "if-none-match".toList).bind _ = none ↔ _
    cases hnone : etagStatus request (getHeaderCaseInsensitive x "etag".toList) status 304
        (if isGetOrHead request then 200 else 412) "if-none-match".toList with
    | none => exact iff_of_true rfl (etagStatus_eq_none_iff.mp hnone)
    | some status' =>
      have hsecond := etagStatus_eq_none_iff.not.mp (hnone ▸ Option.some_ne_none status')
      refine iff_of_false ?_ hsecond
      rw [Option.bind_some]
      split
      · exact Option.some_ne_none _
      · split <;> exact Option.some_ne_none _

theorem find_raised_iff [Zero τ] {parsedate : Parsedate} {request : ArchivedHttpRequest}
    {archive : HttpArchive τ} :
    archive.find parsedate request = .raised ↔ Untagged archive request := by
  unfold HttpArchive.find Untagged
  cases hlookup : archive.lookup request.key with
  | some response => simp
  | none =>
    by_cases hconditional : request.isConditional = true
    · cases hstripped : archive.lookup request.createRequestWithoutConditions.key with
      | none => simp [hconditional, hstripped]
      | some response =>
        by_cases hstatus : response.status = 200
        · have hnone : getConditionalStatus parsedate request response = none ↔
              getHeaderCaseInsensitive response "etag".toList = none ∧ AsksTag request :=
            conditional_eq_none_iff
          simp only [hconditional, hstripped, hstatus, if_true, true_and, Option.some.injEq,
            exists_eq_left', ← hnone]
          cases getConditionalStatus parsedate request response with
          | none => simp
          | some status => by_cases hok : status = 200 <;> simp [hok]
        · simp [hconditional, hstripped, hstatus]
    · simp [hconditional]

theorem sent_createResponse [Zero τ] (status : ℤ) :
    (sent setup false (createResponse status : ArchivedHttpResponse τ)).isSome := by
  rw [Option.isSome_iff_ne_none, Ne, sent_eq_none_iff]
  have hhtml : isHtml (createResponse status : ArchivedHttpResponse τ) = false := rfl
  exact fun h => Bool.false_ne_true (hhtml.symm.trans h.1)

/-- A request is left without an answer where the handler raises: on a tag to compare with a
response that has none, or on a page that cannot be uncompressed. -/
theorem replayAnswer_eq_none_iff [Zero τ] {archive : HttpArchive τ}
    {request : ArchivedHttpRequest} :
    replayAnswer setup archive request = none ↔ Untagged archive request ∨
      ∃ key response, archive.find setup.parsedate request = .archived key response ∧
        Undecodable setup.zlib response := by
  have hraised : archive.find setup.parsedate request = .raised ↔ Untagged archive request :=
    find_raised_iff
  rw [← hraised]
  unfold replayAnswer
  cases hfind : archive.find setup.parsedate request with
  | archived key response => simp [sent_eq_none_iff]
  | made response =>
    obtain ⟨status, rfl⟩ := find_made hfind
    simpa using Option.isSome_iff_ne_none.mp (sent_createResponse status)
  | nothing => simp
  | raised => simp

theorem replayAnswer_congr [Zero τ] (h : SameArchive a b) (request : ArchivedHttpRequest) :
    replayAnswer setup a request = replayAnswer setup b request := by
  unfold replayAnswer HttpArchive.find
  rcases h.cases request.key with ⟨hx, hy⟩ | ⟨x, y, hx, hy, hxy⟩
  · rw [hx, hy]
    dsimp only
    by_cases hconditional : request.isConditional = true
    · rw [if_pos hconditional, if_pos hconditional]
      rcases h.cases request.createRequestWithoutConditions.key with
        ⟨hx, hy⟩ | ⟨x, y, hx, hy, hxy⟩
      · rw [hx, hy]
      · rw [hx, hy]
        dsimp only
        rw [status_congr hxy, conditional_congr setup.parsedate request hxy]
        by_cases hstatus : y.status = 200
        · rw [if_pos hstatus, if_pos hstatus]
          cases getConditionalStatus setup.parsedate request y with
          | none => rfl
          | some status =>
            dsimp only
            by_cases hok : status ≠ 200
            · rw [if_pos hok, if_pos hok]
            · rw [if_neg hok, if_neg hok]
              exact sent_congr hxy
        · rw [if_neg hstatus, if_neg hstatus]
          exact sent_congr hxy
    · rw [if_neg hconditional, if_neg hconditional]
  · rw [hx, hy]
    exact sent_congr hxy

end Same

/-! ### The invariant -/

section Quiet
variable {setup : Setup} {archive : HttpArchive τ} {s s' : Server τ}
  {asked : List ArchivedHttpRequest} [Zero τ]

/-- Nothing is under way but commands to replay, and the requests to the archive so far have
been answered out of `archive`, each once. -/
structure Quiet (setup : Setup) (archive : HttpArchive τ) (asked : List ArchivedHttpRequest)
    (s : Server τ) : Prop where
  mode : s.fetchRecordMode = false
  fetching : s.fetching = []
  commands : ∀ c ∈ s.commands, ∀ callback ∈ c.2, callback ∈ replayCallbacks
  same : SameArchive archive s.archive
  hosts : ∀ host, host ∈ s.archiveHosts ↔ host ∈ hosts archive
  answers : (s.answers.filter fun a => customHandle a.1 = .nothing) =
    asked.map fun request => (request, replayAnswer setup archive request)

theorem Quiet.answer {request : ArchivedHttpRequest} {response : Option (ArchivedHttpResponse τ)}
    (h : Quiet setup archive asked s)
    (hresponse : customHandle request = .nothing → response = replayAnswer setup archive request) :
    Quiet setup archive (asked ++ archiveRequest request) (s.answer request response) where
  mode := h.mode
  fetching := h.fetching
  commands := h.commands
  same := h.same
  hosts := h.hosts
  answers := by
    show (s.answers ++ [(request, response)]).filter _ = _
    rw [List.filter_append, h.answers, List.map_append]
    congr 1
    by_cases hnothing : customHandle request = .nothing
    · simp [archiveRequest, hnothing, hresponse hnothing]
    · simp [archiveRequest, hnothing]

theorem Quiet.answerHandled {request : ArchivedHttpRequest} (h : Quiet setup archive asked s)
    (hhandled : customHandle request ≠ .nothing) (response : Option (ArchivedHttpResponse τ)) :
    Quiet setup archive asked (s.answer request response) := by
  have hanswer : Quiet setup archive (asked ++ archiveRequest request)
      (s.answer request response) :=
    h.answer fun hnothing => absurd hnothing hhandled
  rwa [archiveRequest_of_handled hhandled, List.append_nil] at hanswer

theorem Quiet.serve {request : ArchivedHttpRequest} {key : Key} {y : ArchivedHttpResponse τ}
    (h : Quiet setup archive asked s) (hkey : s.archive.lookup key = some y)
    (hresponse : sent setup false y = replayAnswer setup archive request) :
    Quiet setup archive (asked ++ archiveRequest request)
      (s.serve setup false request key y) := by
  unfold Server.serve
  apply Quiet.answer
  · split
    · exact ⟨h.mode, h.fetching, h.commands, h.same.insert hkey, h.hosts, h.answers⟩
    · exact ⟨h.mode, h.fetching, h.commands, h.same, h.hosts, h.answers⟩
  · exact fun _ => hresponse

theorem Quiet.replayFetch {request : ArchivedHttpRequest} (h : Quiet setup archive asked s) :
    Quiet setup archive (asked ++ archiveRequest request) (s.replayFetch setup request) := by
  have hanswer : replayAnswer setup archive request = replayAnswer setup s.archive request :=
    replayAnswer_congr h.same request
  unfold replayAnswer at hanswer
  unfold Server.replayFetch
  split
  · rename_i key response hfind
    simp only [hfind] at hanswer
    exact h.serve (find_archived hfind) hanswer.symm
  · rename_i response hfind
    simp only [hfind] at hanswer
    exact h.answer fun _ => hanswer.symm
  · rename_i hfind
    simp only [hfind] at hanswer
    exact h.answer fun _ => hanswer.symm
  · rename_i hfind
    simp only [hfind] at hanswer
    exact h.answer fun _ => hanswer.symm

theorem Quiet.call {callback : Callback} (h : Quiet setup archive asked s)
    (hcallback : callback ∈ replayCallbacks) : Quiet setup archive asked (s.call callback) := by
  unfold replayCallbacks at hcallback
  simp only [List.mem_cons, List.not_mem_nil, or_false] at hcallback
  rcases hcallback with rfl | rfl
  · refine ⟨h.mode, h.fetching, h.commands, h.same, ?_, h.answers⟩
    intro host
    exact (h.same.mem_hosts host).symm
  · exact ⟨rfl, h.fetching, h.commands, h.same, h.hosts, h.answers⟩

theorem Quiet.callback {i : ℕ} (h : Quiet setup archive asked s) (hcommands : Commands s)
    (hstep : s.callback i = some s') : Quiet setup archive asked s' := by
  obtain ⟨request, callback, callbacks, hcommand, hs'⟩ := callback_cases hstep
  have hmem := List.mem_of_getElem? hcommand
  have hhandled : customHandle request ≠ .nothing := hcommands.handled _ hmem
  have hreplay : ∀ c ∈ callback :: callbacks, c ∈ replayCallbacks := h.commands _ hmem
  have hcall := h.call (hreplay callback List.mem_cons_self)
  rcases hs' with ⟨-, rfl⟩ | rfl
  · have herase : Quiet setup archive asked
        { s.call callback with commands := s.commands.eraseIdx i } :=
      ⟨hcall.mode, hcall.fetching, fun c hc => h.commands c (List.mem_of_mem_eraseIdx hc),
        hcall.same, hcall.hosts, hcall.answers⟩
    exact herase.answerHandled hhandled _
  · refine ⟨hcall.mode, hcall.fetching, ?_, hcall.same, hcall.hosts, hcall.answers⟩
    intro c hc
    rcases List.mem_or_eq_of_mem_set hc with hold | rfl
    · exact h.commands c hold
    · exact fun other hother => hreplay other (List.mem_cons_of_mem _ hother)

theorem Quiet.step {e : Event τ} (h : Quiet setup archive asked s) (hcommands : Commands s)
    (hkeeps : e.Keeps) (hstep : step setup e s = some s') :
    Quiet setup archive (asked ++ e.toArchive) s' := by
  cases e with
  | request request =>
    obtain rfl := Option.some.inj hstep
    have hhandle := hkeeps request rfl
    show Quiet setup archive (asked ++ archiveRequest request) _
    unfold Server.request
    cases hrequest : customHandle request with
    | generated status =>
      exact h.answer fun hnothing => nomatch hrequest.symm.trans hnothing
    | setMode isRecordMode =>
      cases isRecordMode with
      | true => exact absurd hrequest hhandle
      | false =>
        rw [archiveRequest_of_handled (by rw [hrequest]; exact Handled.noConfusion),
          List.append_nil]
        refine ⟨h.mode, h.fetching, ?_, h.same, h.hosts, h.answers⟩
        intro c hc
        rcases List.mem_append.mp hc with hold | hnew
        · exact h.commands c hold
        · rw [List.mem_singleton] at hnew
          rw [hnew]
          exact fun callback hcallback => hcallback
    | status => exact h.answer fun hnothing => nomatch hrequest.symm.trans hnothing
    | nothing =>
      dsimp only
      rw [h.mode, if_neg Bool.false_ne_true]
      exact h.replayFetch
  | fetched i response =>
    obtain ⟨request, hrequest, -⟩ := Option.map_eq_some_iff.mp hstep
    rw [h.fetching] at hrequest
    cases hrequest
  | callback i =>
    show Quiet setup archive (asked ++ []) s'
    rw [List.append_nil]
    exact h.callback hcommands hstep

theorem Quiet.run {events : List (Event τ)} (h : Quiet setup archive asked s)
    (hcommands : Commands s) (hkeeps : ∀ e ∈ events, e.Keeps)
    (hrun : Machine.run (Replay.step setup) events s = some s') :
    Quiet setup archive (asked ++ toArchive events) s' := by
  induction events generalizing asked s with
  | nil =>
    obtain rfl := Option.some.inj hrun
    rwa [← List.append_nil asked] at h
  | cons e events ih =>
    obtain ⟨m, hstep, hrest⟩ := run_cons hrun
    have hm := h.step hcommands (hkeeps e List.mem_cons_self) hstep
    have hall := ih hm (hcommands.step hstep)
      (fun e he => hkeeps e (List.mem_cons_of_mem _ he)) hrest
    unfold toArchive
    rw [List.flatMap_cons, ← List.append_assoc]
    exact hall

theorem quiet_start : Quiet setup archive [] (Server.start false archive) := by
  refine ⟨rfl, rfl, ?_, fun _ => rfl, fun _ => Iff.rfl, rfl⟩
  intro c hc
  cases hc

end Quiet

end StoneRidge.Replay
