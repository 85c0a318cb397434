import StoneRidge.Kit.Base64
import StoneRidge.Kit.Exact
import StoneRidge.Kit.PosixTree
import Mathlib.Data.List.AList

/-!
# The reporter

`StoneRidgeReporter.handle` and `save_data` (`srreporter.py:46-116`) as commands on the
directories of the server and on what leaves the reporter: the datasets sent to the
result server, the files of the archive and the mails. What the result server does with
a dataset is arbitrary.
-/

set_option autoImplicit false

namespace StoneRidge.Reporter
open StoneRidge.Kit.Exec StoneRidge.Kit.PosixPath StoneRidge.Kit.PosixTree StoneRidge.Kit.Base64

inductive Json where
  | null
  | bool (b : Bool)
  | number (text : String)
  | string (s : String)
  | array (items : List Json)
  | object (members : List (String × Json))

/-- `isinstance(dataset, dict)` -/
def Json.isDict : Json → Bool
  | .object _ => true
  | _ => false

/-- What `response.read()` gives. -/
inductive Body where
  | unreadable
  /-- What `json.loads` makes of the text, or nothing where it is not JSON. -/
  | text (loaded : Option Json)

/-- What `request.send` does with a dataset. -/
inductive Reply where
  | raises
  | response (status : ℤ) (body : Body)

/-- `srreporter.py:31-38` -/
structure ReporterSetting where
  host : String
  project : String
  key : String
  secret : String
  archives : String
  unittest : Bool

structure ResultsMessage where
  srid : String
  netconfig : String
  operatingSystem : String
  /-- The datasets in the order in which the loop meets them. -/
  results : AList fun _ : String => Json
  metadata : String
  ldap : Option String

structure DatazillaRequest where
  protocol : String
  host : String
  project : String
  oauthKey : String
  oauthSecret : String
  deriving DecidableEq

inductive Content where
  | results (results : AList fun _ : String => Json)
  | metadata (bytes : List UInt8)

structure Mail where
  recipient : String
  subject : String
  message : String
  /-- The path of the attached file and its name in the mail. -/
  attachment : String × String

structure World where
  tree : Tree
  /-- Every dataset that was given to `send`, whether or not that raised. -/
  sent : List (DatazillaRequest × Json)
  written : List (String × Content)
  mails : List Mail

inductive Raised where
  | sending
  | keyError
  | typeError
  | osError (e : Errno)
  /-- `metadata` cannot be decoded. -/
  | metadata
  /-- `MIMEText(message)`, which encodes the text as ASCII (`stoneridge.py:739`). -/
  | unicodeEncode

/-- `EMAIL_MESSAGE` -/
def emailMessage (ldap srid operatingSystem netconfig : String) : String :=
  "Hello, " ++ ldap ++ "!\n\n" ++
  "Your stone ridge test has completed its run. Your results are attached.\n" ++
  "For your reference, here's the details about this particular run:\n\n" ++
  "    ID: " ++ srid ++ "\n" ++
  "    Operating System: " ++ operatingSystem ++ "\n" ++
  "    Network Configuration: " ++ netconfig ++ "\n\n" ++
  "Enjoy!\n-The Stone Ridge System\n"

/-- `result[key]`: only a dictionary has string keys. -/
def getItem (result : Json) (key : String) : Except Raised Json :=
  match result with
  | .object members =>
    match members.lookup key with
    | some v => .ok v
    | none => .error .keyError
  | _ => .error .typeError

section Handler
variable (cfg : ReporterSetting)

def request : DatazillaRequest := ⟨"https", cfg.host, cfg.project, cfg.key, cfg.secret⟩

/-- What becomes of a reply. A bad status, of either kind, is only logged. -/
def checkReply : Reply → Except Raised Unit
  | .raises => .error .sending
  | .response _ .unreadable => .ok ()
  | .response _ (.text none) => .ok ()
  | .response _ (.text (some result)) => (getItem result "status").map fun _ => ()

/-- The body of the loop in `handle`. -/
def uploadDataset (server : String → Reply) (name : String) (dataset : Json) :
    EStateM Raised World Unit :=
  if dataset.isDict then
    if cfg.unittest then pure ()
    else do
      modify fun w => { w with sent := w.sent ++ [(request cfg, dataset)] }
      match checkReply (server name) with
      | .ok () => pure ()
      | .error e => throw e
  else pure ()

def ResultsMessage.dirname (m : ResultsMessage) : String :=
  m.srid ++ "_" ++ m.netconfig ++ "_" ++ m.operatingSystem

/-- The directory that `save_data` makes; the earlier archives of the srid stay. -/
def archivedir (now : ℕ) (m : ResultsMessage) (t : Tree) : String :=
  let dir := join cfg.archives m.dirname
  if t.exists? dir then dir ++ "_" ++ toString now else dir

def makeArchive (dir : String) : EStateM Raised World Unit := fun w =>
  match makedirs dir w.tree with
  | .ok () t => .ok () { w with tree := t }
  | .error e t => .error (.osError e) { w with tree := t }

def write (path : String) (content : Content) : EStateM Raised World Unit :=
  modify fun w => { w with written := w.written ++ [(path, content)] }

def completionMail (m : ResultsMessage) (dir ldap : String) : Mail :=
  ⟨ldap, "Stone Ridge Complete", emailMessage ldap m.srid m.operatingSystem m.netconfig,
    (join dir "metadata.zip", "results.zip")⟩

def isAscii (s : String) : Bool := s.toList.all (·.toNat < 128)

def mailRequester (m : ResultsMessage) (dir : String) : EStateM Raised World Unit :=
  match m.ldap with
  | none => pure ()
  | some ldap =>
    if isAscii (completionMail m dir ldap).message then
      modify fun w => { w with mails := w.mails ++ [completionMail m dir ldap] }
    else throw .unicodeEncode

def saveData (now : ℕ) (m : ResultsMessage) : EStateM Raised World Unit := do
  let w ← get
  let dir := archivedir cfg now m w.tree
  makeArchive dir
  write (join dir "results.json") (.results m.results)
  match b64decode m.metadata with
  | none => throw .metadata
  | some metadata => do
    write (join dir "metadata.zip") (.metadata metadata)
    mailRequester m dir

def handle (server : String → Reply) (now : ℕ) (m : ResultsMessage) :
    EStateM Raised World Unit := do
  m.results.entries.forM fun x => uploadDataset cfg server x.1 x.2
  saveData cfg now m

end Handler

/-- A reply after which the loop goes on: `send` returns, and if the body is JSON, it is
a dictionary with a status. -/
def Reply.Harmless : Reply → Prop
  | .raises => False
  | .response _ .unreadable => True
  | .response _ (.text none) => True
  | .response _ (.text (some (.object members))) => (members.lookup "status").isSome
  | .response _ (.text (some _)) => False

theorem checkReply_cases (r : Reply) :
    (r.Harmless ∧ checkReply r = .ok ()) ∨ (¬ r.Harmless ∧ ∃ e, checkReply r = .error e) := by
  cases r with
  | raises => exact .inr ⟨id, _, rfl⟩
  | response status body =>
    cases body with
    | unreadable => exact .inl ⟨trivial, rfl⟩
    | text loaded =>
      cases loaded with
      | none => exact .inl ⟨trivial, rfl⟩
      | some result =>
        cases result with
        | object members =>
          simp only [Reply.Harmless, checkReply, getItem]
          cases members.lookup "status" with
          | none => exact .inr ⟨by simp, _, rfl⟩
          | some v => exact .inl ⟨rfl, rfl⟩
        | null | bool | number | string | array => exact .inr ⟨id, _, rfl⟩

section Specification
variable (cfg : ReporterSetting)

/-- The datasets of `l` that are dictionaries, each sent once. -/
def uploads (l : List (Sigma fun _ : String => Json)) : List (DatazillaRequest × Json) :=
  (l.filter fun x => x.2.isDict).map fun x => (request cfg, x.2)

/-- The directory of the archive can be made, and the metadata can be decoded. -/
def Archivable (now : ℕ) (m : ResultsMessage) (w : World) : Prop :=
  (∃ t, makedirs (archivedir cfg now m w.tree) w.tree = .ok () t) ∧ (b64decode m.metadata).isSome

/-- The texts that go into the mail are ASCII, where somebody gets one. -/
def Mailable (m : ResultsMessage) : Prop :=
  ∀ ldap, m.ldap = some ldap →
    ∀ s ∈ [ldap, m.srid, m.operatingSystem, m.netconfig], isAscii s = true

/-- The results and the metadata are written once each, to a new directory, and the
requester, if there is one, gets one mail. -/
structure Archived (now : ℕ) (m : ResultsMessage) (w w' : World) : Prop where
  made : makedirs (archivedir cfg now m w.tree) w.tree = .ok () w'.tree
  written : ∃ metadata, b64decode m.metadata = some metadata ∧ w'.written = w.written ++
    [(join (archivedir cfg now m w.tree) "results.json", .results m.results),
      (join (archivedir cfg now m w.tree) "metadata.zip", .metadata metadata)]
  mailed : w'.mails =
    w.mails ++ m.ldap.toList.map (completionMail m (archivedir cfg now m w.tree))

/-- Handling the message sends every dataset that is a dictionary once, skips the others,
and then archives the results and mails the requester. -/
def Reports (server : String → Reply) (now : ℕ) (m : ResultsMessage) (w : World) : Prop :=
  ∃ w', handle cfg server now m w = .ok () w' ∧
    w'.sent = w.sent ++ uploads cfg m.results.entries ∧ Archived cfg now m w w'

end Specification

/-- What has left the reporter is not taken back. -/
structure Kept (w t : World) : Prop where
  sent : w.sent <+: t.sent
  written : w.written <+: t.written
  mails : w.mails <+: t.mails

theorem Kept.refl (w : World) : Kept w w :=
  ⟨List.prefix_refl _, List.prefix_refl _, List.prefix_refl _⟩

theorem Kept.trans (s t u : World) (h : Kept s t) (h' : Kept t u) : Kept s u :=
  ⟨h.sent.trans h'.sent, h.written.trans h'.written, h.mails.trans h'.mails⟩

/-- Only the result server has got anything. -/
structure OnlySent (w t : World) : Prop where
  sent : w.sent <+: t.sent
  tree : t.tree = w.tree
  written : t.written = w.written
  mails : t.mails = w.mails

theorem OnlySent.refl (w : World) : OnlySent w w := ⟨List.prefix_refl _, rfl, rfl, rfl⟩

theorem OnlySent.trans (s t u : World) (h : OnlySent s t) (h' : OnlySent t u) : OnlySent s u :=
  ⟨h.sent.trans h'.sent, h'.tree.trans h.tree, h'.written.trans h.written, h'.mails.trans h.mails⟩

theorem OnlySent.kept {w t : World} (h : OnlySent w t) : Kept w t :=
  ⟨h.sent, h.written ▸ List.prefix_refl _, h.mails ▸ List.prefix_refl _⟩

section Proofs
variable {cfg : ReporterSetting} {server : String → Reply} {now : ℕ} {m : ResultsMessage}
  {w : World}

theorem uploadDataset_exact (name : String) (dataset : Json) :
    Exact OnlySent (uploadDataset cfg server name dataset) w
      (dataset.isDict → cfg.unittest = false → (server name).Harmless) fun _ t =>
        t = { w with sent := w.sent ++ if cfg.unittest then [] else uploads cfg [⟨name, dataset⟩] } := by
  unfold uploadDataset uploads
  by_cases hdict : dataset.isDict
  · cases hunit : cfg.unittest with
    | true =>
      simp only [hdict, if_true]
      refine (Exact.of_pure OnlySent.refl ()).conseq (by simp) ?_
      rintro _ t - ⟨-, rfl⟩
      rw [List.append_nil]
    | false =>
      simp only [hdict, if_true, Bool.false_eq_true, if_false]
      refine Exact.modify_bind OnlySent.trans ⟨List.prefix_append _ _, rfl, rfl, rfl⟩ ?_
      rcases checkReply_cases (server name) with ⟨hgood, hok⟩ | ⟨hbad, e, herr⟩
      · rw [hok]
        refine (Exact.of_pure OnlySent.refl ()).conseq (by simp [hgood]) ?_
        rintro _ t - ⟨-, rfl⟩
        simp [hdict]
      · rw [herr]
        exact (Exact.of_throw OnlySent.refl e).conseq (by simp [hbad]) fun _ _ _ h => h
  · rw [if_neg hdict]
    refine (Exact.of_pure OnlySent.refl ()).conseq (by simp [hdict]) ?_
    rintro _ t - ⟨-, rfl⟩
    simp [hdict]

theorem uploadAll_exact :
    Exact OnlySent (m.results.entries.forM fun x => uploadDataset cfg server x.1 x.2) w
      (∀ x ∈ m.results.entries, x.2.isDict → cfg.unittest = false → (server x.1).Harmless)
      fun _ t => t = { w with
        sent := w.sent ++ if cfg.unittest then [] else uploads cfg m.results.entries } := by
  refine Exact.forM_of (I := fun done t => t = { w with
    sent := w.sent ++ if cfg.unittest then [] else uploads cfg done }) OnlySent.refl OnlySent.trans _ [] ?_ ?_
  · rintro pre x post - - s rfl
    refine (uploadDataset_exact x.1 x.2).conseq Iff.rfl ?_
    rintro _ t - rfl
    cases cfg.unittest with
    | true => simp
    | false => simp [uploads, List.filter_append]
  · cases cfg.unittest <;> simp [uploads]

theorem makeArchive_exact (dir : String) :
    Exact Kept (makeArchive dir) w (∃ t, makedirs dir w.tree = .ok () t) fun _ u =>
      ∃ t, makedirs dir w.tree = .ok () t ∧ u = { w with tree := t } := by
  unfold Exact makeArchive
  cases h : makedirs dir w.tree with
  | ok _ t => exact ⟨⟨t, rfl⟩, ⟨List.prefix_refl _, List.prefix_refl _, List.prefix_refl _⟩, t, rfl, rfl⟩
  | error e t => exact ⟨by simp, List.prefix_refl _, List.prefix_refl _, List.prefix_refl _⟩

theorem write_exact (path : String) (content : Content) :
    Exact Kept (write path content) w True fun _ t =>
      t = { w with written := w.written ++ [(path, content)] } :=
  Exact.of_modify ⟨List.prefix_refl _, List.prefix_append _ _, List.prefix_refl _⟩

theorem isAscii_append (s t : String) : isAscii (s ++ t) = (isAscii s && isAscii t) := by
  unfold isAscii
  rw [String.toList_append, List.all_append]

theorem isAscii_message (m : ResultsMessage) (dir ldap : String) :
    isAscii (completionMail m dir ldap).message = true ↔
      ∀ s ∈ [ldap, m.srid, m.operatingSystem, m.netconfig], isAscii s = true := by
  have htexts : isAscii "Hello, " = true ∧ isAscii "!\n\n" = true ∧
      isAscii "Your stone ridge test has completed its run. Your results are attached.\n" = true ∧
      isAscii "For your reference, here's the details about this particular run:\n\n" = true ∧
      isAscii "    ID: " = true ∧ isAscii "\n" = true ∧ isAscii "    Operating System: " = true ∧
      isAscii "    Network Configuration: " = true ∧ isAscii "\n\n" = true ∧
      isAscii "Enjoy!\n-The Stone Ridge System\n" = true := by decide
  obtain ⟨h₁, h₂, h₃, h₄, h₅, h₆, h₇, h₈, h₉, h₁₀⟩ := htexts
  unfold completionMail emailMessage
  simp only [isAscii_append, h₁, h₂, h₃, h₄, h₅, h₆, h₇, h₈, h₉, h₁₀, Bool.and_true, Bool.true_and,
    Bool.and_eq_true, List.forall_mem_cons, and_assoc]
  simp

theorem mailRequester_exact (dir : String) :
    Exact Kept (mailRequester m dir) w (Mailable m) fun _ t =>
      t = { w with mails := w.mails ++ m.ldap.toList.map (completionMail m dir) } := by
  unfold mailRequester Mailable
  cases m.ldap with
  | none =>
    refine (Exact.of_pure Kept.refl ()).conseq (by simp) ?_
    rintro _ t - ⟨-, rfl⟩
    simp
  | some ldap =>
    have hmessage := isAscii_message m dir ldap
    by_cases hascii : isAscii (completionMail m dir ldap).message = true
    · simp only [hascii, if_true]
      have hmailed : Exact Kept (modify fun w : World => { w with
          mails := w.mails ++ [completionMail m dir ldap] } : EStateM Raised World Unit) w True _ :=
        Exact.of_modify ⟨List.prefix_refl _, List.prefix_refl _, List.prefix_append _ _⟩
      refine hmailed.conseq ?_ fun _ _ _ h => h
      refine iff_of_true trivial fun ldap' h => ?_
      obtain rfl := Option.some.inj h
      exact hmessage.mp hascii
    · simp only [hascii, Bool.false_eq_true, if_false]
      refine (Exact.of_throw Kept.refl _).conseq ?_ fun _ _ _ h => h
      exact iff_of_false id fun h => hascii (hmessage.mpr (h ldap rfl))

theorem saveData_exact :
    Exact Kept (saveData cfg now m) w (Archivable cfg now m w ∧ Mailable m) fun _ t =>
      t.sent = w.sent ∧ Archived cfg now m w t := by
  refine Exact.get_bind ?_
  unfold Archivable
  rw [and_assoc]
  refine Exact.bind Kept.trans (makeArchive_exact _) ?_
  rintro _ u ⟨t, hmade, rfl⟩
  refine (Exact.bind Kept.trans (write_exact _ _) ?_).conseq (and_iff_right trivial) fun _ _ _ h => h
  rintro _ u rfl
  cases hmeta : b64decode m.metadata with
  | none => exact (Exact.of_throw Kept.refl _).conseq (by simp) fun _ _ _ h => h
  | some metadata =>
    refine (Exact.bind Kept.trans (write_exact _ _) ?_).conseq (and_iff_right trivial)
      fun _ _ _ h => h
    rintro _ u rfl
    refine (mailRequester_exact _).conseq (by simp) ?_
    rintro _ u - rfl
    refine ⟨rfl, hmade, ⟨metadata, hmeta, ?_⟩, rfl⟩
    rw [List.append_assoc]
    rfl

theorem handle_exact :
    Exact Kept (handle cfg server now m) w
      ((∀ x ∈ m.results.entries, x.2.isDict → cfg.unittest = false → (server x.1).Harmless) ∧
        Archivable cfg now m w ∧ Mailable m)
      fun _ t => t.sent = w.sent ++ (if cfg.unittest then [] else uploads cfg m.results.entries) ∧
        Archived cfg now m w t := by
  refine Exact.bind Kept.trans (uploadAll_exact.weaken fun _ => OnlySent.kept) ?_
  rintro _ u rfl
  refine (@saveData_exact cfg now m _).conseq Iff.rfl ?_
  rintro _ t - ⟨hsent, harch⟩
  exact ⟨hsent, harch.made, harch.written, harch.mailed⟩

theorem uploads_eq_nil {l : List (Sigma fun _ : String => Json)} (h : uploads cfg l = []) :
    ∀ x ∈ l, x.2.isDict = false := by
  intro x hx
  have hnil := List.map_eq_nil_iff.mp h
  simpa using List.filter_eq_nil_iff.mp hnil x hx

/-- The reporter does its work for exactly those messages whose dictionaries are all
sent, and get a reply after which the loop goes on, and whose archive and mail can be made. -/
theorem handle_reports_iff (cfg : ReporterSetting) (server : String → Reply) (now : ℕ)
    (m : ResultsMessage) (w : World) :
    Reports cfg server now m w ↔
      (∀ x ∈ m.results.entries, x.2.isDict → cfg.unittest = false ∧ (server x.1).Harmless) ∧
        Archivable cfg now m w ∧ Mailable m := by
  have hexact := @handle_exact cfg server now m w
  constructor
  · rintro ⟨w', hrun, hsent, -⟩
    obtain ⟨⟨hgood, harch⟩, -, hsent', -⟩ := hexact.ok hrun
    refine ⟨fun x hx hdict => ?_, harch⟩
    cases hunit : cfg.unittest with
    | false => exact ⟨rfl, hgood x hx hdict hunit⟩
    | true =>
      -- nothing was sent, so nothing was to be sent
      rw [hunit, if_pos rfl, hsent] at hsent'
      have hnil := uploads_eq_nil (List.append_cancel_left hsent')
      rw [hnil x hx] at hdict
      cases hdict
  · rintro ⟨hgood, harch⟩
    have hready : ∀ x ∈ m.results.entries,
        x.2.isDict → cfg.unittest = false → (server x.1).Harmless :=
      fun x hx hdict _ => (hgood x hx hdict).2
    cases hrun : handle cfg server now m w with
    | error e w' => exact absurd ⟨hready, harch⟩ (hexact.error hrun).1
    | ok u w' =>
      obtain ⟨-, -, hsent, harchived⟩ := hexact.ok hrun
      refine ⟨w', hrun, ?_, harchived⟩
      rw [hsent]
      cases hunit : cfg.unittest with
      | false => rfl
      | true =>
        have hnone : m.results.entries.filter (fun x => x.2.isDict) = [] := by
          refine List.filter_eq_nil_iff.mpr fun x hx hdict => ?_
          have hfalse := (hgood x hx hdict).1
          rw [hunit] at hfalse
          cases hfalse
        rw [uploads, hnone, if_pos rfl]
        rfl

theorem join_append {a b c : String} (hb : b ≠ "") : join a b ++ c = join a (b ++ c) := by
  have hne : b.toList ≠ [] := fun h => hb (String.toList_inj.mp h)
  have habs : isAbs (b ++ c) = isAbs b := isAbs_append hne
  unfold join
  rw [habs]
  split_ifs <;> simp only [String.append_assoc]

theorem underscore_isName {l : List Char} (h : '_' ∈ l) : IsName l := by
  refine ⟨?_, ?_, ?_⟩ <;> rintro rfl <;> revert h <;> decide

theorem toString_now_plain (now : ℕ) : '/' ∉ (toString now).toList := by
  intro h
  change '/' ∈ (String.ofList (Nat.toDigits 10 now)).toList at h
  rw [String.toList_ofList] at h
  have hdigit := Nat.isDigit_of_mem_toDigits (by decide) (by decide) h
  exact absurd hdigit (by decide)

/-- For a message without slashes the archive cannot be made only if the run has two
archives already, one of them from this second. -/
theorem archivedir_free_iff {t : Tree} (hne : cfg.archives ≠ "") (hroot : t.Has cfg.archives)
    (hplain : '/' ∉ m.dirname.toList) :
    (∃ t', makedirs (archivedir cfg now m t) t = .ok () t') ↔
      ¬ (m.dirname.toList :: t.location cfg.archives ∈ t.dirs ∧
        (m.dirname ++ "_" ++ toString now).toList :: t.location cfg.archives ∈ t.dirs) := by
  have hmem : '_' ∈ m.dirname.toList := by simp [ResultsMessage.dirname]
  have hfirst := isEntry_join hne hplain (underscore_isName hmem)
  have hagain : IsEntry cfg.archives (m.dirname ++ "_" ++ toString now)
      (join cfg.archives (m.dirname ++ "_" ++ toString now)) := by
    apply isEntry_join hne
    · simp only [String.toList_append, List.mem_append, not_or]
      exact ⟨⟨hplain, by decide⟩, toString_now_plain now⟩
    · apply underscore_isName
      simp
  have hpath : join cfg.archives m.dirname ++ "_" ++ toString now =
      join cfg.archives (m.dirname ++ "_" ++ toString now) := by
    have hname : m.dirname ≠ "" := by
      intro h
      rw [h] at hmem
      cases hmem
    rw [String.append_assoc, join_append hname, String.append_assoc]
  unfold archivedir
  by_cases hthere : m.dirname.toList :: t.location cfg.archives ∈ t.dirs
  · rw [if_pos ((exists?_entry_iff hfirst hroot).mpr hthere), hpath, makedirs_entry_iff hagain hroot,
      and_iff_right hthere]
  · rw [if_neg (mt (exists?_entry_iff hfirst hroot).mp hthere), makedirs_entry_iff hfirst hroot]
    simp only [hthere, not_false_eq_true, false_and]

theorem archivable_encoded {bytes : List UInt8} (hm : m.metadata = b64encode bytes) :
    Archivable cfg now m w ↔ ∃ t, makedirs (archivedir cfg now m w.tree) w.tree = .ok () t := by
  rw [Archivable, hm, b64decode_b64encode, Option.isSome_some, and_iff_left rfl]

/-- A reply that ends the loop keeps the run from being archived and the requester from
being told. -/
theorem handle_aborted (hunit : cfg.unittest = false)
    (h : ∃ x ∈ m.results.entries, x.2.isDict ∧ ¬ (server x.1).Harmless) :
    ∃ e w', handle cfg server now m w = .error e w' ∧ OnlySent w w' := by
  have hloop := @uploadAll_exact cfg server m w
  cases hrun : (m.results.entries.forM fun x => uploadDataset cfg server x.1 x.2) w with
  | error e w' => exact ⟨e, w', bind_error hrun, (hloop.error hrun).2⟩
  | ok u w' =>
    obtain ⟨x, hx, hdict, hbad⟩ := h
    exact absurd ((hloop.ok hrun).1 x hx hdict hunit) hbad

end Proofs

/-! ### A bad answer -/

def setting : ReporterSetting := ⟨"datazilla", "stoneridge", "key", "secret", "/archives", false⟩

def twoDatasets : ResultsMessage where
  srid := "s"
  netconfig := "gsm"
  operatingSystem := "linux"
  results := ⟨[⟨"upload_a.json", .object []⟩, ⟨"upload_b.json", .object []⟩], by simp [List.NodupKeys, List.keys]⟩
  metadata := ""
  ldap := some "user"

/-- The server answers with JSON, but not with a dictionary. -/
def answersList (_ : String) : Reply := .response 500 (.text (some (.array [])))

/-- A server whose only directory is `/archives`. -/
def serverTree : Tree where
  dirs := [["archives".toList], []]
  root := by decide
  closed c l h := by
    rcases List.mem_cons.mp h with h | h
    · obtain ⟨-, rfl⟩ := List.cons.inj h
      decide
    · cases List.mem_singleton.mp h
  cwd := []
  cwd_mem := by decide

/-- The answer for the first dataset is a list: the other one is not sent, the run not
archived and the requester not told. -/
theorem bad_answer_aborts :
    Archivable setting 0 twoDatasets ⟨serverTree, [], [], []⟩ ∧ Mailable twoDatasets ∧
      ¬ Reports setting answersList 0 twoDatasets ⟨serverTree, [], [], []⟩ := by
  have hentry : IsEntry "/archives" "s_gsm_linux" (join "/archives" "s_gsm_linux") :=
    isEntry_join (by decide) (by decide) (by decide)
  have hroot : serverTree.Has "/archives" := by
    unfold Tree.Has
    decide
  refine ⟨?_, ?_, ?_⟩
  · refine ⟨?_, rfl⟩
    have hfree := @archivedir_free_iff setting 0 twoDatasets serverTree (by decide) hroot (by decide)
    exact hfree.mpr fun h => absurd h.1 (by decide)
  · intro ldap hldap
    obtain rfl := Option.some.inj hldap
    decide
  · rintro ⟨w', hrun, -⟩
    have hdict : ∃ x ∈ twoDatasets.results.entries, x.2.isDict ∧ ¬ (answersList x.1).Harmless :=
      ⟨⟨"upload_a.json", .object []⟩, List.mem_cons_self, rfl, id⟩
    obtain ⟨e, w, herr, -⟩ := @handle_aborted setting answersList 0 twoDatasets _ rfl hdict
    rw [herr] at hrun
    cases hrun

end StoneRidge.Reporter
