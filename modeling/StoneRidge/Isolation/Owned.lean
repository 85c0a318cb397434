import StoneRidge.Config.Unspecial
import StoneRidge.Isolation.Handling

/-!
# What a handling owns

From the first stage of a handling to the last one, every file at or below its working
directory has been written in this handling, the files with a fixed name or an upload
file's name hold what such a file should, and nothing but these files has been read.
-/

set_option autoImplicit false

namespace StoneRidge.Isolation
open StoneRidge.Kit.Exec StoneRidge.Kit.Files StoneRidge.Kit.PyText StoneRidge.Kit.PosixPath
open StoneRidge.Kit.PosixTree StoneRidge.Kit.PosixDisk
open StoneRidge.Config (Text getConfig runOptions)
open StoneRidge.Dispatch (RunMessage)

/-- The message is about its run, and the handling of the run has written what it read. -/
structure Isolated (u : Sent) : Prop where
  srid : u.message.srid = some u.run.srid.toList
  netconfig : u.message.netconfig = some u.run.netconfig.name.toList
  ldap : u.message.ldap = if u.run.ldap = "" then none else some u.run.ldap.toList
  dated : ∀ name j, u.message.results.lookup name = some j →
    ∃ up, j = .upload up ∧ up.date = u.run.tstamp
  sources : ∀ w ∈ u.sources, w = u.handling

/-- A handling whose run.ini is read as it was written, and the queue before it. -/
structure Handling (client : Client) where
  run : RunMessage
  number : ℕ
  before : List Sent
  srwork : String
  work : Location
  ini : Text
  ne_empty : srwork ≠ ""
  readBack : ∀ o ∈ runOptions run srwork client.firefoxPath,
    getConfig client.main.toConfigParser ini "run".toList o.1.toList = .ok (some o.2.toList)
  noLdap : run.ldap = "" →
    getConfig client.main.toConfigParser ini "run".toList "ldap".toList = .ok none

def runIni : Name := ⟨"run.ini".toList, by decide, by decide⟩

section Names
variable {client : Client} {h : Handling client}

def Handling.srout (h : Handling client) : String := join h.srwork "out"

def Handling.out (h : Handling client) : Location := "out".toList :: h.work

/-- What run.ini says about a run in this out directory. -/
def toldFor (m : RunMessage) (srout : String) : RunConfig where
  netconfig := .ok (some m.netconfig.name.toList)
  out := .ok (some srout.toList)
  metadata := .ok (some (join srout "metadata.zip").toList)
  info := .ok (some (join srout "info.json").toList)
  tstamp := .ok (some (toString m.tstamp).toList)
  srid := .ok (some m.srid.toList)
  ldap := .ok (if m.ldap = "" then none else some m.ldap.toList)

def Handling.told (h : Handling client) : RunConfig := toldFor h.run h.srout

/-- What a file in the out directory holds, where its name says so. -/
structure Proper (h : Handling client) (name : Name) (content : Content) : Prop where
  ini : name.toString = "run.ini" → content = .text h.ini
  info : name.toString = "info.json" →
    ∃ i, content = .json (.info i) ∧ i.date = h.run.tstamp
  upload : globbed "upload_" ".json" name.toString = true →
    ∃ u, content = .json (.upload u) ∧ u.date = h.run.tstamp

structure Owned (h : Handling client) (s : Machine) : Prop where
  has : s.disk.tree.Has h.srout
  place : s.disk.tree.location h.srout = h.out
  written : ∀ l name f, h.work <:+ l → (s.disk.files l).lookup name = some f →
    f.writer = h.number
  proper : ∀ name f, (s.disk.files h.out).lookup name = some f → Proper h name f.content
  ini : (s.disk.files h.out).lookup runIni = some ⟨.text h.ini, h.number⟩
  sources : ∀ w ∈ s.sources, w = h.number
  run : s.run = h.run
  handling : s.handling = h.number
  sent : ∀ u ∈ s.sent, u ∈ h.before ∨ (u.run = h.run ∧ Isolated u)

theorem Handling.srout_entry (h : Handling client) : IsEntry h.srwork "out" h.srout :=
  isEntry_join h.ne_empty (by decide) (by decide)

theorem Handling.srout_last (h : Handling client) : h.srout.toList.getLast? ≠ some '/' := by
  obtain ⟨x, _, heq⟩ := join_eq_append h.srwork "out" (by decide)
  have hlast : h.srout.toList.getLast? = some 't' := by
    unfold Handling.srout
    rw [heq, String.toList_append, List.getLast?_append]
    rfl
  rw [hlast]
  decide

theorem work_suffix_out (h : Handling client) : h.work <:+ h.out := List.suffix_cons _ _

theorem Handling.told_eq (h : Handling client) :
    RunConfig.of (fun option =>
      getConfig client.main.toConfigParser h.ini "run".toList option.toList) = h.told := by
  have hldap : getConfig client.main.toConfigParser h.ini "run".toList "ldap".toList =
      .ok (if h.run.ldap = "" then none else some h.run.ldap.toList) := by
    by_cases hempty : h.run.ldap = ""
    · rw [if_pos hempty]
      exact h.noLdap hempty
    · rw [if_neg hempty]
      refine h.readBack ("ldap", h.run.ldap) (List.mem_append_right _ ?_)
      rw [if_pos hempty]
      exact List.mem_singleton_self _
  unfold RunConfig.of Handling.told toldFor
  congr 1
  · exact h.readBack ("netconfig", h.run.netconfig.name) (by simp [runOptions])
  · exact h.readBack ("out", h.srout) (by simp [runOptions, Handling.srout])
  · exact h.readBack ("metadata", join h.srout "metadata.zip")
      (by simp [runOptions, Handling.srout])
  · exact h.readBack ("info", join h.srout "info.json") (by simp [runOptions, Handling.srout])
  · exact h.readBack ("tstamp", toString h.run.tstamp) (by simp [runOptions])
  · exact h.readBack ("srid", h.run.srid) (by simp [runOptions])

/-- A name with another ending says nothing about the file. -/
theorem proper_of_ending {name : Name} {content : Content} {ending : String}
    (hends : endsWith name.toString ending = true) (hlen : ending.toList.length ≤ 5)
    (hini : endsWith "run.ini" ending = false) (hjson : endsWith ".json" ending = false) :
    Proper h name content := by
  have hno : endsWith name.toString ".json" = true → False := by
    intro hend
    rw [endsWith_of_endsWith hend hends hlen] at hjson
    cases hjson
  refine ⟨?_, ?_, ?_⟩
  · intro heq
    rw [heq, hini] at hends
    cases hends
  · intro heq
    rw [heq] at hno
    exact (hno (by decide)).elim
  · intro hglob
    exact (hno (globbed_endsWith hglob)).elim

end Names

section Steps
variable {client : Client} {h : Handling client} {s : Machine} {l : Location} {name : Name}

theorem Owned.operations (ho : Owned h s) (n : ℕ) : Owned h { s with operations := n } :=
  ⟨ho.has, ho.place, ho.written, ho.proper, ho.ini, ho.sources, ho.run, ho.handling, ho.sent⟩

theorem Owned.read (ho : Owned h s) {ws : List ℕ} (hws : ∀ w ∈ ws, w = h.number) :
    Owned h { s with sources := s.sources ++ ws } := by
  refine ⟨ho.has, ho.place, ho.written, ho.proper, ho.ini, ?_, ho.run, ho.handling, ho.sent⟩
  intro w hw
  exact (List.mem_append.mp hw).elim (ho.sources w) (hws w)

theorem Owned.insert (ho : Owned h s) {content : Content} (hl : l ∈ s.disk.tree.dirs)
    (hproper : l = h.out → Proper h name content) :
    Owned h { s with disk := s.disk.insert l hl name ⟨content, s.handling⟩ } := by
  refine ⟨ho.has, ho.place, ?_, ?_, ?_, ho.sources, ho.run, ho.handling, ho.sent⟩
  · intro x n f hx hlookup
    simp only [lookup_insert] at hlookup
    split at hlookup
    · rw [← Option.some.inj hlookup]
      exact ho.handling
    · exact ho.written x n f hx hlookup
  · intro n f hlookup
    simp only [lookup_insert] at hlookup
    split at hlookup
    next heq =>
      rw [← Option.some.inj hlookup, heq.2]
      exact hproper heq.1.symm
    next => exact ho.proper n f hlookup
  · simp only [lookup_insert]
    split
    next heq =>
      rw [(hproper heq.1.symm).ini (by rw [← heq.2]; rfl), ho.handling]
    next => exact ho.ini

theorem Owned.erase (ho : Owned h s) (hl : l ≠ h.out) :
    Owned h { s with disk := s.disk.erase l name } := by
  refine ⟨ho.has, ho.place, ?_, ?_, ?_, ho.sources, ho.run, ho.handling, ho.sent⟩
  · exact fun x n f hx hlookup => ho.written x n f hx (lookup_erase hlookup)
  · exact fun n f hlookup => ho.proper n f (lookup_erase hlookup)
  · change (Function.update s.disk.files l _ h.out).lookup runIni = _
    rw [Function.update_of_ne hl.symm]
    exact ho.ini

theorem Owned.setTree (ho : Owned h s) {t : Tree} (hgrown : Grown s.disk.tree t) :
    Owned h { s with disk := s.disk.setTree t } := by
  have hout : h.out ∈ t.dirs := by
    rw [← ho.place]
    exact hgrown.mem _ ho.has.location_mem
  refine ⟨hgrown.has ho.has, (hgrown.location_eq _).trans ho.place, ?_, ?_, ?_, ho.sources, ho.run,
    ho.handling, ho.sent⟩
  · exact fun x n f hx hlookup => ho.written x n f hx (lookup_setTree hlookup)
  · exact fun n f hlookup => ho.proper n f (lookup_setTree hlookup)
  · change (if h.out ∈ t.dirs then s.disk.files h.out else ∅ : AList _).lookup runIni = _
    rw [if_pos hout]
    exact ho.ini

theorem Owned.doScribble (ho : Owned h s) (scribble : Scribble) :
    Owned h { s with disk := doScribble h.srout s.handling s.disk scribble } := by
  cases scribble with
  | write l name content =>
    unfold Isolation.doScribble
    simp only
    split_ifs with hout hl
    · exact ho
    · exact ho.insert hl fun heq => absurd (heq.trans ho.place.symm) hout
    · exact ho
  | unlink l name =>
    unfold Isolation.doScribble
    simp only
    split_ifs with hout
    · exact ho
    · exact ho.erase fun heq => hout (heq.trans ho.place.symm)
  | mkdir l name =>
    unfold Isolation.doScribble
    simp only
    split_ifs with hl
    · exact ho.setTree (grown_insert hl)
    · exact ho

theorem Owned.scribbles (ho : Owned h s) (scribbles : List Scribble) :
    Owned h { s with disk := scribbles.foldl (Isolation.doScribble h.srout s.handling) s.disk } := by
  induction scribbles generalizing s with
  | nil => exact ho
  | cons scribble scribbles ih => exact ih (ho.doScribble scribble)

/-- What is read from the out directory is what its name says, and is the handling's. -/
theorem Owned.entry (ho : Owned h s) {f : File}
    (hread : s.disk.read (join h.srout name.toString) = some f) :
    f.writer = h.number ∧ Proper h name f.content := by
  rw [read_entry (name.isEntry_join h.srout_entry.ne_empty) ho.has, ho.place] at hread
  exact ⟨ho.written h.out name f (work_suffix_out h) hread, ho.proper name f hread⟩

theorem readConfig_owned (ho : Owned h s) : readConfig client (join h.srout "run.ini") s =
    .ok h.told { s with sources := s.sources ++ [h.number] } := by
  have hread : s.disk.read (join h.srout "run.ini") = some ⟨.text h.ini, h.number⟩ := by
    have hentry : IsEntry h.srout runIni.toString (join h.srout "run.ini") :=
      runIni.isEntry_join h.srout_entry.ne_empty
    rw [read_entry hentry ho.has, ho.place]
    exact ho.ini
  unfold readConfig
  rw [bind_ok (get_apply s)]
  simp only [hread]
  rw [bind_ok (set_apply s _), h.told_eq]
  rfl

end Steps

end StoneRidge.Isolation
