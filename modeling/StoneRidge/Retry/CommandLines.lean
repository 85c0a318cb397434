import StoneRidge.Retry.Programs

/-!
# What the command lines carry

The master's command line for the cloner and the cloner's for the deferrer, item by
item: each program finds the fields of the request that the one before put there.
-/

set_option autoImplicit false

namespace StoneRidge.Retry
open StoneRidge.Kit StoneRidge.Kit.ArgParse StoneRidge.Dispatch StoneRidge.Cloner

/-! ### From the master to the cloner -/

/-- The part of a command line that says what to clone. -/
def buildItems (nightly : Bool) (ldap sha : String) (oss ncs : List String) : List Item :=
  if nightly then [⟨"--nightly", none⟩]
  else [⟨"--ldap", some ldap⟩, ⟨"--sha", some sha⟩] ++
    (oss.map Item.flag ++ ncs.map Item.flag)

theorem render_buildItems (nightly : Bool) (ldap sha : String) (oss ncs : List String) :
    render (buildItems nightly ldap sha oss ncs) = if nightly then ["--nightly"]
      else ["--ldap", ldap] ++ ["--sha", sha] ++ oss.map ("--" ++ ·) ++ ncs.map ("--" ++ ·) := by
  unfold buildItems
  cases nightly with
  | true => rfl
  | false =>
    simp only [Bool.false_eq_true, ite_false, render_append, render_flags]
    rfl

section Cloner
variable {cfg : MasterSetting} {r : Request} {srid : String} {settings : String → Setting}
  {c : StoneRidgeCloner}

def clonerLog (cfg : MasterSetting) (srid : String) : String :=
  PosixPath.join cfg.logdir ("cloner_" ++ srid ++ ".log")

def clonerItems (cfg : MasterSetting) (r : Request) (srid : String) : List Item :=
  [⟨"--config", some cfg.config⟩, ⟨"--srid", some srid⟩, ⟨"--log", some (clonerLog cfg srid)⟩,
    ⟨"--attempt", some (toString r.attempt)⟩] ++
    buildItems r.nightly r.ldap r.sha r.operatingSystems r.netconfigs

theorem clonerArgs_some (hr : Accepted r) :
    r.clonerArgs cfg srid = some ("srcloner.py" :: render (clonerItems cfg r srid)) := by
  unfold Request.clonerArgs clonerItems
  rw [render_append, render_buildItems]
  cases hn : r.nightly with
  | true => rfl
  | false =>
    obtain ⟨hldap, hsha⟩ := hr.build hn
    simp only [Bool.false_eq_true, ite_false, hldap, hsha, or_self]
    rfl

/-- The names that a request or a cloner lists are valid. -/
structure Known (oss ncs : List String) : Prop where
  operatingSystems : ∀ s ∈ oss, s ∈ Dispatch.operatingSystems
  netconfigs : ∀ s ∈ ncs, s ∈ Dispatch.netconfigs

theorem Accepted.known (hr : Accepted r) : Known r.operatingSystems r.netconfigs :=
  ⟨hr.operatingSystems.2, hr.netconfigs.2⟩

theorem take_os {s : String} (hs : s ∈ Dispatch.operatingSystems) (n : ClonerArgs) :
    (Item.flag s).take clonerParser n = some (ClonerArgs.addOs [s] n) := by
  fin_cases hs <;> rfl

theorem take_netconfig {s : String} (hs : s ∈ Dispatch.netconfigs) (n : ClonerArgs) :
    (Item.flag s).take clonerParser n = some (ClonerArgs.addNetconfigs [s] n) := by
  fin_cases hs <;> rfl

theorem fits_os {s : String} (hs : s ∈ Dispatch.operatingSystems) :
    (Item.flag s).fits clonerParser = true ∧ (Item.flag s).fits deferrerParser = true := by
  fin_cases hs <;> exact ⟨rfl, rfl⟩

theorem fits_netconfig {s : String} (hs : s ∈ Dispatch.netconfigs) :
    (Item.flag s).fits clonerParser = true ∧ (Item.flag s).fits deferrerParser = true := by
  fin_cases hs <;> exact ⟨rfl, rfl⟩

theorem buildItems_fits {nightly : Bool} {ldap sha : String} {oss ncs : List String}
    (h : Known oss ncs) : ∀ i ∈ buildItems nightly ldap sha oss ncs,
      i.fits clonerParser = true ∧ i.fits deferrerParser = true := by
  intro i hi
  unfold buildItems at hi
  cases nightly with
  | true =>
    simp only [ite_true, List.mem_singleton] at hi
    subst hi
    exact ⟨rfl, rfl⟩
  | false =>
    simp only [Bool.false_eq_true, ite_false, List.mem_append, List.mem_cons, List.not_mem_nil,
      or_false, List.mem_map] at hi
    rcases hi with (rfl | rfl) | ⟨s, hs, rfl⟩ | ⟨s, hs, rfl⟩
    · exact ⟨Item.fits_value rfl (by decide) rfl, Item.fits_value rfl (by decide) rfl⟩
    · exact ⟨Item.fits_value rfl (by decide) rfl, Item.fits_value rfl (by decide) rfl⟩
    · exact fits_os (h.operatingSystems s hs)
    · exact fits_netconfig (h.netconfigs s hs)

/-- What the cloner finds on its command line. -/
def clonerNamespace (cfg : MasterSetting) (r : Request) (srid : String) : ClonerArgs where
  config := some cfg.config
  log := some (clonerLog cfg srid)
  nightly := r.nightly
  srid := some srid
  operatingSystems := if r.nightly then [] else r.operatingSystems
  netconfigs := if r.nightly then [] else r.netconfigs
  attempt := some r.attempt
  ldap := r.ldap
  sha := r.sha

theorem takeAll_clonerItems (hr : Accepted r) :
    takeAll clonerParser (clonerItems cfg r srid) {} = some (clonerNamespace cfg r srid) := by
  have hattempt : ∀ n, (Item.mk "--attempt" (some (toString r.attempt))).take clonerParser n =
      some { n with attempt := some r.attempt } := by
    intro n
    show (PyText.int? (toString r.attempt)).map _ = _
    rw [PyText.int?_toString]
    rfl
  have hbase : takeAll clonerParser [⟨"--config", some cfg.config⟩, ⟨"--srid", some srid⟩,
      ⟨"--log", some (clonerLog cfg srid)⟩, ⟨"--attempt", some (toString r.attempt)⟩] {} =
      some { config := some cfg.config, srid := some srid, log := some (clonerLog cfg srid),
             attempt := some r.attempt } := by
    show ((Item.mk "--attempt" (some (toString r.attempt))).take clonerParser _).bind _ = _
    rw [hattempt]
    rfl
  unfold clonerItems buildItems clonerNamespace
  rw [takeAll_append, hbase, Option.bind_some]
  cases hn : r.nightly with
  | true =>
    obtain ⟨hldap, hsha⟩ := hr.nightly hn
    rw [hldap, hsha]
    rfl
  | false =>
    simp only [Bool.false_eq_true, ite_false]
    rw [takeAll_append]
    show takeAll clonerParser (r.operatingSystems.map Item.flag ++ r.netconfigs.map Item.flag) _ = _
    rw [takeAll_append,
      takeAll_flags ClonerArgs.addOs (by simp [ClonerArgs.addOs]) (by simp [ClonerArgs.addOs]) _
        (fun s hs => take_os (hr.operatingSystems.2 s hs)),
      Option.bind_some,
      takeAll_flags ClonerArgs.addNetconfigs (by simp [ClonerArgs.addNetconfigs])
        (by simp [ClonerArgs.addNetconfigs]) _
        (fun s hs => take_netconfig (hr.netconfigs.2 s hs))]
    rfl

/-- The cloner that a request gets. -/
def clonerOf (settings : String → Setting) (cfg : MasterSetting) (r : Request) (srid : String) :
    StoneRidgeCloner where
  setting := { settings cfg.config with configFile := cfg.config }
  nightly := r.nightly
  srid := srid
  operatingSystems := if r.nightly then [] else r.operatingSystems
  netconfigs := if r.nightly then [] else r.netconfigs
  ldap := r.ldap
  sha := r.sha
  attempt := r.attempt

theorem clonerItems_fits (hr : Accepted r) :
    ∀ i ∈ clonerItems cfg r srid, i.fits clonerParser = true := by
  intro i hi
  rcases List.mem_append.mp hi with hi | hi
  · simp only [List.mem_cons, List.not_mem_nil, or_false] at hi
    rcases hi with rfl | rfl | rfl | rfl <;> exact Item.fits_value rfl (by decide) rfl
  · exact (buildItems_fits hr.known i hi).1

theorem clonerMain_sound (hr : Accepted r)
    (h : clonerMain settings (render (clonerItems cfg r srid)) = some c) :
    c = clonerOf settings cfg r srid := by
  unfold clonerMain at h
  cases hparse : parseArgs clonerParser {} (render (clonerItems cfg r srid)) with
  | error e => simp [hparse] at h
  | ok n =>
    have htake := parseArgs_sound (clonerItems_fits hr) hparse
    rw [takeAll_clonerItems hr] at htake
    cases htake
    rw [hparse] at h
    cases h
    rfl

/-- A text that a parser cannot take for an option. -/
def NoDash (s : String) : Prop := s.toList.head? ≠ some '-'

theorem buildItems_values {N : Type} (p : List (Argument N)) {nightly : Bool} {ldap sha : String}
    (oss ncs : List String) (hldap : NoDash ldap) (hsha : NoDash sha) :
    ∀ i ∈ buildItems nightly ldap sha oss ncs, ∀ v, i.value = some v → Positional p v := by
  intro i hi v hv
  unfold buildItems at hi
  cases nightly with
  | true =>
    simp only [ite_true, List.mem_singleton] at hi
    subst hi
    cases hv
  | false =>
    simp only [Bool.false_eq_true, ite_false, List.mem_append, List.mem_cons, List.not_mem_nil,
      or_false, List.mem_map] at hi
    rcases hi with (rfl | rfl) | ⟨s, _, rfl⟩ | ⟨s, _, rfl⟩
    · cases hv
      exact positional_of_head hldap
    · cases hv
      exact positional_of_head hsha
    · cases hv
    · cases hv

theorem clonerParser_supplied :
    Supplied clonerParser ["--config", "--srid", "--log", "--attempt"] := by
  unfold Supplied
  decide

theorem clonerMain_complete (hr : Accepted r) (hconfig : NoDash cfg.config) (hsrid : NoDash srid)
    (hlog : NoDash (clonerLog cfg srid)) (hldap : NoDash r.ldap) (hsha : NoDash r.sha) :
    clonerMain settings (render (clonerItems cfg r srid)) =
      some (clonerOf settings cfg r srid) := by
  have hvalues : ∀ i ∈ clonerItems cfg r srid, ∀ v, i.value = some v →
      Positional clonerParser v := by
    intro i hi v hv
    rcases List.mem_append.mp hi with hi | hi
    · simp only [List.mem_cons, List.not_mem_nil, or_false] at hi
      rcases hi with rfl | rfl | rfl | rfl
      · cases hv
        exact positional_of_head hconfig
      · cases hv
        exact positional_of_head hsrid
      · cases hv
        exact positional_of_head hlog
      · cases hv
        exact positional_toString (by decide) r.attempt
    · exact buildItems_values clonerParser _ _ hldap hsha i hi v hv
  have hsupplied : Supplied clonerParser ((clonerItems cfg r srid).map Item.option) := by
    unfold clonerItems
    rw [List.map_append]
    exact clonerParser_supplied.append _
  unfold clonerMain
  rw [parseArgs_complete (clonerItems_fits hr) hvalues hsupplied (takeAll_clonerItems hr)]
  rfl

end Cloner

/-! ### From the cloner to the deferrer -/

section Deferrer
variable {c : StoneRidgeCloner} {pidfile : String} {keys : Keys} {m : Request}

def deferrerItems (c : StoneRidgeCloner) (pidfile : String) : List Item :=
  [⟨"--srid", some c.srid⟩, ⟨"--config", some c.setting.configFile⟩, ⟨"--log", some "/dev/null"⟩,
    ⟨"--pidfile", some pidfile⟩, ⟨"--attempt", some (toString (c.attempt + 1))⟩] ++
    buildItems c.nightly c.ldap c.sha c.operatingSystems c.netconfigs

theorem deferArgs_eq (c : StoneRidgeCloner) (pidfile : String) :
    c.deferArgs pidfile = "srdeferrer.py" :: render (deferrerItems c pidfile) := by
  unfold StoneRidgeCloner.deferArgs deferrerItems
  rw [render_append, render_buildItems]
  cases c.nightly with
  | true => rfl
  | false =>
    simp only [Bool.false_eq_true, ite_false]
    rfl

theorem deferrer_take_os {s : String} (hs : s ∈ Dispatch.operatingSystems) (n : DeferrerArgs) :
    (Item.flag s).take deferrerParser n = some (DeferrerArgs.addOs [s] n) := by
  fin_cases hs <;> rfl

theorem deferrer_take_netconfig {s : String} (hs : s ∈ Dispatch.netconfigs) (n : DeferrerArgs) :
    (Item.flag s).take deferrerParser n = some (DeferrerArgs.addNetconfigs [s] n) := by
  fin_cases hs <;> rfl

/-- What the deferrer finds on its command line. -/
def deferrerNamespace (c : StoneRidgeCloner) (pidfile : String) : DeferrerArgs where
  config := some c.setting.configFile
  log := some "/dev/null"
  pidfile := pidfile
  srid := some c.srid
  attempt := some (c.attempt + 1)
  nightly := c.nightly
  ldap := if c.nightly then "" else c.ldap
  sha := if c.nightly then "" else c.sha
  netconfigs := if c.nightly then [] else c.netconfigs
  operatingSystems := if c.nightly then [] else c.operatingSystems

theorem takeAll_deferrerItems (hc : Known c.operatingSystems c.netconfigs) :
    takeAll deferrerParser (deferrerItems c pidfile) {} = some (deferrerNamespace c pidfile) := by
  have hattempt : ∀ n, (Item.mk "--attempt" (some (toString (c.attempt + 1)))).take
      deferrerParser n = some { n with attempt := some (c.attempt + 1) } := by
    intro n
    show (PyText.int? (toString (c.attempt + 1))).map _ = _
    rw [PyText.int?_toString]
    rfl
  have hbase : takeAll deferrerParser [⟨"--srid", some c.srid⟩,
      ⟨"--config", some c.setting.configFile⟩, ⟨"--log", some "/dev/null"⟩,
      ⟨"--pidfile", some pidfile⟩, ⟨"--attempt", some (toString (c.attempt + 1))⟩] {} =
      some { srid := some c.srid, config := some c.setting.configFile, log := some "/dev/null",
             pidfile := pidfile, attempt := some (c.attempt + 1) } := by
    show ((Item.mk "--attempt" (some (toString (c.attempt + 1)))).take deferrerParser _).bind _ = _
    rw [hattempt]
    rfl
  unfold deferrerItems buildItems deferrerNamespace
  rw [takeAll_append, hbase, Option.bind_some]
  cases hn : c.nightly with
  | true => rfl
  | false =>
    simp only [Bool.false_eq_true, ite_false]
    rw [takeAll_append]
    show takeAll deferrerParser (c.operatingSystems.map Item.flag ++ c.netconfigs.map Item.flag) _ = _
    rw [takeAll_append,
      takeAll_flags DeferrerArgs.addOs (by simp [DeferrerArgs.addOs])
        (by simp [DeferrerArgs.addOs]) _
        (fun s hs => deferrer_take_os (hc.operatingSystems s hs)),
      Option.bind_some,
      takeAll_flags DeferrerArgs.addNetconfigs (by simp [DeferrerArgs.addNetconfigs])
        (by simp [DeferrerArgs.addNetconfigs]) _
        (fun s hs => deferrer_take_netconfig (hc.netconfigs s hs))]
    rfl

theorem deferrerItems_fits (hc : Known c.operatingSystems c.netconfigs) :
    ∀ i ∈ deferrerItems c pidfile, i.fits deferrerParser = true := by
  intro i hi
  rcases List.mem_append.mp hi with hi | hi
  · simp only [List.mem_cons, List.not_mem_nil, or_false] at hi
    rcases hi with rfl | rfl | rfl | rfl | rfl <;> exact Item.fits_value rfl (by decide) rfl
  · exact (buildItems_fits hc i hi).2

/-- What the deferrer of `c` enqueues. -/
def deferred (keys : Keys) (c : StoneRidgeCloner) : Option Request :=
  enqueue keys c.nightly (if c.nightly then "" else c.ldap) (if c.nightly then "" else c.sha)
    (if c.nightly then [] else c.netconfigs) (if c.nightly then [] else c.operatingSystems)
    (some c.srid) (c.attempt + 1)

theorem deferrerMain_sound (hc : Known c.operatingSystems c.netconfigs)
    (h : deferrerMain keys (render (deferrerItems c pidfile)) = some m) :
    deferred keys c = some m := by
  unfold deferrerMain at h
  cases hparse : parseArgs deferrerParser {} (render (deferrerItems c pidfile)) with
  | error e => simp [hparse] at h
  | ok n =>
    have htake := parseArgs_sound (deferrerItems_fits hc) hparse
    rw [takeAll_deferrerItems hc] at htake
    cases htake
    simp only [hparse] at h
    split at h
    · cases h
    · exact h

theorem deferrerParser_supplied :
    Supplied deferrerParser ["--srid", "--config", "--log", "--pidfile", "--attempt"] := by
  unfold Supplied
  decide

theorem deferrerMain_complete (hc : Known c.operatingSystems c.netconfigs)
    (hconfig : NoDash c.setting.configFile) (hsrid : NoDash c.srid) (hldap : NoDash c.ldap)
    (hsha : NoDash c.sha) (hpidfile : NoDash pidfile) (hne : pidfile ≠ "") :
    deferrerMain keys (render (deferrerItems c pidfile)) = deferred keys c := by
  have hvalues : ∀ i ∈ deferrerItems c pidfile, ∀ v, i.value = some v →
      Positional deferrerParser v := by
    intro i hi v hv
    rcases List.mem_append.mp hi with hi | hi
    · simp only [List.mem_cons, List.not_mem_nil, or_false] at hi
      rcases hi with rfl | rfl | rfl | rfl | rfl
      · cases hv
        exact positional_of_head hsrid
      · cases hv
        exact positional_of_head hconfig
      · cases hv
        exact positional_of_head (by decide)
      · cases hv
        exact positional_of_head hpidfile
      · cases hv
        exact positional_toString (by decide) (c.attempt + 1)
    · exact buildItems_values deferrerParser _ _ hldap hsha i hi v hv
  have hsupplied : Supplied deferrerParser ((deferrerItems c pidfile).map Item.option) := by
    unfold deferrerItems
    rw [List.map_append]
    exact deferrerParser_supplied.append _
  unfold deferrerMain
  rw [parseArgs_complete (deferrerItems_fits hc) hvalues hsupplied (takeAll_deferrerItems hc)]
  have hdaemon : (deferrerNamespace c pidfile).nodaemon ≠
      decide ((deferrerNamespace c pidfile).pidfile ≠ "") := by
    show false ≠ decide (pidfile ≠ "")
    simp [hne]
  simp only [if_neg hdaemon]
  rfl

end Deferrer

/-! ### One round -/

/-- `m` asks for the same as `r`, `k` attempts later. -/
structure Again (k : ℤ) (r m : Request) : Prop where
  nightly : m.nightly = r.nightly
  ldap : m.ldap = r.ldap
  sha : m.sha = r.sha
  netconfigs : m.effectiveNetconfigs = r.effectiveNetconfigs
  operatingSystems : m.effectiveOperatingSystems = r.effectiveOperatingSystems
  attempt : m.attempt = r.attempt + k

structure Retried (srid : String) (k : ℤ) (r m : Request) : Prop extends Again k r m where
  srid : m.srid = some srid

theorem Again.refl (r : Request) : Again 0 r r := ⟨rfl, rfl, rfl, rfl, rfl, (Int.add_zero _).symm⟩

theorem Again.trans {j k : ℤ} {r m n : Request} (h : Again j r m) (h' : Again k m n) :
    Again (j + k) r n where
  nightly := h'.nightly.trans h.nightly
  ldap := h'.ldap.trans h.ldap
  sha := h'.sha.trans h.sha
  netconfigs := h'.netconfigs.trans h.netconfigs
  operatingSystems := h'.operatingSystems.trans h.operatingSystems
  attempt := by
    rw [h'.attempt, h.attempt]
    omega

section Round
variable {keys : Keys} {settings : String → Setting} {cfg : MasterSetting} {r m : Request}
  {srid : String}

theorem clonerOf_known (hr : Accepted r) : Known (clonerOf settings cfg r srid).operatingSystems
    (clonerOf settings cfg r srid).netconfigs := by
  unfold clonerOf
  cases r.nightly with
  | true => exact ⟨by simp, by simp⟩
  | false => exact hr.known

theorem deferred_retried (hr : Accepted r)
    (h : deferred keys (clonerOf settings cfg r srid) = some m) :
    Accepted m ∧ Retried srid 1 r m := by
  unfold deferred at h
  obtain ⟨hm, ncs, oss, hncs, hoss, rfl⟩ := enqueue_some h
  refine ⟨hm, ?_⟩
  unfold clonerOf at hncs hoss ⊢
  cases hn : r.nightly with
  | true =>
    obtain ⟨hldap, hsha⟩ := hr.nightly hn
    refine ⟨⟨hn.symm, hldap.symm, hsha.symm, ?_, ?_, rfl⟩, rfl⟩
    · unfold Request.effectiveNetconfigs
      simp [hn]
    · unfold Request.effectiveOperatingSystems
      simp [hn]
  | false =>
    simp only [hn, Bool.false_eq_true, ite_false] at hncs hoss
    have hncs' := (checked_some keys.netconfigs_perm (by decide) hncs).2 hr.netconfigs.1
    have hoss' := (checked_some keys.operatingSystems_perm (by decide) hoss).2 hr.operatingSystems.1
    refine ⟨⟨hn.symm, rfl, rfl, ?_, ?_, rfl⟩, rfl⟩
    · unfold Request.effectiveNetconfigs
      simp [hn, hncs']
    · unfold Request.effectiveOperatingSystems
      simp [hn, hoss']

/-- The deferrer's `enqueue` does not raise. -/
theorem deferred_isSome (hr : Accepted r) :
    (deferred keys (clonerOf settings cfg r srid)).isSome := by
  unfold deferred clonerOf enqueue
  cases hn : r.nightly with
  | true => simp [checked]
  | false =>
    obtain ⟨hldap, hsha⟩ := hr.build hn
    simp only [Bool.false_eq_true, ite_false,
      checked_known keys.netconfigs_perm hr.netconfigs.2 hr.netconfigs.1,
      checked_known keys.operatingSystems_perm hr.operatingSystems.2 hr.operatingSystems.1,
      hldap, hsha, or_self, Option.isSome_some]

end Round

end StoneRidge.Retry
