import StoneRidge.Config.ReadBack

/-!
# The settings of whoever pushes

`tools/srpush.py` takes the ldap name, the password and the host from its configuration file,
if it is given one, lets the environment override them, asks for what is missing and saves what
it was told (`tools/srpush.py:41-72`, `tools/srpush.py:123-177`). The file is one that only
`srpush` has written, so it has no section but its own.
-/

set_option autoImplicit false

namespace StoneRidge.Push
open StoneRidge.Kit.Lines StoneRidge.Kit.PyText StoneRidge.Kit.PosixPath StoneRidge.Config

inductive Setting where
  | ldap
  | password
  | host
  deriving DecidableEq

def Setting.name : Setting → String
  | .ldap => "ldap"
  | .password => "password"
  | .host => "host"

def allSettings : List Setting := [.ldap, .password, .host]

/-- A run of `srpush.py`, by what it finds around it. -/
structure Invocation where
  home : Option String
  /-- The value of `--config`. -/
  configOption : Option String
  getenv : Setting → Option Text
  /-- The line that the user types when asked; nothing where the question is interrupted. -/
  rawInput : Setting → Option Text
  line : ∀ s l, rawInput s = some l → '\n' ∉ l
  /-- The configuration file can be opened for writing. -/
  opens : Bool
  /-- The order in which the section's dictionary has the options when they are saved. -/
  order : List Setting
  mem_order : ∀ s, s ∈ order
  order_nodup : order.Nodup

inductive Raised where
  | config (e : Config.Error)
  | valueError
  | interrupted
  | ioError

/-- The files by their names. -/
abbrev Files := String → Option Text

/-- `default_config` -/
def defaultConfig (home : Option String) : Option String :=
  match home with
  | none => none
  | some homedir => if homedir = "" then none else some (join homedir ".srpush.ini")

/-- `_interpvar_re.sub('', value)` -/
def dropVariables (value : Text) : Text :=
  match value with
  | [] => []
  | '%' :: '(' :: rest =>
    match hvar : interpolationVariable rest with
    | some (_, rest') =>
      have _hlen : rest'.length < rest.length := interpolationVariable_length hvar
      dropVariables rest'
    | none => '%' :: dropVariables ('(' :: rest)
  | c :: rest => c :: dropVariables rest
  termination_by value.length

/-- What `SafeConfigParser.set` lets through (`python/src/Lib/ConfigParser.py:734-753`). -/
def settable (value : Text) : Bool := '%' ∉ dropVariables (without ['%', '%'] 0 value)

def sectionSrpush : Text := "srpush".toList

/-- `cp.read(args.config)`, which passes over a file that is not there. -/
def readConfig : Option Text → Except Raised ConfigParser
  | none => .ok .empty
  | some text => (read .empty text).mapError .config

def readConfigElement (cp : ConfigParser) (s : Setting) : Except Raised (Option Text) :=
  (cp.get sectionSrpush s.name.toList).mapError .config

def writeConfigElement (cp : ConfigParser) (s : Setting) (value : Text) :
    Except Raised ConfigParser :=
  if settable value then
    let options : Text → Option Text := (cp.sections sectionSrpush).getD (fun _ => none)
    let options := Function.update options s.name.toList (some value)
    .ok { cp with sections := Function.update cp.sections sectionSrpush (some options) }
  else .error .valueError

/-- `str(value).replace('\n', '\n\t')` -/
def indented (value : Text) : Text :=
  value.flatMap fun c => if c = '\n' then ['\n', '\t'] else [c]

/-- `cp.write(f)` (`python/src/Lib/ConfigParser.py:399-415`). -/
def write (cp : ConfigParser) (order : List Setting) : Text :=
  match cp.sections sectionSrpush with
  | none => []
  | some options =>
    "[srpush]\n".toList ++
      (order.filterMap fun s => (options s.name.toList).map fun value =>
        (s.name, String.ofList (indented value))).flatMap optionText ++ ['\n']

structure Outcome where
  /-- What the push goes on with. -/
  used : Setting → Text
  asked : List Setting

namespace Invocation
variable (p : Invocation)

/-- The settings without a value, or with an empty one. -/
def missing (stored : Setting → Option Text) : List Setting :=
  allSettings.filter fun s => ((p.getenv s).or (stored s)).getD [] = []

/-- `args.config`; an empty name is none. -/
def config : Option String := (p.configOption.or (defaultConfig p.home)).filter (· ≠ "")

def answer (s : Setting) : Text := strip ((p.rawInput s).getD [])

def outcome (stored : Setting → Option Text) : Outcome where
  used s := if s ∈ p.missing stored then p.answer s else ((p.getenv s).or (stored s)).getD []
  asked := p.missing stored

/-- A question, and what is done with the answer. -/
def ask (cp : ConfigParser) (s : Setting) : Except Raised ConfigParser :=
  match p.rawInput s with
  | none => .error .interrupted
  | some line => writeConfigElement cp s (strip line)

def getConfigFromUser (cp : ConfigParser) (missingOptions : List Setting) :
    Except Raised ConfigParser :=
  missingOptions.foldlM p.ask cp

/-- The settings, given the text of the configuration file, and the text to save, if any. -/
def settings (file : Option Text) : Except Raised (Outcome × Option Text) := do
  let cp ← readConfig file
  let ldap ← readConfigElement cp .ldap
  let password ← readConfigElement cp .password
  let host ← readConfigElement cp .host
  let stored : Setting → Option Text
    | .ldap => ldap
    | .password => password
    | .host => host
  if p.missing stored = [] then .ok (p.outcome stored, none)
  else
    let cp ← p.getConfigFromUser cp (p.missing stored)
    .ok (p.outcome stored, some (write cp p.order))

/-- The settings, and the files afterwards. Without a configuration file nothing is read, and
nothing is saved. -/
def run (files : Files) : Except Raised (Outcome × Files) := do
  let (outcome, saved) ← p.settings (p.config.bind files)
  match p.config, saved with
  | some name, some text =>
    if p.opens then .ok (outcome, Function.update files name (some text)) else .error .ioError
  | _, _ => .ok (outcome, files)

/-- The files after a run; one that raises has not come to writing. -/
def filesAfter (files : Files) : Files :=
  match p.run files with
  | .ok (_, files') => files'
  | .error _ => files

end Invocation

def filesAfterAll (ps : List Invocation) (files : Files) : Files :=
  ps.foldl (fun files p => p.filesAfter files) files

/-! ### What is stored -/

/-- A text that means itself in the file. -/
structure Readable (t : Text) : Prop where
  clean : Clean t
  percent : '%' ∉ t
  quotes : t ≠ "\"\"".toList
  comment : ¬ Commented t

theorem clean_strip {t : Text} (h : '\n' ∉ t) : Clean (strip t) := by
  constructor
  · intro hmem
    exact h ((Config.strip_sublist t).subset hmem)
  · intro c hc
    rw [head?_strip] at hc
    obtain ⟨rest, hdrop⟩ := List.head?_eq_some_iff.mp hc
    exact head_of_dropWhile hdrop
  · intro c hc
    unfold strip at hc
    rw [List.getLast?_reverse] at hc
    obtain ⟨rest, hdrop⟩ := List.head?_eq_some_iff.mp hc
    exact head_of_dropWhile hdrop

theorem without_percents {t : Text} (h : '%' ∉ t) : without ['%', '%'] 0 t = t := by
  induction t with
  | nil => rfl
  | cons c t ih =>
    obtain ⟨hc, ht⟩ := List.ne_and_not_mem_of_not_mem_cons h
    have hprefix : ['%', '%'].isPrefixOf (c :: t) = false := by simp [List.isPrefixOf, hc]
    rw [without, hprefix, if_neg Bool.false_ne_true, ih ht]

theorem dropVariables_eq {t : Text} (h : '%' ∉ t) : dropVariables t = t := by
  induction t with
  | nil => rw [dropVariables]
  | cons c t ih =>
    obtain ⟨hc, ht⟩ := List.ne_and_not_mem_of_not_mem_cons h
    rw [dropVariables, ih ht]
    intro _ heq
    exact absurd heq.symm hc

theorem settable_of_not_mem {t : Text} (h : '%' ∉ t) : settable t = true := by
  unfold settable
  rw [without_percents h, dropVariables_eq h]
  simpa using h

theorem Setting.named (s : Setting) : Named s.name.toList := by
  cases s
  all_goals exact named_of rfl (by decide) (by decide) (by decide) (by decide)

theorem Setting.name_injective {s s' : Setting} (h : s.name.toList = s'.name.toList) : s = s' := by
  cases s <;> cases s' <;> first | rfl | exact absurd h (by decide)

/-- The options that a file has for what is stored. -/
def storedOptions (order : List Setting) (store : Setting → Option Text) :
    List (String × String) :=
  order.filterMap fun s => (store s).map fun value => (s.name, String.ofList value)

def rendered (order : List Setting) (store : Setting → Option Text) : Text :=
  "[srpush]\n".toList ++ (storedOptions order store).flatMap optionText ++ ['\n']

/-- What the file says, once it is there. -/
inductive Stores (store : Setting → Option Text) : Option Text → Prop
  | nothing (h : ∀ s, store s = none) : Stores store none
  | file (order : List Setting) (mem_order : ∀ s, s ∈ order) (order_nodup : order.Nodup)
      (readable : ∀ s value, store s = some value → Readable value) :
      Stores store (some (rendered order store))

section Reading
variable {order : List Setting} {store : Setting → Option Text}

theorem readlines_append {options : List (String × String)}
    (hnamed : ∀ o ∈ options, Named o.1.toList) (hclean : ∀ o ∈ options, Clean o.2.toList)
    (rest : Text) : readlines '\n' (options.flatMap optionText ++ rest) =
      options.map optionText ++ readlines '\n' rest := by
  induction options with
  | nil => rfl
  | cons o options ih =>
    have hrest := ih (fun o ho => hnamed o (List.mem_cons_of_mem _ ho))
      fun o ho => hclean o (List.mem_cons_of_mem _ ho)
    have hline : '\n' ∉ o.1.toList ++ " = ".toList ++ o.2.toList := by
      intro hmem
      rcases List.mem_append.mp hmem with hmem | hmem
      · rcases List.mem_append.mp hmem with hmem | hmem
        · have hspace := ((hnamed o List.mem_cons_self).plain _ hmem).1
          exact absurd hspace (by decide)
        · exact absurd hmem (by decide)
      · exact (hclean o List.mem_cons_self).newline hmem
    rw [List.flatMap_cons, List.map_cons, List.cons_append, ← hrest]
    unfold optionText
    rw [List.append_assoc, List.append_assoc, List.singleton_append, readlines_line hline]

theorem mem_storedOptions {o : String × String} :
    o ∈ storedOptions order store ↔
      ∃ s ∈ order, ∃ value, store s = some value ∧ o = (s.name, String.ofList value) := by
  unfold storedOptions
  rw [List.mem_filterMap]
  refine exists_congr fun s => and_congr_right fun _ => ?_
  rw [Option.map_eq_some_iff]
  exact exists_congr fun value => and_congr_right fun _ => eq_comm

theorem nodup_storedOptions (h : order.Nodup) :
    ((storedOptions order store).map fun o => o.1.toList).Nodup := by
  unfold storedOptions
  rw [List.map_filterMap]
  refine h.filterMap ?_
  intro s s' x hx hx'
  simp only [Option.map_map, Option.mem_def, Option.map_eq_some_iff, Function.comp_apply] at hx hx'
  obtain ⟨_, _, rfl⟩ := hx
  obtain ⟨_, _, hname⟩ := hx'
  exact Setting.name_injective hname.symm

/-- The section as its header leaves it. -/
def srpushSection : Config.Options :=
  Function.update (fun _ => none) "__name__".toList (some [sectionSrpush])

theorem addOptions_stored (hmem : ∀ s, s ∈ order) (hnodup : order.Nodup)
    (hreadable : ∀ s value, store s = some value → Readable value) (s : Setting) :
    joined (addOptions (storedOptions order store) srpushSection) s.name.toList = store s := by
  unfold joined
  cases hs : store s with
  | none =>
    have hnot : s.name.toList ∉ (storedOptions order store).map fun o => o.1.toList := by
      intro hin
      obtain ⟨o, ho, hname⟩ := List.mem_map.mp hin
      obtain ⟨s', -, value, hs', rfl⟩ := mem_storedOptions.mp ho
      rw [Setting.name_injective hname, hs] at hs'
      cases hs'
    rw [addOptions_not_mem hnot, srpushSection, Function.update_of_ne]
    · rfl
    · cases s <;> decide
  | some value =>
    have hin : (s.name, String.ofList value) ∈ storedOptions order store :=
      mem_storedOptions.mpr ⟨s, hmem s, value, hs, rfl⟩
    have hvalue := addOptions_mem (d := srpushSection) (nodup_storedOptions hnodup) hin
    simp only at hvalue
    have h := hreadable s value hs
    rw [hvalue, Option.map_some, List.intercalate_singleton, String.toList_ofList,
      (optionValue_eq_iff h.clean).mpr ⟨h.quotes, h.comment⟩]

/-- A saved file is read without an error, and each setting is what was stored. -/
theorem read_rendered (hmem : ∀ s, s ∈ order) (hnodup : order.Nodup)
    (hreadable : ∀ s value, store s = some value → Readable value) :
    ∃ cp options, read .empty (rendered order store) = .ok cp ∧
      cp.sections sectionSrpush = some options ∧ (∀ name, cp.defaults name = none) ∧
      ∀ s, options s.name.toList = store s := by
  have hnamed : ∀ o ∈ storedOptions order store, Named o.1.toList := by
    intro o ho
    obtain ⟨s, -, value, -, rfl⟩ := mem_storedOptions.mp ho
    exact s.named
  have hclean : ∀ o ∈ storedOptions order store, Clean o.2.toList := by
    intro o ho
    obtain ⟨s, -, value, hs, rfl⟩ := mem_storedOptions.mp ho
    rw [String.toList_ofList]
    exact (hreadable s value hs).clean
  have hlines : readlines '\n' (rendered order store) =
      "[srpush]\n".toList :: ((storedOptions order store).map optionText ++ [['\n']]) := by
    have hsplit : rendered order store = "[srpush]".toList ++ '\n' ::
        ((storedOptions order store).flatMap optionText ++ ['\n']) := by
      unfold rendered
      rw [List.append_assoc]
      rfl
    rw [hsplit, readlines_line (by decide), readlines_append hnamed hclean]
    rfl
  obtain ⟨r, hr, hsections, hdefaults, hfailed⟩ := foldlM_options (s := sectionSrpush)
    (r := (Reading.begin .empty).enter sectionSrpush) (d := srpushSection) hnamed hclean rfl rfl
  have hheader : readLine (.begin .empty) "[srpush]\n".toList =
      .ok ((Reading.begin .empty).enter sectionSrpush) := rfl
  have hblank : readLine r ['\n'] = .ok r := by
    unfold readLine
    rw [show isComment ['\n'] = true by decide, if_pos rfl]
  refine ⟨⟨fun name => (r.sections name).map joined, joined r.defaults⟩,
    joined (addOptions (storedOptions order store) srpushSection), ?_, ?_, ?_, ?_⟩
  · unfold Config.read
    rw [hlines, List.foldlM_cons, hheader]
    change (((storedOptions order store).map optionText ++ [['\n']]).foldlM readLine
      ((Reading.begin .empty).enter sectionSrpush) >>= _) = _
    rw [List.foldlM_append, hr]
    change ((readLine r ['\n'] >>= fun r => pure r) >>= _) = _
    rw [hblank]
    change (if r.failed = true then Except.error Error.parsing else _) = _
    rw [hfailed]
    rfl
  · change (r.sections sectionSrpush).map joined = _
    rw [hsections]
    rfl
  · intro name
    change (r.defaults name).map _ = none
    rw [hdefaults]
    rfl
  · exact addOptions_stored hmem hnodup hreadable

end Reading

/-! ### One run -/

/-- Whatever the user types is readable. -/
def Invocation.Answerable (p : Invocation) : Prop :=
  ∀ s, (p.rawInput s).isSome → Readable (p.answer s)

/-- What is stored after a run. -/
def Invocation.remember (p : Invocation) (store : Setting → Option Text) : Setting → Option Text :=
  fun s => if s ∈ p.missing store then some (p.answer s) else store s

section Step
variable {store : Setting → Option Text} {file : Option Text} {p : Invocation}

/-- The parser has what is stored. -/
structure Parsed (store : Setting → Option Text) (cp : ConfigParser) : Prop where
  defaults : ∀ name, cp.defaults name = none
  options : ∀ s : Setting, (cp.sections sectionSrpush).bind (fun options => options s.name.toList) =
    store s

theorem parsed_of_stores (h : Stores store file) :
    ∃ cp, readConfig file = .ok cp ∧ Parsed store cp := by
  cases h with
  | nothing h =>
    refine ⟨_, rfl, fun _ => rfl, fun s => ?_⟩
    rw [h s]
    rfl
  | file order hmem hnodup hreadable =>
    obtain ⟨cp, options, hread, hsection, hdefaults, hoptions⟩ := read_rendered hmem hnodup hreadable
    refine ⟨cp, ?_, hdefaults, fun s => ?_⟩
    · change Except.mapError Raised.config (read .empty (rendered order store)) = _
      rw [hread]
      rfl
    · rw [hsection]
      exact hoptions s

theorem readConfigElement_eq {cp : ConfigParser} (h : Parsed store cp) {s : Setting}
    (hpercent : ∀ value, store s = some value → '%' ∉ value) :
    readConfigElement cp s = .ok (store s) := by
  have hlower : s.name.toList.map Char.toLower = s.name.toList := s.named.lower
  have hoption := h.options s
  unfold readConfigElement ConfigParser.get
  cases hsection : cp.sections sectionSrpush with
  | none =>
    rw [hsection] at hoption
    rw [if_pos ⟨rfl, by decide⟩, ← hoption]
    rfl
  | some options =>
    rw [hsection, Option.bind_some] at hoption
    rw [if_neg (by simp)]
    simp only [Option.bind_some, h.defaults, Option.or_none, hlower, hoption]
    cases hs : store s with
    | none => rfl
    | some value =>
      have hvalue : interpolateSome (fun o => options o) maxInterpolationDepth value = .ok value :=
        interpolateSome_plain (hpercent value hs)
      simp only [hvalue]
      rfl

theorem writeConfigElement_ok {cp : ConfigParser} (h : Parsed store cp) {s : Setting} {value : Text}
    (hpercent : '%' ∉ value) :
    ∃ cp', writeConfigElement cp s value = .ok cp' ∧ (cp'.sections sectionSrpush).isSome ∧
      Parsed (Function.update store s (some value)) cp' := by
  unfold writeConfigElement
  rw [if_pos (settable_of_not_mem hpercent)]
  refine ⟨_, rfl, ?_, h.defaults, fun s' => ?_⟩
  · simp only [Function.update_self, Option.isSome_some]
  · simp only [Function.update_self, Option.bind_some]
    by_cases hs : s' = s
    · rw [hs, Function.update_self, Function.update_self]
    · have hname : s'.name.toList ≠ s.name.toList := fun heq => hs (Setting.name_injective heq)
      rw [Function.update_of_ne hs, Function.update_of_ne hname, ← h.options s']
      cases cp.sections sectionSrpush with
      | none => rfl
      | some options => rfl

theorem ask_of_isSome {cp : ConfigParser} {s : Setting} (h : (p.rawInput s).isSome) :
    p.ask cp s = writeConfigElement cp s (p.answer s) := by
  obtain ⟨line, hline⟩ := Option.isSome_iff_exists.mp h
  unfold Invocation.ask Invocation.answer
  rw [hline, Option.getD_some]

theorem getConfigFromUser_ok (hp : p.Answerable) (l : List Setting)
    (hl : ∀ s ∈ l, (p.rawInput s).isSome) {cp : ConfigParser}
    (h : Parsed store cp) (hsome : l = [] → (cp.sections sectionSrpush).isSome) :
    ∃ cp', p.getConfigFromUser cp l = .ok cp' ∧ (cp'.sections sectionSrpush).isSome ∧
      Parsed (fun s => if s ∈ l then some (p.answer s) else store s) cp' := by
  unfold Invocation.getConfigFromUser
  induction l generalizing store cp with
  | nil => exact ⟨cp, rfl, hsome rfl, h.defaults, fun s => by simp [h.options s]⟩
  | cons s l ih =>
    have hs := hl s List.mem_cons_self
    obtain ⟨cp₁, hwrite, hsome₁, hparsed₁⟩ := writeConfigElement_ok h (s := s) (hp s hs).percent
    obtain ⟨cp', hrest, hsome', hparsed'⟩ :=
      ih (fun s hs => hl s (List.mem_cons_of_mem _ hs)) hparsed₁ fun _ => hsome₁
    refine ⟨cp', ?_, hsome', hparsed'.defaults, fun s' => ?_⟩
    · rw [List.foldlM_cons, ask_of_isSome hs, hwrite]
      exact hrest
    · rw [hparsed'.options s']
      by_cases hl : s' ∈ l
      · simp [hl]
      · by_cases hs : s' = s
        · simp [hs]
        · simp [hl, hs]

/-- An interrupt at any of the questions ends the run. -/
theorem getConfigFromUser_error {l : List Setting} {cp cp' : ConfigParser}
    (h : p.getConfigFromUser cp l = .ok cp') : ∀ s ∈ l, (p.rawInput s).isSome := by
  unfold Invocation.getConfigFromUser at h
  induction l generalizing cp with
  | nil => simp
  | cons s l ih =>
    rw [List.foldlM_cons] at h
    cases hask : p.ask cp s with
    | error e =>
      rw [hask] at h
      cases h
    | ok cp₁ =>
      rw [hask] at h
      intro s' hs'
      rcases List.mem_cons.mp hs' with rfl | hs'
      · unfold Invocation.ask at hask
        cases hline : p.rawInput s' with
        | none =>
          rw [hline] at hask
          cases hask
        | some line => rfl
      · exact ih h s' hs'

theorem indented_eq {value : Text} (h : '\n' ∉ value) : indented value = value := by
  unfold indented
  induction value with
  | nil => rfl
  | cons c value ih =>
    obtain ⟨hc, hvalue⟩ := List.ne_and_not_mem_of_not_mem_cons h
    rw [List.flatMap_cons, ih hvalue, if_neg (Ne.symm hc), List.singleton_append]

theorem write_eq {cp : ConfigParser} (h : Parsed store cp)
    (hsome : (cp.sections sectionSrpush).isSome) (order : List Setting)
    (hreadable : ∀ s value, store s = some value → Readable value) :
    write cp order = rendered order store := by
  obtain ⟨options, hoptions⟩ := Option.isSome_iff_exists.mp hsome
  have hvalue : ∀ s : Setting, options s.name.toList = store s := by
    intro s
    rw [← h.options s, hoptions]
    rfl
  unfold write rendered storedOptions
  simp only [hoptions, hvalue]
  congr 3
  apply List.filterMap_congr
  intro s _
  cases hs : store s with
  | none => rfl
  | some value => simp only [Option.map_some, indented_eq (hreadable s value hs).clean.newline]

theorem Stores.readable (h : Stores store file) :
    ∀ s value, store s = some value → Readable value := by
  cases h with
  | nothing h => exact fun s value hs => absurd (hs.symm.trans (h s)) (Option.some_ne_none _)
  | file order hmem hnodup hreadable => exact hreadable

theorem remember_of_nil (h : p.missing store = []) : p.remember store = store := by
  funext s
  unfold Invocation.remember
  rw [h, if_neg List.not_mem_nil]

/-- What a run has to save. -/
def Invocation.saved (p : Invocation) (store : Setting → Option Text) : Option Text :=
  if p.missing store = [] then none else some (rendered p.order (p.remember store))

theorem settings_eq {cp : ConfigParser} (h : Stores store file) (hread : readConfig file = .ok cp)
    (hparsed : Parsed store cp) :
    p.settings file = if p.missing store = [] then .ok (p.outcome store, none)
      else p.getConfigFromUser cp (p.missing store) >>= fun cp' =>
        .ok (p.outcome store, some (write cp' p.order)) := by
  have helement : ∀ s, readConfigElement cp s = .ok (store s) :=
    fun s => readConfigElement_eq hparsed fun value hs => (h.readable s value hs).percent
  have hstored : (fun s => match s with
      | .ldap => store .ldap
      | .password => store .password
      | .host => store .host : Setting → Option Text) = store := by
    funext s
    cases s <;> rfl
  unfold Invocation.settings
  rw [hread]
  change (readConfigElement cp .ldap >>= fun ldap => readConfigElement cp .password >>= fun
    password => readConfigElement cp .host >>= fun host => _) = _
  rw [helement, helement, helement]
  change (if p.missing (fun s => match s with
    | .ldap => store .ldap
    | .password => store .password
    | .host => store .host) = [] then _ else _) = _
  rw [hstored]

/-- A run does with the file what it would do with what is stored in it. -/
theorem settings_stores (h : Stores store file) (hp : p.Answerable)
    (hall : ∀ s ∈ p.missing store, (p.rawInput s).isSome) :
    p.settings file = .ok (p.outcome store, p.saved store) := by
  obtain ⟨cp, hread, hparsed⟩ := parsed_of_stores h
  rw [settings_eq h hread hparsed]
  unfold Invocation.saved
  by_cases hmissing : p.missing store = []
  · rw [if_pos hmissing, if_pos hmissing]
  · obtain ⟨cp', hwrite, hsome, hparsed'⟩ :=
      getConfigFromUser_ok hp (p.missing store) hall hparsed fun hnil => absurd hnil hmissing
    have hreadable : ∀ s value, p.remember store s = some value → Readable value := by
      intro s value hs
      unfold Invocation.remember at hs
      split at hs
      · rename_i hmem
        cases hs
        exact hp s (hall s hmem)
      · exact h.readable s value hs
    rw [if_neg hmissing, if_neg hmissing, hwrite]
    change Except.ok (p.outcome store, some (write cp' p.order)) = _
    rw [write_eq hparsed' hsome p.order hreadable]
    rfl

/-- A run that raises nothing at its questions has had them all answered. -/
theorem answered_of_settings (h : Stores store file) {r : Outcome × Option Text}
    (hok : p.settings file = .ok r) : ∀ s ∈ p.missing store, (p.rawInput s).isSome := by
  obtain ⟨cp, hread, hparsed⟩ := parsed_of_stores h
  rw [settings_eq h hread hparsed] at hok
  by_cases hmissing : p.missing store = []
  · simp [hmissing]
  · rw [if_neg hmissing] at hok
    cases hask : p.getConfigFromUser cp (p.missing store) with
    | error e =>
      rw [hask] at hok
      cases hok
    | ok cp' => exact getConfigFromUser_error hask

theorem stores_remember (h : Stores store file) (hp : p.Answerable)
    (hall : ∀ s ∈ p.missing store, (p.rawInput s).isSome) :
    Stores (p.remember store) ((p.saved store).or file) := by
  unfold Invocation.saved
  by_cases hmissing : p.missing store = []
  · rw [if_pos hmissing, remember_of_nil hmissing]
    exact h
  · rw [if_neg hmissing]
    refine .file p.order p.mem_order p.order_nodup ?_
    intro s value hs
    unfold Invocation.remember at hs
    split at hs
    · rename_i hmem
      cases hs
      exact hp s (hall s hmem)
    · exact h.readable s value hs

end Step

/-! ### Runs one after another -/

section Runs
variable {store : Setting → Option Text} {files : Files} {name : String} {p : Invocation}
  {ps : List Invocation} {s : Setting} {t : Text}

/-- A run that is given another file leaves this one alone. -/
theorem filesAfter_of_ne (h : p.config ≠ some name) : p.filesAfter files name = files name := by
  unfold Invocation.filesAfter Invocation.run
  cases p.settings (p.config.bind files) with
  | error e => rfl
  | ok r =>
    obtain ⟨outcome, saved⟩ := r
    cases hconfig : p.config with
    | none => cases saved <;> rfl
    | some other =>
      have hne : name ≠ other := fun heq => h (heq ▸ hconfig)
      cases saved with
      | none => rfl
      | some text =>
        cases hopens : p.opens with
        | false => simp [bind, Except.bind]
        | true => simp [bind, Except.bind, Function.update_of_ne hne]

/-- A run with this file that raises nothing. -/
theorem run_ok {r : Outcome × Files} (hconfig : p.config = some name)
    (h : Stores store (files name)) (hp : p.Answerable) (hrun : p.run files = .ok r) :
    r.1 = p.outcome store ∧ Stores (p.remember store) (r.2 name) := by
  unfold Invocation.run at hrun
  rw [hconfig, Option.bind_some] at hrun
  cases hsettings : p.settings (files name) with
  | error e =>
    rw [hsettings] at hrun
    cases hrun
  | ok settled =>
    have hall := answered_of_settings h hsettings
    have hstores := stores_remember h hp hall
    rw [settings_stores h hp hall] at hrun
    cases hsaved : p.saved store with
    | none =>
      rw [hsaved] at hrun hstores
      obtain rfl := Except.ok.inj hrun
      exact ⟨rfl, hstores⟩
    | some text =>
      rw [hsaved] at hrun hstores
      cases hopens : p.opens with
      | false => simp [bind, Except.bind, hopens] at hrun
      | true =>
        simp only [bind, Except.bind, hopens, if_true] at hrun
        obtain rfl := Except.ok.inj hrun
        refine ⟨rfl, ?_⟩
        show Stores (p.remember store) (Function.update files name (some text) name)
        rw [Function.update_self]
        exact hstores

theorem mem_missing : s ∈ p.missing store ↔ ((p.getenv s).or (store s)).getD [] = [] := by
  unfold Invocation.missing
  rw [List.mem_filter, decide_eq_true_eq, and_iff_right]
  cases s <;> decide

/-- What is stored and not overridden by an empty text is not asked for. -/
theorem not_missing (hs : store s = some t) (ht : t ≠ []) (henv : p.getenv s ≠ some []) :
    s ∉ p.missing store := by
  rw [mem_missing, hs]
  cases hget : p.getenv s with
  | none => exact ht
  | some e =>
    intro hnil
    exact henv (hget.trans (congrArg some hnil))

/-- What a run stores, interrupted or not, and whatever file it is given. -/
theorem filesAfter_stores (h : Stores store (files name))
    (hp : p.config = some name → p.Answerable) : ∃ store', Stores store' (p.filesAfter files name) ∧
      ∀ s t, store s = some t → t ≠ [] → (p.config = some name → p.getenv s ≠ some []) →
        store' s = some t := by
  by_cases hconfig : p.config = some name
  · unfold Invocation.filesAfter
    cases hrun : p.run files with
    | error e => exact ⟨store, h, fun s t hs _ _ => hs⟩
    | ok r =>
      refine ⟨_, (run_ok hconfig h (hp hconfig) hrun).2, ?_⟩
      intro s t hs ht henv
      unfold Invocation.remember
      rw [if_neg (not_missing hs ht (henv hconfig)), hs]
  · refine ⟨store, ?_, fun s t hs _ _ => hs⟩
    rw [filesAfter_of_ne hconfig]
    exact h

theorem filesAfterAll_stores (h : Stores store (files name))
    (hps : ∀ p ∈ ps, p.config = some name → p.Answerable) :
    ∃ store', Stores store' (filesAfterAll ps files name) ∧
      ∀ s t, store s = some t → t ≠ [] →
        (∀ p ∈ ps, p.config = some name → p.getenv s ≠ some []) → store' s = some t := by
  induction ps generalizing store files with
  | nil => exact ⟨store, h, fun s t hs _ _ => hs⟩
  | cons p ps ih =>
    obtain ⟨mid, hmid, hkeeps⟩ := filesAfter_stores h (hps p List.mem_cons_self)
    obtain ⟨store', hstore', hkeeps'⟩ := ih hmid fun q hq => hps q (List.mem_cons_of_mem p hq)
    refine ⟨store', hstore', ?_⟩
    intro s t hs ht henv
    exact hkeeps' s t (hkeeps s t hs ht (henv p List.mem_cons_self)) ht
      fun q hq => henv q (List.mem_cons_of_mem p hq)

end Runs

/-- A run with neither variable nor option, where the user types `text` at each question. -/
def typing (text : Text) (h : '\n' ∉ text) : Invocation where
  home := some "/home/pusher"
  configOption := none
  getenv _ := none
  rawInput _ := some text
  line _ l hl := Option.some.inj hl ▸ h
  opens := true
  order := allSettings
  mem_order s := by cases s <;> decide
  order_nodup := by decide

theorem not_commented {t : Text} (h : ';' ∉ t) : ¬ Commented t := by
  intro ⟨a, c, b, heq, _⟩
  apply h
  rw [heq]
  exact List.mem_append_right _ (List.mem_cons_of_mem _ List.mem_cons_self)

end StoneRidge.Push
