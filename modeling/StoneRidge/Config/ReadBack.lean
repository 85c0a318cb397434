import StoneRidge.Config.RunIni
import StoneRidge.Worker.Workdir

/-!
# Reading the configuration of a run

The reader's dictionary for the section `run`, and exactly when every option comes back
as it was written.
-/

set_option autoImplicit false

namespace StoneRidge.Config
open StoneRidge.Kit.Lines StoneRidge.Kit.PyText StoneRidge.Kit.PosixPath
open StoneRidge.Dispatch (RunMessage Netconfig)

/-- What the options of a file add to the section that is being read. -/
def addOptions (options : List (String × String)) (d : Options) : Options :=
  options.foldl (fun d o => Function.update d o.1.toList (some [optionValue o.2.toList])) d

section Reading
variable {r : Reading} {d : Options} {options : List (String × String)} {o : String × String}

theorem readLine_option {s : Text} (hname : Named o.1.toList) (htext : Clean o.2.toList)
    (hsect : r.cursect = some (.named s)) (hd : r.sections s = some d) :
    ∃ r', readLine r (optionText o) = .ok r' ∧ r'.cursect = some (.named s) ∧
      r'.sections s = some (Function.update d o.1.toList (some [optionValue o.2.toList])) ∧
      r'.defaults = r.defaults ∧ r'.failed = r.failed := by
  have hline := optionLine_named hname htext
  rw [← optionText_eq] at hline
  have hcomment : isComment (optionText o) = false := by
    rw [optionText_eq]
    exact isComment_named hname _
  have hrem : isRem (optionText o) = false := by
    rw [optionText_eq]
    exact isRem_named hname _
  have hspace : startsWithSpace (optionText o) = false := by
    rw [optionText_eq]
    exact startsWithSpace_named hname _
  have hheader : sectionHeader (optionText o) = none := by
    rw [optionText_eq]
    exact sectionHeader_named hname _
  unfold readLine
  rw [hcomment, hrem, hspace, hsect]
  simp only [hheader, hline]
  refine ⟨_, rfl, hsect, ?_, rfl, rfl⟩
  unfold Reading.modify
  simp only [Function.update_self, hd, Option.map_some]

theorem foldlM_options {s : Text} (hnamed : ∀ o ∈ options, Named o.1.toList)
    (hclean : ∀ o ∈ options, Clean o.2.toList) (hsect : r.cursect = some (.named s))
    (hd : r.sections s = some d) :
    ∃ r', (options.map optionText).foldlM readLine r = .ok r' ∧
      r'.sections s = some (addOptions options d) ∧ r'.defaults = r.defaults ∧
      r'.failed = r.failed := by
  induction options generalizing r d with
  | nil => exact ⟨r, rfl, hd, rfl, rfl⟩
  | cons o options ih =>
    obtain ⟨r₁, hline, hsect₁, hd₁, hdefaults₁, hfailed₁⟩ :=
      readLine_option (hnamed o List.mem_cons_self) (hclean o List.mem_cons_self) hsect hd
    obtain ⟨r₂, hrest, hd₂, hdefaults₂, hfailed₂⟩ :=
      ih (fun o ho => hnamed o (List.mem_cons_of_mem _ ho))
        (fun o ho => hclean o (List.mem_cons_of_mem _ ho)) hsect₁ hd₁
    refine ⟨r₂, ?_, hd₂, hdefaults₂.trans hdefaults₁, hfailed₂.trans hfailed₁⟩
    rw [List.map_cons, List.foldlM_cons, hline]
    exact hrest

theorem readlines_options (hnamed : ∀ o ∈ options, Named o.1.toList)
    (hclean : ∀ o ∈ options, Clean o.2.toList) :
    readlines '\n' (options.flatMap optionText) = options.map optionText := by
  induction options with
  | nil => rfl
  | cons o options ih =>
    have hrest := ih (fun o ho => hnamed o (List.mem_cons_of_mem _ ho))
      fun o ho => hclean o (List.mem_cons_of_mem _ ho)
    have hline : '\n' ∉ o.1.toList ++ " = ".toList ++ o.2.toList := by
      intro hmem
      rcases List.mem_append.mp hmem with hmem | hmem
      · rcases List.mem_append.mp hmem with hmem | hmem
        · have hspace := ((hnamed o List.mem_cons_self).plain _ hmem).1
          exact absurd hspace (by decide)
        · exact absurd hmem (by decide)
      · exact (hclean o List.mem_cons_self).newline hmem
    rw [List.flatMap_cons, List.map_cons, ← hrest]
    unfold optionText
    rw [List.append_assoc _ ['\n'], List.singleton_append, readlines_line hline]

theorem addOptions_not_mem {name : Text} (h : name ∉ options.map fun o => o.1.toList) :
    addOptions options d name = d name := by
  unfold addOptions
  induction options generalizing d with
  | nil => rfl
  | cons o options ih =>
    rw [List.map_cons, List.mem_cons, not_or] at h
    rw [List.foldl_cons, ih h.2, Function.update_of_ne h.1]

theorem addOptions_mem (hnodup : (options.map fun o => o.1.toList).Nodup) (ho : o ∈ options) :
    addOptions options d o.1.toList = some [optionValue o.2.toList] := by
  induction options generalizing d with
  | nil => cases ho
  | cons o' options ih =>
    rw [List.map_cons, List.nodup_cons] at hnodup
    change addOptions options (Function.update d o'.1.toList _) o.1.toList = _
    rcases List.mem_cons.mp ho with rfl | ho
    · rw [addOptions_not_mem hnodup.1, Function.update_self]
    · exact ih hnodup.2 ho

/-- The section as its header leaves it. -/
def newSection : Options :=
  Function.update (fun _ => none) "__name__".toList (some ["run".toList])

/-- The values of the section, before interpolation. -/
def runValues (options : List (String × String)) : Text → Option Text :=
  joined (addOptions options newSection)

theorem runValues_mem (hnodup : (options.map fun o => o.1.toList).Nodup) (ho : o ∈ options) :
    runValues options o.1.toList = some (optionValue o.2.toList) := by
  unfold runValues joined
  rw [addOptions_mem hnodup ho, Option.map_some, List.intercalate_singleton]

theorem runValues_not_mem {name : Text} (h : name ∉ options.map fun o => o.1.toList)
    (hname : name ≠ "__name__".toList) : runValues options name = none := by
  unfold runValues joined newSection
  rw [addOptions_not_mem h, Function.update_of_ne hname]
  rfl

theorem runValues_origin (hnodup : (options.map fun o => o.1.toList).Nodup) {name v : Text}
    (h : runValues options name = some v) :
    (∃ o ∈ options, v = optionValue o.2.toList) ∨ v = "run".toList := by
  by_cases hmem : name ∈ options.map fun o => o.1.toList
  · obtain ⟨o, ho, rfl⟩ := List.mem_map.mp hmem
    rw [runValues_mem hnodup ho] at h
    cases h
    exact Or.inl ⟨o, ho, rfl⟩
  · by_cases hname : name = "__name__".toList
    · unfold runValues joined newSection at h
      rw [addOptions_not_mem hmem, hname, Function.update_self] at h
      cases h
      exact Or.inr rfl
    · rw [runValues_not_mem hmem hname] at h
      cases h

/-- The file is read without an error. -/
theorem read_runIni (main : MainConfig) (hnamed : ∀ o ∈ options, Named o.1.toList)
    (hclean : ∀ o ∈ options, Clean o.2.toList) :
    ∃ cp, read main.toConfigParser ("[run]\n".toList ++ options.flatMap optionText) = .ok cp ∧
      cp.sections "run".toList = some (runValues options) ∧ ∀ name, cp.defaults name = none := by
  have hlines : readlines '\n' ("[run]\n".toList ++ options.flatMap optionText) =
      "[run]\n".toList :: options.map optionText := by
    have hsplit : "[run]\n".toList ++ options.flatMap optionText =
        "[run]".toList ++ '\n' :: options.flatMap optionText := rfl
    rw [hsplit, readlines_line (by decide), readlines_options hnamed hclean]
    rfl
  have hheader : ∃ r, readLine (.begin main.toConfigParser) "[run]\n".toList = .ok r ∧
      r.cursect = some (.named "run".toList) ∧ r.sections "run".toList = some newSection ∧
      (∀ name, r.defaults name = none) ∧ r.failed = false := by
    have hnone : (Reading.begin main.toConfigParser).sections "run".toList = none := by
      change (main.sections "run".toList).map _ = none
      rw [main.noRun]
      rfl
    refine ⟨(Reading.begin main.toConfigParser).enter "run".toList, rfl, ?_⟩
    unfold Reading.enter
    rw [hnone, if_neg (by decide), if_neg (by decide)]
    refine ⟨rfl, ?_, ?_, rfl⟩
    · change Function.update (Reading.begin main.toConfigParser).sections "run".toList
        (some newSection) "run".toList = some newSection
      exact Function.update_self _ _ _
    · intro name
      change (main.defaults name).map _ = none
      rw [main.noDefaults]
      rfl
  obtain ⟨r, hr, hsect, hsections, hdefaults, hfailed⟩ := hheader
  obtain ⟨r', hr', hsections', hdefaults', hfailed'⟩ :=
    foldlM_options hnamed hclean hsect hsections
  refine ⟨⟨fun name => (r'.sections name).map joined, joined r'.defaults⟩, ?_, ?_, ?_⟩
  · unfold read
    rw [hlines, List.foldlM_cons, hr]
    change ((options.map optionText).foldlM readLine r >>= _) = _
    rw [hr']
    change (if r'.failed = true then Except.error Error.parsing else _) = _
    rw [hfailed', hfailed]
    rfl
  · change (r'.sections "run".toList).map joined = _
    rw [hsections']
    rfl
  · intro name
    change (r'.defaults name).map _ = none
    rw [hdefaults', hdefaults]
    rfl

theorem getConfig_run (main : MainConfig) (hnamed : ∀ o ∈ options, Named o.1.toList)
    (hclean : ∀ o ∈ options, Clean o.2.toList) (option : Text) :
    getConfig main.toConfigParser ("[run]\n".toList ++ options.flatMap optionText) "run".toList
        option =
      match runValues options (option.map Char.toLower) with
      | none => .ok none
      | some value =>
        (interpolateSome (runValues options) maxInterpolationDepth value).map some := by
  obtain ⟨cp, hread, hsections, hdefaults⟩ := read_runIni main hnamed hclean
  have hmap : (fun o => ((cp.sections "run".toList).bind fun options => options o).or
      (cp.defaults o)) = runValues options := by
    funext o
    rw [hsections, hdefaults, Option.or_none]
    rfl
  unfold getConfig
  rw [hread]
  change cp.get "run".toList option = _
  unfold ConfigParser.get
  rw [if_neg (by rw [hsections]; simp)]
  have hvalue : ((cp.sections "run".toList).bind fun options =>
      options (option.map Char.toLower)).or (cp.defaults (option.map Char.toLower)) =
        runValues options (option.map Char.toLower) := congrFun hmap (option.map Char.toLower)
  cases hoption : runValues options (option.map Char.toLower) with
  | none => simp only [hvalue, hoption]
  | some value => simp only [hmap, hvalue, hoption]

end Reading

/-! ### The round trip -/

theorem writeRunIni_eq_some {options : List (String × String)} {ini : Text}
    (h : writeRunIni options = some ini) :
    ini = "[run]\n".toList ++ options.flatMap optionText ∧
      ∀ o ∈ options, ∀ c ∈ o.2.toList, c.toNat < 128 := by
  unfold writeRunIni at h
  simp only at h
  split at h
  · rename_i hall
    cases h
    refine ⟨rfl, ?_⟩
    intro o ho c hc
    rw [List.all_eq_true] at hall
    have hmem : c ∈ optionText o := by
      rw [optionText_eq]
      simp [hc]
    have hlt := hall c (List.mem_append_right _ (List.mem_flatMap.mpr ⟨o, ho, hmem⟩))
    exact of_decide_eq_true hlt
  · cases h

theorem writeRunIni_of_ascii {options : List (String × String)}
    (hname : ∀ o ∈ options, ∀ c ∈ o.1.toList, c.toNat < 128)
    (htext : ∀ o ∈ options, ∀ c ∈ o.2.toList, c.toNat < 128) :
    writeRunIni options = some ("[run]\n".toList ++ options.flatMap optionText) := by
  unfold writeRunIni
  apply if_pos
  rw [List.all_eq_true]
  intro c hc
  rw [decide_eq_true_eq]
  rcases List.mem_append.mp hc with hc | hc
  · have hheader : ∀ c ∈ "[run]\n".toList, c.toNat < 128 := by decide
    exact hheader c hc
  · obtain ⟨o, ho, hc⟩ := List.mem_flatMap.mp hc
    rw [optionText_eq] at hc
    simp only [List.mem_append, List.mem_cons, List.not_mem_nil, or_false] at hc
    rcases hc with hc | rfl | rfl | rfl | hc | rfl
    · exact hname o ho c hc
    · decide
    · decide
    · decide
    · exact htext o ho c hc
    · decide

/-- What is asked of the names of a list of options. -/
structure Options.Named (options : List (String × String)) : Prop where
  named : ∀ o ∈ options, Config.Named o.1.toList
  ascii : ∀ o ∈ options, ∀ c ∈ o.1.toList, c.toNat < 128
  nodup : (options.map fun o => o.1.toList).Nodup

section RoundTrip
variable {options : List (String × String)} {o : String × String}

theorem getConfig_mem (main : MainConfig) (hnames : Options.Named options)
    (hclean : ∀ o ∈ options, Clean o.2.toList) (ho : o ∈ options) :
    getConfig main.toConfigParser ("[run]\n".toList ++ options.flatMap optionText) "run".toList
        o.1.toList =
      (interpolateSome (runValues options) maxInterpolationDepth (optionValue o.2.toList)).map
        some := by
  rw [getConfig_run main hnames.named hclean, (hnames.named o ho).lower,
    runValues_mem hnames.nodup ho]

/-- A text that comes back is plain, if all texts come back: interpolation only loses
percent signs. -/
theorem plain_of_readBack (main : MainConfig) {ini : Text} (hnames : Options.Named options)
    (hclean : ∀ o ∈ options, Clean o.2.toList) (hini : writeRunIni options = some ini)
    (hread : ∀ o ∈ options,
      getConfig main.toConfigParser ini "run".toList o.1.toList = .ok (some o.2.toList)) :
    ∀ o ∈ options, Plain o.2.toList := by
  obtain ⟨rfl, hascii⟩ := writeRunIni_eq_some hini
  have hvalue : ∀ o ∈ options, interpolateSome (runValues options) maxInterpolationDepth
      (optionValue o.2.toList) = .ok o.2.toList := by
    intro o ho
    have hget := hread o ho
    rw [getConfig_mem main hnames hclean ho] at hget
    cases hval : interpolateSome (runValues options) maxInterpolationDepth
        (optionValue o.2.toList) with
    | error e =>
      rw [hval] at hget
      cases hget
    | ok t =>
      rw [hval] at hget
      cases hget
      rfl
  have hpercent : ∀ name v, runValues options name = some v → '%' ∉ v := by
    refine not_mem_percent (?_ : ∀ name v, runValues options name = some v → '%' ∈ v →
      ∃ t, interpolateSome (runValues options) maxInterpolationDepth v = .ok t ∧
        v.count '%' ≤ t.count '%')
    intro name v hv hmem
    rcases runValues_origin hnames.nodup hv with ⟨o, ho, rfl⟩ | rfl
    · exact ⟨o.2.toList, hvalue o ho, (optionValue_sublist _).count_le '%'⟩
    · exact absurd hmem (by decide)
  intro o ho
  have hno := hpercent _ _ (runValues_mem hnames.nodup ho)
  have heq : optionValue o.2.toList = o.2.toList := by
    have hplain : interpolateSome (runValues options) maxInterpolationDepth
        (optionValue o.2.toList) = .ok (optionValue o.2.toList) := interpolateSome_plain hno
    rw [hvalue o ho] at hplain
    exact (Except.ok.inj hplain).symm
  obtain ⟨hquotes, hcomment⟩ := (optionValue_eq_iff (hclean o ho)).mp heq
  exact ⟨hascii o ho, heq ▸ hno, hquotes, hcomment⟩

theorem readBack_of_plain (main : MainConfig) (hnames : Options.Named options)
    (hclean : ∀ o ∈ options, Clean o.2.toList) (hplain : ∀ o ∈ options, Plain o.2.toList) :
    ∀ o ∈ options,
      getConfig main.toConfigParser ("[run]\n".toList ++ options.flatMap optionText) "run".toList
        o.1.toList = .ok (some o.2.toList) := by
  intro o ho
  have h := hplain o ho
  have heq := (optionValue_eq_iff (hclean o ho)).mpr ⟨h.quotes, h.comment⟩
  have hval : interpolateSome (runValues options) maxInterpolationDepth o.2.toList =
      .ok o.2.toList := interpolateSome_plain h.percent
  rw [getConfig_mem main hnames hclean ho, heq, hval]
  rfl

end RoundTrip

/-! ### The options of a run -/

theorem named_of {o : Text} {c : Char} (hhead : o.head? = some c)
    (hc : c ≠ '[' ∧ c ≠ '#' ∧ c ≠ ';')
    (hplain : ∀ c ∈ o, isSpace c = false ∧ isSeparator c = false)
    (hlower : o.map Char.toLower = o) (hrem : o ≠ "rem".toList) : Named o :=
  ⟨hplain, hlower, ⟨c, hhead, hc⟩, hrem⟩

/-- The names of the options, with or without the last one. -/
def runNames : List String :=
  ["netconfig", "work", "download", "bin", "out", "profile", "metadata", "info", "tstamp", "srid",
    "ldap"]

theorem named_runNames : ∀ name ∈ runNames, Named name.toList := by
  intro name hname
  unfold runNames at hname
  simp only [List.mem_cons, List.not_mem_nil, or_false] at hname
  rcases hname with rfl | rfl | rfl | rfl | rfl | rfl | rfl | rfl | rfl | rfl | rfl
  all_goals exact named_of rfl (by decide) (by decide) (by decide) (by decide)

section RunOptions
variable (m : RunMessage) (srwork firefoxPath : String)

theorem runOptions_names : (runOptions m srwork firefoxPath).map (·.1) =
    if m.ldap ≠ "" then runNames else runNames.dropLast := by
  unfold runOptions
  split <;> rfl

theorem sublist_runNames : ((runOptions m srwork firefoxPath).map (·.1)).Sublist runNames := by
  rw [runOptions_names]
  split
  · exact List.Sublist.refl _
  · exact List.dropLast_sublist _

theorem named_runOptions : Options.Named (runOptions m srwork firefoxPath) := by
  have hsub := sublist_runNames m srwork firefoxPath
  have hmem : ∀ o ∈ runOptions m srwork firefoxPath, o.1 ∈ runNames := by
    intro o ho
    exact hsub.subset (List.mem_map_of_mem ho)
  refine ⟨fun o ho => named_runNames _ (hmem o ho), ?_, ?_⟩
  · have hascii : ∀ name ∈ runNames, ∀ c ∈ name.toList, c.toNat < 128 := by decide
    intro o ho
    exact hascii _ (hmem o ho)
  · have hnodup : (runNames.map String.toList).Nodup := by decide
    have hmap : (runOptions m srwork firefoxPath).map (fun o => o.1.toList) =
        ((runOptions m srwork firefoxPath).map (·.1)).map String.toList := by
      rw [List.map_map]
      rfl
    rw [hmap]
    exact hnodup.sublist (hsub.map _)

end RunOptions

theorem clean_of_not_space {t : Text} (h : ∀ c ∈ t, isSpace c = false) : Clean t := by
  refine ⟨?_, ?_, ?_⟩
  · intro hmem
    exact absurd (h _ hmem) (by decide)
  · intro c hc
    exact h c (List.mem_of_head? hc)
  · intro c hc
    exact h c (List.mem_of_getLast? hc)

theorem Clean.append {a b : Text} (ha : Clean a) (hb : Clean b) : Clean (a ++ b) := by
  refine ⟨?_, ?_, ?_⟩
  · intro hmem
    rcases List.mem_append.mp hmem with hmem | hmem
    · exact ha.newline hmem
    · exact hb.newline hmem
  · intro c hc
    rw [List.head?_append, Option.or_eq_some_iff] at hc
    rcases hc with hc | ⟨_, hc⟩
    · exact ha.head c hc
    · exact hb.head c hc
  · intro c hc
    rw [List.getLast?_append, Option.or_eq_some_iff] at hc
    rcases hc with hc | ⟨_, hc⟩
    · exact hb.last c hc
    · exact ha.last c hc

theorem Clean.join {a b : String} (ha : Clean a.toList) (hb : Clean b.toList) :
    Clean (join a b).toList := by
  unfold Kit.PosixPath.join
  split
  · exact hb
  · split
    · rw [String.toList_append]
      exact ha.append hb
    · rw [String.toList_append, String.toList_append]
      exact (ha.append (clean_of_not_space (by decide))).append hb

theorem clean_tstamp (z : ℤ) : Clean (toString z).toList := by
  apply clean_of_not_space
  intro c hc
  rcases Worker.toString_tstamp_plain z c hc with rfl | hdigit
  · decide
  · exact isSpace_of_isDigit hdigit

theorem clean_runOptions {m : RunMessage} {srwork firefoxPath : String}
    (hsrid : Clean m.srid.toList) (hldap : Clean m.ldap.toList) (hwork : Clean srwork.toList)
    (hbin : Clean (join srwork firefoxPath).toList) :
    ∀ o ∈ runOptions m srwork firefoxPath, Clean o.2.toList := by
  have hname : ∀ name ∈ ["download", "out", "profile", "metadata.zip", "info.json"],
      Clean name.toList := by
    have hplain : ∀ name ∈ ["download", "out", "profile", "metadata.zip", "info.json"],
        ∀ c ∈ name.toList, isSpace c = false := by decide
    intro name hname
    exact clean_of_not_space (hplain name hname)
  have hout := hwork.join (hname "out" (by decide))
  intro o ho
  unfold runOptions at ho
  rcases List.mem_append.mp ho with ho | ho
  · simp only [List.mem_cons, List.not_mem_nil, or_false] at ho
    rcases ho with rfl | rfl | rfl | rfl | rfl | rfl | rfl | rfl | rfl | rfl
    · apply clean_of_not_space
      cases m.netconfig <;> decide
    · exact hwork
    · exact hwork.join (hname _ (by decide))
    · exact hbin
    · exact hout
    · exact hout.join (hname _ (by decide))
    · exact hout.join (hname _ (by decide))
    · exact hout.join (hname _ (by decide))
    · exact clean_tstamp m.tstamp
    · exact hsrid
  · split at ho
    · rw [List.mem_singleton.mp ho]
      exact hldap
    · cases ho

theorem getConfig_no_ldap (main : MainConfig) {m : RunMessage} {srwork firefoxPath : String}
    (hclean : ∀ o ∈ runOptions m srwork firefoxPath, Clean o.2.toList) (hldap : m.ldap = "") :
    getConfig main.toConfigParser
        ("[run]\n".toList ++ (runOptions m srwork firefoxPath).flatMap optionText) "run".toList
        "ldap".toList = .ok none := by
  have hnone : runValues (runOptions m srwork firefoxPath) "ldap".toList = none := by
    apply runValues_not_mem
    · intro hmem
      obtain ⟨o, ho, heq⟩ := List.mem_map.mp hmem
      have hname : o.1 ∈ (runOptions m srwork firefoxPath).map (·.1) := List.mem_map_of_mem ho
      rw [runOptions_names, if_neg (by simp [hldap])] at hname
      rw [String.toList_inj.mp heq] at hname
      exact absurd hname (by decide)
    · decide
  have hget := getConfig_run main (named_runOptions m srwork firefoxPath).named hclean "ldap".toList
  have hlower : "ldap".toList.map Char.toLower = "ldap".toList := by decide
  rw [hlower, hnone] at hget
  exact hget

theorem roundTrip_iff_plain (main : MainConfig) {m : RunMessage} {srwork firefoxPath : String}
    (hclean : ∀ o ∈ runOptions m srwork firefoxPath, Clean o.2.toList) :
    RoundTrip main m srwork firefoxPath ↔
      ∀ o ∈ runOptions m srwork firefoxPath, Plain o.2.toList := by
  have hnames := named_runOptions m srwork firefoxPath
  constructor
  · intro ⟨ini, hini, hread, _⟩
    exact plain_of_readBack main hnames hclean hini hread
  · intro hplain
    have hini := writeRunIni_of_ascii hnames.ascii fun o ho => (hplain o ho).ascii
    exact ⟨_, hini, readBack_of_plain main hnames hclean hplain,
      getConfig_no_ldap main hclean⟩

/-- The options come back as they were written exactly if none of the texts has a
character outside ASCII, a percent sign or a comment, or is the token for the empty
text. -/
theorem readBack_iff (main : MainConfig) (m : RunMessage) (srwork firefoxPath : String)
    (hsrid : Clean m.srid.toList) (hldap : Clean m.ldap.toList) (hwork : Clean srwork.toList)
    (hbin : Clean (join srwork firefoxPath).toList) :
    RoundTrip main m srwork firefoxPath ↔
      ∀ o ∈ runOptions m srwork firefoxPath, Plain o.2.toList :=
  roundTrip_iff_plain main (clean_runOptions hsrid hldap hwork hbin)

/-- A stone ridge configuration without any section. -/
def emptyConfig : MainConfig := ⟨.empty, rfl, fun _ => rfl⟩

def cleanMessage (ldap : String) : RunMessage := ⟨"r1", .broadband, 5, ldap⟩

theorem clean_literals : Clean "/sr/r1/broadband".toList ∧
    Clean (join "/sr/r1/broadband" "firefox").toList ∧ Clean "r1".toList :=
  ⟨clean_of_not_space (by decide), clean_of_not_space (by decide), clean_of_not_space (by decide)⟩

theorem plain_literals :
    ∀ o ∈ runOptions (cleanMessage "") "/sr/r1/broadband" "firefox", Plain o.2.toList := by
  have hplain : ∀ o ∈ runOptions (cleanMessage "") "/sr/r1/broadband" "firefox",
      (∀ c ∈ o.2.toList, c.toNat < 128) ∧ '%' ∉ o.2.toList ∧ o.2.toList ≠ "\"\"".toList ∧
        ';' ∉ o.2.toList := by decide
  intro o ho
  obtain ⟨hascii, hpercent, hquotes, hsemi⟩ := hplain o ho
  refine ⟨hascii, hpercent, hquotes, ?_⟩
  intro ⟨a, c, b, heq, _⟩
  apply hsemi
  rw [heq]
  simp

theorem roundTrip_without_ldap :
    RoundTrip emptyConfig (cleanMessage "") "/sr/r1/broadband" "firefox" :=
  (readBack_iff emptyConfig (cleanMessage "") "/sr/r1/broadband" "firefox" clean_literals.2.2
    (clean_of_not_space (by decide)) clean_literals.1 clean_literals.2.1).mpr plain_literals

/-- A percent sign in the ldap. -/
theorem percent_not_read_back : Clean (cleanMessage "a%b").srid.toList ∧
    Clean (cleanMessage "a%b").ldap.toList ∧ Clean "/sr/r1/broadband".toList ∧
    Clean (join "/sr/r1/broadband" "firefox").toList ∧
    ¬ RoundTrip emptyConfig (cleanMessage "a%b") "/sr/r1/broadband" "firefox" := by
  have hldap : Clean "a%b".toList := clean_of_not_space (by decide)
  have hclean : ∀ o ∈ runOptions (cleanMessage "a%b") "/sr/r1/broadband" "firefox",
      Clean o.2.toList :=
    clean_runOptions clean_literals.2.2 hldap clean_literals.1 clean_literals.2.1
  refine ⟨clean_literals.2.2, hldap, clean_literals.1, clean_literals.2.1, ?_⟩
  rw [roundTrip_iff_plain emptyConfig hclean]
  intro hplain
  have hmem : ("ldap", "a%b") ∈ runOptions (cleanMessage "a%b") "/sr/r1/broadband" "firefox" := by
    unfold runOptions
    exact List.mem_append_right _ (by decide)
  exact (hplain _ hmem).percent (by decide)

end StoneRidge.Config
