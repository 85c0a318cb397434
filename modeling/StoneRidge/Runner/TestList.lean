import StoneRidge.Kit.PosixDisk
import StoneRidge.Results.Delivery

/-!
# Which tests are run

`StoneRidgeRunner._build_testlist` (`srrunner.py:32-69`) over any file system. Tests are
looked for with two patterns for the entries of the test root, or they are requested by
name; the two ways do not agree on what a test is.
-/

set_option autoImplicit false

namespace StoneRidge.Runner
open StoneRidge.Kit.Files StoneRidge.Kit.PyText StoneRidge.Kit.PosixPath StoneRidge.Kit.Glob

/-- What the file system answers; the names of entries have no slashes. -/
structure FileSystem extends Access where
  exists? : String → Bool
  plain : ∀ dirname names, listdir dirname = some names → ∀ n ∈ names, '/' ∉ n.toList

/-- `enabled` is the option `enabled` of the section `test`. -/
structure StoneRidgeRunner where
  tests : List String
  testroot : String
  enabled : Option String

/-- Any value of the option counts as true that is not empty. -/
def testMode (enabled : Option String) : Bool :=
  match enabled with
  | some value => value ≠ ""
  | none => false

/-- Nothing where a pattern cannot be compiled. -/
def buildTestlist (fs : FileSystem) (runner : StoneRidgeRunner) : Option (List String) :=
  if runner.tests = [] then
    if testMode runner.enabled then
      some (if fs.exists? (join runner.testroot "fake.js") then ["fake.js"] else [])
    else do
      let jstests ← glob fs.toAccess (join runner.testroot "*.js")
      let pagetests ← glob fs.toAccess (join runner.testroot "*.page")
      return (jstests.map basename).erase "fake.js" ++ pagetests.map basename
  else
    some (runner.tests.filter fun candidate =>
      endsWith candidate ".js" && fs.exists? (join runner.testroot candidate))

/-! ### Tests that are looked for -/

section Looked
variable {fs : FileSystem} {testroot c : String} {enabled : Option String} {dirs : List String}

theorem names_plain (fs : FileSystem) (dirname : String) :
    ∀ n ∈ fs.names dirname, '/' ∉ n.toList := by
  intro n hn
  unfold Access.names at hn
  cases hlist : fs.listdir (if dirname = "" then "." else dirname) with
  | none =>
    rw [hlist] at hn
    cases hn
  | some names =>
    rw [hlist] at hn
    exact fs.plain _ names hlist n hn

/-- The names of all entries of the directories that are looked in. -/
def listed (fs : FileSystem) (dirs : List String) : List String := dirs.flatMap fs.names

theorem matching_eq (fs : FileSystem) (dirs : List String) (ending : String) :
    fs.matching dirs "" ending =
      (listed fs dirs).filter fun n => !isHidden n && endsWith n ending := by
  unfold Access.matching listed
  rw [List.filter_flatMap]
  congr 1
  funext dirname
  exact List.filter_congr fun n _ => globbed_star

/-- The names that are found in some directories. -/
def found (fs : FileSystem) (dirs : List String) : List String :=
  (fs.matching dirs "" ".js").erase "fake.js" ++ fs.matching dirs "" ".page"

theorem glob_ending (fs : FileSystem) (testroot ending : String) (hmagic : hasMagic ending = false)
    (hslash : '/' ∉ ("" ++ "*" ++ ending).toList) :
    (glob fs.toAccess (join testroot ("" ++ "*" ++ ending))).map (·.map basename) =
      (fs.looked testroot).map fun dirs => fs.matching dirs "" ending :=
  glob_join testroot (by decide) hmagic (by decide) hslash (names_plain fs)

theorem buildTestlist_looked (fs : FileSystem) (testroot : String)
    (hmode : testMode enabled = false) :
    buildTestlist fs ⟨[], testroot, enabled⟩ = (fs.looked testroot).map (found fs) := by
  have hjs := glob_ending fs testroot ".js" (by decide) (by decide)
  have hpage := glob_ending fs testroot ".page" (by decide) (by decide)
  unfold buildTestlist
  rw [if_pos rfl, hmode]
  simp only [Bool.false_eq_true, ite_false]
  cases hlooked : fs.looked testroot with
  | none =>
    rw [hlooked, Option.map_none, Option.map_eq_none_iff] at hjs
    change (glob fs.toAccess (join testroot ("" ++ "*" ++ ".js"))).bind _ = _
    rw [hjs]
    rfl
  | some dirs =>
    rw [hlooked] at hjs hpage
    obtain ⟨jstests, hjstests, hjsnames⟩ := Option.map_eq_some_iff.mp hjs
    obtain ⟨pagetests, hpagetests, hpagenames⟩ := Option.map_eq_some_iff.mp hpage
    change ((glob fs.toAccess (join testroot ("" ++ "*" ++ ".js"))).bind fun jstests =>
      (glob fs.toAccess (join testroot ("" ++ "*" ++ ".page"))).bind fun pagetests =>
        some ((jstests.map basename).erase "fake.js" ++ pagetests.map basename)) = _
    rw [hjstests, hpagetests, Option.bind_some, Option.bind_some, hjsnames, hpagenames]
    rfl

theorem mem_matching {ending : String} : c ∈ fs.matching dirs "" ending ↔
    c ∈ listed fs dirs ∧ isHidden c = false ∧ endsWith c ending = true := by
  rw [matching_eq, List.mem_filter, Bool.and_eq_true, Bool.not_eq_true']

/-- The excluded name is taken out once only. -/
theorem mem_found : c ∈ found fs dirs ↔
    (c ∈ listed fs dirs ∧ isHidden c = false ∧ endsWith c ".js" = true ∧
        (c = "fake.js" → 2 ≤ (listed fs dirs).count "fake.js")) ∨
      (c ∈ listed fs dirs ∧ isHidden c = false ∧ endsWith c ".page" = true) := by
  unfold found
  rw [List.mem_append, mem_matching]
  apply or_congr_left
  by_cases hfake : c = "fake.js"
  · subst hfake
    have hcount : (fs.matching dirs "" ".js").count "fake.js" =
        (listed fs dirs).count "fake.js" := by
      rw [matching_eq]
      exact List.count_filter (by decide)
    rw [← List.count_pos_iff, List.count_erase_self, hcount, ← List.count_pos_iff]
    have hvisible : isHidden "fake.js" = false := by decide
    have hends : endsWith "fake.js" ".js" = true := by decide
    simp only [hvisible, hends, true_and, forall_const]
    omega
  · rw [List.mem_erase_of_ne hfake, mem_matching]
    simp [hfake]

end Looked

/-! ### Tests that are requested -/

/-- The names of which the two ways say different things. -/
inductive Unalike (fs : FileSystem) (testroot : String) (dirs : List String) : String → Prop
  /-- A page test. -/
  | page {c : String} (hc : c ∈ listed fs dirs) (hvisible : isHidden c = false)
      (hends : endsWith c ".page" = true) : Unalike fs testroot dirs c
  /-- The test that is left out, unless it is there twice. -/
  | fake (h : fs.exists? (join testroot "fake.js") = true ↔
      (listed fs dirs).count "fake.js" ≤ 1) : Unalike fs testroot dirs "fake.js"
  /-- A hidden file, or one that is named by a path. -/
  | path {c : String} (h : isHidden c = true ∨ '/' ∈ c.toList) (hends : endsWith c ".js" = true)
      (hexists : fs.exists? (join testroot c) = true) : Unalike fs testroot dirs c
  /-- A file that is not listed where it is. -/
  | unlisted {c : String} (hc : c ∉ listed fs dirs) (hvisible : isHidden c = false)
      (hplain : '/' ∉ c.toList) (hfake : c ≠ "fake.js") (hends : endsWith c ".js" = true)
      (hexists : fs.exists? (join testroot c) = true) : Unalike fs testroot dirs c
  /-- A name that is listed and leads nowhere. -/
  | dangling {c : String} (hc : c ∈ listed fs dirs) (hvisible : isHidden c = false)
      (hfake : c ≠ "fake.js") (hends : endsWith c ".js" = true)
      (hexists : fs.exists? (join testroot c) = false) : Unalike fs testroot dirs c

section Requested
variable {fs : FileSystem} {testroot c : String} {enabled : Option String} {dirs : List String}

def selected (fs : FileSystem) (testroot candidate : String) : Bool :=
  endsWith candidate ".js" && fs.exists? (join testroot candidate)

theorem selected_iff : selected fs testroot c = true ↔
    endsWith c ".js" = true ∧ fs.exists? (join testroot c) = true := by
  unfold selected
  rw [Bool.and_eq_true]

theorem not_js_of_page (h : endsWith c ".page" = true) : endsWith c ".js" = false := by
  rw [Bool.eq_false_iff]
  intro hjs
  have hboth := endsWith_of_endsWith h hjs (by decide)
  exact absurd hboth (by decide)

theorem listed_plain (hc : c ∈ listed fs dirs) : '/' ∉ c.toList := by
  obtain ⟨dirname, _, hn⟩ := List.mem_flatMap.mp hc
  exact names_plain fs dirname c hn

theorem Unalike.differs (h : Unalike fs testroot dirs c) :
    ¬ (selected fs testroot c = true ↔ c ∈ found fs dirs) := by
  rw [selected_iff, mem_found]
  cases h with
  | page hc hvisible hends =>
    intro h
    have hjs := (h.mpr (.inr ⟨hc, hvisible, hends⟩)).1
    rw [not_js_of_page hends] at hjs
    cases hjs
  | fake h =>
    have hvisible : isHidden "fake.js" = false := by decide
    have hjs : endsWith "fake.js" ".js" = true := by decide
    have hpage : endsWith "fake.js" ".page" = false := by decide
    rw [h, ← List.count_pos_iff]
    simp only [hvisible, hjs, hpage, true_and, and_false, or_false, forall_const, reduceCtorEq]
    omega
  | path h hends hexists =>
    intro hiff
    have hfound := hiff.mp ⟨hends, hexists⟩
    have hboth : c ∈ listed fs dirs ∧ isHidden c = false :=
      hfound.elim (fun hjs => ⟨hjs.1, hjs.2.1⟩) fun hpage => ⟨hpage.1, hpage.2.1⟩
    rcases h with hhidden | hslash
    · rw [hhidden] at hboth
      cases hboth.2
    · exact listed_plain hboth.1 hslash
  | unlisted hc hvisible hplain hfake hends hexists =>
    intro hiff
    exact hc ((hiff.mp ⟨hends, hexists⟩).elim (·.1) (·.1))
  | dangling hc hvisible hfake hends hexists =>
    intro hiff
    have hthere := (hiff.mpr (.inl ⟨hc, hvisible, hends, fun heq => absurd heq hfake⟩)).2
    rw [hexists] at hthere
    cases hthere

/-- One case for each way in which a name is judged. -/
theorem agrees_of_not_unalike (h : ¬ Unalike fs testroot dirs c) :
    selected fs testroot c = true ↔ c ∈ found fs dirs := by
  rw [selected_iff, mem_found]
  constructor
  · intro ⟨hends, hexists⟩
    by_cases hpath : isHidden c = true ∨ '/' ∈ c.toList
    · exact absurd (.path hpath hends hexists) h
    rw [not_or, Bool.not_eq_true] at hpath
    by_cases hfake : c = "fake.js"
    · subst hfake
      by_cases hcount : (listed fs dirs).count "fake.js" ≤ 1
      · exact absurd (.fake ⟨fun _ => hcount, fun _ => hexists⟩) h
      · have hmem : "fake.js" ∈ listed fs dirs := List.count_pos_iff.mp (by omega)
        exact .inl ⟨hmem, hpath.1, hends, fun _ => by omega⟩
    · by_cases hc : c ∈ listed fs dirs
      · exact .inl ⟨hc, hpath.1, hends, fun heq => absurd heq hfake⟩
      · exact absurd (.unlisted hc hpath.1 hpath.2 hfake hends hexists) h
  · intro hfound
    rcases hfound with ⟨hc, hvisible, hends, htwice⟩ | ⟨hc, hvisible, hends⟩
    · refine ⟨hends, ?_⟩
      by_contra hexists
      rw [Bool.not_eq_true] at hexists
      by_cases hfake : c = "fake.js"
      · subst hfake
        have hcount := htwice rfl
        refine absurd (.fake ?_) h
        rw [hexists]
        exact ⟨fun heq => absurd heq Bool.false_ne_true, fun hle => absurd hle (by omega)⟩
      · exact absurd (.dangling hc hvisible hfake hends hexists) h
    · exact absurd (.page hc hvisible hends) h

theorem filter_eq_iff {α : Type} {p q : α → Bool} {l : List α} :
    l.filter p = l.filter q ↔ ∀ x ∈ l, (p x = true ↔ q x = true) := by
  constructor
  · intro heq x hx
    have hmem : x ∈ l.filter p ↔ x ∈ l.filter q := by rw [heq]
    rw [List.mem_filter, List.mem_filter] at hmem
    constructor
    · exact fun hp => (hmem.mp ⟨hx, hp⟩).2
    · exact fun hq => (hmem.mpr ⟨hx, hq⟩).2
  · intro h
    exact List.filter_congr fun x hx => Bool.eq_iff_iff.mpr (h x hx)

/-- A request selects what would be found exactly if the patterns can be compiled and it has
none of the unlike names. -/
theorem buildTestlist_iff (fs : FileSystem) (testroot : String) (enabled : Option String)
    (hmode : testMode enabled = false) (requested : List String) (hne : requested ≠ []) :
    (∃ tests, buildTestlist fs ⟨[], testroot, enabled⟩ = some tests ∧
        buildTestlist fs ⟨requested, testroot, enabled⟩ =
          some (requested.filter fun candidate => candidate ∈ tests)) ↔
      ∃ dirs, fs.looked testroot = some dirs ∧
        ∀ candidate ∈ requested, ¬ Unalike fs testroot dirs candidate := by
  have hrequested : buildTestlist fs ⟨requested, testroot, enabled⟩ =
      some (requested.filter (selected fs testroot)) := by
    unfold buildTestlist
    rw [if_neg hne]
    rfl
  rw [hrequested, buildTestlist_looked fs testroot hmode]
  constructor
  · intro ⟨tests, htests, hselected⟩
    obtain ⟨dirs, hdirs, rfl⟩ := Option.map_eq_some_iff.mp htests
    refine ⟨dirs, hdirs, fun candidate hmem hunalike => hunalike.differs ?_⟩
    have hagree := filter_eq_iff.mp (Option.some.inj hselected) candidate hmem
    rwa [decide_eq_true_eq] at hagree
  · intro ⟨dirs, hdirs, halike⟩
    refine ⟨found fs dirs, by rw [hdirs, Option.map_some], congrArg some (filter_eq_iff.mpr ?_)⟩
    intro candidate hmem
    rw [decide_eq_true_eq]
    exact agrees_of_not_unalike (halike candidate hmem)

end Requested

/-- The tests of the repository. -/
def repositoryTests : FileSystem where
  listdir p := if p = "/t" then some ["basic.js", "fake.js", "pinterest.page"] else none
  lexists p := p ∈ ["/t", "/t/basic.js", "/t/fake.js", "/t/pinterest.page"]
  isdir p := p = "/t"
  exists? p := p ∈ ["/t", "/t/basic.js", "/t/fake.js", "/t/pinterest.page"]
  plain p names h := by
    split at h
    · rw [← Option.some.inj h]
      decide
    · cases h

theorem buildTestlist_iff_basic :
    (∃ tests, buildTestlist repositoryTests ⟨[], "/t", none⟩ = some tests ∧
        buildTestlist repositoryTests ⟨["basic.js"], "/t", none⟩ =
          some (["basic.js"].filter fun candidate => candidate ∈ tests)) ↔
      ∃ dirs, repositoryTests.looked "/t" = some dirs ∧
        ∀ candidate ∈ ["basic.js"], ¬ Unalike repositoryTests "/t" dirs candidate :=
  buildTestlist_iff repositoryTests "/t" none rfl ["basic.js"] (by decide)

/-- The page test is found, and cannot be requested. -/
theorem page_not_selected :
    testMode none = false ∧
      buildTestlist repositoryTests ⟨[], "/t", none⟩ = some ["basic.js", "pinterest.page"] ∧
      buildTestlist repositoryTests ⟨["pinterest.page"], "/t", none⟩ = some [] ∧
      ¬ ∃ tests, buildTestlist repositoryTests ⟨[], "/t", none⟩ = some tests ∧
        buildTestlist repositoryTests ⟨["pinterest.page"], "/t", none⟩ =
          some (["pinterest.page"].filter fun candidate => candidate ∈ tests) := by
  have hlooked : buildTestlist repositoryTests ⟨[], "/t", none⟩ =
      some ["basic.js", "pinterest.page"] := by decide +kernel
  have hrequested : buildTestlist repositoryTests ⟨["pinterest.page"], "/t", none⟩ = some [] := by
    decide +kernel
  refine ⟨rfl, hlooked, hrequested, ?_⟩
  intro ⟨tests, htests, hselected⟩
  obtain rfl := Option.some.inj (hlooked.symm.trans htests)
  rw [hrequested] at hselected
  exact absurd hselected (by decide)

end StoneRidge.Runner
