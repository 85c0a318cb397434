import StoneRidge.Dispatch.Messages
import StoneRidge.Kit.PosixTree

/-!
# The working directory of a run

`StoneRidgeWorker.handle` begins with the directories of the run
(`srworker.py:28-57`). The name is made of the srid and the netconfig, and of the
tstamp too if the first name is taken; that the second name may be taken as well
is not looked at, and then `os.makedirs` raises. The names of files are left out
here: no file stands where a run keeps its directories.
-/

set_option autoImplicit false

namespace StoneRidge.Worker
open StoneRidge.Kit.Exec StoneRidge.Kit.PosixPath StoneRidge.Kit.PosixTree
open StoneRidge.Dispatch (Netconfig RunMessage)

def firstName (workroot : String) (m : RunMessage) : String :=
  join (join workroot m.srid) m.netconfig.name

def secondName (workroot : String) (m : RunMessage) : String :=
  firstName workroot m ++ "_" ++ toString m.tstamp

/-- `srwork` (`srworker.py:30-32`). -/
def srwork (workroot : String) (t : Tree) (m : RunMessage) : String :=
  if t.exists? (firstName workroot m) then secondName workroot m else firstName workroot m

/-- The directories inside `srwork` (`srworker.py:34-57`). -/
def makeSubdirs (srwork : String) : EStateM Errno Tree Unit := do
  let srout := join srwork "out"
  mkdir srout
  let logdir := join srout "logs"
  makedirs logdir
  let srdownload := join srwork "download"
  mkdir srdownload
  let profile := join srout "profile"
  mkdir profile

/-- The directories that `handle` makes before it runs the stages. -/
def makeWorkspace (workroot : String) (m : RunMessage) : EStateM Errno Tree Unit := do
  let t ← get
  let srwork := srwork workroot t m
  makedirs srwork
  makeSubdirs srwork

section Names
variable {workroot : String} {m : RunMessage} {t t' : Tree}

theorem netconfig_name_plain (n : Netconfig) : '/' ∉ n.name.toList ∧ IsName n.name.toList := by
  cases n <;> decide

theorem toString_tstamp_plain (z : ℤ) : ∀ c ∈ (toString z).toList, c = '-' ∨ c.isDigit = true := by
  have hnat : ∀ n : ℕ, ∀ c ∈ n.repr.toList, c.isDigit = true := by
    intro n c hc
    rw [Nat.repr, String.toList_ofList] at hc
    exact Nat.isDigit_of_mem_toDigits (by decide) (by decide) hc
  intro c hc
  rw [Int.toString_eq_repr, Int.repr_eq_if] at hc
  split at hc
  · exact .inr (hnat _ c hc)
  · rw [String.toList_append] at hc
    rcases List.mem_append.mp hc with hc | hc
    · exact .inl (List.mem_singleton.mp hc)
    · exact .inr (hnat _ c hc)

/-- The last component of the second name. -/
def againName (m : RunMessage) : String := m.netconfig.name ++ "_" ++ toString m.tstamp

theorem againName_plain (m : RunMessage) :
    '/' ∉ (againName m).toList ∧ IsName (againName m).toList := by
  have hts : '/' ∉ (toString m.tstamp).toList := by
    intro h
    rcases toString_tstamp_plain _ _ h with h | h
    · cases h
    · cases h
  obtain ⟨hn, -⟩ := netconfig_name_plain m.netconfig
  have hlist : (againName m).toList = m.netconfig.name.toList ++ '_' :: (toString m.tstamp).toList := by
    simp [againName]
  rw [hlist]
  refine ⟨?_, ?_⟩
  · intro h
    rcases List.mem_append.mp h with h | h
    · exact hn h
    · rcases List.mem_cons.mp h with h | h
      · cases h
      · exact hts h
  · cases m.netconfig <;> exact ⟨by simp [Netconfig.name], by simp [Netconfig.name],
      by simp [Netconfig.name]⟩

/-- Both names are the same text with one component behind it. -/
theorem names_split (workroot : String) (m : RunMessage) : ∃ cs : List (List Char),
    revComponents (firstName workroot m) = m.netconfig.name.toList :: cs ∧
      revComponents (secondName workroot m) = (againName m).toList :: cs ∧
      isAbs (secondName workroot m) = isAbs (firstName workroot m) ∧
      firstName workroot m ≠ "" ∧ secondName workroot m ≠ "" := by
  obtain ⟨hn, hname⟩ := netconfig_name_plain m.netconfig
  obtain ⟨ha, haname⟩ := againName_plain m
  obtain ⟨x, hx, hfirst⟩ := join_eq_append (join workroot m.srid) m.netconfig.name hn
  have hsecond : secondName workroot m = x ++ againName m := by
    simp only [secondName, firstName, hfirst, againName, String.append_assoc]
  rw [hsecond, firstName, hfirst]
  have hne {b : String} (hb : b.toList ≠ []) : x ++ b ≠ "" := fun h =>
    hb (String.toList_eq_nil_iff.mpr (String.append_eq_empty_iff.mp h).2)
  refine ⟨(revComponents x).tail, revComponents_append hx hn, revComponents_append hx ha, ?_,
    hne hname.1, hne haname.1⟩
  have hagain : x ++ againName m = x ++ m.netconfig.name ++ ("_" ++ toString m.tstamp) := by
    simp only [againName, String.append_assoc]
  rw [hagain, isAbs_append]
  rw [String.toList_append]
  intro h
  exact hname.1 (List.append_eq_nil_iff.mp h).2

end Names

section Workspace
variable {workroot : String} {m : RunMessage} {t t' : Tree} {p : String}

/-- The directories below the working directory at `l`. -/
def subdirs (l : Location) : List Location :=
  ["profile".toList :: "out".toList :: l, "download".toList :: l,
    "logs".toList :: "out".toList :: l, "out".toList :: l]

theorem makeSubdirs_ok (hne : p ≠ "") (hp : t.Has p)
    (hempty : ∀ d, d :: t.location p ∉ t.dirs) : ∃ t', makeSubdirs p t = .ok () t' ∧
      t'.cwd = t.cwd ∧ ∀ x, x ∈ t'.dirs ↔ x ∈ subdirs (t.location p) ∨ x ∈ t.dirs := by
  have hout : IsEntry p "out" (join p "out") := isEntry_join hne (by decide) (by decide)
  have hlogs : IsEntry (join p "out") "logs" (join (join p "out") "logs") :=
    isEntry_join hout.ne_empty (by decide) (by decide)
  have hdown : IsEntry p "download" (join p "download") :=
    isEntry_join hne (by decide) (by decide)
  have hprof : IsEntry (join p "out") "profile" (join (join p "out") "profile") :=
    isEntry_join hout.ne_empty (by decide) (by decide)
  have hbelow : ∀ d e, d :: e :: t.location p ∉ t.dirs :=
    fun d e h => hempty e (t.closed d _ h)
  obtain ⟨t₁, h₁, hadd₁⟩ := mkdir_entry hout hp (hempty _)
  have hout₁ : t₁.Has (join p "out") := by
    apply has_entry hout (hadd₁.has hp)
    rw [hadd₁.location_eq]
    exact (hadd₁.mem _).mpr (.inl rfl)
  obtain ⟨t₂, h₂, hadd₂⟩ := makedirs_entry hlogs hout₁ (by
    rw [hadd₁.location_eq, location_entry hout, hadd₁.mem]
    simp [hbelow])
  rw [hadd₁.location_eq, location_entry hout] at hadd₂
  obtain ⟨t₃, h₃, hadd₃⟩ := mkdir_entry hdown (hadd₂.has (hadd₁.has hp)) (by
    rw [hadd₂.location_eq, hadd₁.location_eq, hadd₂.mem, hadd₁.mem]
    simp [hempty])
  rw [hadd₂.location_eq, hadd₁.location_eq] at hadd₃
  obtain ⟨t₄, h₄, hadd₄⟩ := mkdir_entry hprof (hadd₃.has (hadd₂.has hout₁)) (by
    rw [hadd₃.location_eq, hadd₂.location_eq, hadd₁.location_eq, location_entry hout,
      hadd₃.mem, hadd₂.mem, hadd₁.mem]
    simp [hbelow])
  rw [hadd₃.location_eq, hadd₂.location_eq, hadd₁.location_eq, location_entry hout] at hadd₄
  refine ⟨t₄, ?_, ?_, ?_⟩
  · simp only [makeSubdirs, bind_ok h₁, bind_ok h₂, bind_ok h₃, h₄]
  · rw [hadd₄.cwd, hadd₃.cwd, hadd₂.cwd, hadd₁.cwd]
  · intro x
    rw [hadd₄.mem, hadd₃.mem, hadd₂.mem, hadd₁.mem]
    simp only [subdirs, List.mem_cons, List.not_mem_nil, or_false, or_assoc]

/-- Its own name, and what is on the way to it: where `os.makedirs` finds the
directory in place. -/
def OnTheWay (t : Tree) (p : String) : Prop :=
  t.location p ∈ trail (t.start p) (revComponents p).tail

/-- The state before a delivery in which the name that `handle` picks is in use:
both names are, or the first one is missing only because something on the way to
it is, and `..` leads from there to a directory that is not. -/
def Collides (workroot : String) (t : Tree) (m : RunMessage) : Prop :=
  (t.exists? (firstName workroot m) = true ∧ t.exists? (secondName workroot m) = true) ∨
    (t.exists? (firstName workroot m) = false ∧
      (t.location (firstName workroot m) ∈ t.dirs ∨ OnTheWay t (firstName workroot m)))

/-- `handle` gets a directory that did not exist, and does not raise. -/
def Fresh (workroot : String) (t : Tree) (m : RunMessage) : Prop :=
  t.exists? (srwork workroot t m) = false ∧ ∃ t', makeWorkspace workroot m t = .ok () t' ∧
    t'.exists? (srwork workroot t m) = true

theorem srwork_cases (workroot : String) (t : Tree) (m : RunMessage) :
    ∃ (c : List Char) (cs : List (List Char)),
      revComponents (srwork workroot t m) = c :: cs ∧ IsName c ∧ srwork workroot t m ≠ "" := by
  obtain ⟨cs, hfirst, hsecond, -, hne₁, hne₂⟩ := names_split workroot m
  unfold srwork
  split
  · exact ⟨_, cs, hsecond, (againName_plain m).2, hne₂⟩
  · exact ⟨_, cs, hfirst, (netconfig_name_plain m.netconfig).2, hne₁⟩

theorem makeWorkspace_of_makedirs {t₁ : Tree}
    (h : makedirs (srwork workroot t m) t = .ok () t₁) : ∃ t',
    makeWorkspace workroot m t = .ok () t' ∧ t'.cwd = t.cwd ∧
      ∀ x, x ∈ t'.dirs ↔ x ∈ subdirs (t.location (srwork workroot t m)) ∨ x ∈ t.dirs ∨
        x ∈ trail (t.start (srwork workroot t m)) (revComponents (srwork workroot t m)) := by
  obtain ⟨c, cs, hsplit, hc, hne⟩ := srwork_cases workroot t m
  have hmade := makedirs_made hsplit hc h
  have hstart : t₁.start (srwork workroot t m) = t.start (srwork workroot t m) :=
    Tree.start_of_isAbs hmade.1 rfl
  have hloc : t₁.location (srwork workroot t m) = t.location (srwork workroot t m) := by
    rw [Tree.location, Tree.location, hstart]
  have hhas : t₁.Has (srwork workroot t m) := by
    intro x hx
    rw [hstart] at hx
    exact hmade.trail_mem x hx
  have hempty : ∀ d, d :: t₁.location (srwork workroot t m) ∉ t₁.dirs := by
    rw [hloc]
    exact makedirs_empty hsplit hc h
  obtain ⟨t', hrun, hcwd, hmem⟩ := makeSubdirs_ok hne hhas hempty
  refine ⟨t', ?_, hcwd.trans hmade.1, ?_⟩
  · rw [makeWorkspace, bind_apply, get_apply]
    simp only [bind_ok h]
    exact hrun
  · intro x
    rw [hmem, hloc, hmade.2]

theorem makedirs_of_makeWorkspace (h : makeWorkspace workroot m t = .ok () t') :
    ∃ t₁, makedirs (srwork workroot t m) t = .ok () t₁ := by
  cases hmk : makedirs (srwork workroot t m) t with
  | ok u t₁ => exact ⟨t₁, rfl⟩
  | error e t₁ =>
    rw [makeWorkspace, bind_apply, get_apply] at h
    simp only [bind_error hmk] at h
    cases h

/-- The out directory of a workspace that has been made, in a directory that is new. -/
theorem makeWorkspace_out (h : makeWorkspace workroot m t = .ok () t') :
    t.location (srwork workroot t m) ∉ t.dirs ∧ t'.Has (join (srwork workroot t m) "out") ∧
      t'.location (join (srwork workroot t m) "out") =
        "out".toList :: t.location (srwork workroot t m) := by
  obtain ⟨c, cs, hsplit, hc, hne⟩ := srwork_cases workroot t m
  obtain ⟨t₁, hmk⟩ := makedirs_of_makeWorkspace h
  obtain ⟨t'', hok, hcwd, hmem⟩ := makeWorkspace_of_makedirs hmk
  rw [h] at hok
  cases hok
  have hout : IsEntry (srwork workroot t m) "out" (join (srwork workroot t m) "out") :=
    isEntry_join hne (by decide) (by decide)
  have hstart : t'.start (srwork workroot t m) = t.start (srwork workroot t m) :=
    Tree.start_of_isAbs hcwd rfl
  have hloc : t'.location (srwork workroot t m) = t.location (srwork workroot t m) := by
    rw [Tree.location, Tree.location, hstart]
  refine ⟨((makedirs_ok_iff hsplit hc).mp ⟨t₁, hmk⟩).1, has_entry hout ?_ ?_, ?_⟩
  · intro x hx
    rw [hstart] at hx
    exact (hmem x).mpr (.inr (.inr hx))
  · rw [hloc]
    exact (hmem _).mpr (.inl (by simp [subdirs]))
  · rw [location_entry hout, hloc]

theorem fresh_iff_makedirs : Fresh workroot t m ↔
    ∃ t', makedirs (srwork workroot t m) t = .ok () t' := by
  obtain ⟨c, cs, hsplit, hc, hne⟩ := srwork_cases workroot t m
  constructor
  · rintro ⟨-, t', hok, -⟩
    exact makedirs_of_makeWorkspace hok
  · rintro ⟨t₁, hmk⟩
    obtain ⟨hnew, -⟩ := (makedirs_ok_iff hsplit hc).mp ⟨t₁, hmk⟩
    obtain ⟨t', hok, hcwd, hmem⟩ := makeWorkspace_of_makedirs hmk
    refine ⟨?_, t', hok, ?_⟩
    · rw [Bool.eq_false_iff, ne_eq, Tree.exists?_iff]
      rintro ⟨-, hhas⟩
      exact hnew hhas.location_mem
    · rw [Tree.exists?_iff]
      refine ⟨hne, fun x hx => ?_⟩
      rw [Tree.start_of_isAbs hcwd rfl] at hx
      exact (hmem x).mpr (.inr (.inr hx))

/-- One delivery: the directory is fresh unless the picked name is in use. -/
theorem fresh_iff : Fresh workroot t m ↔ ¬ Collides workroot t m := by
  obtain ⟨cs, hfirst, hsecond, habs, -, hne₂⟩ := names_split workroot m
  have hc₁ := (netconfig_name_plain m.netconfig).2
  have hc₂ := (againName_plain m).2
  rw [fresh_iff_makedirs, srwork, Collides]
  cases hex : t.exists? (firstName workroot m) with
  | false =>
    simp only [Bool.false_eq_true, ite_false, false_and, false_or, true_and, OnTheWay]
    rw [makedirs_ok_iff hfirst hc₁, hfirst, List.tail_cons, not_or]
  | true =>
    simp only [ite_true, true_and, Bool.true_eq_false, false_and, or_false]
    have hway : ∀ x ∈ trail (t.start (firstName workroot m)) cs, x ∈ t.dirs := by
      intro x hx
      apply (Tree.exists?_iff.mp hex).2
      rw [hfirst]
      exact List.mem_cons_of_mem _ hx
    have hstart : t.start (secondName workroot m) = t.start (firstName workroot m) :=
      Tree.start_of_isAbs rfl habs
    rw [makedirs_ok_iff hsecond hc₂, Tree.exists?_iff, and_iff_right hne₂,
      hstart]
    constructor
    · rintro ⟨hnew, -⟩ hhas
      exact hnew hhas.location_mem
    · intro hhas
      have hnew : t.location (secondName workroot m) ∉ t.dirs := by
        intro hmem
        apply hhas
        intro x hx
        rw [hsecond, trail, hstart, lexEnter_name hc₂] at hx
        rcases List.mem_cons.mp hx with rfl | hx
        · rwa [location_split hsecond hc₂, hstart] at hmem
        · exact hway x hx
      exact ⟨hnew, fun hmem => hnew (hway _ hmem)⟩

end Workspace

end StoneRidge.Worker
