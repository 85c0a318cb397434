import Mathlib
import StoneRidge.Worker.Workdir

/-!
# Deliveries one after the other

Between two deliveries the stages of a run, the cleaner and whoever else works on
the machine may change the directories. A `handle` that raises leaves its message
unacknowledged and the worker starts anew (`srworker.py:234-239`), so the sequence
goes on in either case.
-/

set_option autoImplicit false

namespace StoneRidge.Worker
open StoneRidge.Kit.Exec StoneRidge.Kit.PosixPath StoneRidge.Kit.PosixTree
open StoneRidge.Dispatch (Netconfig RunMessage)

inductive Event where
  | deliver (m : RunMessage)
  /-- Something else makes and removes directories. -/
  | change (t : Tree)

section Sequences
variable (workroot : String)

/-- Every delivery gets a fresh directory. -/
def AllFresh : Tree → List Event → Prop
  | _, [] => True
  | t, .deliver m :: es => Fresh workroot t m ∧ AllFresh (endState (makeWorkspace workroot m t)) es
  | _, .change t :: es => AllFresh t es

def NoneCollides : Tree → List Event → Prop
  | _, [] => True
  | t, .deliver m :: es =>
    ¬ Collides workroot t m ∧ NoneCollides (endState (makeWorkspace workroot m t)) es
  | _, .change t :: es => NoneCollides t es

theorem allFresh_iff_noneCollides (t : Tree) (es : List Event) :
    AllFresh workroot t es ↔ NoneCollides workroot t es := by
  induction es generalizing t with
  | nil => exact Iff.rfl
  | cons e es ih =>
    cases e with
    | deliver m => exact and_congr fresh_iff (ih _)
    | change t' => exact ih t'

end Sequences

def SameRun (a b : RunMessage) : Prop := a.srid = b.srid ∧ a.netconfig = b.netconfig

/-- Three deliveries for one srid and netconfig, the last two with one tstamp. -/
def Thrice (ms : List RunMessage) : Prop :=
  ∃ a b c, List.Sublist [a, b, c] ms ∧ SameRun a c ∧ SameRun b c ∧ b.tstamp = c.tstamp

/-- A srid that is one component of a path, as `str(uuid.uuid4())` is. -/
def PlainSrid (m : RunMessage) : Prop := '/' ∉ m.srid.toList ∧ IsName m.srid.toList

section Plain
variable {workroot : String} {t t' : Tree} {m : RunMessage}

theorem againName_toList (m : RunMessage) :
    (againName m).toList = m.netconfig.name.toList ++ '_' :: (toString m.tstamp).toList := by
  simp [againName]

theorem netconfig_name_no_underscore (n : Netconfig) : '_' ∉ n.name.toList := by
  cases n <;> decide

theorem againName_ne_name (m : RunMessage) (n : Netconfig) :
    (againName m).toList ≠ n.name.toList := by
  intro h
  apply netconfig_name_no_underscore n
  rw [← h, againName_toList]
  exact List.mem_append_right _ List.mem_cons_self

theorem againName_inj {a b : RunMessage} (h : (againName a).toList = (againName b).toList) :
    a.netconfig = b.netconfig ∧ a.tstamp = b.tstamp := by
  rw [againName_toList, againName_toList] at h
  have hn : a.netconfig = b.netconfig := by
    cases ha : a.netconfig <;> cases hb : b.netconfig <;> simp_all [Netconfig.name]
  rw [hn] at h
  have hts := (List.cons.inj (List.append_cancel_left h)).2
  refine ⟨hn, ?_⟩
  rw [String.toList_inj, Int.toString_eq_repr, Int.toString_eq_repr] at hts
  exact Int.repr_injective hts

theorem names_entry (hroot : workroot ≠ "") (hm : PlainSrid m) :
    IsEntry workroot m.srid (join workroot m.srid) ∧
      IsEntry (join workroot m.srid) m.netconfig.name (firstName workroot m) ∧
      IsEntry (join workroot m.srid) (againName m) (secondName workroot m) := by
  obtain ⟨hn, hname⟩ := netconfig_name_plain m.netconfig
  obtain ⟨ha, haname⟩ := againName_plain m
  have hsrid := isEntry_join hroot hm.1 hm.2
  have hfirst := isEntry_join hsrid.ne_empty hn hname
  refine ⟨hsrid, hfirst, ?_⟩
  obtain ⟨cs, h₁, h₂, habs, -, hne⟩ := names_split workroot m
  obtain ⟨cs', h₁', hcs⟩ := hfirst.components
  change revComponents (firstName workroot m) = _ at h₁'
  rw [h₁] at h₁'
  obtain ⟨-, rfl⟩ := List.cons.inj h₁'
  exact ⟨habs.trans hfirst.isAbs, ⟨cs, h₂, hcs⟩, haname, hne⟩

/-- The location of entry `c` in the directory of the srid. -/
def runLocation (w : Location) (srid : String) (c : List Char) : Location :=
  c :: srid.toList :: w

theorem exists?_runEntry {d q : String} (hroot : t.exists? workroot = true)
    (hs : IsEntry workroot m.srid (join workroot m.srid))
    (h : IsEntry (join workroot m.srid) d q) :
    t.location q = runLocation (t.location workroot) m.srid d.toList ∧
      (t.exists? q = true ↔ runLocation (t.location workroot) m.srid d.toList ∈ t.dirs) := by
  have hloc : t.location q = runLocation (t.location workroot) m.srid d.toList := by
    rw [location_entry h, location_entry hs, runLocation]
  refine ⟨hloc, ?_⟩
  rw [Tree.exists?_iff, and_iff_right h.ne_empty]
  constructor
  · intro hhas
    rw [← hloc]
    exact hhas.location_mem
  · intro hmem
    have hsrid : t.Has (join workroot m.srid) :=
      has_entry hs (Tree.exists?_iff.mp hroot).2 (t.closed _ _ hmem)
    apply has_entry h hsrid
    rw [location_entry hs]
    exact hmem

/-- With a plain srid a delivery collides only if both names are taken. -/
theorem collides_iff_plain (hroot : t.exists? workroot = true) (hm : PlainSrid m) :
    Collides workroot t m ↔
      runLocation (t.location workroot) m.srid m.netconfig.name.toList ∈ t.dirs ∧
        runLocation (t.location workroot) m.srid (againName m).toList ∈ t.dirs := by
  obtain ⟨hne, hhas⟩ := Tree.exists?_iff.mp hroot
  obtain ⟨hs, h₁, h₂⟩ := names_entry hne hm
  obtain ⟨hloc₁, hex₁⟩ := exists?_runEntry hroot hs h₁
  obtain ⟨-, hex₂⟩ := exists?_runEntry hroot hs h₂
  rw [Collides, Bool.eq_false_iff, ne_eq, hex₁, hex₂, hloc₁]
  constructor
  · rintro (h | ⟨hnot, hin | hway⟩)
    · exact h
    · exact absurd hin hnot
    · exfalso
      obtain ⟨cs, hcs, hstart, hlex, hsub⟩ := @entry_split t _ _ _ h₁
      rw [OnTheWay, hcs, List.tail_cons, hstart, hloc₁] at hway
      rcases trail_entry hs (hsub _ hway) with heq | hin
      · have hlen := congrArg List.length heq
        simp [runLocation] at hlen
      · exact hnot (hhas _ hin)
  · exact .inl

/-- A delivery that does not collide adds the picked name to the directory of its
srid, and no other name to any of these. -/
theorem runLocation_after (hroot : t.exists? workroot = true) (hm : PlainSrid m)
    (hc : ¬ Collides workroot t m) :
    (endState (makeWorkspace workroot m t)).exists? workroot = true ∧
      (endState (makeWorkspace workroot m t)).location workroot = t.location workroot ∧
      ∀ (s : String) (c : List Char),
        runLocation (t.location workroot) s c ∈ (endState (makeWorkspace workroot m t)).dirs ↔
          runLocation (t.location workroot) s c ∈ t.dirs ∨ (s = m.srid ∧
            c = if t.exists? (firstName workroot m) then (againName m).toList
              else m.netconfig.name.toList) := by
  obtain ⟨hne, hhas⟩ := Tree.exists?_iff.mp hroot
  obtain ⟨hs, h₁, h₂⟩ := names_entry hne hm
  obtain ⟨t₁, hmk⟩ := fresh_iff_makedirs.mp (fresh_iff.mpr hc)
  obtain ⟨t', hrun, hcwd, hmem⟩ := makeWorkspace_of_makedirs hmk
  -- whichever name is picked is an entry of the directory of the srid
  have hentry : ∃ d : String, IsEntry (join workroot m.srid) d (srwork workroot t m) ∧
      d.toList = if t.exists? (firstName workroot m) then (againName m).toList
        else m.netconfig.name.toList := by
    unfold srwork
    split
    · exact ⟨_, h₂, rfl⟩
    · exact ⟨_, h₁, rfl⟩
  obtain ⟨d, hd, hdeq⟩ := hentry
  rw [← hdeq, hrun, endState_ok]
  have hloc : t'.location workroot = t.location workroot := by
    rw [Tree.location, Tree.location, Tree.start_of_isAbs hcwd rfl]
  refine ⟨?_, hloc, fun s c => ?_⟩
  · rw [Tree.exists?_iff]
    refine ⟨hne, fun x hx => ?_⟩
    rw [Tree.start_of_isAbs hcwd rfl] at hx
    exact (hmem x).mpr (.inr (.inl (hhas x hx)))
  · rw [hmem, location_entry hd, location_entry hs]
    constructor
    · rintro (hsub | hold | htrail)
      · -- the directories inside the workspace are deeper
        have hlen : ∀ x ∈ subdirs (d.toList :: m.srid.toList :: t.location workroot),
            (t.location workroot).length + 2 < x.length := by
          intro x hx
          simp only [subdirs, List.mem_cons, List.not_mem_nil, or_false] at hx
          rcases hx with rfl | rfl | rfl | rfl <;> simp
        have hlt := hlen _ hsub
        simp [runLocation] at hlt
      · exact .inl hold
      · rcases trail_entry hd htrail with heq | htrail
        · rw [location_entry hs] at heq
          obtain ⟨rfl, htail⟩ := List.cons.inj heq
          exact .inr ⟨String.toList_inj.mp (List.cons.inj htail).1, rfl⟩
        · rcases trail_entry hs htrail with heq | htrail
          · have hlen := congrArg List.length heq
            simp [runLocation] at hlen
          · exact .inl (hhas _ htrail)
    · rintro (hold | ⟨rfl, rfl⟩)
      · exact .inr (.inl hold)
      · refine .inr (.inr ?_)
        have hmem := @lexical_mem_trail (t.start (srwork workroot t m))
          (revComponents (srwork workroot t m))
        change t.location (srwork workroot t m) ∈ _ at hmem
        rwa [location_entry hd, location_entry hs] at hmem

/-- What the tree shows of the deliveries `done`, none of which collided. -/
structure Tracks (workroot : String) (w : Location) (t : Tree) (done : List RunMessage) :
    Prop where
  root : t.exists? workroot = true
  location : t.location workroot = w
  first : ∀ a : RunMessage, runLocation w a.srid a.netconfig.name.toList ∈ t.dirs ↔
    ∃ b ∈ done, SameRun b a
  second : ∀ a : RunMessage, runLocation w a.srid (againName a).toList ∈ t.dirs ↔
    ∃ b c, List.Sublist [b, c] done ∧ SameRun b a ∧ SameRun c a ∧ c.tstamp = a.tstamp

theorem sublist_concat {α : Type} {xs ys : List α} {x y : α} :
    List.Sublist (xs ++ [x]) (ys ++ [y]) ↔
      List.Sublist (xs ++ [x]) ys ∨ (x = y ∧ List.Sublist xs ys) := by
  rw [← List.reverse_sublist, List.reverse_concat, List.reverse_concat, List.cons_sublist_cons',
    ← List.reverse_concat, List.reverse_sublist, List.reverse_sublist]

theorem Tracks.collides_iff {w : Location} {done : List RunMessage}
    (h : Tracks workroot w t done) (hm : PlainSrid m) : Collides workroot t m ↔
      ∃ b c, List.Sublist [b, c] done ∧ SameRun b m ∧ SameRun c m ∧ c.tstamp = m.tstamp := by
  rw [collides_iff_plain h.root hm, h.location, h.first, h.second]
  constructor
  · exact And.right
  · rintro ⟨b, c, hsub, hb, hc⟩
    exact ⟨⟨b, hsub.subset List.mem_cons_self, hb⟩, b, c, hsub, hb, hc⟩

theorem Tracks.step {w : Location} {done : List RunMessage} (h : Tracks workroot w t done)
    (hm : PlainSrid m) (hc : ¬ Collides workroot t m) :
    Tracks workroot w (endState (makeWorkspace workroot m t)) (done ++ [m]) := by
  obtain ⟨hroot, hloc, hmem⟩ := runLocation_after h.root hm hc
  have hfirst : t.exists? (firstName workroot m) = true ↔ ∃ b ∈ done, SameRun b m := by
    obtain ⟨hs, h₁, -⟩ := names_entry (Tree.exists?_iff.mp h.root).1 hm
    rw [(exists?_runEntry h.root hs h₁).2, h.location, h.first]
  rw [h.location] at hmem
  refine ⟨hroot, hloc.trans h.location, fun a => ?_, fun a => ?_⟩
  · rw [hmem, h.first]
    simp only [List.mem_append, List.mem_singleton]
    constructor
    · rintro (⟨b, hb, hab⟩ | ⟨hs, hname⟩)
      · exact ⟨b, .inl hb, hab⟩
      · split at hname
        · exact absurd hname.symm (againName_ne_name m a.netconfig)
        · have hn := Netconfig.name_injective (String.toList_inj.mp hname)
          exact ⟨m, .inr rfl, hs.symm, hn.symm⟩
    · rintro ⟨b, hb | rfl, hab⟩
      · exact .inl ⟨b, hb, hab⟩
      · cases hex : t.exists? (firstName workroot b) with
        | false =>
          rw [hab.2]
          exact .inr ⟨hab.1.symm, rfl⟩
        | true =>
          obtain ⟨x, hx, hxb⟩ := hfirst.mp hex
          exact .inl ⟨x, hx, hxb.1.trans hab.1, hxb.2.trans hab.2⟩
  · rw [hmem, h.second]
    have hconcat : ∀ b c, List.Sublist [b, c] (done ++ [m]) ↔
        List.Sublist [b, c] done ∨ (c = m ∧ b ∈ done) := by
      intro b c
      rw [← List.singleton_sublist]
      exact @sublist_concat _ [b] done c m
    constructor
    · rintro (⟨b, c, hsub, hbc⟩ | ⟨hs, hname⟩)
      · exact ⟨b, c, (hconcat b c).mpr (.inl hsub), hbc⟩
      · split at hname
        next hex =>
          obtain ⟨hn, hts⟩ := againName_inj hname
          obtain ⟨b, hb, hbm⟩ := hfirst.mp hex
          refine ⟨b, m, (hconcat b m).mpr (.inr ⟨rfl, hb⟩), ?_, ⟨hs.symm, hn.symm⟩, hts.symm⟩
          exact ⟨hbm.1.trans hs.symm, hbm.2.trans hn.symm⟩
        next => exact absurd hname (againName_ne_name a m.netconfig)
    · rintro ⟨b, c, hsub, hb, hca, hts⟩
      rcases (hconcat b c).mp hsub with hsub | ⟨rfl, hbd⟩
      · exact .inl ⟨b, c, hsub, hb, hca, hts⟩
      · have hex : t.exists? (firstName workroot c) = true :=
          hfirst.mpr ⟨b, hbd, hb.1.trans hca.1.symm, hb.2.trans hca.2.symm⟩
        rw [hex, if_pos rfl]
        refine .inr ⟨hca.1.symm, ?_⟩
        rw [againName, againName, hca.2, hts]

/-- From a tree that shows `done`, the deliveries are fresh unless one of them is the
third with an earlier tstamp. -/
theorem Tracks.allFresh_iff {w : Location} {done ms : List RunMessage}
    (h : Tracks workroot w t done) (hdone : ¬ Thrice done) (hms : ∀ m ∈ ms, PlainSrid m) :
    AllFresh workroot t (ms.map .deliver) ↔ ¬ Thrice (done ++ ms) := by
  induction ms generalizing t done with
  | nil =>
    rw [List.append_nil]
    exact iff_of_true trivial hdone
  | cons m ms ih =>
    have hm := hms m List.mem_cons_self
    have hthrice : Thrice (done ++ [m]) ↔ Collides workroot t m := by
      rw [h.collides_iff hm]
      constructor
      · rintro ⟨a, b, c, hsub, hac, hbc, hts⟩
        rcases (@sublist_concat _ [a, b] done c m).mp hsub with hsub' | ⟨rfl, hsub'⟩
        · exact absurd ⟨a, b, c, hsub', hac, hbc, hts⟩ hdone
        · exact ⟨a, b, hsub', hac, hbc, hts⟩
      · rintro ⟨a, b, hsub, ham, hbm, hts⟩
        exact ⟨a, b, m, (@sublist_concat _ [a, b] done m m).mpr (.inr ⟨rfl, hsub⟩), ham, hbm, hts⟩
    rw [List.map_cons, AllFresh, fresh_iff]
    by_cases hc : Collides workroot t m
    · refine iff_of_false (fun hall => hall.1 hc) (not_not_intro ?_)
      obtain ⟨a, b, c, hsub, hrest⟩ := hthrice.mpr hc
      refine ⟨a, b, c, hsub.trans ?_, hrest⟩
      rw [List.append_cons done m ms]
      exact List.sublist_append_left _ _
    · rw [and_iff_right hc, List.append_cons done m ms]
      exact ih (h.step hm hc) (fun ht => hc (hthrice.mp ht))
        (fun x hx => hms x (List.mem_cons_of_mem m hx))

theorem Tracks.empty (hroot : t.exists? workroot = true)
    (hempty : ∀ d, d :: t.location workroot ∉ t.dirs) :
    Tracks workroot (t.location workroot) t [] := by
  refine ⟨hroot, rfl, fun a => ?_, fun a => ?_⟩
  · refine iff_of_false (fun hmem => hempty _ (t.closed _ _ hmem)) ?_
    rintro ⟨b, hb, -⟩
    cases hb
  · refine iff_of_false (fun hmem => hempty _ (t.closed _ _ hmem)) ?_
    rintro ⟨b, c, hsub, -⟩
    cases hsub

theorem allFresh_iff_not_thrice {ms : List RunMessage} (hroot : t.exists? workroot = true)
    (hempty : ∀ d, d :: t.location workroot ∉ t.dirs) (hms : ∀ m ∈ ms, PlainSrid m) :
    AllFresh workroot t (ms.map .deliver) ↔ ¬ Thrice ms := by
  refine (Tracks.empty hroot hempty).allFresh_iff ?_ hms
  rintro ⟨a, b, c, hsub, -⟩
  cases hsub

end Plain

/-- Every delivery of a sequence gets a fresh directory if and only if none finds the
picked name in use; for plain srids and an empty work root that nothing but the
worker changes, if and only if no run is delivered three times with the last two
tstamps equal. -/
theorem deliveries_fresh_iff (workroot : String) :
    (∀ (t : Tree) (es : List Event), AllFresh workroot t es ↔ NoneCollides workroot t es) ∧
      ∀ (t : Tree) (ms : List RunMessage), t.exists? workroot = true →
        (∀ d, d :: t.location workroot ∉ t.dirs) → (∀ m ∈ ms, PlainSrid m) →
          (AllFresh workroot t (ms.map .deliver) ↔ ¬ Thrice ms) :=
  ⟨allFresh_iff_noneCollides workroot, fun _ _ hroot hempty hms =>
    allFresh_iff_not_thrice hroot hempty hms⟩

/-- A machine with an empty `/w`. -/
def workTree : Tree where
  dirs := [["w".toList], []]
  root := by decide
  closed c l h := by
    rcases List.mem_cons.mp h with h | h
    · obtain ⟨-, rfl⟩ := List.cons.inj h
      decide
    · cases List.mem_singleton.mp h
  cwd := []
  cwd_mem := by decide

theorem workTree_empty (d : List Char) : d :: workTree.location "/w" ∉ workTree.dirs := by
  intro h
  rcases List.mem_cons.mp h with h | h
  · cases (List.cons.inj h).2
  · cases List.mem_singleton.mp h

def gsmRun : RunMessage := ⟨"5e1", .gsm, 1000, "a@b.c"⟩

theorem gsmRun_plain (n : ℕ) : ∀ m ∈ List.replicate n gsmRun, PlainSrid m := by
  intro m hm
  obtain rfl := List.eq_of_mem_replicate hm
  exact ⟨by decide, by decide⟩

/-- Two deliveries of a message are fine. -/
theorem deliveries_fresh_iff_twice :
    AllFresh "/w" workTree ((List.replicate 2 gsmRun).map .deliver) := by
  rw [(deliveries_fresh_iff "/w").2 workTree _ (by decide) workTree_empty (gsmRun_plain 2)]
  rintro ⟨a, b, c, hsub, -⟩
  have hle := hsub.length_le
  simp at hle

/-- The third delivery of a message is not. -/
theorem third_delivery_raises :
    ¬ AllFresh "/w" workTree ((List.replicate 3 gsmRun).map .deliver) := by
  rw [allFresh_iff_not_thrice (by decide) workTree_empty (gsmRun_plain 3), not_not]
  exact ⟨gsmRun, gsmRun, gsmRun, List.Sublist.refl _, ⟨rfl, rfl⟩, ⟨rfl, rfl⟩, rfl⟩

end StoneRidge.Worker
