import StoneRidge.Pcap.Captures

/-!
# When every run stores its own traffic

What a run stores comes from its own start stage unless that stage met a capture, which
the run then fetches.
-/

set_option autoImplicit false

namespace StoneRidge.Pcap
open StoneRidge.Worker

/-- The server has a capture of the client that the run gets as far as fetching. -/
def Stale (macaddr : String) (w : World) (r : Run) : Prop :=
  ∃ e outdir, w.pcaps macaddr = some e ∧ e.Captures outdir ∧ r.Collects outdir

/-- Everything stored was started by the run that stored it. -/
def OwnTraffic (w : World) : Prop := ∀ s ∈ w.stored, s.startedBy = some s.run

section Runs
variable {server : Config} {macaddr : String} {w : World} {r : Run} {e : Entry}
  {outdir outdir' : String} {bound : ℕ}

theorem Entry.Captures.outdir_eq (h : e.Captures outdir) : e.outdir = some outdir := by
  rcases h with ⟨fd, p, rfl⟩ | rfl <;> rfl

theorem Entry.Captures.unique (h : e.Captures outdir) (h' : e.Captures outdir') :
    outdir = outdir' :=
  Option.some.inj (h.outdir_eq.symm.trans h'.outdir_eq)

theorem Entry.Captures.ne_empty (h : e.Captures outdir) : e ≠ .empty := by
  intro heq
  have hout := h.outdir_eq
  rw [heq] at hout
  cases hout

theorem not_stale_of_no_capture (h : w.pcaps macaddr = none ∨ w.pcaps macaddr = some .empty) :
    ¬ Stale macaddr w r := by
  intro ⟨e, outdir, he, hcap, _⟩
  rcases h with h | h
  · rw [h] at he
    cases he
  · rw [h] at he
    cases he
    exact hcap.ne_empty rfl

theorem stale_iff (he : w.pcaps macaddr = some e) (hcap : e.Captures outdir) :
    Stale macaddr w r ↔ r.Collects outdir := by
  constructor
  · intro ⟨e', outdir', he', hcap', hcollects⟩
    rw [he] at he'
    cases he'
    rw [hcap.unique hcap']
    exact hcollects
  · intro hcollects
    exact ⟨e, outdir, he, hcap, hcollects⟩

/-- Only the `pcap` stages touch the server. -/
theorem foldl_stage (server : Config) (macaddr : String) (r : Run) (w : World) (calls : List Worker.Call) :
    calls.foldl (r.stage server macaddr) w =
      (calls.filter isPcap).foldl (r.stage server macaddr) w := by
  induction calls generalizing w with
  | nil => rfl
  | cons c calls ih =>
    rw [List.foldl_cons, ih]
    by_cases hc : isPcap c = true
    · rw [List.filter_cons_of_pos hc, List.foldl_cons]
    · have hstart : c ≠ startCall := fun h => hc (h ▸ rfl)
      have hstop : c ≠ stopCall := fun h => hc (h ▸ rfl)
      rw [List.filter_cons_of_neg hc]
      unfold Run.stage
      rw [if_neg hstart, if_neg hstop]

theorem stage_start (r : Run) (w : World) :
    r.stage server macaddr w startCall = startPcap server macaddr r w := if_pos rfl

theorem stage_stop (r : Run) (w : World) :
    r.stage server macaddr w stopCall = stopPcap macaddr r w := by
  unfold Run.stage
  rw [if_neg (by decide), if_pos rfl]

theorem stopCall_mem : stopCall ∈ r.calls ↔ stopCall ∈ r.calls.filter isPcap := by
  rw [List.mem_filter]
  exact ⟨fun h => ⟨h, rfl⟩, And.left⟩

theorem World.run_stages (server : Config) (macaddr : String) (r : Run) (w : World) :
    (stopCall ∉ r.calls ∧ w.run server macaddr r = { w with runs := w.runs + 1 }) ∨
    (stopCall ∉ r.calls ∧ w.run server macaddr r =
      { startPcap server macaddr r w with runs := (startPcap server macaddr r w).runs + 1 }) ∨
    (stopCall ∈ r.calls ∧ w.run server macaddr r =
      { stopPcap macaddr r (startPcap server macaddr r w) with
        runs := (stopPcap macaddr r (startPcap server macaddr r w)).runs + 1 }) := by
  have hfold := foldl_stage server macaddr r w r.calls
  unfold World.run
  simp only [hfold]
  rw [stopCall_mem]
  rcases r.pcap_calls with h | h | h
  · rw [h]
    exact Or.inl ⟨by decide, rfl⟩
  · rw [h]
    refine Or.inr (Or.inl ⟨by decide, ?_⟩)
    rw [List.foldl_cons, stage_start]
    rfl
  · rw [h]
    refine Or.inr (Or.inr ⟨by decide, ?_⟩)
    rw [List.foldl_cons, List.foldl_cons, stage_start, stage_stop]
    rfl

theorem not_stale_of_not_stop (h : stopCall ∉ r.calls) : ¬ Stale macaddr w r := by
  intro ⟨e, outdir, _, _, hcollects⟩
  exact h hcollects.1

/-- What a run may have stored: nothing, its own capture, or one that it met. -/
def Stores (macaddr : String) (w : World) (r : Run) (stored : List Stored) : Prop :=
  (¬ Stale macaddr w r ∧ (stored = w.stored ∨
    ∃ data, stored = w.stored ++ [⟨w.runs, some w.runs, data⟩])) ∨
  (Stale macaddr w r ∧ ∃ data j, j < w.runs ∧ stored = w.stored ++ [⟨w.runs, some j, data⟩])

theorem World.Entered.mono {bound' : ℕ} (h : w.Entered macaddr bound) (hle : bound ≤ bound') :
    w.Entered macaddr bound' := by
  rcases h with h | h | ⟨e, outdir, j, he, hcap, hj, hlt⟩
  · exact Or.inl h
  · exact Or.inr (Or.inl h)
  · exact Or.inr (Or.inr ⟨e, outdir, j, he, hcap, hj, by omega⟩)

theorem startPcap_entered (server : Config) (r : Run) (h : w.Entered macaddr w.runs) :
    (startPcap server macaddr r w).Entered macaddr (w.runs + 1) := by
  obtain ⟨_, _, hcases⟩ := startPcap_cases server macaddr r w
  rcases hcases with ⟨hpcaps, hby⟩ | ⟨hnone, hempty | ⟨e, outdir, he, hcap, hby⟩⟩
  · have hkept : (startPcap server macaddr r w).Entered macaddr w.runs := by
      unfold World.Entered
      rw [hpcaps, hby]
      exact h
    exact hkept.mono (by omega)
  · exact Or.inr (Or.inl hempty)
  · exact Or.inr (Or.inr ⟨e, outdir, w.runs, he, hcap, hby, by omega⟩)

theorem stopPcap_stores (server : Config) (h : w.Entered macaddr w.runs) (hcall : stopCall ∈ r.calls) :
    (stopPcap macaddr r (startPcap server macaddr r w)).runs = w.runs ∧
    (stopPcap macaddr r (startPcap server macaddr r w)).Entered macaddr (w.runs + 1) ∧
    Stores macaddr w r (stopPcap macaddr r (startPcap server macaddr r w)).stored := by
  obtain ⟨hruns, hstored, hcases⟩ := startPcap_cases server macaddr r w
  have hentered := startPcap_entered server r h
  generalize startPcap server macaddr r w = w' at hruns hstored hcases hentered ⊢
  rcases hentered with hnone | hempty | ⟨e, outdir, j, he, hcap, hj, hlt⟩
  · have hno : w'.pcaps macaddr = none ∨ w'.pcaps macaddr = some .empty := Or.inl hnone
    rw [stopPcap_of_no_capture hno, hstored]
    refine ⟨hruns, Or.inl hnone, Or.inl ⟨?_, Or.inl rfl⟩⟩
    rcases hcases with ⟨hpcaps, _⟩ | ⟨hbefore, _⟩
    · rw [hpcaps] at hno
      exact not_stale_of_no_capture hno
    · exact not_stale_of_no_capture (Or.inl hbefore)
  · have hno : w'.pcaps macaddr = none ∨ w'.pcaps macaddr = some .empty := Or.inr hempty
    rw [stopPcap_of_no_capture hno, hstored]
    refine ⟨hruns, Or.inr (Or.inl hempty), Or.inl ⟨?_, Or.inl rfl⟩⟩
    rcases hcases with ⟨hpcaps, _⟩ | ⟨hbefore, _⟩
    · rw [hpcaps] at hno
      exact not_stale_of_no_capture hno
    · exact not_stale_of_no_capture (Or.inl hbefore)
  · obtain ⟨hruns', hby', hentry, hstores⟩ := stopPcap_of_capture (r := r) he hcap hcall
    refine ⟨hruns'.trans hruns, ?_, ?_⟩
    · rcases hentry with hnone | ⟨e', he', hcap'⟩
      · exact Or.inl hnone
      · exact Or.inr (Or.inr ⟨e', outdir, j, he', hcap', hby'.trans hj, hlt⟩)
    · rcases hcases with ⟨hpcaps, hby⟩ | ⟨hbefore, hempty | ⟨e', outdir', he', hcap', hby⟩⟩
      · -- the start stage met the capture
        rw [hpcaps] at he
        have hj' : j < w.runs := by
          rcases h with hnone | hempty | ⟨e₀, outdir₀, j₀, he₀, hcap₀, hj₀, hlt₀⟩
          · rw [hnone] at he
            cases he
          · rw [hempty] at he
            cases he
            exact absurd rfl hcap.ne_empty
          · rw [hby, hj₀] at hj
            cases hj
            exact hlt₀
        rcases hstores with ⟨hcollects, heq⟩ | ⟨hcollects, data, heq⟩
        · exact Or.inl ⟨fun hs => hcollects ((stale_iff he hcap).mp hs), Or.inl (heq.trans hstored)⟩
        · refine Or.inr ⟨(stale_iff he hcap).mpr hcollects, data, j, hj', ?_⟩
          rw [heq, hstored, hruns, hj]
      · rw [hempty] at he
        cases he
        exact absurd rfl hcap.ne_empty
      · refine Or.inl ⟨not_stale_of_no_capture (Or.inl hbefore), ?_⟩
        rcases hstores with ⟨_, heq⟩ | ⟨_, data, heq⟩
        · exact Or.inl (heq.trans hstored)
        · refine Or.inr ⟨data, ?_⟩
          rw [heq, hstored, hruns, hby]

theorem World.run_stores (server : Config) (r : Run) (h : w.Entered macaddr w.runs) :
    (w.run server macaddr r).runs = w.runs + 1 ∧
    (w.run server macaddr r).Entered macaddr (w.runs + 1) ∧
    Stores macaddr w r (w.run server macaddr r).stored := by
  rcases World.run_stages server macaddr r w with ⟨hcall, heq⟩ | ⟨hcall, heq⟩ | ⟨hcall, heq⟩
  · rw [heq]
    exact ⟨rfl, h.mono (by omega), Or.inl ⟨not_stale_of_not_stop hcall, Or.inl rfl⟩⟩
  · obtain ⟨hruns, hstored, _⟩ := startPcap_cases server macaddr r w
    rw [heq]
    exact ⟨congrArg (· + 1) hruns, startPcap_entered server r h,
      Or.inl ⟨not_stale_of_not_stop hcall, Or.inl hstored⟩⟩
  · obtain ⟨hruns, hentered, hstores⟩ := stopPcap_stores server h hcall
    rw [heq]
    exact ⟨congrArg (· + 1) hruns, hentered, hstores⟩

theorem Stores.own_iff {stored : List Stored} (h : Stores macaddr w r stored) :
    (∀ s ∈ stored, s.startedBy = some s.run) ↔ OwnTraffic w ∧ ¬ Stale macaddr w r := by
  unfold OwnTraffic
  rcases h with ⟨hstale, heq | ⟨data, heq⟩⟩ | ⟨hstale, data, j, hj, heq⟩
  · rw [heq]
    exact (and_iff_left hstale).symm
  · rw [heq, List.forall_mem_append]
    exact and_congr_right fun _ => iff_of_true (by simp) hstale
  · rw [heq, List.forall_mem_append]
    refine and_congr_right fun _ => iff_of_false ?_ fun h => h hstale
    simp only [List.mem_singleton, forall_eq, Option.some_inj]
    omega

theorem history_append (rs : List Run) (r : Run) :
    history server macaddr (rs ++ [r]) = (history server macaddr rs).run server macaddr r := by
  unfold history
  rw [List.foldl_append]
  rfl

theorem history_entered (server : Config) (macaddr : String) (rs : List Run) :
    (history server macaddr rs).Entered macaddr (history server macaddr rs).runs := by
  induction rs using List.reverseRecOn with
  | nil => exact Or.inl rfl
  | append_singleton rs r ih =>
    obtain ⟨hruns, hentered, _⟩ := World.run_stores server r ih
    rw [history_append, hruns]
    exact hentered

end Runs

/-- Over any runs, everything stored is a run's own exactly if no run fetches a capture
that its start stage has met. -/
theorem ownTraffic_iff (server : Config) (macaddr : String) (rs : List Run) :
    OwnTraffic (history server macaddr rs) ↔
      ∀ pre r, pre ++ [r] <+: rs → ¬ Stale macaddr (history server macaddr pre) r := by
  induction rs using List.reverseRecOn with
  | nil =>
    refine iff_of_true ?_ ?_
    · intro s hs
      cases hs
    · intro pre r h
      exact absurd (List.prefix_nil.mp h) (by simp)
  | append_singleton rs r ih =>
    obtain ⟨_, _, hstores⟩ := World.run_stores server r
      (history_entered server macaddr rs)
    have hstep : OwnTraffic (history server macaddr (rs ++ [r])) ↔
        OwnTraffic (history server macaddr rs) ∧ ¬ Stale macaddr (history server macaddr rs) r := by
      rw [history_append]
      exact hstores.own_iff
    rw [hstep, ih]
    constructor
    · intro ⟨hpre, hlast⟩ pre r' hbegin
      rcases List.prefix_concat_iff.mp hbegin with heq | hbegin
      · obtain ⟨rfl, hr⟩ := List.append_inj' heq rfl
        cases hr
        exact hlast
      · exact hpre pre r' hbegin
    · intro hall
      refine ⟨?_, hall rs r List.prefix_rfl⟩
      intro pre r' hbegin
      exact hall pre r' (hbegin.trans (List.prefix_append rs [r]))

/-! ### A run that fails while its capture is running -/

section Failed

def exampleSetting : Worker.Setting :=
  ⟨"/etc/stoneridge.ini", false, "umts", "/sr/work/a/umts/out/logs", "/sr/work/a/umts/out/run.ini"⟩

/-- `dnscheck` exits non-zero. -/
def failedRun : Run where
  setting := exampleSetting
  exit := fun k => if k = 5 then 1 else 0
  calls := [(.downloader, []), (.unpacker, []), (.infogatherer, []), startCall,
    (.dnsupdater, []), (.dnscheck, []), restoreCall, archiveCall, uploadCall]
  ended := ⟨2, _, rfl, rfl⟩
  sys := ⟨.ok "/tmp/a", fun _ => .ok 3, fun _ _ => .ok 4711⟩
  read := fun _ => .ok "traffic"
  startRequest := .answered 200
  stopRequest := .answered 200
  retrieveRequest := .answered 200

/-- All stages succeed. -/
def laterRun : Run where
  setting := exampleSetting
  exit := fun _ => 0
  calls := [(.downloader, []), (.unpacker, []), (.infogatherer, []), startCall,
    (.dnsupdater, []), (.dnscheck, []), (.arpfixer, []), (.runner, []), restoreCall,
    (.dnscheck, ["--public"]), stopCall, (.collator, []), archiveCall, uploadCall]
  ended := ⟨1, _, rfl, rfl⟩
  sys := ⟨.ok "/tmp/b", fun _ => .ok 3, fun _ _ => .ok 4712⟩
  read := fun _ => .ok "traffic"
  startRequest := .answered 200
  stopRequest := .answered 200
  retrieveRequest := .answered 200

/-- The later run stores the capture that the failed one has started. -/
theorem stored_traffic_of_failed_run :
    ¬ OwnTraffic (history ⟨"00:16:3e:00:00:01", "/usr/sbin/tcpdump", "eth0"⟩
      "00:16:3e:00:00:02" [failedRun, laterRun]) := by
  intro h
  have hown := h ⟨1, some 0, ⟨"traffic", "traffic"⟩⟩ (List.mem_singleton.mpr rfl)
  exact absurd hown (by decide)

end Failed

end StoneRidge.Pcap
