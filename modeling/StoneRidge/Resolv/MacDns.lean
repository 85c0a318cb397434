import StoneRidge.Kit.Lines
import StoneRidge.Kit.PyText

/-!
# The DNS servers of a Mac

`MacDnsModifier` (`srdns.py:70-156`) over any requests to the daemon and restarts of it. It
keeps the text that `networksetup` prints about the servers, and takes the lines of that
text for the servers later. Of `networksetup` only what is in `Networksetup` is known.
-/

set_option autoImplicit false

namespace StoneRidge.Resolv.Mac
open StoneRidge.Kit.Lines StoneRidge.Kit.PyText

abbrev Text := List Char

/-- The tool, for the main interface: `-getdnsservers` prints a line for each server or a
sentence; `-setdnsservers` installs addresses, and clears the list for `clearArgument` only. -/
structure Networksetup where
  isAddress : Text → Bool
  sentence : Text
  clearArgument : Text
  /-- The list that `-setdnsservers` leaves, from the one before and the arguments. -/
  setdnsservers : List Text → List Text → List Text
  /-- An address is a word. -/
  address_word : ∀ a, isAddress a = true → a ≠ [] ∧ ∀ c ∈ a, isSpace c = false
  some_address : ∃ a, isAddress a = true
  sentence_line : '\n' ∉ sentence ∧ strip sentence ≠ [] ∧ strip sentence ≠ clearArgument
  installs : ∀ current args, args ≠ [] → (∀ a ∈ args, isAddress a = true) →
    setdnsservers current args = args
  clears : ∀ current, setdnsservers current [clearArgument] = []
  clears_only : ∀ current args, current ≠ [] → args ≠ [clearArgument] →
    setdnsservers current args ≠ []

namespace Networksetup
variable (tool : Networksetup)

def getdnsservers (servers : List Text) : Text :=
  if servers = [] then tool.sentence ++ ['\n'] else servers.flatMap (· ++ ['\n'])

end Networksetup

/-- The servers of the main interface and the backup in the run directory. -/
structure Machine where
  servers : List Text
  dnsbackup : Option Text

section Daemon
variable (tool : Networksetup) (nochange : Bool)

def saveDns (m : Machine) : Machine :=
  match m.dnsbackup with
  | some _ => m
  | none =>
    let dnsServers := (tool.getdnsservers m.servers).splitOn '\n'
    if dnsServers ≠ [] then { m with dnsbackup := some (List.intercalate ['\n'] dnsServers) } else m

/-- `_set_dns`. -/
def runSetdnsservers (dnsservers : List Text) (m : Machine) : Machine :=
  { m with servers := tool.setdnsservers m.servers dnsservers }

/-- The lines of the backup that are not blank, without white space around them. -/
def originalDns (backup : Text) : List Text := ((readlines '\n' backup).map strip).filter (· ≠ [])

def resetDns (m : Machine) : Machine :=
  match m.dnsbackup with
  | none => m
  | some backup =>
    let origDns := originalDns backup
    if origDns ≠ [] ∧ nochange = false then runSetdnsservers tool origDns m else m

def setDns (dnsserver : Text) (m : Machine) : Machine :=
  if nochange then m else runSetdnsservers tool [dnsserver] m

/-- What happens to the daemon. -/
inductive Action where
  | set (dnsserver : Text)
  | reset
  | restart

def Action.apply (m : Machine) : Action → Machine
  | .set dnsserver => setDns tool nochange dnsserver m
  | .reset => resetDns tool nochange m
  | .restart => saveDns tool m

/-- The machine after some actions, the daemon being started without a backup. -/
def after (original : List Text) (actions : List Action) : Machine :=
  actions.foldl (Action.apply tool nochange) (saveDns tool ⟨original, none⟩)

/-- Every reset, whatever comes before it, brings the original list back. -/
def Restores (original : List Text) : Prop :=
  ∀ actions, (after tool nochange original (actions ++ [.reset])).servers = original

end Daemon

/-! ### The backup -/

section Backup
variable {tool : Networksetup} {nochange : Bool} {original : List Text} {actions : List Action}

theorem saveDns_start (tool : Networksetup) (original : List Text) :
    saveDns tool ⟨original, none⟩ = ⟨original, some (tool.getdnsservers original)⟩ := by
  unfold saveDns
  simp only [List.intercalate_splitOn]
  rw [if_pos (List.splitOn_ne_nil '\n' _)]

theorem apply_backup (a : Action) {m : Machine} {backup : Text} (h : m.dnsbackup = some backup) :
    (a.apply tool nochange m).dnsbackup = some backup := by
  cases a with
  | set s =>
    change (setDns tool nochange s m).dnsbackup = _
    unfold setDns
    split
    · exact h
    · exact h
  | reset =>
    change (resetDns tool nochange m).dnsbackup = _
    unfold resetDns
    rw [h]
    simp only
    split
    · exact h
    · exact h
  | restart =>
    change (saveDns tool m).dnsbackup = _
    unfold saveDns
    rw [h]
    exact h

theorem after_backup (tool : Networksetup) (nochange : Bool) (original : List Text)
    (actions : List Action) :
    (after tool nochange original actions).dnsbackup = some (tool.getdnsservers original) := by
  induction actions using List.reverseRecOn with
  | nil =>
    unfold after
    rw [List.foldl_nil, saveDns_start]
  | append_singleton actions a ih =>
    unfold after at ih ⊢
    rw [List.foldl_append]
    exact apply_backup a ih

theorem after_reset (tool : Networksetup) (nochange : Bool) (original : List Text)
    (actions : List Action) :
    after tool nochange original (actions ++ [.reset]) =
      resetDns tool nochange (after tool nochange original actions) := by
  unfold after
  rw [List.foldl_append]
  rfl

theorem readlines_lines {ls : List Text} (h : ∀ l ∈ ls, '\n' ∉ l) :
    readlines '\n' (ls.flatMap (· ++ ['\n'])) = ls.map (· ++ ['\n']) := by
  induction ls with
  | nil => rfl
  | cons l ls ih =>
    have hrest := ih fun l' hl' => h l' (List.mem_cons_of_mem l hl')
    rw [List.flatMap_cons, List.append_assoc, List.singleton_append,
      readlines_line (h l List.mem_cons_self), hrest, List.map_cons]

theorem strip_line {l : Text} : strip (l ++ ['\n']) = strip l :=
  strip_append_space (by simp [isSpace]) l

theorem newline_not_mem_address {a : Text} (h : tool.isAddress a = true) : '\n' ∉ a := by
  intro hmem
  exact absurd ((tool.address_word a h).2 '\n' hmem) (by decide)

theorem strip_address {a : Text} (h : tool.isAddress a = true) : strip a = a := by
  obtain ⟨-, hword⟩ := tool.address_word a h
  exact strip_eq (fun c hc => hword c (List.mem_of_mem_head? hc))
    fun c hc => hword c (List.mem_of_getLast? hc)

theorem originalDns_addresses (hne : original ≠ [])
    (h : ∀ a ∈ original, tool.isAddress a = true) :
    originalDns (tool.getdnsservers original) = original := by
  unfold originalDns Networksetup.getdnsservers
  rw [if_neg hne, readlines_lines fun a ha => newline_not_mem_address (h a ha), List.map_map]
  have hstrip : original.map (strip ∘ fun l => l ++ ['\n']) = original := by
    refine (List.map_congr_left fun a ha => ?_).trans (List.map_id original)
    rw [Function.comp_apply, strip_line, strip_address (h a ha)]
    rfl
  rw [hstrip, List.filter_eq_self]
  intro a ha
  exact decide_eq_true (tool.address_word a (h a ha)).1

/-- Without servers the backup is read as one server, the sentence. -/
theorem originalDns_sentence : originalDns (tool.getdnsservers []) = [strip tool.sentence] := by
  obtain ⟨hline, hne, -⟩ := tool.sentence_line
  unfold originalDns Networksetup.getdnsservers
  have hread := readlines_line hline []
  rw [if_pos rfl, hread]
  simp [readlines, readlinesFrom, strip_line, hne]

end Backup

/-! ### Resets -/

section Resets
variable {tool : Networksetup} {nochange : Bool} {original : List Text}

theorem apply_nochange (a : Action) (m : Machine) :
    (a.apply tool true m).servers = m.servers := by
  cases a with
  | set s => rfl
  | reset =>
    change (resetDns tool true m).servers = _
    unfold resetDns
    cases m.dnsbackup with
    | none => rfl
    | some backup => simp
  | restart =>
    change (saveDns tool m).servers = _
    unfold saveDns
    cases m.dnsbackup with
    | none =>
      simp only
      split
      · rfl
      · rfl
    | some backup => rfl

theorem after_nochange (tool : Networksetup) (original : List Text) (actions : List Action) :
    (after tool true original actions).servers = original := by
  induction actions using List.reverseRecOn with
  | nil =>
    unfold after
    rw [List.foldl_nil, saveDns_start]
  | append_singleton actions a ih =>
    unfold after at ih ⊢
    rw [List.foldl_append, List.foldl_cons, List.foldl_nil, apply_nochange, ih]

/-- A reset hands the lines of the backup to the tool. -/
theorem servers_after_reset (tool : Networksetup) (original : List Text) (actions : List Action)
    (hne : originalDns (tool.getdnsservers original) ≠ []) :
    (after tool false original (actions ++ [.reset])).servers =
      tool.setdnsservers (after tool false original actions).servers
        (originalDns (tool.getdnsservers original)) := by
  rw [after_reset]
  unfold resetDns
  rw [after_backup]
  simp only
  rw [if_pos ⟨hne, trivial⟩]
  rfl

/-- Every reset restores the list exactly if there are servers in it, or if the daemon is to
change nothing. -/
theorem restores_iff (tool : Networksetup) (nochange : Bool)
    (horig : ∀ a ∈ original, tool.isAddress a = true) :
    Restores tool nochange original ↔ original ≠ [] ∨ nochange = true := by
  cases nochange with
  | true => exact iff_of_true (fun actions => after_nochange tool original _) (.inr rfl)
  | false =>
    rw [or_iff_left Bool.false_ne_true]
    constructor
    · rintro h rfl
      obtain ⟨a, ha⟩ := tool.some_address
      obtain ⟨-, hne, hclear⟩ := tool.sentence_line
      -- a set installs a server, and the sentence does not clear the list
      have hset : (after tool false [] [.set a]).servers = [a] := by
        change (setDns tool false a (saveDns tool ⟨[], none⟩)).servers = [a]
        rw [saveDns_start]
        exact tool.installs [] [a] (List.cons_ne_nil _ _) (by simpa using ha)
      have hreset := servers_after_reset tool [] [.set a]
        (by rw [originalDns_sentence]; exact List.cons_ne_nil _ _)
      rw [h, hset, originalDns_sentence] at hreset
      exact tool.clears_only [a] [strip tool.sentence] (List.cons_ne_nil _ _)
        (fun heq => hclear (List.cons.inj heq).1) hreset.symm
    · intro hne actions
      have hread := originalDns_addresses hne horig
      rw [servers_after_reset tool original actions (by rwa [hread]), hread]
      exact tool.installs _ original hne horig

end Resets

/-- Words of digits and dots. -/
def isDotted (a : Text) : Bool := decide (a ≠ []) && a.all fun c => c.isDigit || c == '.'

/-- A tool that leaves the list alone when it is given something else than addresses. -/
def networksetup : Networksetup where
  isAddress := isDotted
  sentence := "There aren't any DNS Servers set on Ethernet.".toList
  clearArgument := "empty".toList
  setdnsservers current args :=
    if args = ["empty".toList] then []
    else if args ≠ [] ∧ args.all isDotted then args
    else current
  address_word := by
    intro a h
    simp only [isDotted, Bool.and_eq_true, decide_eq_true_eq, List.all_eq_true] at h
    refine ⟨h.1, fun c hc => ?_⟩
    rcases Bool.or_eq_true _ _ |>.mp (h.2 c hc) with hdigit | hdot
    · exact isSpace_of_isDigit hdigit
    · rw [beq_iff_eq] at hdot
      subst hdot
      rfl
  some_address := ⟨"10.0.0.1".toList, by decide⟩
  sentence_line := by decide
  installs := by
    intro current args hne h
    have hargs : args ≠ ["empty".toList] := by
      rintro rfl
      exact absurd (h "empty".toList List.mem_cons_self) (by decide)
    rw [if_neg hargs, if_pos ⟨hne, List.all_eq_true.mpr h⟩]
  clears _ := if_pos rfl
  clears_only := by
    intro current args hcur hargs
    rw [if_neg hargs]
    split
    · rename_i h
      exact h.1
    · exact hcur

theorem restores_iff_two :
    Restores networksetup false ["8.8.8.8".toList, "10.0.0.1".toList] ↔
      ["8.8.8.8".toList, "10.0.0.1".toList] ≠ [] ∨ false = true :=
  restores_iff networksetup false (by decide)

/-- DNS from DHCP: after a set, the reset does not clear the list. -/
theorem dhcp_not_restored : ¬ Restores networksetup false [] := by
  intro h
  have hservers := h [.set "10.0.0.1".toList]
  exact absurd hservers (by decide)

end StoneRidge.Resolv.Mac
