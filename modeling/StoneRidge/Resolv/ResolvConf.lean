import StoneRidge.Kit.Rejoin

/-!
# The resolver configuration of a Linux client

`LinuxDnsModifier` (`srdns.py:159-217`) over any requests to the daemon and restarts of it
(`srdns.py:262-289`). A set keeps the line breaks of the lines that it has read and joins
them with further ones, so each set adds blank lines; nothing else of the original is lost.
-/

set_option autoImplicit false

namespace StoneRidge.Resolv
open StoneRidge.Kit.Lines

abbrev Bytes := List UInt8

def ascii (s : String) : Bytes := s.toList.map fun c => UInt8.ofNat c.toNat

def newline : UInt8 := 10

/-- `line.startswith('nameserver ')`. -/
def isNameserver (line : Bytes) : Bool := (ascii "nameserver ").isPrefixOf line

def nameserverLine (dnsserver : Bytes) : Bytes := ascii "nameserver " ++ dnsserver

/-- The files `/etc/resolv.conf` and its backup in the run directory. -/
structure Files where
  resolvconf : Bytes
  dnsbackup : Option Bytes

def saveDns (files : Files) : Files :=
  match files.dnsbackup with
  | some _ => files
  | none => { files with dnsbackup := some files.resolvconf }

/-- Nothing where there is no backup to copy. -/
def resetDns (files : Files) : Option Files :=
  files.dnsbackup.map fun dnsbackup => { files with resolvconf := dnsbackup }

/-- The loop body: whether a line has been replaced, and the new lines. -/
def replaceLine (nsline : Bytes) (acc : Bool × List Bytes) (line : Bytes) : Bool × List Bytes :=
  if isNameserver line then
    if acc.1 then acc else (true, acc.2 ++ [nsline])
  else (acc.1, acc.2 ++ [line])

def newLines (nsline : Bytes) (lines : List Bytes) : List Bytes :=
  let (replaced, newlines) := lines.foldl (replaceLine nsline) (false, [])
  if replaced then newlines else newlines ++ [nsline]

def setDns (dnsserver : Bytes) (files : Files) : Files :=
  let lines := readlines newline files.resolvconf
  { files with
    resolvconf := List.intercalate [newline] (newLines (nameserverLine dnsserver) lines) }

/-- What happens to the daemon; a request that raises changes nothing. -/
inductive Action where
  | set (dnsserver : Bytes)
  | reset
  | restart

def Action.apply (files : Files) : Action → Files
  | .set dnsserver => setDns dnsserver files
  | .reset => (resetDns files).getD files
  | .restart => saveDns files

/-- The files after some actions, the daemon being started without a backup. -/
def after (original : Bytes) (actions : List Action) : Files :=
  actions.foldl Action.apply (saveDns ⟨original, none⟩)

/-! ### One set -/

section Set
variable {line t s nsline : Bytes} {lines : List Bytes} {acc : List Bytes}

theorem isNameserver_iff : isNameserver line = true ↔ ascii "nameserver " <+: line := by
  unfold isNameserver
  exact List.isPrefixOf_iff_prefix

theorem isNameserver_nameserverLine (s : Bytes) : isNameserver (nameserverLine s) = true :=
  isNameserver_iff.mpr (List.prefix_append _ s)

theorem newline_not_mem_nameserverLine (h : newline ∉ s) : newline ∉ nameserverLine s := by
  intro hmem
  rcases List.mem_append.mp hmem with hmem | hmem
  · exact absurd hmem (by decide)
  · exact h hmem

theorem isNameserver_newline (t : Bytes) : isNameserver (t ++ [newline]) = isNameserver t := by
  rw [Bool.eq_iff_iff, isNameserver_iff, isNameserver_iff, List.prefix_concat_iff]
  constructor
  · intro h
    rcases h with heq | h
    · have hmem : newline ∈ ascii "nameserver " := by
        rw [heq]
        exact List.mem_append_right _ List.mem_cons_self
      exact absurd hmem (by decide)
    · exact h
  · exact Or.inr

theorem isNameserver_ne_nil (h : isNameserver t = true) : t ≠ [] := by
  intro hnil
  subst hnil
  exact absurd h (by decide)

theorem foldl_replaced (lines : List Bytes) :
    lines.foldl (replaceLine nsline) (true, acc) =
      (true, acc ++ lines.filter (!isNameserver ·)) := by
  induction lines generalizing acc with
  | nil => simp
  | cons line lines ih =>
    cases hl : isNameserver line with
    | true =>
      have hstep : replaceLine nsline (true, acc) line = (true, acc) := by
        unfold replaceLine
        simp [hl]
      rw [List.foldl_cons, hstep, ih, List.filter_cons_of_neg (by simp [hl])]
    | false =>
      have hstep : replaceLine nsline (true, acc) line = (true, acc ++ [line]) := by
        unfold replaceLine
        simp [hl]
      rw [List.foldl_cons, hstep, ih, List.filter_cons_of_pos (by simp [hl]), List.append_assoc,
        List.singleton_append]

theorem newLines_eq_place (nsline : Bytes) (lines : List Bytes) :
    newLines nsline lines = place isNameserver nsline lines := by
  have hloop : ∀ acc, (lines.foldl (replaceLine nsline) (false, acc)).2 ++
      (if (lines.foldl (replaceLine nsline) (false, acc)).1 then [] else [nsline]) =
        acc ++ place isNameserver nsline lines := by
    induction lines with
    | nil => intro acc; rfl
    | cons line lines ih =>
      intro acc
      cases hl : isNameserver line with
      | true =>
        have hstep : replaceLine nsline (false, acc) line = (true, acc ++ [nsline]) := by
          unfold replaceLine
          simp [hl]
        rw [List.foldl_cons, hstep, foldl_replaced, place_cons_marked hl]
        simp
      | false =>
        have hstep : replaceLine nsline (false, acc) line = (false, acc ++ [line]) := by
          unfold replaceLine
          simp [hl]
        rw [List.foldl_cons, hstep, ih, place_cons_unmarked hl, List.append_assoc,
          List.singleton_append]
  have hnil := hloop []
  rw [List.nil_append] at hnil
  rw [← hnil]
  unfold newLines
  generalize lines.foldl (replaceLine nsline) (false, []) = acc
  obtain ⟨replaced, newlines⟩ := acc
  cases replaced <;> simp

theorem readlines_marked {text : Bytes} (h : line ∈ readlines newline text) :
    (isNameserver line = true → ∃ t, nonblank newline line = [t] ∧ isNameserver t = true) ∧
      (isNameserver line = false → ∀ t ∈ nonblank newline line, isNameserver t = false) := by
  obtain ⟨t, ht, hline⟩ := mem_readlines h
  have hread : nonblank newline line = (if t = [] then [] else [t]) ∧
      isNameserver line = isNameserver t := by
    rcases hline with rfl | ⟨rfl, hne⟩
    · exact ⟨nonblank_line ht, isNameserver_newline t⟩
    · rw [if_neg hne]
      exact ⟨nonblank_last ht hne, rfl⟩
  rw [hread.1, hread.2]
  constructor
  · intro hns
    rw [if_neg (isNameserver_ne_nil hns)]
    exact ⟨t, rfl, hns⟩
  · intro hns t' ht'
    split at ht'
    · cases ht'
    · rw [List.mem_singleton.mp ht']
      exact hns

theorem nonblank_setDns (hs : newline ∉ s) (files : Files) :
    nonblank newline (setDns s files).resolvconf =
      place isNameserver (nameserverLine s) (nonblank newline files.resolvconf) := by
  have hne : nameserverLine s ≠ [] := isNameserver_ne_nil (isNameserver_nameserverLine s)
  have hnew := nonblank_last (newline_not_mem_nameserverLine hs) hne
  change nonblank newline (List.intercalate [newline]
    (newLines (nameserverLine s) (readlines newline files.resolvconf))) = _
  rw [newLines_eq_place, nonblank_intercalate, nonblank_eq_flatMap files.resolvconf]
  exact flatMap_place hnew (fun l hl => (readlines_marked hl).1) fun l hl =>
    (readlines_marked hl).2

end Set

/-! ### Any requests and restarts -/

/-- The file after a set, in terms of the original. -/
structure IsSet (original s file : Bytes) : Prop where
  once : (file.splitOn newline).filter isNameserver = [nameserverLine s]
  lines : nonblank newline file =
    place isNameserver (nameserverLine s) (nonblank newline original)

/-- What every action keeps: the backup, and where a nameserver line goes. -/
structure Derived (original : Bytes) (files : Files) : Prop where
  backup : files.dnsbackup = some original
  place : ∀ new, isNameserver new = true →
    place isNameserver new (nonblank newline files.resolvconf) =
      place isNameserver new (nonblank newline original)

section Runs
variable {original s : Bytes} {files : Files} {a : Action} {actions : List Action}

theorem Derived.set (h : Derived original files) (hs : newline ∉ s) :
    Derived original (setDns s files) := by
  refine ⟨h.backup, ?_⟩
  intro new hnew
  rw [nonblank_setDns hs, place_place (isNameserver_nameserverLine s), h.place new hnew]

theorem Derived.apply (h : Derived original files) (ha : ∀ s, a = .set s → newline ∉ s) :
    Derived original (a.apply files) := by
  cases a with
  | set s => exact h.set (ha s rfl)
  | reset =>
    unfold Action.apply resetDns
    rw [h.backup]
    exact ⟨rfl, fun _ _ => rfl⟩
  | restart =>
    unfold Action.apply saveDns
    rw [h.backup]
    exact h

theorem after_derived (original : Bytes) (h : ∀ s, .set s ∈ actions → newline ∉ s) :
    Derived original (after original actions) := by
  induction actions using List.reverseRecOn with
  | nil => exact ⟨rfl, fun _ _ => rfl⟩
  | append_singleton actions a ih =>
    unfold after at ih ⊢
    rw [List.foldl_append]
    apply (ih fun s hs => h s (List.mem_append_left _ hs)).apply
    intro s hs
    subst hs
    exact h s (List.mem_append_right _ List.mem_cons_self)

theorem filter_splitOn (file : Bytes) :
    (file.splitOn newline).filter isNameserver =
      (nonblank newline file).filter isNameserver := by
  unfold nonblank
  rw [List.filter_filter]
  apply List.filter_congr
  intro l _
  cases hl : isNameserver l with
  | false => rfl
  | true => simp [isNameserver_ne_nil hl]

theorem Derived.isSet (h : Derived original files) (hs : newline ∉ s) :
    IsSet original s (setDns s files).resolvconf := by
  have hlines := nonblank_setDns hs files
  have hmarked := isNameserver_nameserverLine s
  refine ⟨?_, ?_⟩
  · rw [filter_splitOn, hlines, filter_place hmarked]
  · rw [hlines, h.place _ hmarked]

end Runs

/-- After any requests and restarts, a set puts its line where the original had its first
nameserver line, and a reset restores the original. -/
theorem after_set_and_reset (original : Bytes) (actions : List Action)
    (h : ∀ s, .set s ∈ actions → newline ∉ s) :
    (∀ s, newline ∉ s → IsSet original s (setDns s (after original actions)).resolvconf) ∧
      ∃ files, resetDns (after original actions) = some files ∧ files.resolvconf = original := by
  have hderived := after_derived original h
  refine ⟨fun s hs => hderived.isSet hs, ?_⟩
  unfold resetDns
  rw [hderived.backup]
  exact ⟨_, rfl, rfl⟩

/-- No final line break, a nameserver line in the middle, two sets and a restart before. -/
theorem after_set_and_reset_twice :
    (∀ s, newline ∉ s → IsSet (ascii "search a\nnameserver 1\noptions b") s
      (setDns s (after (ascii "search a\nnameserver 1\noptions b")
        [.set (ascii "2"), .restart, .set (ascii "3")])).resolvconf) ∧
      ∃ files, resetDns (after (ascii "search a\nnameserver 1\noptions b")
        [.set (ascii "2"), .restart, .set (ascii "3")]) = some files ∧
        files.resolvconf = ascii "search a\nnameserver 1\noptions b" := by
  apply after_set_and_reset
  intro s hs
  simp only [List.mem_cons, Action.set.injEq, reduceCtorEq, List.not_mem_nil, false_or,
    or_false] at hs
  rcases hs with rfl | rfl
  · decide
  · decide

/-! ### The same set again -/

section Again
variable {s : Bytes}

theorem marking_nameserver : Marking newline isNameserver := ⟨isNameserver_newline, by decide⟩

theorem setDns_eq (s : Bytes) (files : Files) : setDns s files =
    { files with resolvconf := rejoin newline isNameserver (nameserverLine s) files.resolvconf } := by
  unfold setDns rejoin
  simp only [newLines_eq_place]

theorem setDns_iterate (s : Bytes) (files : Files) (n : ℕ) : (setDns s)^[n] files =
    { files with
      resolvconf := (rejoin newline isNameserver (nameserverLine s))^[n] files.resolvconf } := by
  induction n with
  | zero => rfl
  | succ n ih =>
    rw [Function.iterate_succ_apply', Function.iterate_succ_apply', ih]
    exact setDns_eq s _

/-- A second set leaves the file as it is exactly if all lines of the original but one at most
are nameserver lines, and the first one is. Otherwise every further set makes it longer. -/
theorem setDns_again_iff (files : Files) (s : Bytes) (hs : newline ∉ s) :
    (setDns s (setDns s files) = setDns s files ↔
        Settled newline isNameserver files.resolvconf) ∧
      (Settled newline isNameserver files.resolvconf →
        ∀ n, (setDns s)^[n] (setDns s files) = setDns s files) ∧
      (¬ Settled newline isNameserver files.resolvconf →
        StrictMono fun n => ((setDns s)^[n] (setDns s files)).resolvconf.length) := by
  have hnew := isNameserver_nameserverLine s
  have hline := newline_not_mem_nameserverLine hs
  obtain ⟨hstays, hgrows⟩ :=
    rejoin_iterate marking_nameserver hline hnew files.resolvconf
  have hfile : ∀ n, (setDns s)^[n] (setDns s files) = { files with
      resolvconf := (rejoin newline isNameserver (nameserverLine s))^[n]
        (rejoin newline isNameserver (nameserverLine s) files.resolvconf) } := by
    intro n
    rw [setDns_iterate, setDns_eq]
  refine ⟨?_, ?_, ?_⟩
  · have hiff := rejoin_again_iff marking_nameserver hline hnew files.resolvconf
    rw [← hiff, setDns_eq s (setDns s files), setDns_eq s files]
    constructor
    · exact congrArg Files.resolvconf
    · intro heq
      simp only [heq]
  · intro h n
    rw [hfile, hstays h, setDns_eq]
  · intro h
    simp only [hfile]
    exact hgrows h

/-- A file that begins with its nameserver lines. -/
theorem setDns_again_iff_first :
    (setDns (ascii "1") (setDns (ascii "1") ⟨ascii "nameserver 2\nsearch a\n", none⟩) =
          setDns (ascii "1") ⟨ascii "nameserver 2\nsearch a\n", none⟩ ↔
        Settled newline isNameserver (ascii "nameserver 2\nsearch a\n")) ∧
      (Settled newline isNameserver (ascii "nameserver 2\nsearch a\n") →
        ∀ n, (setDns (ascii "1"))^[n]
            (setDns (ascii "1") ⟨ascii "nameserver 2\nsearch a\n", none⟩) =
          setDns (ascii "1") ⟨ascii "nameserver 2\nsearch a\n", none⟩) ∧
      (¬ Settled newline isNameserver (ascii "nameserver 2\nsearch a\n") →
        StrictMono fun n => ((setDns (ascii "1"))^[n]
          (setDns (ascii "1") ⟨ascii "nameserver 2\nsearch a\n", none⟩)).resolvconf.length) :=
  setDns_again_iff ⟨ascii "nameserver 2\nsearch a\n", none⟩ (ascii "1") (by decide)

/-- One line before the nameserver line is enough: the second set adds blank lines. -/
theorem setDns_again_grows : newline ∉ ascii "1" ∧
    (setDns (ascii "1") ⟨ascii "search a\nnameserver 2\n", none⟩).resolvconf =
      ascii "search a\n\nnameserver 1" ∧
    (setDns (ascii "1") (setDns (ascii "1") ⟨ascii "search a\nnameserver 2\n", none⟩)).resolvconf =
      ascii "search a\n\n\n\nnameserver 1" ∧
    setDns (ascii "1") (setDns (ascii "1") ⟨ascii "search a\nnameserver 2\n", none⟩) ≠
      setDns (ascii "1") ⟨ascii "search a\nnameserver 2\n", none⟩ := by
  refine ⟨by decide, by decide, by decide, ?_⟩
  intro heq
  exact absurd (congrArg Files.resolvconf heq) (by decide)

end Again

end StoneRidge.Resolv
