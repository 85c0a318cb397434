import StoneRidge.Config.Interpolation
import StoneRidge.Dispatch.Messages
import StoneRidge.Kit.PosixPath

/-!
# The configuration of a run

`StoneRidgeWorker.handle` writes `run.ini` by hand (`srworker.py:67-81`), and the stages
read it with `get_config`. What was written comes back unless a text means something else
to the reader.
-/

set_option autoImplicit false

namespace StoneRidge.Config
open StoneRidge.Kit.Lines StoneRidge.Kit.PyText StoneRidge.Kit.PosixPath
open StoneRidge.Dispatch (RunMessage Netconfig)

/-- The options in the order in which they are written. -/
def runOptions (m : RunMessage) (srwork firefoxPath : String) : List (String × String) :=
  let srout := join srwork "out"
  [("netconfig", m.netconfig.name),
    ("work", srwork),
    ("download", join srwork "download"),
    ("bin", join srwork firefoxPath),
    ("out", srout),
    ("profile", join srout "profile"),
    ("metadata", join srout "metadata.zip"),
    ("info", join srout "info.json"),
    ("tstamp", toString m.tstamp),
    ("srid", m.srid)] ++
  if m.ldap ≠ "" then [("ldap", m.ldap)] else []

def optionText (o : String × String) : Text :=
  o.1.toList ++ " = ".toList ++ o.2.toList ++ ['\n']

/-- Nothing where a text has a character outside ASCII: the fields of a message are
unicode strings, which a file does not take then. -/
def writeRunIni (options : List (String × String)) : Option Text :=
  let text := "[run]\n".toList ++ options.flatMap optionText
  if text.all (·.toNat < 128) then some text else none

/-- The stone ridge configuration, which has no options that apply to a run. -/
structure MainConfig extends ConfigParser where
  noRun : sections "run".toList = none
  noDefaults : ∀ name, defaults name = none

/-- One line without white space at its ends. -/
structure Clean (t : Text) : Prop where
  newline : '\n' ∉ t
  head : ∀ c, t.head? = some c → isSpace c = false
  last : ∀ c, t.getLast? = some c → isSpace c = false

/-- The first semicolon follows white space. -/
def Commented (t : Text) : Prop := ∃ a c b, t = a ++ c :: ';' :: b ∧ ';' ∉ a ∧ isSpace c = true

/-- A text that has no meaning of its own to the writer or the reader. -/
structure Plain (t : Text) : Prop where
  ascii : ∀ c ∈ t, c.toNat < 128
  percent : '%' ∉ t
  quotes : t ≠ "\"\"".toList
  comment : ¬ Commented t

/-- Every option that is written is read back, and an empty ldap as `None`. -/
def RoundTrip (main : MainConfig) (m : RunMessage) (srwork firefoxPath : String) : Prop :=
  ∃ ini, writeRunIni (runOptions m srwork firefoxPath) = some ini ∧
    (∀ o ∈ runOptions m srwork firefoxPath,
      getConfig main.toConfigParser ini "run".toList o.1.toList = .ok (some o.2.toList)) ∧
    (m.ldap = "" →
      getConfig main.toConfigParser ini "run".toList "ldap".toList = .ok none)

/-! ### One value -/

section Values
variable {t : Text}

theorem cutComment_of_not_mem (h : ';' ∉ t) : cutComment t = t := if_neg h

theorem takeWhile_append_semicolon {a : Text} (ha : ';' ∉ a) (b : Text) :
    (a ++ ';' :: b).takeWhile (· ≠ ';') = a := by
  rw [List.takeWhile_append_of_pos]
  · simp
  · intro c hc
    rw [decide_eq_true_eq]
    intro heq
    exact ha (heq ▸ hc)

/-- Which character decides about the first semicolon. -/
theorem cutComment_append {a : Text} (ha : ';' ∉ a) (b : Text) :
    cutComment (a ++ ';' :: b) =
      if (if a = [] then (a ++ ';' :: b).getLast? else a.getLast?).any isSpace then a
      else a ++ ';' :: b := by
  have hmem : ';' ∈ a ++ ';' :: b := List.mem_append_right _ List.mem_cons_self
  have hpos : (a ++ ';' :: b).idxOf ';' = a.length := by
    rw [List.idxOf_append_of_notMem ha, List.idxOf_cons_self, Nat.add_zero]
  unfold cutComment
  rw [if_pos hmem]
  simp only [hpos, List.length_eq_zero_iff, List.take_left]
  by_cases hnil : a = []
  · simp only [if_pos hnil]
  · have hlen := List.length_pos_iff.mpr hnil
    simp only [if_neg hnil]
    rw [List.getElem?_append_left (by omega), ← List.getLast?_eq_getElem?]

theorem commented_append_iff {a : Text} (ha : ';' ∉ a) (b : Text) :
    Commented (a ++ ';' :: b) ↔ a.getLast?.any isSpace = true := by
  constructor
  · intro ⟨a', c, b', heq, ha', hc⟩
    have hc' : ';' ∉ a' ++ [c] := by
      intro hmem
      rcases List.mem_append.mp hmem with hmem | hmem
      · exact ha' hmem
      · rw [← List.mem_singleton.mp hmem] at hc
        exact absurd hc (by decide)
    have hsplit : a = a' ++ [c] := by
      have hleft := congrArg (List.takeWhile (· ≠ ';')) heq
      rw [List.append_cons a', takeWhile_append_semicolon ha, takeWhile_append_semicolon hc'] at hleft
      exact hleft
    rw [hsplit, List.getLast?_concat]
    exact hc
  · intro hany
    cases hlast : a.getLast? with
    | none =>
      rw [hlast] at hany
      cases hany
    | some c =>
      rw [hlast] at hany
      obtain ⟨a', rfl⟩ := List.getLast?_eq_some_iff.mp hlast
      refine ⟨a', c, b, by rw [List.append_assoc, List.singleton_append], ?_, hany⟩
      intro hmem
      exact ha (List.mem_append_left _ hmem)

/-- A comment is cut off exactly if there is one. -/
theorem cutComment_cases (h : Clean t) :
    (¬ Commented t ∧ cutComment t = t) ∨ (Commented t ∧ (cutComment t).length < t.length) := by
  by_cases hmem : ';' ∈ t
  · obtain ⟨a, b, rfl, ha⟩ := List.eq_append_cons_of_mem hmem
    rw [cutComment_append ha, commented_append_iff ha]
    by_cases hnil : a = []
    · -- nothing is before the semicolon, and the character looked at is the last one
      refine Or.inl ⟨by simp [hnil], ?_⟩
      rw [if_pos hnil, if_neg]
      cases hlast : (a ++ ';' :: b).getLast? with
      | none => simp
      | some c => simp [h.last c hlast]
    · rw [if_neg hnil]
      by_cases hany : a.getLast?.any isSpace = true
      · rw [if_pos hany]
        refine Or.inr ⟨hany, ?_⟩
        rw [List.length_append, List.length_cons]
        omega
      · rw [if_neg hany]
        exact Or.inl ⟨hany, rfl⟩
  · refine Or.inl ⟨?_, cutComment_of_not_mem hmem⟩
    intro ⟨a, c, b, heq, _, _⟩
    apply hmem
    rw [heq]
    exact List.mem_append_right _ (List.mem_cons_of_mem _ List.mem_cons_self)

theorem strip_sublist (t : Text) : (strip t).Sublist t := by
  unfold strip
  have hright := (List.dropWhile_suffix (l := (t.dropWhile isSpace).reverse) isSpace).sublist
  have hrev := List.reverse_sublist.mpr hright
  rw [List.reverse_reverse] at hrev
  exact hrev.trans (List.dropWhile_suffix isSpace).sublist

theorem cutComment_sublist (t : Text) : (cutComment t).Sublist t := by
  unfold cutComment
  simp only
  split_ifs
  all_goals first | exact List.take_sublist _ _ | exact List.Sublist.refl _

theorem optionValue_sublist (t : Text) : (optionValue t).Sublist t := by
  unfold optionValue
  simp only
  split
  · exact List.nil_sublist _
  · exact (strip_sublist _).trans (cutComment_sublist t)

theorem optionValue_eq_iff (h : Clean t) :
    optionValue t = t ↔ t ≠ "\"\"".toList ∧ ¬ Commented t := by
  unfold optionValue
  rcases cutComment_cases h with ⟨hno, hcut⟩ | ⟨hcomment, hlen⟩
  · rw [hcut, strip_eq h.head h.last]
    simp only
    by_cases hquotes : t = "\"\"".toList
    · rw [if_pos hquotes]
      refine iff_of_false ?_ fun h => h.1 hquotes
      rw [hquotes]
      decide
    · rw [if_neg hquotes]
      exact iff_of_true rfl ⟨hquotes, hno⟩
  · refine iff_of_false ?_ fun h => h.2 hcomment
    intro heq
    have hle := (strip_sublist (cutComment t)).length_le
    simp only at heq
    split at heq
    · rw [← heq] at hlen
      cases hlen
    · rw [heq] at hle
      omega

end Values

/-! ### One line -/

/-- A name that the reader takes for an option's. -/
structure Named (o : Text) : Prop where
  plain : ∀ c ∈ o, isSpace c = false ∧ isSeparator c = false
  lower : o.map Char.toLower = o
  head : ∃ c, o.head? = some c ∧ c ≠ '[' ∧ c ≠ '#' ∧ c ≠ ';'
  notRem : o ≠ "rem".toList

section Lines
variable {o t : Text}

theorem strip_ne_nil {c : Char} {cs : Text} (hc : isSpace c = false) : strip (c :: cs) ≠ [] := by
  intro hnil
  unfold strip at hnil
  rw [List.dropWhile_cons_of_neg (by simp [hc]), List.reverse_eq_nil_iff,
    List.dropWhile_eq_nil_iff] at hnil
  have hspace := hnil c (List.mem_reverse.mpr List.mem_cons_self)
  rw [hc] at hspace
  cases hspace

theorem takeWhile_append_cons {p : Char → Bool} {a : Text} (ha : ∀ c ∈ a, p c = true) {d : Char}
    (hd : p d = false) (b : Text) : (a ++ d :: b).takeWhile p = a := by
  rw [List.takeWhile_append_of_pos ha, List.takeWhile_cons_of_neg (by simp [hd]), List.append_nil]

theorem dropWhile_append_cons {p : Char → Bool} {a : Text} (ha : ∀ c ∈ a, p c = true) {d : Char}
    (hd : p d = false) (b : Text) : (a ++ d :: b).dropWhile p = d :: b := by
  rw [List.dropWhile_append_of_pos ha, List.dropWhile_cons_of_neg (by simp [hd])]

theorem optionText_eq (o : String × String) :
    optionText o = o.1.toList ++ ' ' :: '=' :: ' ' :: (o.2.toList ++ ['\n']) := by
  unfold optionText
  simp

theorem isComment_named (h : Named o) (rest : Text) : isComment (o ++ rest) = false := by
  obtain ⟨c, hc, _, hhash, hsemi⟩ := h.head
  obtain ⟨o', rfl⟩ := List.head?_eq_some_iff.mp hc
  have hspace := (h.plain c List.mem_cons_self).1
  unfold isComment
  rw [List.cons_append]
  simp [strip_ne_nil hspace, hhash, hsemi]

theorem isRem_named (h : Named o) (rest : Text) : isRem (o ++ ' ' :: rest) = false := by
  obtain ⟨c, hc, _⟩ := h.head
  obtain ⟨o', rfl⟩ := List.head?_eq_some_iff.mp hc
  have hword : ((c :: o' ++ ' ' :: rest).dropWhile isSpace).takeWhile (!isSpace ·) = c :: o' := by
    rw [List.cons_append, List.dropWhile_cons_of_neg (by simp [(h.plain c List.mem_cons_self).1]),
      ← List.cons_append]
    apply takeWhile_append_cons
    · intro d hd
      simp [(h.plain d hd).1]
    · decide
  unfold isRem
  rw [hword, h.lower, Bool.and_eq_false_iff, decide_eq_false_iff_not]
  exact Or.inl h.notRem

theorem startsWithSpace_named (h : Named o) (rest : Text) :
    startsWithSpace (o ++ rest) = false := by
  obtain ⟨c, hc, _⟩ := h.head
  obtain ⟨o', rfl⟩ := List.head?_eq_some_iff.mp hc
  exact (h.plain c List.mem_cons_self).1

theorem sectionHeader_named (h : Named o) (rest : Text) : sectionHeader (o ++ rest) = none := by
  obtain ⟨c, hc, hbracket, _⟩ := h.head
  obtain ⟨o', rfl⟩ := List.head?_eq_some_iff.mp hc
  unfold sectionHeader
  split
  · rename_i heq
    exact absurd (List.cons.inj heq).1 hbracket
  · rfl

theorem rstrip_append_space (h : ∀ c ∈ o, isSpace c = false) : rstrip (o ++ [' ']) = o := by
  unfold rstrip
  rw [List.reverse_append, List.reverse_singleton, List.singleton_append,
    List.dropWhile_cons_of_pos (by decide)]
  have hdrop : o.reverse.dropWhile isSpace = o.reverse := by
    rw [List.dropWhile_eq_self_iff]
    intro hlen
    rw [Bool.not_eq_true]
    exact h _ (List.mem_reverse.mp (List.getElem_mem hlen))
  rw [hdrop, List.reverse_reverse]

theorem read_value (ht : Clean t) :
    ((' ' :: (t ++ ['\n'])).dropWhile isSpace).takeWhile (· ≠ '\n') = t := by
  rw [List.dropWhile_cons_of_pos (by decide)]
  cases t with
  | nil => decide
  | cons c t =>
    rw [List.cons_append, List.dropWhile_cons_of_neg (by simp [ht.head c rfl]), ← List.cons_append]
    apply takeWhile_append_cons
    · intro d hd
      rw [decide_eq_true_eq]
      intro heq
      exact ht.newline (heq ▸ hd)
    · decide

theorem optionLine_named (h : Named o) (ht : Clean t) :
    optionLine (o ++ ' ' :: '=' :: ' ' :: (t ++ ['\n'])) = some (o, t) := by
  obtain ⟨c, hc, _⟩ := h.head
  obtain ⟨o', heq⟩ := List.head?_eq_some_iff.mp hc
  have hplain := h.plain c (heq ▸ List.mem_cons_self)
  have hname : ∀ d ∈ o ++ [' '], (!isSeparator d) = true := by
    intro d hd
    rcases List.mem_append.mp hd with hd | hd
    · rw [(h.plain d hd).2]
      rfl
    · rw [List.mem_singleton.mp hd]
      decide
  have hline : o ++ ' ' :: '=' :: ' ' :: (t ++ ['\n']) =
      (o ++ [' ']) ++ '=' :: ' ' :: (t ++ ['\n']) := by
    rw [List.append_assoc]
    rfl
  have hcons : o ++ ' ' :: '=' :: ' ' :: (t ++ ['\n']) =
      c :: (o' ++ ' ' :: '=' :: ' ' :: (t ++ ['\n'])) := by
    rw [heq]
    rfl
  unfold optionLine
  rw [hcons]
  simp only [hplain.1, hplain.2, Bool.or_self]
  rw [if_neg Bool.false_ne_true, ← hcons, hline,
    dropWhile_append_cons hname (by decide), takeWhile_append_cons hname (by decide)]
  simp only [read_value ht, rstrip_append_space fun c hc => (h.plain c hc).1, h.lower]

end Lines

end StoneRidge.Config
