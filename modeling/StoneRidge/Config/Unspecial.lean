import StoneRidge.Config.ReadBack

/-!
# Texts without special characters

If no character of the texts that `handle` is given means something to the reader of
run.ini, every option comes back, whichever of the two names the working directory has.
-/

set_option autoImplicit false

namespace StoneRidge.Config
open StoneRidge.Kit.PyText StoneRidge.Kit.PosixPath StoneRidge.Kit.PosixTree
open StoneRidge.Dispatch (RunMessage Netconfig)
open StoneRidge.Worker (firstName secondName srwork)

structure Unspecial (t : Text) : Prop where
  clean : Clean t
  percent : '%' ∉ t
  semicolon : ';' ∉ t
  quotes : t ≠ "\"\"".toList

section Unspecial
variable {t : Text} {a b : String} {c : Char}

theorem Unspecial.plain (h : Unspecial t) (hascii : ∀ c ∈ t, c.toNat < 128) : Plain t := by
  refine ⟨hascii, h.percent, h.quotes, ?_⟩
  intro ⟨x, c, y, heq, _⟩
  apply h.semicolon
  rw [heq]
  exact List.mem_append_right _ (List.mem_cons_of_mem _ List.mem_cons_self)

theorem ne_quotes (hmem : c ∈ t) (hc : c ≠ '"') : t ≠ "\"\"".toList := by
  intro heq
  rw [heq] at hmem
  exact hc (by simpa using hmem)

theorem unspecial_of_chars (hspace : ∀ c ∈ t, isSpace c = false ∧ c ≠ '%' ∧ c ≠ ';' ∧ c ≠ '"') :
    Unspecial t := by
  refine ⟨clean_of_not_space fun c hc => (hspace c hc).1, ?_, ?_, ?_⟩
  · exact fun hmem => (hspace _ hmem).2.1 rfl
  · exact fun hmem => (hspace _ hmem).2.2.1 rfl
  · intro heq
    exact (hspace '"' (heq ▸ List.mem_cons_self)).2.2.2 rfl

theorem mem_join (h : c ∈ (join a b).toList) : c ∈ a.toList ∨ c = '/' ∨ c ∈ b.toList := by
  unfold join at h
  split at h
  · exact .inr (.inr h)
  · split at h
    · rw [String.toList_append, List.mem_append] at h
      exact h.imp_right .inr
    · simp only [String.toList_append, List.mem_append] at h
      rcases h with (h | h) | h
      · exact .inl h
      · exact .inr (.inl (by simpa using h))
      · exact .inr (.inr h)

theorem slash_mem_join (hne : a ≠ "") : '/' ∈ (join a b).toList := by
  unfold join
  split
  next habs =>
    unfold isAbs at habs
    exact List.mem_of_head? (by simpa using habs)
  next =>
    split
    next h =>
      rw [String.toList_append]
      apply List.mem_append_left
      rcases h with h | h
      · exact absurd (String.toList_eq_nil_iff.mp h) hne
      · exact List.mem_of_getLast? h
    next => simp

/-- A joined text is as special as its parts, unless it is the token for no text. -/
theorem Unspecial.join_of_ne (ha : Unspecial a.toList) (hb : Unspecial b.toList)
    (hquotes : (join a b).toList ≠ "\"\"".toList) : Unspecial (join a b).toList := by
  refine ⟨ha.clean.join hb.clean, ?_, ?_, hquotes⟩
  · intro hmem
    rcases mem_join hmem with h | h | h
    · exact ha.percent h
    · exact absurd h (by decide)
    · exact hb.percent h
  · intro hmem
    rcases mem_join hmem with h | h | h
    · exact ha.semicolon h
    · exact absurd h (by decide)
    · exact hb.semicolon h

theorem Unspecial.join (ha : Unspecial a.toList) (hb : Unspecial b.toList) (hne : a ≠ "") :
    Unspecial (join a b).toList :=
  ha.join_of_ne hb (ne_quotes (slash_mem_join hne) (by decide))

theorem unspecial_netconfig (n : Netconfig) : Unspecial n.name.toList := by
  apply unspecial_of_chars
  cases n <;> decide

theorem unspecial_tstamp (z : ℤ) : Unspecial (toString z).toList := by
  apply unspecial_of_chars
  intro c hc
  rcases Worker.toString_tstamp_plain z c hc with rfl | hdigit
  · decide
  · refine ⟨isSpace_of_isDigit hdigit, ?_, ?_, ?_⟩ <;> intro heq <;>
      exact absurd (heq ▸ hdigit) (by decide)

end Unspecial

section RunOptions
variable {workroot firefoxPath srwork : String} {m : RunMessage}

theorem unspecial_firstName (hroot : Unspecial workroot.toList) (hsrid : Unspecial m.srid.toList) :
    Unspecial (firstName workroot m).toList := by
  -- only an empty work root leaves the srid as it is
  have hparent : Unspecial (join workroot m.srid).toList := by
    by_cases hne : workroot = ""
    · have hjoin : join workroot m.srid = m.srid := by
        unfold Kit.PosixPath.join
        split
        · rfl
        · rw [if_pos (.inl (String.toList_eq_nil_iff.mpr hne)), hne, String.empty_append]
      rwa [hjoin]
    · exact hroot.join hsrid hne
  apply hparent.join_of_ne (unspecial_netconfig m.netconfig)
  obtain ⟨x, _, heq⟩ := join_eq_append (join workroot m.srid) m.netconfig.name
    (Worker.netconfig_name_plain m.netconfig).1
  obtain ⟨c, cs, hname⟩ := List.exists_cons_of_ne_nil (Worker.netconfig_name_plain m.netconfig).2.1
  have hc : c ≠ '"' := by
    intro hquote
    have hall : '"' ∉ m.netconfig.name.toList := by cases m.netconfig <;> decide
    exact hall (hname ▸ hquote ▸ List.mem_cons_self)
  refine ne_quotes (c := c) ?_ hc
  rw [heq, String.toList_append, hname]
  exact List.mem_append_right _ List.mem_cons_self

theorem unspecial_srwork (t : Tree) (hroot : Unspecial workroot.toList)
    (hsrid : Unspecial m.srid.toList) : Unspecial (Worker.srwork workroot t m).toList := by
  have hfirst := unspecial_firstName hroot hsrid
  have hts := unspecial_tstamp m.tstamp
  unfold Worker.srwork
  split
  · unfold secondName
    simp only [String.toList_append]
    refine ⟨(hfirst.clean.append (clean_of_not_space (by decide))).append hts.clean, ?_, ?_, ?_⟩
    · simp only [List.mem_append, not_or]
      exact ⟨⟨hfirst.percent, by decide⟩, hts.percent⟩
    · simp only [List.mem_append, not_or]
      exact ⟨⟨hfirst.semicolon, by decide⟩, hts.semicolon⟩
    · exact ne_quotes (c := '_') (by simp) (by decide)
  · exact hfirst

theorem unspecial_runOptions (hwork : Unspecial srwork.toList) (hne : srwork ≠ "")
    (hbin : Unspecial firefoxPath.toList) (hsrid : Unspecial m.srid.toList)
    (hldap : Unspecial m.ldap.toList) :
    ∀ o ∈ runOptions m srwork firefoxPath, Unspecial o.2.toList := by
  have hname : ∀ name ∈ ["download", "out", "profile", "metadata.zip", "info.json"],
      Unspecial name.toList := by
    have hplain : ∀ name ∈ ["download", "out", "profile", "metadata.zip", "info.json"],
        ∀ c ∈ name.toList, isSpace c = false ∧ c ≠ '%' ∧ c ≠ ';' ∧ c ≠ '"' := by decide
    intro name hname
    exact unspecial_of_chars (hplain name hname)
  have hout := hwork.join (hname "out" (by decide)) hne
  have hout_ne : join srwork "out" ≠ "" := by
    intro heq
    have hslash := slash_mem_join (b := "out") hne
    rw [heq] at hslash
    cases hslash
  intro o ho
  unfold runOptions at ho
  rcases List.mem_append.mp ho with ho | ho
  · simp only [List.mem_cons, List.not_mem_nil, or_false] at ho
    rcases ho with rfl | rfl | rfl | rfl | rfl | rfl | rfl | rfl | rfl | rfl
    · exact unspecial_netconfig m.netconfig
    · exact hwork
    · exact hwork.join (hname _ (by decide)) hne
    · exact hwork.join hbin hne
    · exact hout
    · exact hout.join (hname _ (by decide)) hout_ne
    · exact hout.join (hname _ (by decide)) hout_ne
    · exact hout.join (hname _ (by decide)) hout_ne
    · exact unspecial_tstamp m.tstamp
    · exact hsrid
  · split at ho
    · rw [List.mem_singleton.mp ho]
      exact hldap
    · cases ho

theorem readBack_unspecial (main : MainConfig) {ini : Text}
    (hini : writeRunIni (runOptions m srwork firefoxPath) = some ini)
    (h : ∀ o ∈ runOptions m srwork firefoxPath, Unspecial o.2.toList) :
    (∀ o ∈ runOptions m srwork firefoxPath,
      getConfig main.toConfigParser ini "run".toList o.1.toList = .ok (some o.2.toList)) ∧
    (m.ldap = "" →
      getConfig main.toConfigParser ini "run".toList "ldap".toList = .ok none) := by
  obtain ⟨rfl, hascii⟩ := writeRunIni_eq_some hini
  have hclean : ∀ o ∈ runOptions m srwork firefoxPath, Clean o.2.toList :=
    fun o ho => (h o ho).clean
  exact ⟨readBack_of_plain main (named_runOptions m srwork firefoxPath) hclean
    fun o ho => (h o ho).plain (hascii o ho), getConfig_no_ldap main hclean⟩

end RunOptions

end StoneRidge.Config
