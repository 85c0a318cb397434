import StoneRidge.Kit.PyText

/-!
# Command lines of options

The part of `argparse` (`python/src/Lib/argparse.py:1729-2176`) that a parser of
optional arguments without positional ones uses. An argument acts on a namespace of
any type. A command line is made of items, an option with its value or a flag, and
parsing gives back what the items say.
-/

set_option autoImplicit false

namespace StoneRidge.Kit.ArgParse

/-- What an option does to the namespace: it stores a value, unless the conversion of
the text fails, or it takes no value. -/
inductive Effect (N : Type) where
  | value (store : String → N → Option N)
  | flag (set : N → N)
  | help

structure Argument (N : Type) where
  options : List String
  required : Bool
  effect : Effect N

/-- How a parser ends the program: with a usage error, or with the help text. -/
inductive Exit where
  | usage
  | help
  deriving DecidableEq, Repr

inductive Token (N : Type) where
  | positional
  | dashes
  | option (argument : Option (Argument N)) (explicit : Option String)

/-- The namespace, the arguments seen and the strings that nothing took. -/
structure Progress (N : Type) where
  ns : N
  seen : List (List String)
  extras : List String

section Parsing
variable {N : Type} (p : List (Argument N))

/-- `_option_string_actions`. -/
def lookup (s : String) : Option (Argument N) := p.find? fun a => s ∈ a.options

/-- `s.split('=', 1)`, if there is an `=`. -/
def splitEq (s : String) : Option (String × String) :=
  if '=' ∈ s.toList then
    some (String.ofList (s.toList.takeWhile (· ≠ '=')),
      String.ofList (s.toList.dropWhile (· ≠ '=')).tail)
  else none

/-- `_negative_number_matcher`. -/
def negativeNumber (s : String) : Bool :=
  match s.toList with
  | '-' :: cs => (cs ≠ [] && cs.all Char.isDigit) ||
    ((cs.dropWhile Char.isDigit).head? = some '.' && (cs.dropWhile Char.isDigit).tail ≠ [] &&
      (cs.dropWhile Char.isDigit).tail.all Char.isDigit)
  | _ => false

/-- `_get_option_tuples`: the options that `s` abbreviates. -/
def optionTuples (s : String) : List (Argument N × Option String) :=
  let names := p.flatMap fun a => a.options.map fun o => (a, o)
  if s.toList[1]? = some '-' then
    let (start, explicit) := match splitEq s with
      | some (start, v) => (start, some v)
      | none => (s, none)
    names.filterMap fun (a, o) =>
      if start.toList.isPrefixOf o.toList then some (a, explicit) else none
  else
    names.filterMap fun (a, o) =>
      if o.toList = s.toList.take 2 then some (a, some (String.ofList (s.toList.drop 2)))
      else if s.toList.isPrefixOf o.toList then some (a, none) else none

/-- `_parse_optional`. -/
def parseOptional (s : String) : Except Exit (Token N) :=
  if s.toList.head? ≠ some '-' then .ok .positional
  else match lookup p s with
  | some a => .ok (.option (some a) none)
  | none =>
    if s.length = 1 then .ok .positional
    else match (splitEq s).bind fun (o, v) => (lookup p o).map fun a => (a, v) with
    | some (a, v) => .ok (.option (some a) (some v))
    | none =>
      match optionTuples p s with
      | _ :: _ :: _ => .error .usage
      | [(a, explicit)] => .ok (.option (some a) explicit)
      | [] =>
        if negativeNumber s ∧ ¬ p.any (·.options.any negativeNumber) then .ok .positional
        else if ' ' ∈ s.toList then .ok .positional
        else .ok (.option none none)

def tokenize : List String → Except Exit (List (String × Token N))
  | [] => .ok []
  | s :: rest =>
    if s = "--" then .ok ((s, .dashes) :: rest.map fun s => (s, .positional))
    else match parseOptional p s with
    | .error e => .error e
    | .ok t => match tokenize rest with
      | .error e => .error e
      | .ok ts => .ok ((s, t) :: ts)

/-- `take_action`, with the new namespace. -/
def Progress.take (g : Progress N) (a : Argument N) (ns : N) : Progress N :=
  { g with ns := ns, seen := g.seen ++ [a.options] }

/-- `consume_optional`, again and again. The only option of one dash is `-h`. -/
def consume : List (String × Token N) → Progress N → Except Exit (Progress N)
  | [], g => .ok g
  | (_, .option (some a) none) :: ts, g =>
    match a.effect with
    | .flag set => consume ts (g.take a (set g.ns))
    | .help => .error .help
    | .value store =>
      match ts with
      | (v, .positional) :: ts =>
        match store v g.ns with
        | some ns => consume ts (g.take a ns)
        | none => .error .usage
      | _ => .error .usage
  | (s, .option (some a) (some v)) :: ts, g =>
    match a.effect with
    | .value store =>
      match store v g.ns with
      | some ns => consume ts (g.take a ns)
      | none => .error .usage
    | .flag _ => .error .usage
    | .help => .error (if s.toList[1]? ≠ some '-' ∧ v.toList.all (· = 'h') then .help else .usage)
  | (s, _) :: ts, g => consume ts { g with extras := g.extras ++ [s] }

/-- `parse_args`. -/
def parseArgs (ns : N) (args : List String) : Except Exit N :=
  match tokenize p args with
  | .error e => .error e
  | .ok ts => match consume ts ⟨ns, [], []⟩ with
    | .error e => .error e
    | .ok g =>
      if (∀ a ∈ p, a.required = true → a.options ∈ g.seen) ∧ g.extras = [] then .ok g.ns
      else .error .usage

end Parsing

/-! ### Items -/

/-- An option with its value, or a flag. -/
structure Item where
  option : String
  value : Option String

def Item.render (i : Item) : List String := i.option :: i.value.toList

def Item.flag (name : String) : Item := ⟨"--" ++ name, none⟩

def render (items : List Item) : List String := items.flatMap Item.render

section Items
variable {N : Type} (p : List (Argument N))

/-- The option is one of the parser's and takes a value exactly if the item has one. -/
def Item.fits (i : Item) : Bool :=
  i.option.toList.head? = some '-' && i.option ≠ "--" && match lookup p i.option with
    | some ⟨_, _, .value _⟩ => i.value.isSome
    | some ⟨_, _, .flag _⟩ => i.value.isNone
    | _ => false

def Item.take (i : Item) (ns : N) : Option N :=
  match lookup p i.option, i.value with
  | some ⟨_, _, .value store⟩, some v => store v ns
  | some ⟨_, _, .flag set⟩, none => some (set ns)
  | _, _ => none

def takeAll : List Item → N → Option N
  | [], ns => some ns
  | i :: items, ns => (i.take p ns).bind (takeAll items)

/-- The string is read as a value. -/
def Positional (s : String) : Prop := s ≠ "--" ∧ parseOptional p s = .ok .positional

/-- Every required argument is among the options. -/
def Supplied (options : List String) : Prop :=
  ∀ a ∈ p, a.required = true → ∃ o ∈ options, (lookup p o).map Argument.options = some a.options

end Items

section Laws
variable {N : Type} {p : List (Argument N)}

theorem positional_of_head {s : String} (h : s.toList.head? ≠ some '-') : Positional p s := by
  constructor
  · intro hs
    subst hs
    exact h rfl
  · unfold parseOptional
    rw [if_pos h]

theorem takeAll_append (items items' : List Item) (ns : N) :
    takeAll p (items ++ items') ns = (takeAll p items ns).bind (takeAll p items') := by
  induction items generalizing ns with
  | nil => rfl
  | cons i items ih =>
    simp only [List.cons_append, takeAll, Option.bind_assoc]
    congr 1
    funext ns'
    exact ih ns'

theorem Supplied.append {os : List String} (h : Supplied p os) (os' : List String) :
    Supplied p (os ++ os') := by
  intro a ha hrequired
  obtain ⟨o, ho, heq⟩ := h a ha hrequired
  exact ⟨o, List.mem_append_left os' ho, heq⟩

theorem Item.fits_value {o v : String} {options : List String} {required : Bool}
    {store : String → N → Option N} (hdash : o.toList.head? = some '-') (hne : o ≠ "--")
    (h : lookup p o = some ⟨options, required, .value store⟩) :
    (Item.mk o (some v)).fits p = true := by
  unfold Item.fits
  simp [hdash, hne, h]

theorem Item.fits_cases {i : Item} (h : i.fits p = true) :
    i.option ≠ "--" ∧ ∃ a, lookup p i.option = some a ∧
      parseOptional p i.option = .ok (.option (some a) none) ∧
      ((∃ store v, a.effect = .value store ∧ i.value = some v) ∨
        ∃ set, a.effect = .flag set ∧ i.value = none) := by
  unfold Item.fits at h
  simp only [Bool.and_eq_true, decide_eq_true_eq] at h
  obtain ⟨⟨hdash, hne⟩, hlookup⟩ := h
  refine ⟨hne, ?_⟩
  have hparse : ∀ a, lookup p i.option = some a →
      parseOptional p i.option = .ok (.option (some a) none) := by
    intro a ha
    unfold parseOptional
    rw [if_neg (not_not.mpr hdash), ha]
  cases ha : lookup p i.option with
  | none => simp [ha] at hlookup
  | some a =>
    refine ⟨a, rfl, hparse a ha, ?_⟩
    obtain ⟨options, required, effect⟩ := a
    cases effect with
    | value store =>
      simp only [ha] at hlookup
      obtain ⟨v, hv⟩ := Option.isSome_iff_exists.mp hlookup
      exact .inl ⟨store, v, rfl, hv⟩
    | flag set =>
      simp only [ha] at hlookup
      exact .inr ⟨set, rfl, Option.isNone_iff_eq_none.mp hlookup⟩
    | help => simp [ha] at hlookup

theorem Item.take_value {i : Item} {a : Argument N} {store : String → N → Option N} {v : String}
    (ha : lookup p i.option = some a) (heffect : a.effect = .value store) (hv : i.value = some v)
    (ns : N) : i.take p ns = store v ns := by
  obtain ⟨options, required, effect⟩ := a
  subst heffect
  unfold Item.take
  rw [ha, hv]

theorem Item.take_flag {i : Item} {a : Argument N} {set : N → N}
    (ha : lookup p i.option = some a) (heffect : a.effect = .flag set) (hv : i.value = none)
    (ns : N) : i.take p ns = some (set ns) := by
  obtain ⟨options, required, effect⟩ := a
  subst heffect
  unfold Item.take
  rw [ha, hv]

theorem tokenize_cons {s : String} (hs : s ≠ "--") (rest : List String) :
    tokenize p (s :: rest) = (parseOptional p s).bind fun t =>
      (tokenize p rest).map fun ts => (s, t) :: ts := by
  rw [tokenize, if_neg hs]
  cases parseOptional p s with
  | error e => rfl
  | ok t => cases tokenize p rest <;> rfl

theorem tokenize_option {i : Item} {a : Argument N} (hne : i.option ≠ "--")
    (h : parseOptional p i.option = .ok (.option (some a) none)) (rest : List String) :
    tokenize p (i.option :: rest) =
      (tokenize p rest).map fun ts => (i.option, .option (some a) none) :: ts := by
  rw [tokenize_cons hne, h]
  rfl

theorem render_cons (i : Item) (items : List Item) :
    render (i :: items) = i.option :: (i.value.toList ++ render items) := rfl

/-- Whatever its values are, a command line of fitting items that parses is taken item
by item: a value that looks like an option is an error. -/
theorem consume_sound (items : List Item) (hfits : ∀ i ∈ items, i.fits p = true)
    {ts : List (String × Token N)} {g g' : Progress N} (ht : tokenize p (render items) = .ok ts)
    (hc : consume ts g = .ok g') : takeAll p items g.ns = some g'.ns := by
  induction items generalizing ts g with
  | nil =>
    cases ht
    cases hc
    rfl
  | cons i items ih =>
    obtain ⟨hne, a, ha, hparse, heffect⟩ := Item.fits_cases (hfits i List.mem_cons_self)
    have hrest : ∀ j ∈ items, j.fits p = true := fun j hj => hfits j (List.mem_cons_of_mem i hj)
    rw [render_cons, tokenize_option hne hparse] at ht
    rcases heffect with ⟨store, v, heffect, hv⟩ | ⟨set, heffect, hv⟩
    · rw [hv] at ht
      show (i.take p g.ns).bind (takeAll p items) = some g'.ns
      rw [Item.take_value ha heffect hv]
      change (tokenize p (v :: render items)).map _ = _ at ht
      by_cases hdash : v = "--"
      · rw [tokenize, if_pos hdash] at ht
        cases ht
        simp [consume, heffect] at hc
      · rw [tokenize_cons hdash] at ht
        cases hopt : parseOptional p v with
        | error e =>
          rw [hopt] at ht
          cases ht
        | ok t =>
          rw [hopt] at ht
          cases htail : tokenize p (render items) with
          | error e =>
            rw [htail] at ht
            cases ht
          | ok ts' =>
            rw [htail] at ht
            cases ht
            cases t with
            | dashes => simp [consume, heffect] at hc
            | option b explicit => simp [consume, heffect] at hc
            | positional =>
              simp only [consume, heffect] at hc
              cases hstore : store v g.ns with
              | none => simp [hstore] at hc
              | some ns =>
                simp only [hstore] at hc
                exact ih hrest htail hc
    · rw [hv] at ht
      show (i.take p g.ns).bind (takeAll p items) = some g'.ns
      rw [Item.take_flag ha heffect hv]
      change (tokenize p (render items)).map _ = _ at ht
      cases htail : tokenize p (render items) with
      | error e =>
        rw [htail] at ht
        cases ht
      | ok ts' =>
        rw [htail] at ht
        cases ht
        simp only [consume, heffect] at hc
        exact ih hrest htail hc

/-- With values that are read as values, every item is taken. -/
theorem consume_complete (items : List Item) (hfits : ∀ i ∈ items, i.fits p = true)
    (hvalues : ∀ i ∈ items, ∀ v, i.value = some v → Positional p v) {g : Progress N} {ns : N}
    (htake : takeAll p items g.ns = some ns) :
    ∃ ts, tokenize p (render items) = .ok ts ∧ ∃ seen,
      consume ts g = .ok ⟨ns, g.seen ++ seen, g.extras⟩ ∧
      ∀ i ∈ items, ∀ a, lookup p i.option = some a → a.options ∈ seen := by
  induction items generalizing g with
  | nil =>
    cases htake
    refine ⟨[], rfl, [], ?_, by simp⟩
    rw [List.append_nil]
    rfl
  | cons i items ih =>
    obtain ⟨hne, a, ha, hparse, heffect⟩ := Item.fits_cases (hfits i List.mem_cons_self)
    have hrest : ∀ j ∈ items, j.fits p = true := fun j hj => hfits j (List.mem_cons_of_mem i hj)
    have hvrest : ∀ j ∈ items, ∀ v, j.value = some v → Positional p v :=
      fun j hj => hvalues j (List.mem_cons_of_mem i hj)
    change (i.take p g.ns).bind (takeAll p items) = some ns at htake
    obtain ⟨ns', hi, htail⟩ := Option.bind_eq_some_iff.mp htake
    obtain ⟨ts, htokens, seen, hconsume, hseen⟩ :=
      ih (g := g.take a ns') hrest hvrest htail
    have hfinal : ∀ j ∈ i :: items, ∀ b, lookup p j.option = some b →
        b.options ∈ a.options :: seen := by
      intro j hj b hb
      rcases List.mem_cons.mp hj with rfl | hj
      · rw [ha] at hb
        cases hb
        exact List.mem_cons_self
      · exact List.mem_cons_of_mem _ (hseen j hj b hb)
    have hprogress : (g.take a ns').seen ++ seen = g.seen ++ a.options :: seen := by
      simp [Progress.take]
    rw [hprogress] at hconsume
    rcases heffect with ⟨store, v, heffect, hv⟩ | ⟨set, heffect, hv⟩
    · rw [Item.take_value ha heffect hv] at hi
      obtain ⟨hdash, hpositional⟩ := hvalues i List.mem_cons_self v hv
      refine ⟨(i.option, .option (some a) none) :: (v, .positional) :: ts, ?_, _, ?_, hfinal⟩
      · rw [render_cons, tokenize_option hne hparse, hv]
        change (tokenize p (v :: render items)).map _ = _
        rw [tokenize_cons hdash, hpositional, htokens]
        rfl
      · simp only [consume, heffect, hi]
        exact hconsume
    · rw [Item.take_flag ha heffect hv] at hi
      cases hi
      refine ⟨(i.option, .option (some a) none) :: ts, ?_, _, ?_, hfinal⟩
      · rw [render_cons, tokenize_option hne hparse, hv]
        change (tokenize p (render items)).map _ = _
        rw [htokens]
        rfl
      · simp only [consume, heffect]
        exact hconsume

theorem parseArgs_sound {items : List Item} (hfits : ∀ i ∈ items, i.fits p = true) {ns ns' : N}
    (h : parseArgs p ns (render items) = .ok ns') : takeAll p items ns = some ns' := by
  unfold parseArgs at h
  cases ht : tokenize p (render items) with
  | error e => simp [ht] at h
  | ok ts =>
    cases hc : consume ts ⟨ns, [], []⟩ with
    | error e => simp [ht, hc] at h
    | ok g =>
      simp only [ht, hc] at h
      split at h
      · cases h
        exact consume_sound items hfits ht hc
      · cases h

theorem parseArgs_complete {items : List Item} (hfits : ∀ i ∈ items, i.fits p = true)
    (hvalues : ∀ i ∈ items, ∀ v, i.value = some v → Positional p v)
    (hsupplied : Supplied p (items.map Item.option)) {ns ns' : N}
    (htake : takeAll p items ns = some ns') : parseArgs p ns (render items) = .ok ns' := by
  obtain ⟨ts, ht, seen, hc, hseen⟩ :=
    @consume_complete N p items hfits hvalues ⟨ns, [], []⟩ ns' htake
  unfold parseArgs
  simp only [ht, hc, List.nil_append]
  refine if_pos ⟨?_, trivial⟩
  intro a ha hrequired
  obtain ⟨o, ho, heq⟩ := hsupplied a ha hrequired
  obtain ⟨i, hi, rfl⟩ := List.mem_map.mp ho
  obtain ⟨b, hb, hoptions⟩ := Option.map_eq_some_iff.mp heq
  rw [← hoptions]
  exact hseen i hi b hb

theorem render_append (items items' : List Item) :
    render (items ++ items') = render items ++ render items' := List.flatMap_append

theorem render_flags (names : List String) :
    render (names.map Item.flag) = names.map ("--" ++ ·) := by
  induction names with
  | nil => rfl
  | cons s names ih =>
    rw [List.map_cons, render_cons, ih]
    rfl

/-- Flags that each append their name to a field of the namespace. -/
theorem takeAll_flags (add : List String → N → N) (hnil : ∀ ns, add [] ns = ns)
    (hcons : ∀ s names ns, add names (add [s] ns) = add (s :: names) ns) (names : List String)
    (h : ∀ s ∈ names, ∀ ns, (Item.flag s).take p ns = some (add [s] ns)) (ns : N) :
    takeAll p (names.map Item.flag) ns = some (add names ns) := by
  induction names generalizing ns with
  | nil => exact congrArg some (hnil ns).symm
  | cons s names ih =>
    rw [List.map_cons, takeAll, h s List.mem_cons_self ns, Option.bind_some,
      ih (fun s' hs' => h s' (List.mem_cons_of_mem s hs')), hcons]

/-! ### Negative numbers as values -/

/-- No option looks like the beginning of a negative number. -/
def noNumbers (p : List (Argument N)) : Bool :=
  p.all fun a => a.options.all fun o => match o.toList with
    | _ :: c :: _ => !c.isDigit && c ≠ '.'
    | _ => false

theorem noNumbers_second (h : noNumbers p = true) {a : Argument N} (ha : a ∈ p) {o : String}
    (ho : o ∈ a.options) : ∃ d c cs, o.toList = d :: c :: cs ∧ c.isDigit = false ∧ c ≠ '.' := by
  unfold noNumbers at h
  have hopt := List.all_eq_true.mp (List.all_eq_true.mp h a ha) o ho
  cases hl : o.toList with
  | nil => simp [hl] at hopt
  | cons d rest =>
    cases rest with
    | nil => simp [hl] at hopt
    | cons c cs =>
      simp only [hl, Bool.and_eq_true, Bool.not_eq_true', decide_eq_true_eq] at hopt
      exact ⟨d, c, cs, rfl, hopt.1, hopt.2⟩

theorem negativeNumber_option (h : noNumbers p = true) :
    p.any (fun a => a.options.any negativeNumber) = false := by
  rw [List.any_eq_false]
  intro a ha
  rw [Bool.not_eq_true, List.any_eq_false]
  intro o ho
  obtain ⟨d, c, cs, hl, hdigit, hdot⟩ := noNumbers_second h ha ho
  unfold negativeNumber
  rw [hl]
  by_cases hd : d = '-'
  · subst hd
    simp [hdigit, hdot]
  · split
    · rename_i heq
      exact absurd (List.cons.inj heq).1 hd
    · simp

theorem lookup_number (h : noNumbers p = true) {s : String} {c : Char} {cs : List Char}
    (hs : s.toList = '-' :: c :: cs) (hc : c.isDigit = true) : lookup p s = none := by
  unfold lookup
  rw [List.find?_eq_none]
  intro a ha hmem
  rw [decide_eq_true_eq] at hmem
  obtain ⟨d, c', cs', hl, hdigit, _⟩ := noNumbers_second h ha hmem
  rw [hs] at hl
  cases hl
  simp [hc] at hdigit

theorem optionTuples_number (h : noNumbers p = true) {s : String} {c : Char} {cs : List Char}
    (hs : s.toList = '-' :: c :: cs) (hc : c.isDigit = true) : optionTuples p s = [] := by
  have hdash : s.toList[1]? ≠ some '-' := by
    rw [hs]
    intro heq
    cases heq
    simp at hc
  unfold optionTuples
  rw [if_neg hdash, List.filterMap_eq_nil_iff]
  intro ⟨a, o⟩ hmem
  obtain ⟨b, hb, hname⟩ := List.mem_flatMap.mp hmem
  obtain ⟨o', ho', heq⟩ := List.mem_map.mp hname
  cases heq
  obtain ⟨d, c', cs', hl, hdigit, _⟩ := noNumbers_second h hb ho'
  have hne : c ≠ c' := by
    intro heq
    rw [heq, hdigit] at hc
    cases hc
  simp [hs, hl, hne, hne.symm]

theorem negativeNumber_toString (n : ℕ) : negativeNumber (toString (Int.negSucc n)) = true := by
  unfold negativeNumber
  rw [PyText.toList_toString_negSucc]
  have hall : (Nat.toDigits 10 (n + 1)).all Char.isDigit = true := by
    rw [List.all_eq_true]
    intro c hc
    exact PyText.isDigit_of_mem_toDigits hc
  simp [hall, Nat.toDigits_ne_nil]

theorem positional_toString (h : noNumbers p = true) (z : ℤ) : Positional p (toString z) := by
  cases z with
  | ofNat n =>
    apply positional_of_head
    rw [PyText.toList_toString_ofNat]
    intro hhead
    have hdigit := PyText.isDigit_of_mem_toDigits (List.mem_of_mem_head? hhead)
    simp at hdigit
  | negSucc n =>
    have hlist := PyText.toList_toString_negSucc n
    obtain ⟨c, cs, hcs⟩ := List.exists_cons_of_ne_nil (@Nat.toDigits_ne_nil (n + 1) 10)
    have hc : c.isDigit = true := PyText.isDigit_of_mem_toDigits (n := n + 1) (by simp [hcs])
    rw [hcs] at hlist
    have hsplit : splitEq (toString (Int.negSucc n)) = none := by
      unfold splitEq
      rw [if_neg]
      rw [PyText.toList_toString_negSucc]
      intro hmem
      rcases List.mem_cons.mp hmem with heq | hmem
      · exact absurd heq (by decide)
      · have hdigit := PyText.isDigit_of_mem_toDigits hmem
        simp at hdigit
    have hnumber := negativeNumber_toString n
    generalize toString (Int.negSucc n) = s at hlist hsplit hnumber ⊢
    constructor
    · intro heq
      have hdashes : ("--" : String).toList = ['-', '-'] := rfl
      rw [heq, hdashes] at hlist
      cases hlist
      simp at hc
    · have hhead : s.toList.head? = some '-' := by
        rw [hlist]
        rfl
      have hlength : s.length ≠ 1 := by
        rw [← String.length_toList, hlist]
        simp
      unfold parseOptional
      rw [if_neg (not_not.mpr hhead), lookup_number h hlist hc]
      simp only [if_neg hlength, hsplit, Option.bind_none, optionTuples_number h hlist hc,
        hnumber, negativeNumber_option h]
      rfl

end Laws

end StoneRidge.Kit.ArgParse
