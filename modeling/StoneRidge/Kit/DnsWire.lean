import Mathlib.Data.Nat.Notation
import Mathlib.Tactic

/-!
# DNS messages on the wire

Names as labels, questions, resource records and whole messages, written without
compression and read with it. What is read comes with the octets after it.
-/

set_option autoImplicit false

namespace StoneRidge.Kit.DnsWire

abbrev Bytes := List UInt8

/-! ### Numbers -/

def be16 (n : UInt16) : Bytes := [UInt8.ofNat (n.toNat / 256), UInt8.ofNat n.toNat]

def be32 (n : UInt32) : Bytes :=
  [UInt8.ofNat (n.toNat / 16777216), UInt8.ofNat (n.toNat / 65536), UInt8.ofNat (n.toNat / 256),
    UInt8.ofNat n.toNat]

def read16 : Bytes → Option (UInt16 × Bytes)
  | hi :: lo :: rest => some (UInt16.ofNat (256 * hi.toNat + lo.toNat), rest)
  | _ => none

def read32 : Bytes → Option (UInt32 × Bytes)
  | a :: b :: c :: d :: rest =>
    some (UInt32.ofNat (16777216 * a.toNat + 65536 * b.toNat + 256 * c.toNat + d.toNat), rest)
  | _ => none

theorem read16_be16 (n : UInt16) (rest : Bytes) : read16 (be16 n ++ rest) = some (n, rest) := by
  have hn := n.toNat_lt
  simp only [be16, List.cons_append, List.nil_append, read16, UInt8.toNat_ofNat']
  have hsum : 256 * (n.toNat / 256 % 2 ^ 8) + n.toNat % 2 ^ 8 = n.toNat := by omega
  rw [hsum, UInt16.ofNat_toNat]

theorem read32_be32 (n : UInt32) (rest : Bytes) : read32 (be32 n ++ rest) = some (n, rest) := by
  have hn := n.toNat_lt
  simp only [be32, List.cons_append, List.nil_append, read32, UInt8.toNat_ofNat']
  have hsum : 16777216 * (n.toNat / 16777216 % 2 ^ 8) + 65536 * (n.toNat / 65536 % 2 ^ 8) +
      256 * (n.toNat / 256 % 2 ^ 8) + n.toNat % 2 ^ 8 = n.toNat := by omega
  rw [hsum, UInt32.ofNat_toNat]

/-! ### Names -/

abbrev Name := List Bytes

def labelBytes (l : Bytes) : Bytes := UInt8.ofNat l.length :: l

def nameBytes (name : Name) : Bytes := name.flatMap labelBytes ++ [0]

/-- The labels fit, and so does their number. -/
structure IsName (name : Name) : Prop where
  label : ∀ l ∈ name, l ≠ [] ∧ l.length ≤ 63
  length : name.length ≤ 127

/-- A name from its first octet on; each label and each pointer takes one of the hops. -/
def readName (msg : Bytes) : ℕ → Bytes → Option (Name × Bytes)
  | 0, _ => none
  | _ + 1, [] => none
  | hops + 1, n :: rest =>
    if n = 0 then some ([], rest)
    else if n < 64 then
      if rest.length < n.toNat then none
      else (readName msg hops (rest.drop n.toNat)).map fun r => (rest.take n.toNat :: r.1, r.2)
    else if n < 192 then none
    else match rest with
      | [] => none
      | lo :: rest =>
        (readName msg hops (msg.drop (256 * (n.toNat - 192) + lo.toNat))).map fun r => (r.1, rest)

def maxHops : ℕ := 256

theorem label_toNat {l : Bytes} (h : l.length ≤ 63) : (UInt8.ofNat l.length).toNat = l.length := by
  rw [UInt8.toNat_ofNat']
  omega

theorem label_ne_zero {l : Bytes} (hne : l ≠ []) (h : l.length ≤ 63) :
    UInt8.ofNat l.length ≠ 0 := by
  have hnat := label_toNat h
  have hpos : 0 < l.length := List.length_pos_iff.mpr hne
  intro hzero
  rw [hzero] at hnat
  have hnone : (0 : UInt8).toNat = 0 := rfl
  omega

theorem readName_nameBytes {msg rest : Bytes} {name : Name} (h : ∀ l ∈ name, l ≠ [] ∧ l.length ≤ 63)
    {hops : ℕ} (hhops : name.length < hops) :
    readName msg hops (nameBytes name ++ rest) = some (name, rest) := by
  induction name generalizing hops with
  | nil =>
    obtain ⟨hops, rfl⟩ := Nat.exists_eq_succ_of_ne_zero (Nat.ne_of_gt hhops)
    rfl
  | cons l name ih =>
    obtain ⟨hops, rfl⟩ := Nat.exists_eq_succ_of_ne_zero (Nat.ne_of_gt (Nat.lt_of_le_of_lt
      (Nat.zero_le _) hhops))
    obtain ⟨hne, hle⟩ := h l List.mem_cons_self
    have hnat := label_toNat hle
    have hzero := label_ne_zero hne hle
    have hsmall : UInt8.ofNat l.length < 64 := by
      rw [UInt8.lt_iff_toNat_lt, hnat]
      change l.length < 64
      omega
    have hbytes : nameBytes (l :: name) ++ rest =
        UInt8.ofNat l.length :: (l ++ (nameBytes name ++ rest)) := by
      simp [nameBytes, labelBytes]
    have hlong : ¬ (l ++ (nameBytes name ++ rest)).length < l.length := by
      rw [List.length_append]
      omega
    rw [hbytes]
    unfold readName
    rw [if_neg hzero, if_pos hsmall, hnat, if_neg hlong, List.drop_left,
      List.take_left, ih (fun x hx => h x (List.mem_cons_of_mem l hx))
        (by rw [List.length_cons] at hhops; omega)]
    rfl

/-- A pointer to a name that is written out. -/
theorem readName_pointer {msg rest after : Bytes} {name : Name} {lo : UInt8}
    (h : IsName name) (hmsg : msg.drop lo.toNat = nameBytes name ++ after) :
    readName msg maxHops (192 :: lo :: rest) = some (name, rest) := by
  have hlength := h.length
  have htarget : readName msg 255 (msg.drop (256 * ((192 : UInt8).toNat - 192) + lo.toNat)) =
      some (name, after) := by
    have hzero : 256 * ((192 : UInt8).toNat - 192) + lo.toNat = lo.toNat := by
      rw [show (192 : UInt8).toNat = 192 from rfl]
      omega
    rw [hzero, hmsg]
    exact readName_nameBytes h.label (by omega)
  have hread : readName msg maxHops (192 :: lo :: rest) =
      (readName msg 255 (msg.drop (256 * ((192 : UInt8).toNat - 192) + lo.toNat))).map
        fun r => (r.1, rest) := by
    unfold maxHops
    conv_lhs => unfold readName
    rw [if_neg (by decide), if_neg (by decide), if_neg (by decide)]
  rw [hread, htarget, Option.map_some]

/-! ### Questions, records and messages -/

structure Question where
  name : Name
  qtype : UInt16
  qclass : UInt16
  deriving DecidableEq

structure Record where
  name : Name
  rtype : UInt16
  rclass : UInt16
  ttl : UInt32
  rdata : Bytes
  deriving DecidableEq

structure Message where
  id : UInt16
  flags : UInt16
  questions : List Question
  answers : List Record
  authorities : List Record
  additionals : List Record
  deriving DecidableEq

/-- What follows the name of a record. -/
def recordTail (r : Record) : Bytes :=
  be16 r.rtype ++ be16 r.rclass ++ be32 r.ttl ++ be16 (UInt16.ofNat r.rdata.length) ++ r.rdata

def questionBytes (q : Question) : Bytes := nameBytes q.name ++ be16 q.qtype ++ be16 q.qclass

def recordBytes (r : Record) : Bytes := nameBytes r.name ++ recordTail r

structure IsRecord (r : Record) : Prop where
  name : IsName r.name
  rdata : r.rdata.length < 65536

def readQuestion (msg rest : Bytes) : Option (Question × Bytes) := do
  let (name, rest) ← readName msg maxHops rest
  let (qtype, rest) ← read16 rest
  let (qclass, rest) ← read16 rest
  return (⟨name, qtype, qclass⟩, rest)

def readRecord (msg rest : Bytes) : Option (Record × Bytes) := do
  let (name, rest) ← readName msg maxHops rest
  let (rtype, rest) ← read16 rest
  let (rclass, rest) ← read16 rest
  let (ttl, rest) ← read32 rest
  let (rdlength, rest) ← read16 rest
  if rest.length < rdlength.toNat then none
  else return (⟨name, rtype, rclass, ttl, rest.take rdlength.toNat⟩, rest.drop rdlength.toNat)

def readMany {α : Type} (p : Bytes → Option (α × Bytes)) : ℕ → Bytes → Option (List α × Bytes)
  | 0, rest => some ([], rest)
  | n + 1, rest => do
    let (a, rest) ← p rest
    let (as, rest) ← readMany p n rest
    return (a :: as, rest)

def decode (msg : Bytes) : Option (Message × Bytes) := do
  let (id, rest) ← read16 msg
  let (flags, rest) ← read16 rest
  let (qdcount, rest) ← read16 rest
  let (ancount, rest) ← read16 rest
  let (nscount, rest) ← read16 rest
  let (arcount, rest) ← read16 rest
  let (questions, rest) ← readMany (readQuestion msg) qdcount.toNat rest
  let (answers, rest) ← readMany (readRecord msg) ancount.toNat rest
  let (authorities, rest) ← readMany (readRecord msg) nscount.toNat rest
  let (additionals, rest) ← readMany (readRecord msg) arcount.toNat rest
  return (⟨id, flags, questions, answers, authorities, additionals⟩, rest)

/-- The header of a message with so many entries in each section. -/
def headerBytes (id flags qdcount ancount nscount arcount : UInt16) : Bytes :=
  be16 id ++ be16 flags ++ be16 qdcount ++ be16 ancount ++ be16 nscount ++ be16 arcount

section Read
variable {msg rest : Bytes}

theorem readQuestion_of_name {q : Question} {bytes : Bytes}
    (hname : readName msg maxHops bytes = some (q.name, be16 q.qtype ++ (be16 q.qclass ++ rest))) :
    readQuestion msg bytes = some (q, rest) := by
  simp [readQuestion, hname, read16_be16]

theorem readQuestion_questionBytes {q : Question} (h : IsName q.name) :
    readQuestion msg (questionBytes q ++ rest) = some (q, rest) := by
  have hlength := h.length
  refine readQuestion_of_name ?_
  have hbytes : questionBytes q ++ rest =
      nameBytes q.name ++ (be16 q.qtype ++ (be16 q.qclass ++ rest)) := by
    simp [questionBytes]
  rw [hbytes]
  exact readName_nameBytes h.label (by unfold maxHops; omega)

/-- However the name is written, the rest of a record is read back. -/
theorem readRecord_of_name {r : Record} {bytes : Bytes} (hr : r.rdata.length < 65536)
    (hname : readName msg maxHops bytes = some (r.name, recordTail r ++ rest)) :
    readRecord msg bytes = some (r, rest) := by
  have hnat : (UInt16.ofNat r.rdata.length).toNat = r.rdata.length := by
    rw [UInt16.toNat_ofNat']
    omega
  have htail : recordTail r ++ rest = be16 r.rtype ++ (be16 r.rclass ++ (be32 r.ttl ++
      (be16 (UInt16.ofNat r.rdata.length) ++ (r.rdata ++ rest)))) := by
    simp [recordTail]
  have hlong : ¬ (r.rdata ++ rest).length < r.rdata.length := by
    rw [List.length_append]
    omega
  simp [readRecord, hname, htail, read16_be16, read32_be32, hnat]

theorem readRecord_recordBytes {r : Record} (h : IsRecord r) :
    readRecord msg (recordBytes r ++ rest) = some (r, rest) := by
  have hlength := h.name.length
  refine readRecord_of_name h.rdata ?_
  have hbytes : recordBytes r ++ rest = nameBytes r.name ++ (recordTail r ++ rest) := by
    simp [recordBytes]
  rw [hbytes]
  exact readName_nameBytes h.name.label (by unfold maxHops; omega)

theorem readMany_one {α : Type} {p : Bytes → Option (α × Bytes)} {bytes : Bytes} {a : α}
    (h : p bytes = some (a, rest)) : readMany p (1 : UInt16).toNat bytes = some ([a], rest) := by
  show readMany p 1 bytes = _
  simp [readMany, h]

/-- The sections, when there are neither authorities nor additionals. -/
theorem decode_header {id flags qdcount ancount : UInt16} {body afterQs after : Bytes}
    {questions : List Question} {answers : List Record}
    (hmsg : msg = headerBytes id flags qdcount ancount 0 0 ++ body)
    (hquestions : readMany (readQuestion msg) qdcount.toNat body = some (questions, afterQs))
    (hanswers : readMany (readRecord msg) ancount.toNat afterQs = some (answers, after)) :
    decode msg = some (⟨id, flags, questions, answers, [], []⟩, after) := by
  have hbytes : msg = be16 id ++ (be16 flags ++ (be16 qdcount ++ (be16 ancount ++
      (be16 0 ++ (be16 0 ++ body))))) := by
    rw [hmsg]
    simp only [headerBytes, List.append_assoc]
  have hid : read16 msg = some (id, be16 flags ++ (be16 qdcount ++ (be16 ancount ++
      (be16 0 ++ (be16 0 ++ body))))) := by
    conv_lhs => rw [hbytes]
    exact read16_be16 _ _
  simp only [decode, hid, read16_be16, Option.bind_eq_bind, Option.bind_some, hquestions, hanswers]
  rfl

end Read

end StoneRidge.Kit.DnsWire
