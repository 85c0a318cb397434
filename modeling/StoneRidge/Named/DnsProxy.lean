import StoneRidge.Kit.DnsWire
import StoneRidge.Resolv.ResolvConf

/-!
# The name server

`UdpDnsHandler.handle` (`dnsproxy.py:118-192`): an answer is made of the octets of the
query, with new flags and counts and one record after them.
-/

set_option autoImplicit false

namespace StoneRidge.Named
open StoneRidge.Kit.DnsWire
open StoneRidge.Resolv (ascii)

/-- An address, for the text of it that the lookups return. -/
@[ext]
structure Ipv4 where
  a : UInt8
  b : UInt8
  c : UInt8
  d : UInt8
  deriving DecidableEq

def inetAton (ip : Ipv4) : Bytes := [ip.a, ip.b, ip.c, ip.d]

def dot : UInt8 := 46

/-- The loop of `_domain` on the octets from `index` on; nothing where there is none at
`index`. Each round takes one at least, so as many rounds as octets are enough. -/
def domainFrom : ℕ → Bytes → Option Bytes
  | 0, _ => none
  | _ + 1, [] => none
  | rounds + 1, length :: rest =>
    if length = 0 then some []
    else (domainFrom rounds (rest.drop length.toNat)).map fun domain =>
      rest.take length.toNat ++ dot :: domain

def domain (wireDomain : Bytes) : Option Bytes := domainFrom wireDomain.length wireDomain

def standardQueryOperationCode : ℕ := 0

section Handler
variable (dnsLookup : Bytes → Option Ipv4) (getDnsNoSuchNameResponse : Bytes → Option Bytes)

/-- The packet for a query; empty for one without a domain. -/
def getDnsResponse (data : Bytes) (transactionId flags : UInt8) (domain : Bytes) (ip : Ipv4) :
    Bytes :=
  let qaCounts := (data.drop 4).take 2
  let wireDomain := data.drop 12
  if domain = [] then []
  else transactionId :: flags :: 0x81 :: 0x80 :: (qaCounts ++ qaCounts ++ [0, 0, 0, 0] ++
    wireDomain ++ [0xc0, 0x0c, 0, 1, 0, 1, 0, 0, 0, 0x3c, 0, 4] ++ inetAton ip)

/-- What is written for a datagram, or nothing where the handler raises. -/
def handle? (data : Bytes) : Option Bytes := do
  let transactionId ← data[0]?
  let flags ← data[1]?
  let octet ← data[2]?
  let operationCode := (octet.toNat >>> 3) &&& 15
  let domain ←
    if operationCode = standardQueryOperationCode then domain (data.drop 12) else some []
  match dnsLookup domain with
  | none => getDnsNoSuchNameResponse data
  | some ip => some (getDnsResponse data transactionId flags domain ip)

/-- The datagram that goes back. `finish` sends what was written, also after an exception. -/
def handle (data : Bytes) : Bytes :=
  (handle? dnsLookup getDnsNoSuchNameResponse data).getD []

end Handler

/-! ### Queries -/

/-- The message of a client with one question and some additional records. -/
def queryBytes (id flags : UInt16) (q : Question) (additionals : List Record) : Bytes :=
  headerBytes id flags 1 0 0 (UInt16.ofNat additionals.length) ++
    (questionBytes q ++ additionals.flatMap recordBytes)

def opcode (flags : UInt16) : ℕ := flags.toNat / 2048 % 16

/-- The name as a host: each label with its period. -/
def hostname (name : Name) : Bytes := name.flatMap fun l => l ++ [dot]

/-- The record that is put after the query. -/
def answer (name : Name) (ip : Ipv4) : Record := ⟨name, 1, 1, 60, inetAton ip⟩

theorem domainFrom_nameBytes {name : Name} {rest : Bytes} {rounds : ℕ}
    (h : ∀ l ∈ name, l ≠ [] ∧ l.length ≤ 63) (hrounds : (nameBytes name).length ≤ rounds) :
    domainFrom rounds (nameBytes name ++ rest) = some (hostname name) := by
  induction name generalizing rounds with
  | nil =>
    have hpos : rounds ≠ 0 := by
      intro hzero
      rw [hzero] at hrounds
      simp [nameBytes] at hrounds
    obtain ⟨rounds, rfl⟩ := Nat.exists_eq_succ_of_ne_zero hpos
    rfl
  | cons l name ih =>
    obtain ⟨hne, hle⟩ := h l List.mem_cons_self
    have hnat := label_toNat hle
    have hlong : (nameBytes (l :: name)).length = l.length + 1 + (nameBytes name).length := by
      simp [nameBytes, labelBytes]
      omega
    have hbytes : nameBytes (l :: name) ++ rest =
        UInt8.ofNat l.length :: (l ++ (nameBytes name ++ rest)) := by
      simp [nameBytes, labelBytes]
    have hzero : UInt8.ofNat l.length ≠ 0 := label_ne_zero hne hle
    obtain ⟨rounds, rfl⟩ := Nat.exists_eq_succ_of_ne_zero (n := rounds) (by omega)
    rw [hbytes, domainFrom, if_neg hzero, hnat, List.drop_left, List.take_left,
      ih (fun x hx => h x (List.mem_cons_of_mem l hx)) (by omega)]
    simp [hostname]

theorem domain_nameBytes {name : Name} {rest : Bytes} (h : IsName name) :
    domain (nameBytes name ++ rest) = some (hostname name) := by
  unfold domain
  refine domainFrom_nameBytes h.label ?_
  rw [List.length_append]
  omega

theorem hostname_ne_nil {name : Name} (h : name ≠ []) : hostname name ≠ [] := by
  obtain ⟨l, name, rfl⟩ := List.exists_cons_of_ne_nil h
  simp [hostname]

/-- The octet that the handler takes the operation code from. -/
theorem opcode_octet (flags : UInt16) :
    ((UInt8.ofNat (flags.toNat / 256)).toNat >>> 3) &&& 15 = opcode flags := by
  have hlt := flags.toNat_lt
  have hmod : ∀ n : ℕ, n &&& 15 = n % 16 := fun n => Nat.and_two_pow_sub_one_eq_mod n 4
  rw [hmod, Nat.shiftRight_eq_div_pow, UInt8.toNat_ofNat', opcode]
  omega

section Reply
variable {dnsLookup : Bytes → Option Ipv4}
  {getDnsNoSuchNameResponse : Bytes → Option Bytes} {id flags : UInt16} {q : Question}
  {additionals : List Record} {ip : Ipv4}

/-- The octets of the reply to a query whose host is found. -/
theorem handle_queryBytes (hopcode : opcode flags = 0) (hname : IsName q.name) (hne : q.name ≠ [])
    (hip : dnsLookup (hostname q.name) = some ip) :
    handle dnsLookup getDnsNoSuchNameResponse (queryBytes id flags q additionals) =
      headerBytes id 0x8180 1 1 0 0 ++ (questionBytes q ++
        (additionals.flatMap recordBytes ++ (0xc0 :: 0x0c :: recordTail (answer q.name ip)))) := by
  have hdrop : (queryBytes id flags q additionals).drop 12 =
      questionBytes q ++ additionals.flatMap recordBytes := rfl
  have hcounts : ((queryBytes id flags q additionals).drop 4).take 2 = [0, 1] := rfl
  have hdomain : domain (questionBytes q ++ additionals.flatMap recordBytes) =
      some (hostname q.name) := by
    rw [questionBytes, List.append_assoc, List.append_assoc]
    exact domain_nameBytes hname
  have hcode : ((UInt8.ofNat (flags.toNat / 256)).toNat >>> 3) &&& 15 =
      standardQueryOperationCode := by
    rw [opcode_octet, hopcode]
    rfl
  have h0 : (queryBytes id flags q additionals)[0]? = some (UInt8.ofNat (id.toNat / 256)) := rfl
  have h1 : (queryBytes id flags q additionals)[1]? = some (UInt8.ofNat id.toNat) := rfl
  have h2 : (queryBytes id flags q additionals)[2]? = some (UInt8.ofNat (flags.toNat / 256)) := rfl
  simp only [handle, handle?, h0, h1, h2, Option.bind_eq_bind, Option.bind_some, if_pos hcode,
    hdrop, hdomain, hip, getDnsResponse, hcounts, if_neg (hostname_ne_nil hne), Option.getD_some]
  simp [headerBytes, recordTail, answer, be16, be32, inetAton]

/-- The octets at the pointer are those of the name asked for. -/
theorem readRecord_answer {bytes : Bytes} (hname : IsName q.name) :
    readRecord (headerBytes id 0x8180 1 1 0 0 ++ (questionBytes q ++ bytes))
      (0xc0 :: 0x0c :: recordTail (answer q.name ip)) = some (answer q.name ip, []) := by
  have hrdata : (answer q.name ip).rdata.length < 65536 := by
    show 4 < 65536
    omega
  have htarget : (headerBytes id 0x8180 1 1 0 0 ++ (questionBytes q ++ bytes)).drop
      (0x0c : UInt8).toNat = nameBytes (answer q.name ip).name ++
        (be16 q.qtype ++ (be16 q.qclass ++ bytes)) := by
    show questionBytes q ++ bytes = nameBytes q.name ++ _
    simp only [questionBytes, List.append_assoc]
  refine readRecord_of_name hrdata ?_
  rw [List.append_nil]
  exact readName_pointer hname htarget

theorem decode_answered (hname : IsName q.name) :
    decode (headerBytes id 0x8180 1 1 0 0 ++ (questionBytes q ++
      (0xc0 :: 0x0c :: recordTail (answer q.name ip)))) =
      some (⟨id, 0x8180, [q], [answer q.name ip], [], []⟩, []) :=
  decode_header rfl (readMany_one (readQuestion_questionBytes hname))
    (readMany_one (readRecord_answer hname))

/-- A query without additional records is answered with the address. -/
theorem reply_answers (hopcode : opcode flags = 0) (hname : IsName q.name) (hne : q.name ≠ [])
    (hip : dnsLookup (hostname q.name) = some ip) :
    decode (handle dnsLookup getDnsNoSuchNameResponse (queryBytes id flags q [])) =
      some (⟨id, 0x8180, [q], [answer q.name ip], [], []⟩, []) := by
  rw [handle_queryBytes hopcode hname hne hip]
  exact decode_answered hname

theorem reply_answers_example :
    decode (handle (fun _ => some ⟨172, 16, 1, 1⟩) (fun _ => none)
      (queryBytes 7 256 ⟨[ascii "example", ascii "com"], 28, 1⟩ [])) =
    some (⟨7, 0x8180, [⟨[ascii "example", ascii "com"], 28, 1⟩],
      [answer [ascii "example", ascii "com"] ⟨172, 16, 1, 1⟩], [], []⟩, []) :=
  reply_answers (by decide) ⟨by decide, by decide⟩ (by decide) rfl

/-- The first additional record of a query is read as its answer, and the address is left
over after the message. -/
theorem reply_echoes {r : Record} {rs : List Record} (hopcode : opcode flags = 0)
    (hname : IsName q.name) (hne : q.name ≠ []) (hip : dnsLookup (hostname q.name) = some ip)
    (hr : IsRecord r) :
    decode (handle dnsLookup getDnsNoSuchNameResponse (queryBytes id flags q (r :: rs))) =
      some (⟨id, 0x8180, [q], [r], [], []⟩,
        rs.flatMap recordBytes ++ (0xc0 :: 0x0c :: recordTail (answer q.name ip))) := by
  rw [handle_queryBytes hopcode hname hne hip]
  refine decode_header rfl (readMany_one (readQuestion_questionBytes hname)) ?_
  rw [List.flatMap_cons, List.append_assoc]
  exact readMany_one (readRecord_recordBytes hr)

/-- The additional record is the one by which a client announces its buffer size. -/
theorem reply_echoes_buffer :
    decode (handle (fun _ => some ⟨172, 16, 1, 1⟩) (fun _ => none)
      (queryBytes 7 256 ⟨[ascii "example", ascii "com"], 1, 1⟩ [⟨[], 41, 4096, 0, []⟩])) =
    some (⟨7, 0x8180, [⟨[ascii "example", ascii "com"], 1, 1⟩], [⟨[], 41, 4096, 0, []⟩], [], []⟩,
      0xc0 :: 0x0c :: recordTail (answer [ascii "example", ascii "com"] ⟨172, 16, 1, 1⟩)) :=
  reply_echoes (by decide) ⟨by decide, by decide⟩ (by decide) rfl ⟨⟨by decide, by decide⟩, by decide⟩

end Reply

end StoneRidge.Named
