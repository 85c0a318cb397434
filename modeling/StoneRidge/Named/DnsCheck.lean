import StoneRidge.Kit.PyText
import StoneRidge.Named.DnsProxy

/-!
# Who gets which address

The lookups of `srnamed.py:27-45` behind the name server, and the checks that a test
machine makes of it (`srdnscheck.py:36-91`).
-/

set_option autoImplicit false

namespace StoneRidge.Named
open StoneRidge.Kit StoneRidge.Kit.DnsWire
open StoneRidge.Resolv (ascii)

/-! ### The lookups -/

def ignoreHosts : List Bytes := [ascii "puppet1.private.scl3.mozilla.com."]

def srHosts : List (Bytes × Ipv4) :=
  [(ascii "stone-ridge-linux1.dmz.scl3.mozilla.com.", ⟨172, 17, 0, 1⟩),
    (ascii "stone-ridge-linux2.dmz.scl3.mozilla.com.", ⟨172, 18, 0, 1⟩),
    (ascii "stone-ridge-linux3.dmz.scl3.mozilla.com.", ⟨172, 19, 0, 1⟩),
    (ascii "stone-ridge-linux4.dmz.scl3.mozilla.com.", ⟨172, 16, 1, 1⟩),
    (ascii "stone-ridge-win1.dmz.scl3.mozilla.com.", ⟨172, 16, 1, 2⟩),
    (ascii "stone-ridge-mac1.dmz.scl3.mozilla.com.", ⟨172, 16, 1, 3⟩)]

/-- `serverAddress` is the address that the server listens on; `gethostbyname` finds nothing
where the call raises. -/
def srlookup (gethostbyname : Bytes → Option Ipv4) (serverAddress : Ipv4) (host : Bytes) :
    Option Ipv4 :=
  if host ∈ ignoreHosts then gethostbyname host
  else match srHosts.lookup host with
    | some ip => some ip
    | none => some serverAddress

/-! ### The checks -/

def Ipv4.text (ip : Ipv4) : String :=
  String.ofList ((['.'] : List Char).intercalate
    ([ip.a, ip.b, ip.c, ip.d].map fun n => Nat.toDigits 10 n.toNat))

/-- `ip.split('.')`, each through `int`; nothing where `int` or an index raises. -/
def inPrivate (ip : String) : Option Bool := do
  let bits ← (ip.toList.splitOn '.').mapM fun part => PyText.int? (String.ofList part)
  let bits0 ← bits[0]?
  if bits0 = 172 then
    let bits1 ← bits[1]?
    return decide (16 ≤ bits1 ∧ bits1 ≤ 31)
  else return false

/-- What the mail says has failed. -/
inductive Check where
  | gethostbyname
  | isPrivate
  | isPublic
  deriving DecidableEq

/-- How the program ends: with 0, or with 1 after a mail, or with an exception. -/
inductive Exit where
  | ok
  | mailed (check : Check)
  | raised
  deriving DecidableEq

def checkPrivate (ip : String) : Exit :=
  match inPrivate ip with
  | none => .raised
  | some false => .mailed .isPrivate
  | some true => .ok

def checkPublic (ip : String) : Exit :=
  match inPrivate ip with
  | none => .raised
  | some true => .mailed .isPublic
  | some false => .ok

/-- `main` with the address that `gethostbyname('example.com')` returns. -/
def srdnscheck (isPublic : Bool) : Option String → Exit
  | none => .mailed .gethostbyname
  | some ip => if isPublic then checkPublic ip else checkPrivate ip

/-! ### Addresses in the private network -/

/-- The network 172.16/12. -/
def Ipv4.IsPrivate (ip : Ipv4) : Prop := ip.a = 172 ∧ 16 ≤ ip.b ∧ ip.b ≤ 31

instance decidableIsPrivate (ip : Ipv4) : Decidable ip.IsPrivate :=
  inferInstanceAs (Decidable (_ ∧ _ ∧ _))

theorem dot_not_mem_toDigits (n : ℕ) : '.' ∉ Nat.toDigits 10 n := by
  intro hmem
  have hdigit := PyText.isDigit_of_mem_toDigits hmem
  simp at hdigit

theorem int?_toDigits (n : ℕ) : PyText.int? (String.ofList (Nat.toDigits 10 n)) = some (n : ℤ) := by
  have htext : String.ofList (Nat.toDigits 10 n) = toString (Int.ofNat n) := by
    rw [← String.toList_inj, String.toList_ofList, PyText.toList_toString_ofNat]
  rw [htext, PyText.int?_toString]
  rfl

theorem split_text (ip : Ipv4) : ip.text.toList.splitOn '.' =
    [ip.a, ip.b, ip.c, ip.d].map fun n => Nat.toDigits 10 n.toNat := by
  rw [Ipv4.text, String.toList_ofList]
  apply List.splitOn_intercalate
  · intro part hpart
    obtain ⟨n, -, rfl⟩ := List.mem_map.mp hpart
    exact dot_not_mem_toDigits n.toNat
  · simp

theorem inPrivate_text (ip : Ipv4) : inPrivate ip.text = some (decide ip.IsPrivate) := by
  have hbits : ((ip.text.toList.splitOn '.').mapM fun part => PyText.int? (String.ofList part)) =
      some ([ip.a, ip.b, ip.c, ip.d].map fun n => (n.toNat : ℤ)) := by
    rw [split_text]
    simp [int?_toDigits]
  have h172 : ((ip.a.toNat : ℤ) = 172) ↔ ip.a = 172 := by
    rw [← UInt8.toNat_inj]
    show (ip.a.toNat : ℤ) = 172 ↔ ip.a.toNat = 172
    omega
  have hrange : (16 ≤ (ip.b.toNat : ℤ) ∧ (ip.b.toNat : ℤ) ≤ 31) ↔ 16 ≤ ip.b ∧ ip.b ≤ 31 := by
    rw [UInt8.le_iff_toNat_le, UInt8.le_iff_toNat_le]
    show _ ↔ 16 ≤ ip.b.toNat ∧ ip.b.toNat ≤ 31
    omega
  simp only [inPrivate, hbits, List.map_cons, List.map_nil, List.getElem?_cons_zero,
    List.getElem?_cons_succ, Option.bind_eq_bind, Option.bind_some, h172, hrange]
  by_cases ha : ip.a = 172
  · simp [ha, Ipv4.IsPrivate]
  · simp [ha, Ipv4.IsPrivate]

/-- Either check, on the text of an address. -/
theorem srdnscheck_text (isPublic : Bool) (ip : Ipv4) :
    srdnscheck isPublic (some ip.text) = .ok ↔ (isPublic = false ↔ ip.IsPrivate) := by
  by_cases hprivate : ip.IsPrivate
  · cases isPublic <;> simp [srdnscheck, checkPublic, checkPrivate, inPrivate_text, hprivate]
  · cases isPublic <;> simp [srdnscheck, checkPublic, checkPrivate, inPrivate_text, hprivate]

theorem mem_of_lookup {host : Bytes} {ip : Ipv4} (h : srHosts.lookup host = some ip) :
    (host, ip) ∈ srHosts := by
  obtain ⟨before, after, hsplit, -⟩ := List.lookup_eq_some_iff.mp h
  rw [hsplit]
  simp

theorem isPrivate_of_srHosts {host : Bytes} {ip : Ipv4} (h : srHosts.lookup host = some ip) :
    ip.IsPrivate := by
  have hall : ∀ entry ∈ srHosts, entry.2.IsPrivate := by decide
  exact hall (host, ip) (mem_of_lookup h)

section Lookup
variable {gethostbyname : Bytes → Option Ipv4} {serverAddress ip : Ipv4} {host : Bytes}

/-- Every host but the ignored ones gets an address: its own, or the one of the server. -/
theorem srlookup_isPrivate (hignore : host ∉ ignoreHosts) :
    ∃ ip, srlookup gethostbyname serverAddress host = some ip ∧
      (ip.IsPrivate ↔ host ∈ srHosts.map Prod.fst ∨ serverAddress.IsPrivate) := by
  unfold srlookup
  rw [if_neg hignore]
  cases hlookup : srHosts.lookup host with
  | some ip =>
    have hmem : host ∈ srHosts.map Prod.fst :=
      List.mem_map.mpr ⟨(host, ip), mem_of_lookup hlookup, rfl⟩
    exact ⟨ip, rfl, iff_of_true (isPrivate_of_srHosts hlookup) (Or.inl hmem)⟩
  | none =>
    have hmem : host ∉ srHosts.map Prod.fst := by
      intro hmem
      obtain ⟨entry, hentry, rfl⟩ := List.mem_map.mp hmem
      have hne := List.lookup_eq_none_iff.mp hlookup entry hentry
      simp at hne
    exact ⟨serverAddress, rfl, (or_iff_right hmem).symm⟩

/-- What a check says of an address that a reply of the server carries. -/
theorem check_of_reply {getDnsNoSuchNameResponse : Bytes → Option Bytes} {id flags : UInt16}
    {q : Question} {m : Message} {rest : Bytes} {isPublic : Bool} (hopcode : opcode flags = 0)
    (hname : IsName q.name) (hne : q.name ≠ []) (hignore : hostname q.name ∉ ignoreHosts)
    (hreply : decode (handle (srlookup gethostbyname serverAddress) getDnsNoSuchNameResponse
      (queryBytes id flags q [])) = some (m, rest))
    (hip : ∃ r ∈ m.answers, r.rdata = inetAton ip) :
    srdnscheck isPublic (some ip.text) = .ok ↔
      (isPublic = false ↔ hostname q.name ∈ srHosts.map Prod.fst ∨ serverAddress.IsPrivate) := by
  obtain ⟨found, hfound, hprivate⟩ :=
    @srlookup_isPrivate gethostbyname serverAddress (hostname q.name) hignore
  rw [handle_queryBytes hopcode hname hne hfound] at hreply
  have hdecode := hreply.symm.trans (decode_answered hname)
  simp only [Option.some.injEq, Prod.mk.injEq] at hdecode
  obtain ⟨rfl, rfl⟩ := hdecode
  obtain ⟨r, hr, hrdata⟩ := hip
  rw [List.mem_singleton] at hr
  have hsame : found = ip := by
    rw [hr] at hrdata
    simpa [answer, inetAton, Ipv4.ext_iff] using hrdata
  rw [srdnscheck_text, ← hsame, hprivate]

/-- A server outside the network, asked for a name that is not one of the machines. -/
theorem check_of_reply_outside :
    srdnscheck true (some (Ipv4.text ⟨10, 0, 0, 1⟩)) = .ok ↔
      (true = false ↔ hostname [ascii "example", ascii "com"] ∈ srHosts.map Prod.fst ∨
        Ipv4.IsPrivate ⟨10, 0, 0, 1⟩) :=
  @check_of_reply (fun _ => none) ⟨10, 0, 0, 1⟩ ⟨10, 0, 0, 1⟩ (fun _ => none) 7 256
    ⟨[ascii "example", ascii "com"], 1, 1⟩ _ _ true (by decide) ⟨by decide, by decide⟩ (by decide)
    (by decide) (by
      rw [handle_queryBytes (by decide) ⟨by decide, by decide⟩ (by decide) rfl]
      exact decode_answered ⟨by decide, by decide⟩)
    ⟨_, List.mem_cons_self, rfl⟩

end Lookup

end StoneRidge.Named
