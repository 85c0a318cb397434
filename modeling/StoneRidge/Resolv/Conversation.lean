import StoneRidge.Resolv.ResolvConf

/-!
# The updater's conversation with the daemon

A request is a type and a length, one byte each, and then its data
(`srdnsupdater.py:31-80`). `BaseDnsModifier.handle` (`srdns.py:43-67`) reads each part with
one receive, and a receive may return less than it is asked for.
-/

set_option autoImplicit false

namespace StoneRidge.Resolv

/-- How many bytes the `k`-th receive returns when it may return `n`. -/
structure Segmentation where
  size : ℕ → ℕ → ℕ
  pos : ∀ k n, 0 < n → 0 < size k n
  le : ∀ k n, size k n ≤ n

/-- What the `k`-th receive, asked for `n` bytes, returns, and what is left. -/
def Segmentation.recv (seg : Segmentation) (k n : ℕ) (stream : Bytes) : Bytes × Bytes :=
  stream.splitAt (seg.size k (min n stream.length))

def setType : UInt8 := 115
def resetType : UInt8 := 114

/-- What `_converse` sends; `struct.pack` raises for a length that is no byte. -/
def converse (msgtype : UInt8) (msgdata : Bytes) : Option Bytes :=
  if msgdata.length ≤ 255 then some (msgtype :: UInt8.ofNat msgdata.length :: msgdata) else none

/-- The requests of the updater. -/
inductive Request where
  | set (dnsserver : Bytes)
  | restore

def Request.data : Request → Bytes
  | .set dnsserver => dnsserver
  | .restore => []

def Request.sent : Request → Option Bytes
  | .set dnsserver => converse setType dnsserver
  | .restore => converse resetType []

/-- What `handle` calls before it answers. -/
inductive Handled where
  | setDns (server : Bytes)
  | resetDns
  | unknown
  deriving DecidableEq

def Handled.status : Handled → Bytes
  | .unknown => ascii "no"
  | _ => ascii "ok"

/-- Nothing where `struct.unpack` raises because the header is not complete. -/
def handle (seg : Segmentation) (stream : Bytes) : Option Handled :=
  match seg.recv 0 2 stream with
  | ([msgtype, dlen], rest) =>
    let msgdata := if dlen = 0 then [] else (seg.recv 1 dlen.toNat rest).1
    if msgtype = setType then some (.setDns msgdata)
    else if msgtype = resetType then some .resetDns
    else some .unknown
  | _ => none

def Request.call : Request → Handled
  | .set dnsserver => .setDns dnsserver
  | .restore => .resetDns

/-- The header comes in one receive, and so does the data, if there is any. -/
def Segmentation.Whole (seg : Segmentation) (data : Bytes) : Prop :=
  seg.size 0 2 = 2 ∧ (data ≠ [] → seg.size 1 data.length = data.length)

section Conversation
variable {seg : Segmentation} {msgtype : UInt8} {data : Bytes}

theorem handle_split_header (h : seg.size 0 2 = 1) (msgtype dlen : UInt8) (data : Bytes) :
    handle seg (msgtype :: dlen :: data) = none := by
  have hrecv : seg.recv 0 2 (msgtype :: dlen :: data) = ([msgtype], dlen :: data) := by
    unfold Segmentation.recv
    rw [List.length_cons, List.length_cons, Nat.min_eq_left (by omega), h,
      List.splitAt_eq]
    rfl
  unfold handle
  rw [hrecv]

theorem recv_header (h : seg.size 0 2 = 2) (msgtype dlen : UInt8) (data : Bytes) :
    seg.recv 0 2 (msgtype :: dlen :: data) = ([msgtype, dlen], data) := by
  unfold Segmentation.recv
  rw [List.length_cons, List.length_cons, Nat.min_eq_left (by omega), h,
    List.splitAt_eq]
  rfl

/-- With the header in one piece the data is what the second receive returns. -/
theorem received_data (hlen : data.length ≤ 255) :
    (if UInt8.ofNat data.length = 0 then []
      else (seg.recv 1 (UInt8.ofNat data.length).toNat data).1) =
      data.take (seg.size 1 data.length) := by
  have hnat : (UInt8.ofNat data.length).toNat = data.length := by
    rw [UInt8.toNat_ofNat']
    omega
  by_cases hnil : data = []
  · subst hnil
    rw [List.take_nil]
    rfl
  · have hne : UInt8.ofNat data.length ≠ 0 := by
      intro heq
      rw [heq] at hnat
      exact hnil (List.length_eq_zero_iff.mp hnat.symm)
    unfold Segmentation.recv
    rw [if_neg hne, hnat, Nat.min_self, List.splitAt_eq]

theorem take_size_eq_iff : data.take (seg.size 1 data.length) = data ↔
    (data ≠ [] → seg.size 1 data.length = data.length) := by
  have hle := seg.le 1 data.length
  rw [List.take_eq_self_iff]
  constructor
  · intro h _
    omega
  · intro h
    by_cases hnil : data = []
    · subst hnil
      exact Nat.zero_le _
    · exact (h hnil).ge

/-- A request is handled as it was sent exactly if no receive cuts it. -/
theorem handle_iff (req : Request) (hlen : req.data.length ≤ 255) (seg : Segmentation) :
    ∃ stream, req.sent = some stream ∧
      (handle seg stream = some req.call ↔ seg.Whole req.data) := by
  have hsent : ∃ msgtype, req.sent =
      some (msgtype :: UInt8.ofNat req.data.length :: req.data) ∧
      ((∃ s, req = .set s ∧ msgtype = setType) ∨ req = .restore ∧ msgtype = resetType) := by
    cases req with
    | set s => exact ⟨setType, if_pos hlen, Or.inl ⟨s, rfl, rfl⟩⟩
    | restore => exact ⟨resetType, rfl, Or.inr ⟨rfl, rfl⟩⟩
  obtain ⟨msgtype, hstream, hreq⟩ := hsent
  refine ⟨_, hstream, ?_⟩
  have hpos := seg.pos 0 2 (by omega)
  have hle := seg.le 0 2
  rcases Nat.lt_or_ge (seg.size 0 2) 2 with hlt | hge
  · rw [handle_split_header (by omega)]
    refine iff_of_false (by simp) ?_
    intro hwhole
    have htwo := hwhole.1
    omega
  · have htwo : seg.size 0 2 = 2 := by omega
    have hwhole : seg.Whole req.data ↔ req.data.take (seg.size 1 req.data.length) = req.data := by
      rw [take_size_eq_iff]
      exact and_iff_right htwo
    unfold handle
    rw [recv_header htwo, hwhole]
    simp only [received_data hlen]
    rcases hreq with ⟨s, rfl, rfl⟩ | ⟨rfl, rfl⟩
    · simp [Request.call, Request.data]
    · simp [Request.call, Request.data, setType, resetType]

/-- Bytes that come one at a time. -/
def singly : Segmentation where
  size := fun _ n => min 1 n
  pos := by
    intro k n hn
    omega
  le := by
    intro k n
    omega

/-- Everything that may be returned is returned. -/
def unsplit : Segmentation where
  size := fun _ n => n
  pos := fun _ _ h => h
  le := fun _ _ => Nat.le_refl _

theorem handle_iff_unsplit : ∃ stream, (Request.set (ascii "10.0.0.1")).sent = some stream ∧
    (handle unsplit stream = some (.setDns (ascii "10.0.0.1")) ↔
      unsplit.Whole (ascii "10.0.0.1")) :=
  handle_iff (.set (ascii "10.0.0.1")) (by decide) unsplit

/-- A header whose two bytes come separately. -/
theorem handle_singly_fails :
    ¬ ∀ (req : Request) (seg : Segmentation), req.data.length ≤ 255 →
      ∃ stream, req.sent = some stream ∧ handle seg stream = some req.call := by
  intro h
  obtain ⟨stream, hsent, hhandled⟩ := h (.set (ascii "10.0.0.1")) singly (by decide)
  cases hsent
  exact absurd hhandled (by decide)

end Conversation

end StoneRidge.Resolv
