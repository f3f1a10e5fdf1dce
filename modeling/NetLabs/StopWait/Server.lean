import NetLabs.Library.Channel
import NetLabs.StopWait.Packet

/-! # The stop-and-wait server

One step takes a datagram through `serverReceive` and, when that returns a packet, through
the rest of the `do` loop of `main`. Between its `recvfrom` and the next one the server
acts on the outside only by the ACK it sends, so nothing can tell these apart. -/

namespace NetLabs.StopWait

open Channel

/-- The variables of `main`. `accepted` records the packets `serverReceive` has returned
and is never read. -/
structure Server where
  seqnum : Int32
  file : OpenFile
  running : Bool
  accepted : List (Message Packet)
  deriving DecidableEq, Repr

def Server.start (old : List UInt8) : Server :=
  { seqnum := 0, file := .reopen old, running := true, accepted := [] }

/-- One turn of the loop in `serverReceive`: the number handed to `serverSend`, and whether
the packet is returned. -/
def serverReceive (beyond : ℕ → UInt8) (seqnum : Int32) (packet : Packet) : Int32 × Bool :=
  if packet.header.cksum ≠ getChecksum beyond packet then (lnot seqnum, false)
  else if packet.header.seqAck ≠ seqnum then (lnot seqnum, false)
  else (seqnum, true)

/-- The ACK that `serverSend` builds around `data`, which it leaves uninitialised, unless
it drops the ACK on purpose. -/
def serverSend (drop : Bool) (seqnum : Int32) (data : Vector UInt8 10) : Option Packet :=
  if drop then none else some (Packet.seal ⟨⟨seqnum, 10, 0⟩, data⟩)

/-- The bytes `write(fp, packet.data, packet.header.len)` takes from memory. A negative
`len` is a count no `write` accepts. -/
def writtenBytes (beyond : ℕ → UInt8) (packet : Packet) : List UInt8 :=
  (List.range packet.header.len.toNatClampNeg).map fun i =>
    packet.byteAt beyond (sizeofHeader + i)

/-- `main` after `serverReceive` has returned `packet`. -/
def Server.store (beyond : ℕ → UInt8) (m : Message Packet) (s : Server) : Server :=
  { seqnum := (s.seqnum + 1) % 2
    file := s.file.write (writtenBytes beyond m.body)
    running := decide (m.body.header.len ≠ 0)
    accepted := s.accepted ++ [m] }

/-- The server takes a datagram. `callee` and `caller` are what lies in memory after the
packet of `serverReceive` and after that of `main`. -/
def Server.receive (callee caller : ℕ → UInt8) (data : Vector UInt8 10) (drop : Bool)
    (m : Message Packet) (s : Server) : Server × Option Packet :=
  let (number, returned) := serverReceive callee s.seqnum m.body
  (if returned then s.store caller m else s, serverSend drop number data)

/-! ## What one datagram does -/

theorem serverReceive_damaged {packet : Packet} (h : packet.Damaged) (beyond : ℕ → UInt8)
    (seqnum : Int32) : serverReceive beyond seqnum packet = (lnot seqnum, false) :=
  if_pos (h beyond)

/-- An intact packet is returned exactly when it carries the expected number. -/
theorem serverReceive_undamaged {packet : Packet} (h : packet.Undamaged) (beyond : ℕ → UInt8)
    (seqnum : Int32) :
    serverReceive beyond seqnum packet =
      if packet.header.seqAck = seqnum then (seqnum, true) else (lnot seqnum, false) := by
  unfold serverReceive
  rw [if_neg (not_not.mpr (h beyond))]
  by_cases hseq : packet.header.seqAck = seqnum <;> simp [hseq]

theorem Server.receive_damaged {m : Message Packet} (h : m.body.Damaged)
    (callee caller : ℕ → UInt8) (data : Vector UInt8 10) (drop : Bool) (s : Server) :
    s.receive callee caller data drop m = (s, serverSend drop (lnot s.seqnum) data) := by
  simp [Server.receive, serverReceive_damaged h]

theorem Server.receive_expected {m : Message Packet} {s : Server} (h : m.body.Undamaged)
    (hseq : m.body.header.seqAck = s.seqnum) (callee caller : ℕ → UInt8)
    (data : Vector UInt8 10) (drop : Bool) :
    s.receive callee caller data drop m =
      (s.store caller m, serverSend drop s.seqnum data) := by
  simp [Server.receive, serverReceive_undamaged h, hseq]

theorem Server.receive_other {m : Message Packet} {s : Server} (h : m.body.Undamaged)
    (hseq : m.body.header.seqAck ≠ s.seqnum) (callee caller : ℕ → UInt8)
    (data : Vector UInt8 10) (drop : Bool) :
    s.receive callee caller data drop m = (s, serverSend drop (lnot s.seqnum) data) := by
  simp [Server.receive, serverReceive_undamaged h, hseq]

/-- A packet within the data field is written as its payload. -/
theorem writtenBytes_eq_payload (beyond : ℕ → UInt8) {packet : Packet}
    (hlen : packet.header.len.toInt ≤ 10) : writtenBytes beyond packet = packet.payload := by
  have hle : packet.header.len.toNatClampNeg ≤ 10 := by
    rw [Int32.toNatClampNeg]
    omega
  apply List.ext_getElem
  · simp [writtenBytes, Packet.payload, hle]
  · intro i hi hi'
    have hlt : i < 10 := by
      simp only [writtenBytes, List.length_map, List.length_range] at hi
      omega
    have h4 : ¬ 12 + i < 4 := by omega
    have h8 : ¬ 12 + i < 8 := by omega
    simp [writtenBytes, Packet.payload, Packet.byteAt, sizeofHeader, hlt, h4, h8]

theorem serverSend_eq_some {drop : Bool} {seqnum : Int32} {data : Vector UInt8 10}
    {ack : Packet} (h : serverSend drop seqnum data = some ack) :
    ack.header.seqAck = seqnum ∧ ack.Undamaged := by
  unfold serverSend at h
  split at h
  · simp at h
  · obtain rfl := Option.some.inj h
    refine ⟨rfl, Packet.seal_undamaged _ ?_⟩
    change (10 : Int32).toInt ≤ 10
    decide

end NetLabs.StopWait
