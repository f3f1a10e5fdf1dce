import NetLabs.Library.Machine
import NetLabs.StopWait.Client
import NetLabs.StopWait.Server
import NetLabs.UdpCopy.Programs

/-! # What the receivers read on account of `len`

No receiver looks at `len` before it uses it as a size and as a bound. Offsets count from the
start of the received packet. -/

namespace NetLabs

open Machine

/-! ## The stop-and-wait programs -/

namespace StopWait

/-- A datagram, and all that decides what the server does with it. -/
structure Datagram where
  packet : Packet
  callee : ℕ → UInt8
  caller : ℕ → UInt8
  data : Vector UInt8 10
  drop : Bool

def Server.step (s : Server) (d : Datagram) : Option Server :=
  if s.running then some (s.receive d.callee d.caller d.data d.drop ⟨0, d.packet⟩).1 else none

/-- The offsets read by `fwrite` in `printPacket` and by `write` in `main`. -/
def dataReads (packet : Packet) : List ℕ :=
  spanReads sizeofHeader packet.header.len

/-- What the server reads lies inside the packet, and what it writes in the data field. -/
def Server.Safe (s : Server) (d : Datagram) : Prop :=
  (∀ k ∈ dataReads d.packet ++ checksumReads d.packet, k < sizeofPacket) ∧
    ((serverReceive d.callee s.seqnum d.packet).2 = true →
      ∀ k ∈ dataReads d.packet, sizeofHeader ≤ k ∧ k < sizeofHeader + 10)

/-- The packet's `len` reaches no further than its padding, and that of a packet which passes
the tests no further than its data field. -/
def Server.InBounds (s : Server) (d : Datagram) : Prop :=
  0 ≤ d.packet.header.len.toInt ∧ d.packet.header.len.toInt ≤ 12 ∧
    (d.packet.header.cksum = getChecksum d.callee d.packet →
      d.packet.header.seqAck = s.seqnum → d.packet.header.len.toInt ≤ 10)

theorem checksumReads_lt_iff (packet : Packet) :
    (∀ k ∈ checksumReads packet, k < sizeofPacket) ↔ packet.header.len.toInt ≤ 12 := by
  simp only [checksumReads, List.mem_range, sizeofHeader, sizeofPacket]
  constructor
  · intro h
    by_contra hlen
    have := h 24 (by omega)
    omega
  · intro hlen k hk
    omega

theorem serverReceive_returns_iff (beyond : ℕ → UInt8) (seqnum : Int32) (packet : Packet) :
    (serverReceive beyond seqnum packet).2 = true ↔
      packet.header.cksum = getChecksum beyond packet ∧ packet.header.seqAck = seqnum := by
  unfold serverReceive
  by_cases hsum : packet.header.cksum = getChecksum beyond packet
  · by_cases hseq : packet.header.seqAck = seqnum <;> simp [hsum, hseq]
  · simp [hsum]

theorem Server.safe_iff (s : Server) (d : Datagram) : s.Safe d ↔ s.InBounds d := by
  have hprint : (∀ k ∈ dataReads d.packet, k < sizeofPacket) ↔
      0 ≤ d.packet.header.len.toInt ∧ d.packet.header.len.toInt ≤ 12 :=
    spanReads_lt_iff 12 12 d.packet.header.len (by decide)
  have hwrite : (∀ k ∈ dataReads d.packet, sizeofHeader ≤ k ∧ k < sizeofHeader + 10) ↔
      0 ≤ d.packet.header.len.toInt ∧ d.packet.header.len.toInt ≤ 10 :=
    spanReads_within_iff 12 10 d.packet.header.len (by decide)
  rw [Server.Safe, Server.InBounds, serverReceive_returns_iff, hwrite, List.forall_mem_append,
    hprint, checksumReads_lt_iff, and_imp]
  constructor
  · rintro ⟨⟨⟨h0, h12⟩, _⟩, h10⟩
    exact ⟨h0, h12, fun hsum hseq => (h10 hsum hseq).2⟩
  · rintro ⟨h0, h12, h10⟩
    exact ⟨⟨⟨h0, h12⟩, h12⟩, fun hsum hseq => ⟨h0, h10 hsum hseq⟩⟩

/-- What the client reads when it checks an ACK lies inside the packet. -/
def Client.Safe (_ : Client) : ClientAction → Prop
  | .receive _ _ recvpacket => ∀ k ∈ checksumReads recvpacket, k < sizeofPacket
  | _ => True

/-- The ACK's `len` reaches no further than the padding, where a negative one reads less. -/
def Client.InBounds (_ : Client) : ClientAction → Prop
  | .receive _ _ recvpacket => recvpacket.header.len.toInt ≤ 12
  | _ => True

theorem Client.safe_iff (c : Client) (a : ClientAction) : c.Safe a ↔ c.InBounds a := by
  cases a with
  | receive beyond sender recvpacket => exact checksumReads_lt_iff recvpacket
  | _ => exact Iff.rfl

end StopWait

/-! ## The copy without checksums -/

namespace UdpCopy

structure Datagram where
  packet : Packet
  beyond : ℕ → UInt8

def Server.step (s : Server) (d : Datagram) : Option Server :=
  if s.running then some (s.receive d.beyond ⟨0, d.packet⟩).1 else none

/-- The offsets read by `fwrite` in `printPacket` and by `write` in `main`. -/
def dataReads (packet : Packet) : List ℕ :=
  spanReads sizeofHeader packet.header.len

def Server.Safe (_ : Server) (d : Datagram) : Prop :=
  (∀ k ∈ dataReads d.packet, k < sizeofPacket) ∧
    ∀ k ∈ dataReads d.packet, sizeofHeader ≤ k ∧ k < sizeofHeader + 10

/-- The packet's `len` reaches no further than its data field. -/
def Server.InBounds (_ : Server) (d : Datagram) : Prop :=
  0 ≤ d.packet.header.len.toInt ∧ d.packet.header.len.toInt ≤ 10

theorem Server.safe_iff (s : Server) (d : Datagram) : s.Safe d ↔ s.InBounds d := by
  have hwrite : (∀ k ∈ dataReads d.packet, sizeofHeader ≤ k ∧ k < sizeofHeader + 10) ↔
      0 ≤ d.packet.header.len.toInt ∧ d.packet.header.len.toInt ≤ 10 :=
    spanReads_within_iff 4 10 d.packet.header.len (by decide)
  constructor
  · exact fun h => hwrite.mp h.2
  · intro h
    have hwithin := hwrite.mpr h
    exact ⟨fun k hk => (hwithin k hk).2.trans (by decide), hwithin⟩

end UdpCopy

/-! ## All receivers -/

/-- A `len` of 13 takes every receiver one byte past the end of the packet. -/
theorem overread :
    (∃ (d : StopWait.Datagram) (t : StopWait.Server),
      Run StopWait.Server.step (fun _ _ => True) (.start []) [d] t ∧
      ∃ k ∈ StopWait.dataReads d.packet, StopWait.sizeofPacket ≤ k) ∧
    (∃ (servAddr sender : StopWait.SockAddr) (beyond : ℕ → UInt8)
      (recvpacket : StopWait.Packet) (t : StopWait.Client),
      Run StopWait.Client.step (fun _ _ => True)
        (.start servAddr [] (.replicate 10 0) (.replicate 10 0))
        [.transmit false, .receive beyond sender recvpacket] t ∧
      ∃ k ∈ StopWait.checksumReads recvpacket, StopWait.sizeofPacket ≤ k) ∧
    ∃ (d : UdpCopy.Datagram) (t : UdpCopy.Server),
      Run UdpCopy.Server.step (fun _ _ => True) (.start []) [d] t ∧
      ∃ k ∈ UdpCopy.dataReads d.packet, UdpCopy.sizeofPacket ≤ k := by
  let zero : ℕ → UInt8 := fun _ => 0
  let empty : Vector UInt8 10 := .replicate 10 0
  let packet : StopWait.Packet := ⟨⟨0, 13, 0⟩, empty⟩
  exact ⟨⟨⟨packet, zero, zero, empty, true⟩, _, .single trivial rfl, 24, by decide, by decide⟩,
    ⟨⟨5000, 0⟩, ⟨6000, 0⟩, zero, packet, _, .snoc (.single trivial rfl) trivial rfl, 24,
      by decide, by decide⟩,
    ⟨⟨⟨⟨13⟩, empty⟩, zero⟩, _, .single trivial rfl, 16, by decide, by decide⟩⟩

/-- The receivers handle a sequence of datagrams safely exactly when each of these, in the
state it meets, is within bounds. -/
theorem receivers_safe_iff (s s' : StopWait.Server) (ds : List StopWait.Datagram)
    (c c' : StopWait.Client) (es : List StopWait.ClientAction)
    (u u' : UdpCopy.Server) (vs : List UdpCopy.Datagram) :
    (Run StopWait.Server.step StopWait.Server.Safe s ds s' ↔
      Run StopWait.Server.step StopWait.Server.InBounds s ds s') ∧
    (Run StopWait.Client.step StopWait.Client.Safe c es c' ↔
      Run StopWait.Client.step StopWait.Client.InBounds c es c') ∧
    (Run UdpCopy.Server.step UdpCopy.Server.Safe u vs u' ↔
      Run UdpCopy.Server.step UdpCopy.Server.InBounds u vs u') :=
  ⟨Run.congr StopWait.Server.safe_iff, Run.congr StopWait.Client.safe_iff,
    Run.congr UdpCopy.Server.safe_iff⟩

end NetLabs
