import NetLabs.Library.Channel
import NetLabs.Model.Buffer

/-! # The copy over UDP without checksums

`udp_client.c` sends a packet and waits for an ACK, whatever it says; `udp_server.c` answers
each packet and writes it. With only these two programs on the sockets, every datagram goes
from one to the other. -/

namespace NetLabs.UdpCopy

open Channel

/-! ## Packets -/

structure Header where
  len : Int32
  deriving DecidableEq, Repr

structure Packet where
  header : Header
  data : Vector UInt8 10
  deriving DecidableEq, Repr

def sizeofHeader : ℕ := 4

/-- Four bytes of header, ten of data, and two of padding. -/
def sizeofPacket : ℕ := 16

/-- Byte `i` counted from the start of a `Packet` object. What lies after the data field is
the memory `beyond`. -/
def Packet.byteAt (beyond : ℕ → UInt8) (packet : Packet) (i : ℕ) : UInt8 :=
  if i < 4 then intByte packet.header.len i
  else if h : i - 4 < 10 then packet.data[i - 4]
  else beyond (i - 14)

/-- The bytes that `len` counts, for a `len` within the data field. -/
def Packet.payload (packet : Packet) : List UInt8 :=
  packet.data.toList.take packet.header.len.toNatClampNeg

/-- The packet `serverSend` makes up. The zero that ends the string goes to the padding. -/
def ack : Packet :=
  ⟨⟨10⟩, #v[65, 67, 75, 78, 79, 87, 76, 69, 68, 71]⟩

/-! ## The client -/

/-- Where the client stands: before the `sendto` of `clientSend`, in its `recvfrom`, or past
the last call. -/
inductive Position where
  | send
  | recv
  | done
  deriving DecidableEq, Repr

/-- The variables of `main` and the packet handed to `clientSend`. `finalData` is the data
field of `final`, which is never assigned, and `index`, the number of the packet, is not used
by the program. -/
structure Client where
  todo : List Chunk
  buffer : Vector UInt8 10
  finalData : Vector UInt8 10
  packet : Packet
  final : Bool
  position : Position
  index : ℕ
  deriving DecidableEq, Repr

/-- `main` from the `read` to the next call of `clientSend`. -/
def Client.load (c : Client) : Client :=
  match c.todo with
  | chunk :: todo =>
      let data := readInto c.buffer chunk
      { c with
        todo := todo
        buffer := data
        packet := ⟨⟨Int32.ofNat chunk.bytes.length⟩, data⟩
        position := .send }
  | [] => { c with packet := ⟨⟨0⟩, c.finalData⟩, final := true, position := .send }

def Client.start (chunks : List Chunk) (buffer finalData : Vector UInt8 10) : Client :=
  Client.load
    { todo := chunks, buffer, finalData, packet := ⟨⟨0⟩, buffer⟩, final := false,
      position := .send, index := 0 }

def Client.send (c : Client) : Option (Client × Packet) :=
  if c.position = .send then some ({ c with position := .recv }, c.packet) else none

/-- `recvfrom` brings a packet, which is only printed, and `clientSend` returns. -/
def Client.receive (c : Client) : Client :=
  if c.final then { c with position := .done } else Client.load { c with index := c.index + 1 }

/-! ## The server -/

/-- The variables of `main`. `accepted` records the packets written and is never read. -/
structure Server where
  file : OpenFile
  running : Bool
  accepted : List (Message Packet)
  deriving DecidableEq, Repr

def Server.start (old : List UInt8) : Server :=
  { file := .reopen old, running := true, accepted := [] }

/-- The bytes `write(fp, packet.data, packet.header.len)` takes from memory. A negative
`len` is a count no `write` accepts. -/
def writtenBytes (beyond : ℕ → UInt8) (packet : Packet) : List UInt8 :=
  (List.range packet.header.len.toNatClampNeg).map fun i =>
    packet.byteAt beyond (sizeofHeader + i)

/-- `serverReceive` and the rest of the `do` loop of `main`. `beyond` is what lies in memory
after the packet of `main`. -/
def Server.receive (beyond : ℕ → UInt8) (m : Message Packet) (s : Server) : Server × Packet :=
  ({ file := s.file.write (writtenBytes beyond m.body)
     running := decide (m.body.header.len ≠ 0)
     accepted := s.accepted ++ [m] }, ack)

/-! ## The packets of a transfer -/

/-- `packet` is packet number `k` of the transfer of `chunks`. -/
structure Carries (chunks : List Chunk) (k : ℕ) (packet : Packet) : Prop where
  index_le : k ≤ chunks.length
  len : packet.header.len = Int32.ofNat (bytesAt chunks k).length
  payload : packet.payload = bytesAt chunks k

/-- Only the packet after the last chunk is empty. -/
theorem Carries.len_eq_zero_iff {chunks : List Chunk} {k : ℕ} {packet : Packet}
    (h : Carries chunks k packet) : packet.header.len = 0 ↔ k = chunks.length := by
  rw [h.len, ofNat_length_bytesAt_eq_zero_iff h.index_le]

theorem Carries.writtenBytes_eq {chunks : List Chunk} {k : ℕ} {packet : Packet}
    (h : Carries chunks k packet) (beyond : ℕ → UInt8) :
    writtenBytes beyond packet = bytesAt chunks k := by
  have hle : packet.header.len.toNatClampNeg ≤ 10 := by
    rw [h.len, toNatClampNeg_ofNat_le (length_bytesAt_le chunks k)]
    exact length_bytesAt_le chunks k
  rw [← h.payload]
  apply List.ext_getElem
  · simp [writtenBytes, Packet.payload, hle]
  · intro i hi hi'
    have hlt : i < 10 := by
      simp only [writtenBytes, List.length_map, List.length_range] at hi
      omega
    simp [writtenBytes, Packet.payload, Packet.byteAt, sizeofHeader, hlt]

/-- The client's variables agree with the number of the packet being sent. -/
structure Client.Consistent (chunks : List Chunk) (c : Client) : Prop where
  carries : Carries chunks c.index c.packet
  todo : c.todo = chunks.drop (c.index + 1)
  final : c.final = true ↔ c.index = chunks.length

theorem Client.load_consistent {chunks : List Chunk} {c : Client}
    (htodo : c.todo = chunks.drop c.index) (hfinal : c.final = false)
    (hle : c.index ≤ chunks.length) : c.load.Consistent chunks := by
  rcases todo_cases htodo hle with ⟨hnil, hindex⟩ | ⟨chunk, hcons, hget⟩
  · have hbytes : bytesAt chunks c.index = [] := by simp [bytesAt, hindex]
    simp only [Client.load, hnil]
    refine ⟨⟨hle, by rw [hbytes]; rfl, by rw [hbytes]; rfl⟩, ?_, by simp [hindex]⟩
    simp only [hindex]
    exact (List.drop_eq_nil_of_le (Nat.le_succ _)).symm
  · have hlt : c.index < chunks.length := (List.getElem?_eq_some_iff.mp hget).1
    have hbytes : bytesAt chunks c.index = chunk.bytes := by simp [bytesAt, hget]
    simp only [Client.load, hcons]
    refine ⟨⟨hle, by rw [hbytes], ?_⟩, rfl, ?_⟩
    · simp only [Packet.payload, toNatClampNeg_ofNat_le chunk.length_le, take_readInto,
        hbytes]
    · simp only [hfinal, Bool.false_eq_true, false_iff]
      omega

@[simp] theorem Client.load_index (c : Client) : c.load.index = c.index := by
  unfold Client.load; split <;> rfl

@[simp] theorem Client.load_position (c : Client) : c.load.position = .send := by
  unfold Client.load; split <;> rfl

theorem Client.start_consistent (chunks : List Chunk) (buffer finalData : Vector UInt8 10) :
    (Client.start chunks buffer finalData).Consistent chunks :=
  Client.load_consistent rfl rfl (Nat.zero_le _)

theorem Client.receive_final {c : Client} (h : c.final = true) :
    c.receive = { c with position := .done } := by
  simp [Client.receive, h]

theorem Client.receive_chunk {c : Client} (h : c.final = false) :
    c.receive.index = c.index + 1 ∧ c.receive.position = .send := by
  simp [Client.receive, h]

theorem Client.receive_consistent {chunks : List Chunk} {c : Client}
    (h : c.Consistent chunks) : c.receive.Consistent chunks := by
  cases hfinal : c.final with
  | true =>
      rw [Client.receive_final hfinal]
      exact ⟨h.carries, h.todo, h.final⟩
  | false =>
      have hne : c.index ≠ chunks.length := by
        intro heq
        have := h.final.mpr heq
        simp [hfinal] at this
      have hle := h.carries.index_le
      simp only [Client.receive, hfinal, Bool.false_eq_true, if_false]
      refine Client.load_consistent h.todo rfl ?_
      dsimp only
      omega

end NetLabs.UdpCopy
