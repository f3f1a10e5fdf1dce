import NetLabs.Model.Buffer

/-! # Packets and checksums of the stop-and-wait programs

`udp_client_stopwait.c` and `udp_server_stopwait.c` declare the same `Header`, `Packet`
and `getChecksum`. A plain `char` is signed. -/

namespace NetLabs.StopWait

structure Header where
  seqAck : Int32
  len : Int32
  cksum : Int32
  deriving DecidableEq, Repr

structure Packet where
  header : Header
  data : Vector UInt8 10
  deriving DecidableEq, Repr

def sizeofHeader : ℕ := 12

/-- Twelve bytes of header, ten of data, and two of padding. -/
def sizeofPacket : ℕ := 24

/-- Byte `i` counted from the start of a `Packet` object. What lies after the data field,
the padding first, is the memory `beyond`. -/
def Packet.byteAt (beyond : ℕ → UInt8) (packet : Packet) (i : ℕ) : UInt8 :=
  if i < 4 then intByte packet.header.seqAck i
  else if i < 8 then intByte packet.header.len (i - 4)
  else if i < 12 then intByte packet.header.cksum (i - 8)
  else if h : i - 12 < 10 then packet.data[i - 12]
  else beyond (i - 22)

/-- The offsets `getChecksum` reads: `ptr` runs up to `sizeof(Header) + header.len`. -/
def checksumReads (packet : Packet) : List ℕ :=
  List.range (sizeofHeader + packet.header.len.toInt).toNat

def getChecksum (beyond : ℕ → UInt8) (packet : Packet) : Int32 :=
  let zeroed : Packet := { packet with header := { packet.header with cksum := 0 } }
  (checksumReads zeroed).foldl
    (fun checksum i => checksum ^^^ (zeroed.byteAt beyond i).toInt8.toInt32) 0

/-- The programs fill in the checksum last. On a packet of their own no byte after the
data field is read (`getChecksum_congr`), so its value does not matter here. -/
def Packet.seal (packet : Packet) : Packet :=
  { packet with header := { packet.header with cksum := getChecksum (fun _ => 0) packet } }

/-- The bytes that `len` counts, for a `len` within the data field. -/
def Packet.payload (packet : Packet) : List UInt8 :=
  packet.data.toList.take packet.header.len.toNatClampNeg

/-- The receiver's checksum test fails, whatever lies after the packet in memory. -/
def Packet.Damaged (packet : Packet) : Prop :=
  ∀ beyond, packet.header.cksum ≠ getChecksum beyond packet

/-- The receiver's checksum test succeeds, whatever lies after the packet in memory. -/
def Packet.Undamaged (packet : Packet) : Prop :=
  ∀ beyond, packet.header.cksum = getChecksum beyond packet

theorem Packet.Undamaged.not_damaged {packet : Packet} (h : packet.Undamaged) :
    ¬ packet.Damaged :=
  fun hd => hd (fun _ => 0) (h _)

/-! ## The checksum depends on the bytes it covers only -/

theorem byteAt_congr (packet : Packet) {i : ℕ} (hi : i < 22) (beyond beyond' : ℕ → UInt8) :
    packet.byteAt beyond i = packet.byteAt beyond' i := by
  have h : i - 12 < 10 := by omega
  simp only [Packet.byteAt, h, dite_true]

/-- With a `len` of at most ten, `getChecksum` never looks past the data field. -/
theorem getChecksum_congr (packet : Packet) (hlen : packet.header.len.toInt ≤ 10)
    (beyond beyond' : ℕ → UInt8) :
    getChecksum beyond packet = getChecksum beyond' packet := by
  unfold getChecksum
  apply List.foldl_ext
  intro checksum i hi
  have hlt : i < 22 := by
    simp only [checksumReads, sizeofHeader, List.mem_range] at hi
    omega
  rw [byteAt_congr _ hlt beyond beyond']

@[simp] theorem Packet.seal_seqAck (packet : Packet) :
    packet.seal.header.seqAck = packet.header.seqAck := rfl

@[simp] theorem Packet.seal_payload (packet : Packet) :
    packet.seal.payload = packet.payload := rfl

/-- What a sender has sealed passes the receiver's test. -/
theorem Packet.seal_undamaged (packet : Packet) (hlen : packet.header.len.toInt ≤ 10) :
    packet.seal.Undamaged := by
  intro beyond
  exact getChecksum_congr packet hlen (fun _ => 0) beyond

/-! ## The alternating bit -/

/-- The sequence number of packet `k`, as the programs step through it. -/
def bit (k : ℕ) : Int32 :=
  if k % 2 = 0 then 0 else 1

theorem bit_eq_iff (j k : ℕ) : bit j = bit k ↔ j % 2 = k % 2 := by
  unfold bit
  rcases Nat.mod_two_eq_zero_or_one j with hj | hj <;>
    rcases Nat.mod_two_eq_zero_or_one k with hk | hk <;> simp [hj, hk]

theorem bit_cases (k : ℕ) : (bit k = 0 ∧ bit (k + 1) = 1) ∨ (bit k = 1 ∧ bit (k + 1) = 0) := by
  unfold bit
  rcases Nat.mod_two_eq_zero_or_one k with h | h
  · have h' : (k + 1) % 2 = 1 := by omega
    simp [h, h']
  · have h' : (k + 1) % 2 = 0 := by omega
    simp [h, h']

/-- `seq = (seq + 1) % 2`. -/
theorem bit_succ (k : ℕ) : (bit k + 1) % 2 = bit (k + 1) := by
  rcases bit_cases k with ⟨h, h'⟩ | ⟨h, h'⟩ <;> rw [h, h'] <;> rfl

/-- C's `!`. -/
def lnot (x : Int32) : Int32 :=
  if x = 0 then 1 else 0

theorem lnot_bit (k : ℕ) : lnot (bit k) = bit (k + 1) := by
  rcases bit_cases k with ⟨h, h'⟩ | ⟨h, h'⟩ <;> rw [h, h'] <;> rfl

end NetLabs.StopWait
