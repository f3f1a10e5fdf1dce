import NetLabs.StopWait.Packet

/-! # The stop-and-wait client

One step of the model is one stretch of `udp_client_stopwait.c` between two points where
the outside world decides: the top of the loop in `clientSend`, and its `select`. -/

namespace NetLabs.StopWait

/-! ## The program -/

/-- Where the client stands: at the top of the loop in `clientSend`, waiting in `select`,
or past the last call. -/
inductive Position where
  | loop
  | select
  | done
  deriving DecidableEq, Repr

/-- What a `sockaddr_in` holds besides the constant family. -/
structure SockAddr where
  port : UInt16
  addr : UInt32
  deriving DecidableEq, Repr

/-- The variables of `main` and of the running `clientSend` call. `todo` is what `read`
has still to bring, and `finalData` is the data field of `final`, which is never assigned.
The last three fields record history and are never read: the number of the packet being
sent, the packets whose call returned through `Good ACK`, and the packets for which
`select` was reached. -/
structure Client where
  servAddr : SockAddr
  todo : List Chunk
  buffer : Vector UInt8 10
  finalData : Vector UInt8 10
  seq : Int32
  packet : Packet
  final : Bool
  retries : ℕ
  position : Position
  index : ℕ
  acked : List ℕ
  selects : List ℕ
  deriving DecidableEq, Repr

/-- `main` from the `read` to the next call of `clientSend`, with `retries = 0`. -/
def Client.load (c : Client) : Client :=
  match c.todo with
  | chunk :: todo =>
      let data := readInto c.buffer chunk
      { c with
        todo := todo
        buffer := data
        packet := Packet.seal ⟨⟨c.seq, Int32.ofNat chunk.bytes.length, 0⟩, data⟩
        retries := 0
        position := .loop }
  | [] =>
      { c with
        packet := Packet.seal ⟨⟨c.seq, 0, 0⟩, c.finalData⟩
        final := true
        retries := 0
        position := .loop }

/-- `clientSend` has returned: `main` flips `seq` and goes on, or ends after `final`. -/
def Client.return (c : Client) : Client :=
  if c.final then { c with position := .done }
  else Client.load { c with seq := (c.seq + 1) % 2, index := c.index + 1 }

/-- `main` up to its first call of `clientSend`. -/
def Client.start (servAddr : SockAddr) (chunks : List Chunk)
    (buffer finalData : Vector UInt8 10) : Client :=
  Client.load
    { servAddr, todo := chunks, buffer, finalData, seq := 0, packet := ⟨⟨0, 0, 0⟩, buffer⟩,
      final := false, retries := 0, position := .loop, index := 0, acked := [], selects := [] }

/-- The exit at the top of the loop, `retries >= 3`. -/
def Client.giveUp (c : Client) : Option Client :=
  if c.position = .loop ∧ 3 ≤ c.retries then some c.return else none

/-- The loop from its top to `select`. The packet is either dropped on purpose
(`rand() % 5 == 0`), or given a fresh checksum and sent to `servAddr`. -/
def Client.transmit (drop : Bool) (c : Client) : Option (Client × Option Packet) :=
  if c.position = .loop ∧ c.retries < 3 then
    let waiting := { c with position := .select, selects := c.selects ++ [c.index] }
    if drop then some (waiting, none)
    else some ({ waiting with packet := c.packet.seal }, some c.packet.seal)
  else none

/-- `select` returns zero. -/
def Client.timeout (c : Client) : Option Client :=
  if c.position = .select then
    some { c with retries := c.retries + 1, position := .loop }
  else none

inductive AckBranch where
  | badChecksum
  | badSeqnum
  | goodAck
  deriving DecidableEq, Repr

/-- The tests `clientSend` makes on a received ACK. -/
def checkAck (beyond : ℕ → UInt8) (packet recvpacket : Packet) : AckBranch :=
  if recvpacket.header.cksum ≠ getChecksum beyond recvpacket then .badChecksum
  else if recvpacket.header.seqAck ≠ packet.header.seqAck then .badSeqnum
  else .goodAck

/-- `select` returns a ready socket and `recvfrom` brings `recvpacket`. It stores the
sender where `address` points, which is `main`'s `servAddr`. -/
def Client.receive (beyond : ℕ → UInt8) (sender : SockAddr) (recvpacket : Packet)
    (c : Client) : Client :=
  let c := { c with servAddr := sender }
  match checkAck beyond c.packet recvpacket with
  | .badChecksum => { c with position := .loop }
  | .badSeqnum => { c with position := .loop }
  | .goodAck => Client.return { c with acked := c.acked ++ [c.index] }

/-- What can happen to the client when anyone may send it a datagram. -/
inductive ClientAction where
  | transmit (drop : Bool)
  | giveUp
  | timeout
  | receive (beyond : ℕ → UInt8) (sender : SockAddr) (recvpacket : Packet)

def Client.step (c : Client) : ClientAction → Option Client
  | .transmit drop => (c.transmit drop).map Prod.fst
  | .giveUp => c.giveUp
  | .timeout => c.timeout
  | .receive beyond sender recvpacket =>
      if c.position = .select then some (c.receive beyond sender recvpacket) else none

/-! ## The packets the client sends -/

/-- `packet` is packet number `k` of the transfer of `chunks`, intact. -/
structure Carries (chunks : List Chunk) (k : ℕ) (packet : Packet) : Prop where
  index_le : k ≤ chunks.length
  seqAck : packet.header.seqAck = bit k
  len : packet.header.len = Int32.ofNat (bytesAt chunks k).length
  payload : packet.payload = bytesAt chunks k
  undamaged : packet.Undamaged

/-- Only the packet after the last chunk is empty. -/
theorem Carries.len_eq_zero_iff {chunks : List Chunk} {k : ℕ} {packet : Packet}
    (h : Carries chunks k packet) : packet.header.len = 0 ↔ k = chunks.length := by
  rw [h.len, ofNat_length_bytesAt_eq_zero_iff h.index_le]

/-- Sealing a packet that carries its number again leaves it as it is in all that counts. -/
theorem Carries.seal {chunks : List Chunk} {k : ℕ} {packet : Packet}
    (h : Carries chunks k packet) : Carries chunks k packet.seal := by
  refine ⟨h.index_le, h.seqAck, h.len, h.payload, Packet.seal_undamaged _ ?_⟩
  rw [h.len, toInt_ofNat_le (length_bytesAt_le chunks k)]
  exact_mod_cast length_bytesAt_le chunks k

/-- A packet as `main` fills it in carries its chunk. -/
theorem carries_chunk {chunks : List Chunk} {k : ℕ} {chunk : Chunk}
    (hk : chunks[k]? = some chunk) (buffer : Vector UInt8 10) :
    Carries chunks k
      (Packet.seal ⟨⟨bit k, Int32.ofNat chunk.bytes.length, 0⟩, readInto buffer chunk⟩) := by
  have hbytes : bytesAt chunks k = chunk.bytes := by simp [bytesAt, hk]
  have hlt : k < chunks.length := (List.getElem?_eq_some_iff.mp hk).1
  have hle := toInt_ofNat_le chunk.length_le
  refine ⟨hlt.le, rfl, by rw [hbytes]; rfl, ?_, ?_⟩
  · rw [Packet.seal_payload, hbytes]
    simp only [Packet.payload, toNatClampNeg_ofNat_le chunk.length_le, take_readInto]
  · apply Packet.seal_undamaged
    simp only [hle]
    exact_mod_cast chunk.length_le

theorem carries_final (chunks : List Chunk) (finalData : Vector UInt8 10) :
    Carries chunks chunks.length
      (Packet.seal ⟨⟨bit chunks.length, 0, 0⟩, finalData⟩) := by
  have hbytes : bytesAt chunks chunks.length = [] := by simp [bytesAt]
  have hzero : (0 : Int32).toInt = 0 := rfl
  refine ⟨le_rfl, rfl, by rw [hbytes]; rfl, ?_, Packet.seal_undamaged _ ?_⟩
  · rw [Packet.seal_payload, hbytes]
    simp [Packet.payload]
  · simp [hzero]

/-- The program variables agree with the number of the packet being sent. -/
structure Client.Consistent (chunks : List Chunk) (c : Client) : Prop where
  carries : Carries chunks c.index c.packet
  seq : c.seq = bit c.index
  todo : c.todo = chunks.drop (c.index + 1)
  final : c.final = true ↔ c.index = chunks.length

theorem Client.load_consistent {chunks : List Chunk} {c : Client} (hseq : c.seq = bit c.index)
    (htodo : c.todo = chunks.drop c.index) (hfinal : c.final = false)
    (hle : c.index ≤ chunks.length) : c.load.Consistent chunks := by
  rcases todo_cases htodo hle with ⟨hnil, hindex⟩ | ⟨chunk, hcons, hget⟩
  · simp only [Client.load, hnil]
    refine ⟨?_, hseq, ?_, by simp [hindex]⟩
    · simp only [hseq, hindex]
      exact carries_final chunks c.finalData
    · simp only [hindex]
      exact (List.drop_eq_nil_of_le (Nat.le_succ _)).symm
  · have hlt : c.index < chunks.length := (List.getElem?_eq_some_iff.mp hget).1
    simp only [Client.load, hcons]
    refine ⟨?_, hseq, rfl, ?_⟩
    · simp only [hseq]
      exact carries_chunk hget c.buffer
    · simp only [hfinal, Bool.false_eq_true, false_iff]
      omega

theorem Client.start_consistent (servAddr : SockAddr) (chunks : List Chunk)
    (buffer finalData : Vector UInt8 10) :
    (Client.start servAddr chunks buffer finalData).Consistent chunks :=
  Client.load_consistent rfl rfl rfl (Nat.zero_le _)

theorem Client.Consistent.index_le {chunks : List Chunk} {c : Client}
    (h : c.Consistent chunks) : c.index ≤ chunks.length :=
  h.carries.index_le

/-! ## What `main` does between two calls -/

@[simp] theorem Client.load_servAddr (c : Client) : c.load.servAddr = c.servAddr := by
  unfold Client.load; split <;> rfl

@[simp] theorem Client.load_index (c : Client) : c.load.index = c.index := by
  unfold Client.load; split <;> rfl

@[simp] theorem Client.load_acked (c : Client) : c.load.acked = c.acked := by
  unfold Client.load; split <;> rfl

@[simp] theorem Client.load_selects (c : Client) : c.load.selects = c.selects := by
  unfold Client.load; split <;> rfl

@[simp] theorem Client.load_retries (c : Client) : c.load.retries = 0 := by
  unfold Client.load; split <;> rfl

@[simp] theorem Client.load_position (c : Client) : c.load.position = .loop := by
  unfold Client.load; split <;> rfl

@[simp] theorem Client.return_servAddr (c : Client) : c.return.servAddr = c.servAddr := by
  unfold Client.return; split <;> simp

@[simp] theorem Client.return_acked (c : Client) : c.return.acked = c.acked := by
  unfold Client.return; split <;> simp

@[simp] theorem Client.return_selects (c : Client) : c.return.selects = c.selects := by
  unfold Client.return; split <;> simp

/-- After the last packet the client is done and the packet stays the last one. -/
theorem Client.return_final {c : Client} (h : c.final = true) :
    c.return = { c with position := .done } := by
  simp [Client.return, h]

/-- After a chunk the next packet begins, with a full set of retries. -/
theorem Client.return_chunk {c : Client} (h : c.final = false) :
    c.return.index = c.index + 1 ∧ c.return.retries = 0 ∧ c.return.position = .loop := by
  simp [Client.return, h]

theorem Client.index_le_return (c : Client) : c.index ≤ c.return.index := by
  cases h : c.final with
  | true => simp [Client.return_final h]
  | false => simp [(Client.return_chunk h).1]

theorem Client.return_consistent {chunks : List Chunk} {c : Client}
    (h : c.Consistent chunks) : c.return.Consistent chunks := by
  cases hfinal : c.final with
  | true =>
      rw [Client.return_final hfinal]
      exact ⟨h.carries, h.seq, h.todo, h.final⟩
  | false =>
      have hne : c.index ≠ chunks.length := by
        intro heq
        have := h.final.mpr heq
        simp [hfinal] at this
      have hle := h.index_le
      simp only [Client.return, hfinal, Bool.false_eq_true, if_false]
      apply Client.load_consistent
      · simp only [h.seq, bit_succ]
      · exact h.todo
      · rfl
      · simp only
        omega

/-! ## What `clientSend` does with an ACK -/

theorem checkAck_eq_goodAck {beyond : ℕ → UInt8} {packet recvpacket : Packet} :
    checkAck beyond packet recvpacket = .goodAck ↔
      recvpacket.header.cksum = getChecksum beyond recvpacket ∧
        recvpacket.header.seqAck = packet.header.seqAck := by
  unfold checkAck
  by_cases hsum : recvpacket.header.cksum = getChecksum beyond recvpacket
  · by_cases hseq : recvpacket.header.seqAck = packet.header.seqAck <;> simp [hsum, hseq]
  · simp [hsum]

theorem Client.receive_good {beyond : ℕ → UInt8} {sender : SockAddr} {recvpacket : Packet}
    {c : Client} (h : checkAck beyond c.packet recvpacket = .goodAck) :
    c.receive beyond sender recvpacket =
      Client.return { c with servAddr := sender, acked := c.acked ++ [c.index] } := by
  simp only [Client.receive, h]

/-- An ACK that fails a test only sends the client back to the top of the loop. -/
theorem Client.receive_bad {beyond : ℕ → UInt8} {sender : SockAddr} {recvpacket : Packet}
    {c : Client} (h : checkAck beyond c.packet recvpacket ≠ .goodAck) :
    c.receive beyond sender recvpacket =
      { c with servAddr := sender, position := .loop } := by
  simp only [Client.receive]
  split
  · rfl
  · rfl
  · contradiction

theorem Client.receive_consistent {chunks : List Chunk} {c : Client}
    (h : c.Consistent chunks) (beyond : ℕ → UInt8) (sender : SockAddr) (recvpacket : Packet) :
    (c.receive beyond sender recvpacket).Consistent chunks := by
  by_cases hgood : checkAck beyond c.packet recvpacket = .goodAck
  · rw [Client.receive_good hgood]
    exact Client.return_consistent ⟨h.carries, h.seq, h.todo, h.final⟩
  · rw [Client.receive_bad hgood]
    exact ⟨h.carries, h.seq, h.todo, h.final⟩

theorem Client.receive_servAddr (beyond : ℕ → UInt8) (sender : SockAddr)
    (recvpacket : Packet) (c : Client) :
    (c.receive beyond sender recvpacket).servAddr = sender := by
  by_cases hgood : checkAck beyond c.packet recvpacket = .goodAck
  · simp [Client.receive_good hgood]
  · simp [Client.receive_bad hgood]

theorem Client.index_le_receive (beyond : ℕ → UInt8) (sender : SockAddr)
    (recvpacket : Packet) (c : Client) :
    c.index ≤ (c.receive beyond sender recvpacket).index := by
  by_cases hgood : checkAck beyond c.packet recvpacket = .goodAck
  · rw [Client.receive_good hgood]
    exact Client.index_le_return { c with servAddr := sender, acked := c.acked ++ [c.index] }
  · simp [Client.receive_bad hgood]

end NetLabs.StopWait
