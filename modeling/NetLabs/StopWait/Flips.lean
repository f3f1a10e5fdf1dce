import NetLabs.StopWait.BitFlip
import NetLabs.StopWait.Delivery

/-! # Channels that flip bits

One bit of a datagram is flipped on its way, anywhere but in `len`. Among the bytes that the
checksum covers this is noticed, and nothing reads the others. So the transfer goes as it does
over channels that damage detectably. -/

namespace NetLabs.StopWait

open Channel Machine

/-! ## One datagram -/

/-- In the object `q`, as far as the end of its data field, bit `k` of the byte at `pos` of
`p` is flipped. -/
def FlippedAt (p q : Packet) (pos k : ℕ) : Prop :=
  ∀ i < 22, q.byteAt (fun _ => 0) i =
    if i = pos then flipBit (p.byteAt (fun _ => 0) i) k else p.byteAt (fun _ => 0) i

instance (p q : Packet) (pos k : ℕ) : Decidable (FlippedAt p q pos k) :=
  inferInstanceAs (Decidable (∀ i < 22, _))

/-- One bit is flipped of a datagram that passes the receiver's test, but not in `len`. -/
def BitError (p q : Packet) : Prop :=
  p.Undamaged ∧ ∃ pos k, k < 8 ∧ (pos < 4 ∨ 8 ≤ pos) ∧ FlippedAt p q pos k

variable {p q : Packet} {pos k : ℕ}

theorem FlippedAt.flipped (h : FlippedAt p q pos k) (hlen : p.header.len.toInt ≤ 10) :
    Flipped p q pos k := by
  intro i hi
  have hclamp := p.header.len.toNat_toInt
  rw [sizeofHeader] at hi
  exact h i (by omega)

theorem BitError.len_eq (h : BitError p q) : q.header.len = p.header.len := by
  obtain ⟨_, pos, k, _, hpos, hflip⟩ := h
  refine eq_of_intByte_eq fun i hi => ?_
  have hbyte := hflip (4 + i) (by omega)
  rwa [if_neg (by omega), byteAt_len _ _ hi, byteAt_len _ _ hi] at hbyte

/-- A flip behind the data that `len` counts changes nothing that is read. -/
theorem Flipped.unread (h : Flipped p q pos k) (hund : p.Undamaged)
    (hnonneg : 0 ≤ p.header.len.toInt) (hlen : p.header.len.toInt ≤ 10)
    (hpos : sizeofHeader + p.header.len.toNatClampNeg ≤ pos) :
    q.Undamaged ∧ q.header.seqAck = p.header.seqAck ∧ q.payload = p.payload := by
  have hsize : sizeofHeader = 12 := rfl
  have hsame : ∀ i < 12 + p.header.len.toNatClampNeg,
      q.byteAt (fun _ => 0) i = p.byteAt (fun _ => 0) i := by
    intro i hi
    have hbyte := h i (by omega)
    rwa [if_neg (by omega)] at hbyte
  have hlens : q.header.len = p.header.len := h.len_eq (by omega)
  have hseq : q.header.seqAck = p.header.seqAck := by
    refine eq_of_intByte_eq fun i hi => ?_
    have hbyte := hsame i (by omega)
    rwa [byteAt_seqAck _ _ hi, byteAt_seqAck _ _ hi] at hbyte
  have hcksum : q.header.cksum = p.header.cksum := by
    refine eq_of_intByte_eq fun i hi => ?_
    have hbyte := hsame (8 + i) (by omega)
    rwa [byteAt_cksum _ _ hi, byteAt_cksum _ _ hi] at hbyte
  have hpayload : q.payload = p.payload := by
    rw [payload_eq_map q (hlens ▸ hlen) fun _ => 0, payload_eq_map p hlen fun _ => 0, hlens]
    exact List.map_congr_left fun i hi => hsame _ (by have := List.mem_range.mp hi; omega)
  refine ⟨fun beyond => ?_, hseq, hpayload⟩
  rw [accepted_iff_parity hnonneg hlen (hund fun _ => 0) hlens hcksum, Packet.checked,
    Packet.checked, hseq, hpayload]

/-- The receiver's test fails, or whoever reads the datagram reads what was sent. -/
theorem BitError.noticed_or_unread (h : BitError p q) (hnonneg : 0 ≤ p.header.len.toInt)
    (hlen : p.header.len.toInt ≤ 10) :
    q.Damaged ∨ q.Undamaged ∧ q.header.seqAck = p.header.seqAck ∧ q.payload = p.payload := by
  obtain ⟨hund, pos, k, hk, hpos, hflip⟩ := h
  have hflipped := hflip.flipped hlen
  rcases lt_or_ge pos (sizeofHeader + p.header.len.toNatClampNeg) with hlt | hge
  · by_cases hcksum : 8 ≤ pos ∧ pos < 12
    · exact .inl (hflipped.damaged_of_cksum hk hnonneg hlen (hund fun _ => 0) hcksum)
    · exact .inl (hflipped.damaged_of_covered hk hnonneg hlen (hund fun _ => 0) (by omega) hlt)
  · exact .inr (hflipped.unread hund hnonneg hlen hge)

theorem Carries.bitError {chunks : List Chunk} {k : ℕ} (h : Carries chunks k p)
    (herror : BitError p q) : Carries chunks k q ∨ q.Damaged := by
  have hle := length_bytesAt_le chunks k
  have hlen : p.header.len.toInt = (bytesAt chunks k).length := by
    rw [h.len, toInt_ofNat_le hle]
  rcases herror.noticed_or_unread (by omega) (by omega) with hdamaged | ⟨hund, hseq, hpayload⟩
  · exact .inr hdamaged
  · exact .inl ⟨h.index_le, hseq.trans h.seqAck, herror.len_eq.trans h.len,
      hpayload.trans h.payload, hund⟩

/-! ## The channels -/

/-- The channels keep the order, lose, duplicate in place, and flip one bit of a datagram that
has not been damaged before. -/
def FlippingNet (s : Net) : Action → Prop
  | .toServer f => f.Alters BitError s.toServer
  | .toClient f => f.Alters BitError s.toClient
  | _ => True

/-- Besides, a chunk is given up only when the matter is settled. -/
def SettledFlips : Net → Action → Prop :=
  GivesUpSettled FlippingNet

variable {chunks : List Chunk} {old : List UInt8} {s t : Net} {a : Action}

theorem Net.InOrder.alter (h : s.InOrder chunks old) {f : Fault Packet}
    (hf : f.Alters BitError s.toServer) {c : List (Message Packet)}
    (hc : f.apply s.toServer = some c) :
    ({ s with toServer := c } : Net).InOrder chunks old := by
  have htags : ∀ Q : ℕ → Prop, (∀ m ∈ s.toServer, Q m.tag) → ∀ m ∈ c, Q m.tag := fun Q hQ =>
    Fault.forall_mem_of_alters hf hc (P := fun k _ => Q k) (fun _ _ _ hk _ => hk) hQ
  refine { h with
    sent := htags (· ≤ s.client.index) h.sent
    carries := ?_
    overtaken := fun a ha => htags (a.tag ≤ ·) (h.overtaken a ha)
    queue := Fault.apply_ordered hf.fifo hc h.queue }
  refine Fault.forall_mem_of_alters hf hc
    (P := fun k p => Carries chunks k p ∨ p.Damaged) ?_ h.carries
  rintro k p q (hcarries | hdamaged) herror
  · exact hcarries.bitError herror
  · exact (herror.1.not_damaged hdamaged).elim

/-- Steps of the programs are those over channels that damage detectably. -/
theorem FlippingNet.fifoNet_or (h : FlippingNet s a) :
    FifoNet s a ∨ (∃ f, a = .toServer f ∧ f.Alters BitError s.toServer) ∨
      ∃ f, a = .toClient f ∧ f.Alters BitError s.toClient := by
  cases a with
  | toServer f => exact .inr (.inl ⟨f, rfl, h⟩)
  | toClient f => exact .inr (.inr ⟨f, rfl, h⟩)
  | _ => exact .inl trivial

theorem Net.InOrder.flippingStep (h : s.InOrder chunks old) (ha : FlippingNet s a)
    (hstep : s.step a = some t) : t.InOrder chunks old := by
  rcases ha.fifoNet_or with hfifo | ⟨f, rfl, hf⟩ | ⟨f, rfl, hf⟩
  · exact h.step hfifo.orderedData hstep
  · obtain ⟨c, hc, rfl⟩ := Option.map_eq_some_iff.mp hstep
    exact h.alter hf hc
  · exact h.step (a := .toClient f) trivial hstep

/-! ## ACKs -/

/-- All ACKs on their way to the client have the length that `serverSend` gives them. -/
def Net.AckLengths (s : Net) : Prop :=
  ∀ m ∈ s.toClient, m.body.header.len = 10

theorem serverSend_len {drop : Bool} {seqnum : Int32} {data : Vector UInt8 10}
    {ack : Packet} (h : serverSend drop seqnum data = some ack) : ack.header.len = 10 := by
  unfold serverSend at h
  split at h
  · simp at h
  · obtain rfl := Option.some.inj h
    rfl

theorem Net.AckLengths.step (h : s.AckLengths) (ha : FlippingNet s a)
    (hstep : s.step a = some t) : t.AckLengths := by
  cases a with
  | transmit drop =>
      obtain ⟨⟨c, packet⟩, _, rfl⟩ := Option.map_eq_some_iff.mp hstep
      cases packet with
      | none => exact h
      | some packet =>
          dsimp only [Net.send]
          split <;> exact h
  | giveUp =>
      obtain ⟨c, _, rfl⟩ := Option.map_eq_some_iff.mp hstep
      exact h
  | timeout =>
      obtain ⟨c, _, rfl⟩ := Option.map_eq_some_iff.mp hstep
      exact h
  | clientReceive beyond =>
      obtain ⟨_, m, rest, hqueue, rfl⟩ := Net.step_clientReceive hstep
      exact fun a ha => h a (by simp [hqueue, ha])
  | serverReceive callee caller data drop =>
      obtain ⟨_, m, rest, _, rfl⟩ := Net.step_serverReceive hstep
      rw [Net.acknowledge_eq]
      refine List.forall_mem_append.mpr ⟨h, fun a ha => ?_⟩
      obtain ⟨ack, hack, rfl⟩ := List.mem_map.mp ha
      exact serverSend_len (Option.mem_toList.mp hack)
  | toServer f =>
      obtain ⟨c, _, rfl⟩ := Option.map_eq_some_iff.mp hstep
      exact h
  | toClient f =>
      obtain ⟨c, hc, rfl⟩ := Option.map_eq_some_iff.mp hstep
      exact Fault.forall_mem_of_alters ha hc (P := fun _ p => p.header.len = 10)
        (fun _ _ _ hlen herror => herror.len_eq.trans hlen) h

theorem Net.Aligned.alterAcks (h : s.Aligned chunks old) (hlens : s.AckLengths)
    {f : Fault Packet} (hf : f.Alters BitError s.toClient) {c : List (Message Packet)}
    (hc : f.apply s.toClient = some c)
    (hinv : ({ s with toClient := c } : Net).InOrder chunks old) :
    ({ s with toClient := c } : Net).Aligned chunks old where
  toInOrder := hinv
  accepted := h.accepted
  ahead := h.ahead
  acks := by
    intro a ha
    rcases Fault.mem_of_alters hf hc ha with ha | ⟨b, hb, htag, herror⟩
    · exact h.acks a ha
    · have hten : b.body.header.len.toInt = 10 := by
        rw [hlens b hb]
        rfl
      rcases h.acks b hb with hdamaged | ⟨hle, hseq, _⟩
      · exact (herror.1.not_damaged hdamaged).elim
      · rcases herror.noticed_or_unread (by omega) (by omega) with hdamaged | ⟨hund, hsame, _⟩
        · exact .inl hdamaged
        · exact .inr ⟨htag ▸ hle, by rw [hsame, hseq, htag], hund⟩
  ackTags := Fault.forall_mem_of_alters hf hc (P := fun k _ => k ≤ s.server.accepted.length)
    (fun _ _ _ hk _ => hk) h.ackTags
  ackQueue := Fault.apply_ordered hf.fifo hc h.ackQueue

theorem Net.Aligned.flippingStep (h : s.Aligned chunks old) (hlens : s.AckLengths)
    (ha : SettledFlips s a) (hstep : s.step a = some t) : t.Aligned chunks old := by
  have hinv := h.toInOrder.flippingStep ha.1 hstep
  rcases ha.1.fifoNet_or with hfifo | ⟨f, rfl, _⟩ | ⟨f, rfl, hf⟩
  · exact h.step hfifo ha.2 hstep
  · obtain ⟨c, _, rfl⟩ := Option.map_eq_some_iff.mp hstep
    exact h.stay hinv rfl rfl (List.Sublist.refl _)
  · obtain ⟨c, hc, rfl⟩ := Option.map_eq_some_iff.mp hstep
    exact h.alterAcks hlens hf hc hinv

/-! ## Transfers -/

/-- Over channels that lose, duplicate, and flip single bits outside of `len`: the server
writes chunks of the source only, each at most once and in order, and leaves out an even
number of them between two. If all that is given up is settled, it leaves out none, the client
takes an ACK as good only when its packet is accepted, and the server ends only with the whole
source. -/
theorem delivered_despite_flips (serverAddr : SockAddr) (chunks : List Chunk)
    (old : List UInt8) (buffer finalData : Vector UInt8 10) (es : List Action) (t : Net)
    (h : Run Net.step FlippingNet (.start serverAddr chunks old buffer finalData) es t) :
    t.server.indices.Pairwise (· < ·) ∧
    (∀ i tag, t.server.indices[i]? = some tag → tag % 2 = i % 2) ∧
    t.server.file =
      (OpenFile.reopen old).write (t.server.indices.flatMap (bytesAt chunks)) ∧
    (Run Net.step SettledFlips (.start serverAddr chunks old buffer finalData) es t →
      t.server.indices = List.range t.server.accepted.length ∧
      (t.server.accepted.length = t.client.index ∨
        t.server.accepted.length = t.client.index + 1) ∧
      (∀ a rest beyond, t.client.position = .select → t.toClient = a :: rest →
        checkAck beyond t.client.packet a.body = .goodAck →
          t.server.accepted.length = t.client.index + 1) ∧
      (t.server.running = false → t.server.delivered = contents chunks)) := by
  have hinv : t.InOrder chunks old :=
    h.invariant (fun _ _ _ hs ha hstep => hs.flippingStep ha hstep)
      (Net.start_inOrder serverAddr chunks old buffer finalData)
  refine ⟨hinv.increasing, hinv.parity, hinv.delivered_eq ▸ hinv.file, fun hsettled => ?_⟩
  obtain ⟨haligned, _⟩ := hsettled.invariant (P := fun s => s.Aligned chunks old ∧ s.AckLengths)
    (fun _ _ _ hs ha hstep => ⟨hs.1.flippingStep hs.2 ha hstep, hs.2.step ha.1 hstep⟩)
    ⟨Net.start_aligned serverAddr chunks old buffer finalData, by
      simp [Net.AckLengths, Net.start, Net.startWith]⟩
  refine ⟨haligned.accepted, haligned.ahead, ?_, fun hstopped => ?_⟩
  · intro a rest beyond _ hqueue hgood
    exact (haligned.goodAck (by simp [hqueue]) hgood).2
  · have hmem := haligned.running.mp hstopped
    rw [haligned.accepted, List.mem_range] at hmem
    rw [haligned.delivered_eq_take, List.take_of_length_le (by omega)]

/-- A data bit of the first packet is flipped, so that it has to be sent again. -/
theorem delivered_despite_flips_resent :
    ∃ (chunks : List Chunk) (es : List Action) (t : Net),
      Run Net.step FlippingNet (.start ⟨5000, 0⟩ chunks [] (.replicate 10 0) (.replicate 10 0))
        es t ∧
      t.server.running = false ∧ t.server.delivered = contents chunks := by
  let zero : ℕ → UInt8 := fun _ => 0
  let empty : Vector UInt8 10 := .replicate 10 0
  let chunks : List Chunk := [⟨[101, 102], by decide, by decide⟩]
  let p : Packet := Packet.seal ⟨⟨0, 2, 0⟩, #v[101, 102, 0, 0, 0, 0, 0, 0, 0, 0]⟩
  let q : Packet := { p with data := #v[100, 102, 0, 0, 0, 0, 0, 0, 0, 0] }
  let post : List Action :=
    [.serverReceive zero zero empty false, .clientReceive zero, .transmit false,
      .serverReceive zero zero empty false, .clientReceive zero, .transmit false,
      .serverReceive zero zero empty false]
  obtain ⟨s, hpre, hobs⟩ : ∃ s, Run Net.step SettledFlips (.start ⟨5000, 0⟩ chunks [] empty empty)
      [.transmit false] s ∧
        (s.toServer.map Message.body, (exec Net.step s (.toServer (.damage 0 q) :: post)).map
          fun t => t.server.running) = ([p], some false) :=
    Run.exists_of_exec (by simp [SettledFlips, GivesUpSettled, FlippingNet]) (by decide)
  obtain ⟨hqueue, hend⟩ := Prod.mk.inj hobs
  obtain ⟨t, hexec, hstopped⟩ := Option.map_eq_some_iff.mp hend
  obtain ⟨u, hstep, hpost⟩ := Option.bind_eq_some_iff.mp hexec
  have herror : BitError p q :=
    ⟨Packet.seal_undamaged _ (by decide), 12, 0, by decide, by decide, by decide⟩
  have hflip : SettledFlips s (.toServer (.damage 0 q)) := by
    refine ⟨fun m hm => ?_, by simp⟩
    have hbody : m.body ∈ s.toServer.map Message.body :=
      List.mem_map_of_mem (List.mem_of_getElem? hm)
    rw [hqueue, List.mem_singleton] at hbody
    exact hbody ▸ herror
  have hrun := (hpre.snoc hflip hstep).trans
    (Run.of_exec (by simp [post, SettledFlips, GivesUpSettled, FlippingNet]) hpost)
  obtain ⟨_, _, _, hwhole⟩ :=
    delivered_despite_flips _ chunks _ _ _ _ t (hrun.mono fun _ _ ha => ha.1)
  exact ⟨chunks, _, t, hrun.mono fun _ _ ha => ha.1, hstopped, (hwhole hrun).2.2.2 hstopped⟩

/-- A flip in `len` can end a transfer before anything is written. -/
example :
    let p : Packet := Packet.seal ⟨⟨0, 1, 0⟩, #v[1, 0, 0, 0, 0, 0, 0, 0, 0, 0]⟩
    let q : Packet := { p with header := { p.header with len := 0 } }
    FlippedAt p q 4 0 ∧
      (exec Net.step (.start ⟨5000, 0⟩ [⟨[1], by decide, by decide⟩] [] (.replicate 10 0)
          (.replicate 10 0)) [.transmit false, .toServer (.damage 0 q),
            .serverReceive (fun _ => 0) (fun _ => 0) (.replicate 10 0) false]).map
        (fun t => (t.server.running, t.server.file.content)) = some (false, []) := by
  decide

end NetLabs.StopWait
