import NetLabs.StopWait.Order

/-! # Delivery while no chunk is given up

As long as the client leaves a chunk only when the server has it, and leaves no older ACK
behind, the server is never more than one packet ahead and both channels hold nothing but
copies that belong to the two packets in question. -/

namespace NetLabs.StopWait

open Channel Machine

/-- Both channels keep the order, lose, duplicate in place, and damage detectably. -/
def FifoNet (_ : Net) : Action → Prop
  | .toServer f => f.Fifo Packet.Damaged
  | .toClient f => f.Fifo Packet.Damaged
  | _ => True

theorem FifoNet.orderedData {s : Net} {a : Action} (h : FifoNet s a) : OrderedData s a := by
  cases a <;> simp_all [FifoNet, OrderedData]

/-- The client may move on without an ACK: the server has accepted the packet, and every
intact ACK in flight carries the bit of this packet. -/
def Net.Settled (s : Net) : Prop :=
  s.client.index ∈ s.server.indices ∧
    ∀ a ∈ s.toClient, ¬ a.body.Damaged →
      a.body.header.seqAck = s.client.packet.header.seqAck

/-- The network does what `net` allows, and a chunk is given up only when that is settled. -/
def GivesUpSettled (net : Net → Action → Prop) (s : Net) (a : Action) : Prop :=
  net s a ∧ (a = .giveUp → s.client.final = true ∨ s.Settled)

/-- The invariant. An intact ACK carries the bit of the last packet accepted before it was
sent, and none is older than the client's packet. -/
structure Net.Aligned (chunks : List Chunk) (old : List UInt8) (s : Net) : Prop
    extends s.InOrder chunks old where
  accepted : s.server.indices = List.range s.server.accepted.length
  ahead : s.server.accepted.length = s.client.index ∨
    s.server.accepted.length = s.client.index + 1
  acks : ∀ a ∈ s.toClient, a.body.Damaged ∨
    s.client.index ≤ a.tag ∧ a.body.header.seqAck = bit (a.tag + 1) ∧ a.body.Undamaged
  ackTags : ∀ a ∈ s.toClient, a.tag ≤ s.server.accepted.length
  ackQueue : Channel.Ordered s.toClient

theorem Net.start_aligned (serverAddr : SockAddr) (chunks : List Chunk) (old : List UInt8)
    (buffer finalData : Vector UInt8 10) :
    (Net.start serverAddr chunks old buffer finalData).Aligned chunks old where
  toInOrder := Net.start_inOrder serverAddr chunks old buffer finalData
  accepted := rfl
  ahead := .inl (by simp [Net.start, Net.startWith, Server.start, Client.start])
  acks := by simp [Net.start, Net.startWith]
  ackTags := by simp [Net.start, Net.startWith]
  ackQueue := .nil

/-! ## Steps of the client -/

/-- A step in which the client stays at its packet, with some of the ACKs gone. -/
theorem Net.Aligned.stay {chunks : List Chunk} {old : List UInt8} {s s' : Net}
    (h : s.Aligned chunks old) (hinv : s'.InOrder chunks old) (hserver : s'.server = s.server)
    (hindex : s'.client.index = s.client.index) (hacks : s'.toClient.Sublist s.toClient) :
    s'.Aligned chunks old where
  toInOrder := hinv
  accepted := hserver ▸ h.accepted
  ahead := by rw [hserver, hindex]; exact h.ahead
  acks := fun a ha => by rw [hindex]; exact h.acks a (hacks.subset ha)
  ackTags := fun a ha => by rw [hserver]; exact h.ackTags a (hacks.subset ha)
  ackQueue := List.Pairwise.sublist hacks h.ackQueue

/-- The client moves on to the next packet: the server has accepted this one, and the
intact ACKs left in flight are no older. -/
theorem Net.Aligned.advance {chunks : List Chunk} {old : List UInt8} {s s' : Net}
    (h : s.Aligned chunks old) (hinv : s'.InOrder chunks old) (hserver : s'.server = s.server)
    (hindex : s'.client.index = s.client.index + 1) (hacks : s'.toClient.Sublist s.toClient)
    (hahead : s.server.accepted.length = s.client.index + 1)
    (hfresh : ∀ a ∈ s'.toClient, ¬ a.body.Damaged → s.client.index + 1 ≤ a.tag) :
    s'.Aligned chunks old where
  toInOrder := hinv
  accepted := hserver ▸ h.accepted
  ahead := .inl (by rw [hserver, hindex, hahead])
  acks := by
    intro a ha
    rcases h.acks a (hacks.subset ha) with hdamaged | ⟨_, hseq, hundamaged⟩
    · exact .inl hdamaged
    · refine .inr ⟨?_, hseq, hundamaged⟩
      rw [hindex]
      exact hfresh a ha hundamaged.not_damaged
  ackTags := fun a ha => by rw [hserver]; exact h.ackTags a (hacks.subset ha)
  ackQueue := List.Pairwise.sublist hacks h.ackQueue

/-- The client returns from a call. -/
theorem Net.Aligned.return {chunks : List Chunk} {old : List UInt8} {s s' : Net}
    (h : s.Aligned chunks old) (hinv : s'.InOrder chunks old) (hserver : s'.server = s.server)
    {c : Client} (hfinal : c.final = s.client.final) (hindex : c.index = s.client.index)
    (hclient : s'.client = c.return) (hacks : s'.toClient.Sublist s.toClient)
    (hsettled : s.client.final = false →
      s.server.accepted.length = s.client.index + 1 ∧
        ∀ a ∈ s'.toClient, ¬ a.body.Damaged → s.client.index + 1 ≤ a.tag) :
    s'.Aligned chunks old := by
  cases hcase : s.client.final with
  | true =>
      refine h.stay hinv hserver ?_ hacks
      rw [hclient, Client.return_final (hfinal.trans hcase)]
      exact hindex
  | false =>
      obtain ⟨hahead, hfresh⟩ := hsettled hcase
      refine h.advance hinv hserver ?_ hacks hahead hfresh
      rw [hclient, (Client.return_chunk (hfinal.trans hcase)).1, hindex]

/-- An ACK taken as good was sent after the server had accepted the client's packet. -/
theorem Net.Aligned.goodAck {chunks : List Chunk} {old : List UInt8} {s : Net}
    (h : s.Aligned chunks old) {a : Message Packet} (ha : a ∈ s.toClient)
    {beyond : ℕ → UInt8} (hgood : checkAck beyond s.client.packet a.body = .goodAck) :
    a.tag = s.client.index + 1 ∧ s.server.accepted.length = s.client.index + 1 := by
  obtain ⟨hsum, hseq⟩ := checkAck_eq_goodAck.mp hgood
  have htag := h.ackTags a ha
  rcases h.acks a ha with hdamaged | ⟨hle, hbit, _⟩
  · exact (hdamaged beyond hsum).elim
  · have hparity : (a.tag + 1) % 2 = s.client.index % 2 := by
      rw [hbit, h.client.carries.seqAck] at hseq
      exact (bit_eq_iff _ _).mp hseq
    have hahead := h.ahead
    omega

theorem Net.Aligned.clientReceive {chunks : List Chunk} {old : List UInt8} {s s' : Net}
    (h : s.Aligned chunks old) {beyond : ℕ → UInt8}
    (hstep : s.step (.clientReceive beyond) = some s') : s'.Aligned chunks old := by
  have hinv := h.toInOrder.step (a := .clientReceive beyond) trivial hstep
  obtain ⟨_, a, rest, hqueue, rfl⟩ := Net.step_clientReceive hstep
  have hrest : rest.Sublist s.toClient := hqueue ▸ List.sublist_cons_self a rest
  have ha : a ∈ s.toClient := by simp [hqueue]
  by_cases hgood : checkAck beyond s.client.packet a.body = .goodAck
  · obtain ⟨htag, hahead⟩ := h.goodAck ha hgood
    have hfresh : ∀ b ∈ rest, s.client.index + 1 ≤ b.tag := by
      have hq := h.ackQueue
      rw [hqueue] at hq
      exact fun b hb => htag ▸ (List.pairwise_cons.mp hq).1 b hb
    refine h.return hinv rfl ?_ ?_ (Client.receive_good hgood) hrest
      fun _ => ⟨hahead, fun b hb _ => hfresh b hb⟩
    · rfl
    · rfl
  · refine h.stay hinv rfl ?_ hrest
    simp [Client.receive_bad hgood]

theorem Net.Aligned.giveUp {chunks : List Chunk} {old : List UInt8} {s s' : Net}
    (h : s.Aligned chunks old) (hstep : s.step .giveUp = some s')
    (hleave : s.client.final = true ∨ s.Settled) : s'.Aligned chunks old := by
  have hinv := h.toInOrder.step (a := .giveUp) trivial hstep
  obtain ⟨c, hc, rfl⟩ := Option.map_eq_some_iff.mp hstep
  obtain ⟨_, _, rfl⟩ := Client.giveUp_eq_some hc
  refine h.return hinv rfl rfl rfl rfl (List.Sublist.refl _) fun hfinal => ?_
  rcases hleave with hleave | ⟨hmem, hbits⟩
  · simp [hfinal] at hleave
  · rw [h.accepted, List.mem_range] at hmem
    have hahead := h.ahead
    refine ⟨by omega, ?_⟩
    intro a ha hintact
    rcases h.acks a ha with hdamaged | ⟨hle, hbit, _⟩
    · exact (hintact hdamaged).elim
    · have hseq := hbits a ha hintact
      rw [hbit, h.client.carries.seqAck] at hseq
      have hparity := (bit_eq_iff _ _).mp hseq
      omega

/-! ## Steps of the server and the network -/

/-- The packet the server accepts is the one the client is sending. -/
theorem Net.Aligned.accepted_tag {chunks : List Chunk} {old : List UInt8} {s : Net}
    (h : s.Aligned chunks old) {m : Message Packet} (hm : m ∈ s.toServer)
    (hcarries : Carries chunks m.tag m.body) (hseq : m.body.header.seqAck = s.server.seqnum) :
    m.tag = s.server.accepted.length ∧ s.server.accepted.length = s.client.index := by
  obtain ⟨_, hlt⟩ := h.accepted_lt hm hcarries hseq
  have hsent := h.sent m hm
  have hlast : ∀ i < s.server.accepted.length, i < m.tag := fun i hi =>
    hlt i (by rw [h.accepted]; exact List.mem_range.mpr hi)
  have hahead := h.ahead
  rcases hahead with hahead | hahead
  · rcases Nat.eq_zero_or_pos s.server.accepted.length with hzero | hpos
    · omega
    · have := hlast (s.server.accepted.length - 1) (by omega)
      omega
  · have := hlast s.client.index (by omega)
    omega

/-- The server answers, without or after accepting a packet: its ACK carries the bit of the
last accepted packet. -/
theorem Net.Aligned.answer {chunks : List Chunk} {old : List UInt8} {s s' : Net}
    (h : s.Aligned chunks old) (hinv : s'.InOrder chunks old) (hclient : s'.client = s.client)
    (haccepted : s'.server.indices = List.range s'.server.accepted.length)
    (hgrow : s.server.accepted.length ≤ s'.server.accepted.length)
    (hahead : s'.server.accepted.length = s.client.index ∨
      s'.server.accepted.length = s.client.index + 1)
    {ack : Option Packet}
    (hack : ∀ p ∈ ack.toList,
      p.header.seqAck = bit (s'.server.accepted.length + 1) ∧ p.Undamaged)
    (htoClient : s'.toClient = s.toClient ++
      ack.toList.map fun p => ⟨s'.server.accepted.length, p⟩) :
    s'.Aligned chunks old where
  toInOrder := hinv
  accepted := haccepted
  ahead := by rw [hclient]; exact hahead
  acks := by
    intro a ha
    rw [htoClient] at ha
    rw [hclient]
    rcases List.mem_append.mp ha with ha | ha
    · exact h.acks a ha
    · obtain ⟨p, hp, rfl⟩ := List.mem_map.mp ha
      obtain ⟨hseq, hundamaged⟩ := hack p hp
      exact .inr ⟨by simp only; omega, hseq, hundamaged⟩
  ackTags := by
    intro a ha
    rw [htoClient] at ha
    rcases List.mem_append.mp ha with ha | ha
    · exact (h.ackTags a ha).trans hgrow
    · obtain ⟨p, _, rfl⟩ := List.mem_map.mp ha
      exact le_rfl
  ackQueue := by
    rw [htoClient]
    refine List.pairwise_append.mpr ⟨h.ackQueue, ?_, ?_⟩
    · cases ack <;> simp
    · intro a ha b hb
      obtain ⟨p, _, rfl⟩ := List.mem_map.mp hb
      exact (h.ackTags a ha).trans hgrow

theorem Net.Aligned.serverReceive {chunks : List Chunk} {old : List UInt8} {s s' : Net}
    (h : s.Aligned chunks old) {callee caller : ℕ → UInt8} {data : Vector UInt8 10}
    {drop : Bool} (hstep : s.step (.serverReceive callee caller data drop) = some s') :
    s'.Aligned chunks old := by
  have hinv := h.toInOrder.serverReceive hstep
  obtain ⟨_, m, rest, hqueue, rfl⟩ := Net.step_serverReceive hstep
  rw [Net.acknowledge_eq] at hinv ⊢
  have hm : m ∈ s.toServer := by simp [hqueue]
  have hrefused : ∀ p ∈ (serverSend drop (lnot s.server.seqnum) data).toList,
      p.header.seqAck = bit (s.server.accepted.length + 1) ∧ p.Undamaged := by
    intro p hp
    rw [h.seqnum, lnot_bit] at hp
    exact serverSend_eq_some (Option.mem_toList.mp hp)
  rcases h.carries m hm with hcarries | hdamaged
  · by_cases hseq : m.body.header.seqAck = s.server.seqnum
    · rw [Server.receive_expected hcarries.undamaged hseq] at hinv ⊢
      obtain ⟨htag, hindex⟩ := h.accepted_tag hm hcarries hseq
      have hlength : (s.server.store caller m).accepted.length =
          s.server.accepted.length + 1 := by simp [Server.store]
      refine h.answer hinv rfl ?_ ?_ ?_ ?_ rfl
      · have haccepted := h.accepted
        simp only [Server.indices, Server.store, List.map_append, List.map_cons,
          List.map_nil, List.length_append, List.length_singleton,
          List.range_succ] at haccepted ⊢
        rw [haccepted, htag]
      · dsimp only
        omega
      · dsimp only
        omega
      · intro p hp
        have hp := serverSend_eq_some (Option.mem_toList.mp hp)
        refine ⟨?_, hp.2⟩
        dsimp only
        rw [hp.1, h.seqnum, hlength, bit_eq_iff]
        omega
    · rw [Server.receive_other hcarries.undamaged hseq] at hinv ⊢
      exact h.answer hinv rfl h.accepted le_rfl h.ahead hrefused rfl
  · rw [Server.receive_damaged hdamaged] at hinv ⊢
    exact h.answer hinv rfl h.accepted le_rfl h.ahead hrefused rfl

theorem Net.Aligned.ackFault {chunks : List Chunk} {old : List UInt8} {s : Net}
    (h : s.Aligned chunks old) {f : Fault Packet} (hf : f.Fifo Packet.Damaged)
    {c : List (Message Packet)} (hc : f.apply s.toClient = some c)
    (hinv : ({ s with toClient := c } : Net).InOrder chunks old) :
    ({ s with toClient := c } : Net).Aligned chunks old where
  toInOrder := hinv
  accepted := h.accepted
  ahead := h.ahead
  acks := by
    intro a ha
    rcases Fault.mem_of_apply_fifo hf hc ha with ha | ⟨hbad, _⟩
    · exact h.acks a ha
    · exact .inl hbad
  ackTags := by
    intro a ha
    rcases Fault.mem_of_apply_fifo hf hc ha with ha | ⟨_, b, hb, htag⟩
    · exact h.ackTags a ha
    · exact htag ▸ h.ackTags b hb
  ackQueue := Fault.apply_ordered hf hc h.ackQueue

/-- Every step keeps the invariant, as long as the client gives up chunks only when the
matter is settled. -/
theorem Net.Aligned.step {chunks : List Chunk} {old : List UInt8} {s s' : Net} {a : Action}
    (h : s.Aligned chunks old) (ha : FifoNet s a)
    (hleave : a = .giveUp → s.client.final = true ∨ s.Settled)
    (hstep : s.step a = some s') : s'.Aligned chunks old := by
  have hinv := h.toInOrder.step ha.orderedData hstep
  cases a with
  | transmit drop =>
      obtain ⟨⟨c, packet⟩, htransmit, rfl⟩ := Option.map_eq_some_iff.mp hstep
      obtain ⟨_, _, ⟨rfl, rfl⟩ | ⟨rfl, rfl⟩⟩ := Client.transmit_eq_some htransmit
      · exact h.stay hinv rfl rfl (List.Sublist.refl _)
      · simp only [Net.send, h.servAddr, if_true] at hinv ⊢
        exact h.stay hinv rfl rfl (List.Sublist.refl _)
  | giveUp => exact h.giveUp hstep (hleave rfl)
  | timeout =>
      obtain ⟨c, hc, rfl⟩ := Option.map_eq_some_iff.mp hstep
      obtain ⟨_, rfl⟩ := Client.timeout_eq_some hc
      exact h.stay hinv rfl rfl (List.Sublist.refl _)
  | clientReceive beyond => exact h.clientReceive hstep
  | serverReceive callee caller data drop => exact h.serverReceive hstep
  | toServer f =>
      obtain ⟨c, _, rfl⟩ := Option.map_eq_some_iff.mp hstep
      exact h.stay hinv rfl rfl (List.Sublist.refl _)
  | toClient f =>
      obtain ⟨c, hc, rfl⟩ := Option.map_eq_some_iff.mp hstep
      exact h.ackFault ha hc hinv

/-! ## In-order, exactly-once delivery -/

/-- The channels keep the order, and only the packet after the last chunk may be given up. -/
def NoChunkGivenUp (s : Net) (a : Action) : Prop :=
  FifoNet s a ∧ (a = .giveUp → s.client.final = true)

theorem Net.aligned_of_run {serverAddr : SockAddr} {chunks : List Chunk} {old : List UInt8}
    {buffer finalData : Vector UInt8 10} {es : List Action} {t : Net}
    (h : Run Net.step NoChunkGivenUp
      (.start serverAddr chunks old buffer finalData) es t) : t.Aligned chunks old :=
  h.invariant
    (fun _ _ _ ht ha hstep => ht.step ha.1 (fun hgive => .inl (ha.2 hgive)) hstep)
    (Net.start_aligned serverAddr chunks old buffer finalData)

theorem Net.Aligned.delivered_eq_take {chunks : List Chunk} {old : List UInt8} {s : Net}
    (h : s.Aligned chunks old) :
    s.server.delivered = contents (chunks.take s.server.accepted.length) := by
  rw [h.delivered_eq, h.accepted, flatMap_bytesAt_range]

/-- While no chunk is given up, the server has accepted the packets before the client's
packet `k`, or these and packet `k`; what it writes are the chunks they carry, in order; the
client takes an ACK as good only when packet `k` is accepted; and the server's loop ends
only with the whole file. -/
theorem delivered_in_order (serverAddr : SockAddr) (chunks : List Chunk) (old : List UInt8)
    (buffer finalData : Vector UInt8 10) (es : List Action) (t : Net)
    (h : Run Net.step NoChunkGivenUp
      (.start serverAddr chunks old buffer finalData) es t) :
    (t.server.accepted.length = t.client.index ∨
      t.server.accepted.length = t.client.index + 1) ∧
    t.server.delivered = contents (chunks.take t.server.accepted.length) ∧
    t.server.file = (OpenFile.reopen old).write t.server.delivered ∧
    (∀ a rest beyond, t.client.position = .select → t.toClient = a :: rest →
      checkAck beyond t.client.packet a.body = .goodAck →
        t.server.accepted.length = t.client.index + 1) ∧
    (t.server.running = false →
      t.server.accepted.length = chunks.length + 1 ∧
        t.server.delivered = contents chunks) := by
  have hinv := Net.aligned_of_run h
  refine ⟨hinv.ahead, hinv.delivered_eq_take, hinv.file, ?_, ?_⟩
  · intro a rest beyond _ hqueue hgood
    exact (hinv.goodAck (by simp [hqueue]) hgood).2
  · intro hstopped
    have hmem := hinv.running.mp hstopped
    rw [hinv.accepted, List.mem_range] at hmem
    have hahead := hinv.ahead
    have hindex := hinv.client.index_le
    refine ⟨by omega, ?_⟩
    rw [hinv.delivered_eq_take, List.take_of_length_le (by omega)]

/-- A dropped ACK and a resent chunk on the way to a complete transfer. -/
theorem delivered_in_order_resent :
    ∃ (chunks : List Chunk) (es : List Action) (t : Net),
      Run Net.step NoChunkGivenUp
        (.start ⟨5000, 0⟩ chunks [] (.replicate 10 0) (.replicate 10 0)) es t ∧
      t.server.running = false ∧ t.server.delivered = contents chunks := by
  let zero : ℕ → UInt8 := fun _ => 0
  let empty : Vector UInt8 10 := .replicate 10 0
  let chunks : List Chunk := [⟨[101, 102], by decide, by decide⟩]
  let run : List Action :=
    [.transmit false, .serverReceive zero zero empty true, .timeout,
      .transmit false, .serverReceive zero zero empty false, .clientReceive zero,
      .transmit false, .serverReceive zero zero empty false]
  obtain ⟨t, hrun, hstopped⟩ : ∃ t, Run Net.step NoChunkGivenUp
      (.start ⟨5000, 0⟩ chunks [] empty empty) run t ∧ t.server.running = false :=
    Run.exists_of_exec (by simp [run, NoChunkGivenUp, FifoNet]) (by decide)
  exact ⟨chunks, run, t, hrun, hstopped,
    ((delivered_in_order _ chunks _ _ _ run t hrun).2.2.2.2 hstopped).2⟩

end NetLabs.StopWait
