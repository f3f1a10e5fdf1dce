import NetLabs.StopWait.Delivery

/-! # What a good ACK means

The server answers a packet it refuses with the other bit, which acknowledges the packet
before. A client that has given that one up takes the answer for its own. -/

namespace NetLabs.StopWait

open Channel Machine

/-- The channels lose and delay messages and do nothing else. -/
def LossyNet (_ : Net) : Action → Prop
  | .toServer f => f.Lossy
  | .toClient f => f.Lossy
  | _ => True

theorem LossyNet.fifoNet {s : Net} {a : Action} (h : LossyNet s a) : FifoNet s a := by
  cases a with
  | toServer f => exact Fault.Lossy.fifo h _
  | toClient f => exact Fault.Lossy.fifo h _
  | _ => trivial

/-- Every packet whose call returned through `Good ACK` is accepted, and once the last one
is acknowledged the server has left its loop. -/
def Net.AckSound (chunks : List Chunk) (s : Net) : Prop :=
  (∀ i ∈ s.client.acked, i ∈ s.server.indices) ∧
    (chunks.length ∈ s.client.acked → s.server.running = false)

/-- One abandoned chunk is enough: the server refuses the last packet, and the client takes
the refusal for a good ACK. -/
theorem ackSound_fails :
    ∃ (chunks : List Chunk) (es : List Action) (t : Net),
      Run Net.step LossyNet
        (.start ⟨5000, 0⟩ chunks [] (.replicate 10 0) (.replicate 10 0)) es t ∧
      t.client.acked = [chunks.length] ∧ t.client.position = .done ∧
      t.server.indices = [] ∧ t.server.running = true ∧ ¬ t.AckSound chunks := by
  let zero : ℕ → UInt8 := fun _ => 0
  let empty : Vector UInt8 10 := .replicate 10 0
  let chunks : List Chunk := [⟨[101], by decide, by decide⟩]
  let run : List Action := abandonedCall ++
    [.transmit false, .serverReceive zero zero empty false, .clientReceive zero]
  obtain ⟨t, hrun, hobs⟩ : ∃ t, Run Net.step LossyNet (.start ⟨5000, 0⟩ chunks [] empty empty)
      run t ∧ (t.client.acked, t.client.position, t.server.indices, t.server.running) =
        ([1], .done, [], true) :=
    Run.exists_of_exec (by simp [run, abandonedCall, LossyNet]) (by decide)
  simp only [Prod.mk.injEq] at hobs
  obtain ⟨hacked, hposition, hindices, hrunning⟩ := hobs
  refine ⟨chunks, run, t, hrun, hacked, hposition, hindices, hrunning, ?_⟩
  rintro ⟨hmem, _⟩
  simpa [hindices] using hmem 1 (by simp [hacked])

/-! ## Runs that give up only what is settled -/

/-- The channels lose and delay, and a chunk is given up only when the server has accepted
it and no ACK in flight carries the other bit. -/
def SettledGiveUps : Net → Action → Prop :=
  GivesUpSettled LossyNet

/-- Acknowledged packets are accepted packets. -/
structure Net.Acknowledged (chunks : List Chunk) (old : List UInt8) (s : Net) : Prop
    extends s.Aligned chunks old where
  acked : ∀ i ∈ s.client.acked, i ∈ s.server.indices

theorem Net.Acknowledged.ackSound {chunks : List Chunk} {old : List UInt8} {s : Net}
    (h : s.Acknowledged chunks old) : s.AckSound chunks :=
  ⟨h.acked, fun hlast => h.running.mpr (h.acked _ hlast)⟩

/-- Only a good ACK adds to the acknowledged packets, and none is ever taken from the
accepted ones. -/
theorem Net.step_acked {s s' : Net} {a : Action} (hstep : s.step a = some s') :
    (∀ i ∈ s.server.indices, i ∈ s'.server.indices) ∧
      ∀ i ∈ s'.client.acked, i ∈ s.client.acked ∨
        i = s.client.index ∧ ∃ beyond, ∃ m ∈ s.toClient,
          checkAck beyond s.client.packet m.body = .goodAck := by
  cases a with
  | transmit drop =>
      obtain ⟨⟨c, packet⟩, htransmit, rfl⟩ := Option.map_eq_some_iff.mp hstep
      have hacked : c.acked = s.client.acked := by
        obtain ⟨_, _, ⟨_, rfl⟩ | ⟨_, rfl⟩⟩ := Client.transmit_eq_some htransmit <;> rfl
      rw [s.send_server, s.send_client, hacked]
      exact ⟨fun _ hi => hi, fun _ hi => .inl hi⟩
  | giveUp =>
      obtain ⟨c, hc, rfl⟩ := Option.map_eq_some_iff.mp hstep
      obtain ⟨_, _, rfl⟩ := Client.giveUp_eq_some hc
      exact ⟨fun _ hi => hi, fun i hi => .inl (by simpa using hi)⟩
  | timeout =>
      obtain ⟨c, hc, rfl⟩ := Option.map_eq_some_iff.mp hstep
      obtain ⟨_, rfl⟩ := Client.timeout_eq_some hc
      exact ⟨fun _ hi => hi, fun i hi => .inl hi⟩
  | clientReceive beyond =>
      obtain ⟨_, m, rest, hqueue, rfl⟩ := Net.step_clientReceive hstep
      refine ⟨fun _ hi => hi, fun i hi => ?_⟩
      by_cases hgood : checkAck beyond s.client.packet m.body = .goodAck
      · simp only [Client.receive_good hgood, Client.return_acked, List.mem_append,
          List.mem_singleton] at hi
        exact hi.imp id fun hi => ⟨hi, beyond, m, by simp [hqueue], hgood⟩
      · simp only [Client.receive_bad hgood] at hi
        exact .inl hi
  | serverReceive callee caller data drop =>
      obtain ⟨_, m, rest, _, rfl⟩ := Net.step_serverReceive hstep
      rw [Net.acknowledge_eq]
      refine ⟨fun i hi => ?_, fun i hi => .inl hi⟩
      simp only [Server.receive]
      split
      · simp only [Server.indices, Server.store, List.map_append, List.mem_append]
        exact .inl hi
      · exact hi
  | toServer f =>
      obtain ⟨c, _, rfl⟩ := Option.map_eq_some_iff.mp hstep
      exact ⟨fun _ hi => hi, fun _ hi => .inl hi⟩
  | toClient f =>
      obtain ⟨c, _, rfl⟩ := Option.map_eq_some_iff.mp hstep
      exact ⟨fun _ hi => hi, fun _ hi => .inl hi⟩

theorem Net.Acknowledged.step {chunks : List Chunk} {old : List UInt8} {s s' : Net}
    {a : Action} (h : s.Acknowledged chunks old) (ha : SettledGiveUps s a)
    (hstep : s.step a = some s') : s'.Acknowledged chunks old := by
  obtain ⟨hlossy, hgive⟩ := ha
  refine ⟨h.toAligned.step hlossy.fifoNet hgive hstep, ?_⟩
  obtain ⟨hkeep, hnew⟩ := Net.step_acked hstep
  intro i hi
  apply hkeep
  rcases hnew i hi with hi | ⟨rfl, beyond, m, hm, hgood⟩
  · exact h.acked i hi
  · have hahead := (h.goodAck hm hgood).2
    rw [h.accepted, List.mem_range]
    omega

theorem Net.acknowledged_of_run {serverAddr : SockAddr} {chunks : List Chunk}
    {old : List UInt8} {buffer finalData : Vector UInt8 10} {es : List Action} {t : Net}
    (h : Run Net.step SettledGiveUps
      (.start serverAddr chunks old buffer finalData) es t) : t.Acknowledged chunks old :=
  h.invariant (fun _ _ _ ht ha hstep => ht.step ha hstep)
    ⟨Net.start_aligned serverAddr chunks old buffer finalData, by
      simp [Net.start, Net.startWith, Client.start]⟩

/-! ## Any other give-up can go wrong -/

/-- A channel can lose its oldest messages one by one. Here `put` is the state around the
channel, and `act` the action by which it is at fault. -/
theorem exists_lost (put : List (Message Packet) → Net) (act : Fault Packet → Action)
    (hstep : ∀ c f, (put c).step (act f) = (f.apply c).map put)
    (hlossy : ∀ s i, LossyNet s (act (.lose i))) (l r : List (Message Packet)) :
    ∃ es, Run Net.step LossyNet (put (l ++ r)) es (put r) := by
  induction l with
  | nil => exact ⟨[], .nil⟩
  | cons m l ih =>
      obtain ⟨es, hrun⟩ := ih
      refine ⟨act (.lose 0) :: es, .cons (hlossy _ 0) ?_ hrun⟩
      simp [hstep, Fault.apply, split?]

theorem Net.drain_toServer (s : Net) :
    ∃ es, Run Net.step LossyNet s es { s with toServer := [] } := by
  have h := exists_lost (fun c => { s with toServer := c }) .toServer (fun _ _ => rfl)
    (fun _ _ => trivial) s.toServer []
  simpa using h

theorem Net.drain_toClient {s : Net} {l r : List (Message Packet)}
    (h : s.toClient = l ++ r) :
    ∃ es, Run Net.step LossyNet s es { s with toClient := r } := by
  have h' := exists_lost (fun c => { s with toClient := c }) .toClient (fun _ _ => rfl)
    (fun _ _ => trivial) l r
  rwa [← h] at h'

/-- The client can get to an ACK in flight that carries its bit by losing those before. -/
theorem Net.exists_goodAck {s : Net} (hselect : s.client.position = .select)
    {a : Message Packet} (ha : a ∈ s.toClient) (hundamaged : a.body.Undamaged)
    (hseq : a.body.header.seqAck = s.client.packet.header.seqAck) :
    ∃ es u, Run Net.step LossyNet s es u ∧ s.client.index ∈ u.client.acked ∧
      u.server = s.server := by
  obtain ⟨l, r, hsplit⟩ := List.append_of_mem ha
  obtain ⟨es, hrun⟩ := Net.drain_toClient hsplit
  have hgood : checkAck (fun _ => 0) s.client.packet a.body = .goodAck :=
    checkAck_eq_goodAck.mpr ⟨hundamaged _, hseq⟩
  let taken : Net := { s with
    client := s.client.receive (fun _ => 0) s.serverAddr a.body
    toClient := r }
  have hreceive : ({ s with toClient := a :: r } : Net).step (.clientReceive fun _ => 0) =
      some taken := by
    simp [Net.step, hselect, taken]
  refine ⟨es ++ [.clientReceive fun _ => 0], taken, ?_, ?_, rfl⟩
  · exact hrun.snoc (by trivial) hreceive
  · simp [taken, Client.receive_good hgood]

/-- A server that expects the other bit refuses the client's packet, and the refusal is as
good an ACK as any. -/
theorem Net.exists_refusal {chunks : List Chunk} {old : List UInt8} {s : Net}
    (h : s.InOrder chunks old) (hloop : s.client.position = .loop)
    (hretries : s.client.retries < 3) (hrunning : s.server.running = true)
    (hparity : s.server.accepted.length % 2 ≠ s.client.index % 2) :
    ∃ es u, Run Net.step LossyNet s es u ∧ s.client.index ∈ u.client.acked ∧
      u.server = s.server := by
  obtain ⟨es, hdrain⟩ := s.drain_toServer
  have hcarries := h.client.carries.seal
  have hother : s.client.packet.seal.header.seqAck ≠ s.server.seqnum := by
    rw [hcarries.seqAck, h.seqnum, ne_eq, bit_eq_iff]
    omega
  let packet : Message Packet := ⟨s.client.index, s.client.packet.seal⟩
  let sent : Net := { s with
    client := { s.client with
      position := .select
      selects := s.client.selects ++ [s.client.index]
      packet := s.client.packet.seal }
    toServer := [packet] }
  let ack : Packet := Packet.seal ⟨⟨lnot s.server.seqnum, 10, 0⟩, .replicate 10 0⟩
  let answered : Net := { sent with
    toServer := []
    toClient := s.toClient ++ [⟨s.server.accepted.length, ack⟩] }
  have hsend : ({ s with toServer := [] } : Net).step (.transmit false) = some sent := by
    simp [Net.step, Client.transmit, hloop, hretries, Net.send, h.servAddr, sent, packet]
  have hanswer : sent.step
      (.serverReceive (fun _ => 0) (fun _ => 0) (.replicate 10 0) false) =
        some answered := by
    have hreceive := Server.receive_other (m := packet) (s := s.server)
      hcarries.undamaged hother (fun _ => 0) (fun _ => 0) (.replicate 10 0) false
    simp [Net.step, sent, hrunning, hreceive, Net.acknowledge, serverSend, answered, ack]
  have hrefusal := @serverSend_eq_some false _ _ ack rfl
  have hbit : ack.header.seqAck = s.client.packet.seal.header.seqAck := by
    rw [hrefusal.1, h.seqnum, lnot_bit, hcarries.seqAck, bit_eq_iff]
    omega
  obtain ⟨fs, u, hrun, hacked, hserver⟩ := Net.exists_goodAck (s := answered) rfl
    (a := ⟨s.server.accepted.length, ack⟩) (by simp [answered]) hrefusal.2 hbit
  have hrefused : Run Net.step LossyNet s _ answered :=
    (hdrain.snoc (by trivial) hsend).snoc (by trivial) hanswer
  exact ⟨_, u, hrefused.trans hrun, hacked, hserver⟩

/-- A client that has moved on from a chunk unsettled can be led to take an ACK for the next
packet, which the server has not accepted. -/
theorem Net.Aligned.exists_unsound {chunks : List Chunk} {old : List UInt8} {s s' : Net}
    (h : s.Aligned chunks old) (hstep : s.step .giveUp = some s')
    (hfinal : s.client.final = false) (hunsettled : ¬ s.Settled) :
    ∃ es u, Run Net.step LossyNet s' es u ∧ ¬ u.AckSound chunks := by
  have hinv := h.toInOrder.step (a := .giveUp) trivial hstep
  obtain ⟨c, hc, rfl⟩ := Option.map_eq_some_iff.mp hstep
  obtain ⟨_, _, rfl⟩ := Client.giveUp_eq_some hc
  obtain ⟨hindex, hretries, hloop⟩ := Client.return_chunk hfinal
  have hahead := h.ahead
  have hmissing : s.client.index + 1 ∉ s.server.indices := by
    rw [h.accepted, List.mem_range]
    omega
  have hbad : ∀ u : Net, s.client.return.index ∈ u.client.acked → u.server = s.server →
      ¬ u.AckSound chunks := by
    intro u hacked hserver hsound
    have hmem := hsound.1 _ hacked
    rw [hserver, hindex] at hmem
    exact hmissing hmem
  by_cases hmem : s.client.index ∈ s.server.indices
  · -- an ACK for the packet before this one is still in flight
    obtain ⟨a, ha, hintact, hseq⟩ : ∃ a ∈ s.toClient, ¬ a.body.Damaged ∧
        a.body.header.seqAck ≠ s.client.packet.header.seqAck := by
      by_contra hnone
      push Not at hnone
      exact hunsettled ⟨hmem, hnone⟩
    have hack : a.body.header.seqAck = bit (a.tag + 1) ∧ a.body.Undamaged := by
      rcases h.acks a ha with hdamaged | ⟨_, hbit, hundamaged⟩
      · exact (hintact hdamaged).elim
      · exact ⟨hbit, hundamaged⟩
    have hnext : a.body.header.seqAck = s.client.return.packet.header.seqAck := by
      rw [hack.1, h.client.carries.seqAck, ne_eq, bit_eq_iff] at hseq
      rw [hack.1, hinv.client.carries.seqAck, bit_eq_iff, hindex]
      omega
    let waiting : Net := { s with
      client := { s.client.return with
        position := .select
        selects := s.client.return.selects ++ [s.client.return.index] } }
    have htransmit : ({ s with client := s.client.return } : Net).step (.transmit true) =
        some waiting := by
      simp [Net.step, Client.transmit, hloop, hretries, Net.send, waiting]
    obtain ⟨es, u, hrun, hacked, hserver⟩ :=
      Net.exists_goodAck (s := waiting) rfl ha hack.2 hnext
    exact ⟨_, u, .cons (by trivial) htransmit hrun, hbad u hacked hserver⟩
  · -- the server still waits for the chunk that was given up
    have hlength : s.server.accepted.length = s.client.index := by
      rw [h.accepted, List.mem_range] at hmem
      omega
    have hrunning : s.server.running = true := by
      have hne : s.client.index ≠ chunks.length := by
        intro heq
        simp [h.client.final.mpr heq] at hfinal
      have hle := h.client.index_le
      rw [← Bool.not_eq_false, h.running, h.accepted, List.mem_range]
      omega
    obtain ⟨es, u, hrun, hacked, hserver⟩ := Net.exists_refusal hinv hloop
      (by rw [hretries]; omega) hrunning (by dsimp only; rw [hindex]; omega)
    exact ⟨es, u, hrun, hbad u hacked hserver⟩

/-- In every run that gives up chunks only when they are settled, a good ACK means that the
server has accepted the packet. No more can be allowed: from any state of such a run, giving
up a chunk that is not settled opens the way to a good ACK for a packet never accepted. -/
theorem ackSound_of_settled (serverAddr : SockAddr) (chunks : List Chunk) (old : List UInt8)
    (buffer finalData : Vector UInt8 10) (es : List Action) (t : Net)
    (h : Run Net.step SettledGiveUps
      (.start serverAddr chunks old buffer finalData) es t) :
    t.AckSound chunks ∧
    t.server.delivered = t.server.indices.flatMap (bytesAt chunks) ∧
    ∀ t', t.step .giveUp = some t' → t.client.final = false → ¬ t.Settled →
      ∃ fs u, Run Net.step LossyNet t' fs u ∧ ¬ u.AckSound chunks := by
  have hinv := Net.acknowledged_of_run h
  exact ⟨hinv.ackSound, hinv.delivered_eq, fun t' hstep hfinal hunsettled =>
    hinv.toAligned.exists_unsound hstep hfinal hunsettled⟩

/-- A settled give-up: the chunk has arrived, only its ACK was lost. -/
theorem ackSound_of_settled_lostAck :
    ∃ (chunks : List Chunk) (es : List Action) (t : Net),
      Run Net.step SettledGiveUps
        (.start ⟨5000, 0⟩ chunks [] (.replicate 10 0) (.replicate 10 0))
        (es ++ [.giveUp]) t ∧
      t.client.index = 1 ∧ t.AckSound chunks := by
  let zero : ℕ → UInt8 := fun _ => 0
  let empty : Vector UInt8 10 := .replicate 10 0
  let chunks : List Chunk := [⟨[101], by decide, by decide⟩]
  let run : List Action :=
    [.transmit false, .serverReceive zero zero empty true, .timeout,
      .transmit true, .timeout, .transmit true, .timeout]
  obtain ⟨s, hrun, hobs⟩ : ∃ s, Run Net.step SettledGiveUps
      (.start ⟨5000, 0⟩ chunks [] empty empty) run s ∧
        (s.client.index, s.server.indices, s.toClient,
          (s.step .giveUp).map fun t => t.client.index) = (0, [0], [], some 1) :=
    Run.exists_of_exec (by simp [run, SettledGiveUps, GivesUpSettled, LossyNet]) (by decide)
  simp only [Prod.mk.injEq] at hobs
  obtain ⟨hindex, hindices, htoClient, hstep⟩ := hobs
  obtain ⟨t, ht, hone⟩ := Option.map_eq_some_iff.mp hstep
  have hsettled : s.Settled := by simp [Net.Settled, hindex, hindices, htoClient]
  have hrun' := hrun.snoc (a := .giveUp) ⟨by trivial, fun _ => .inr hsettled⟩ ht
  exact ⟨chunks, run, t, hrun', hone,
    (ackSound_of_settled _ chunks _ _ _ _ t hrun').1⟩

end NetLabs.StopWait
