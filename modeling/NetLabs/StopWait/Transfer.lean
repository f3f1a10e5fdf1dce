import NetLabs.StopWait.Delivery

/-! # Complete transfers over a perfect channel

Without faults, drops and timeouts each packet takes three steps. -/

namespace NetLabs.StopWait

open Channel Machine

/-- No fault, no drop on purpose, and no timeout. -/
def PerfectNet (_ : Net) : Action → Prop
  | .transmit drop => drop = false
  | .serverReceive _ _ _ drop => drop = false
  | .clientReceive _ => True
  | .giveUp => True
  | _ => False

/-- Both programs have left their loops, and the destination holds the source. -/
def Net.Transferred (chunks : List Chunk) (s : Net) : Prop :=
  s.client.position = .done ∧ s.server.running = false ∧
    s.server.file.content = contents chunks

/-- How far the exchange of the client's packet has come. -/
inductive Net.Phase (s : Net) : Prop
  | loop (position : s.client.position = .loop) (retries : s.client.retries = 0)
      (toServer : s.toServer = []) (toClient : s.toClient = [])
      (accepted : s.server.accepted.length = s.client.index)
  | sent (m : Message Packet) (position : s.client.position = .select)
      (retries : s.client.retries = 0) (toServer : s.toServer = [m])
      (toClient : s.toClient = []) (accepted : s.server.accepted.length = s.client.index)
      (undamaged : m.body.Undamaged)
      (seqAck : m.body.header.seqAck = s.client.packet.header.seqAck)
  | answered (m : Message Packet) (position : s.client.position = .select)
      (retries : s.client.retries = 0) (toServer : s.toServer = []) (toClient : s.toClient = [m])
      (accepted : s.server.accepted.length = s.client.index + 1)
      (undamaged : m.body.Undamaged)
      (seqAck : m.body.header.seqAck = s.client.packet.header.seqAck)
  | ended (position : s.client.position = .done) (toServer : s.toServer = [])
      (toClient : s.toClient = []) (accepted : s.server.accepted.length = s.client.index + 1)
      (final : s.client.final = true)

structure Net.Lockstep (chunks : List Chunk) (old : List UInt8) (s : Net) : Prop
    extends s.Aligned chunks old where
  phase : s.Phase

/-- The steps left: three for each packet. -/
def Net.left (chunks : List Chunk) (s : Net) : ℕ :=
  3 * (chunks.length - s.client.index) +
    match s.client.position with
    | .loop => 3
    | .select => s.toServer.length + 1
    | .done => 0

theorem Net.start_lockstep (serverAddr : SockAddr) (chunks : List Chunk) (old : List UInt8)
    (buffer finalData : Vector UInt8 10) :
    (Net.start serverAddr chunks old buffer finalData).Lockstep chunks old where
  toAligned := Net.start_aligned serverAddr chunks old buffer finalData
  phase := .loop (Client.load_position _) (Client.load_retries _) rfl rfl
    (by simp [Net.start, Net.startWith, Server.start, Client.start])

variable {chunks : List Chunk} {old : List UInt8} {s t : Net}

/-- What one step does, and that it makes progress. -/
theorem Net.Lockstep.transmit (h : s.Lockstep chunks old)
    (hstep : s.step (.transmit false) = some t) : t.Phase ∧ t.left chunks < s.left chunks := by
  obtain ⟨⟨c, packet⟩, htransmit, rfl⟩ := Option.map_eq_some_iff.mp hstep
  obtain ⟨hposition, _, hcases⟩ := Client.transmit_eq_some htransmit
  have hsent : packet = some s.client.packet.seal ∧ c = { s.client with
      position := .select
      selects := s.client.selects ++ [s.client.index]
      packet := s.client.packet.seal } := by
    rcases hcases with ⟨rfl, _⟩ | hsent
    · simp [Client.transmit] at htransmit
    · exact hsent
  obtain ⟨rfl, rfl⟩ := hsent
  simp only [Net.send, h.servAddr, if_true]
  cases h.phase with
  | loop _ hretries htoServer htoClient haccepted =>
      refine ⟨.sent ⟨s.client.index, s.client.packet.seal⟩ rfl hretries (by simp [htoServer])
        htoClient haccepted h.client.carries.seal.undamaged rfl, ?_⟩
      simp [Net.left, hposition, htoServer]
  | sent _ hother => simp [hposition] at hother
  | answered _ hother => simp [hposition] at hother
  | ended hother => simp [hposition] at hother

theorem Net.Lockstep.serverReceive (h : s.Lockstep chunks old) {callee caller : ℕ → UInt8}
    {data : Vector UInt8 10} (hstep : s.step (.serverReceive callee caller data false) = some t) :
    t.Phase ∧ t.left chunks < s.left chunks := by
  obtain ⟨_, m, rest, hqueue, rfl⟩ := Net.step_serverReceive hstep
  rw [Net.acknowledge_eq]
  cases h.phase with
  | sent m' hposition hretries htoServer htoClient haccepted hundamaged hseq =>
      obtain ⟨rfl, rfl⟩ : m = m' ∧ rest = [] := by simpa [hqueue] using htoServer
      have hseqnum : m.body.header.seqAck = s.server.seqnum := by
        rw [hseq, h.client.carries.seqAck, h.seqnum, haccepted]
      rw [Server.receive_expected hundamaged hseqnum]
      obtain ⟨ack, hack⟩ : ∃ ack, serverSend false s.server.seqnum data = some ack :=
        ⟨_, rfl⟩
      obtain ⟨hackSeq, hackUndamaged⟩ := serverSend_eq_some hack
      refine ⟨.answered ⟨s.client.index + 1, ack⟩ hposition hretries rfl ?_ ?_ hackUndamaged ?_,
        ?_⟩
      · simp [hack, htoClient, Server.store, haccepted]
      · simp [Server.store, haccepted]
      · dsimp only
        rw [hackSeq, ← hseqnum, hseq]
      · simp [Net.left, hposition, hqueue]
  | loop _ _ htoServer => simp [hqueue] at htoServer
  | answered _ _ _ htoServer => simp [hqueue] at htoServer
  | ended _ htoServer => simp [hqueue] at htoServer

theorem Net.Lockstep.clientReceive (h : s.Lockstep chunks old) {beyond : ℕ → UInt8}
    (hstep : s.step (.clientReceive beyond) = some t) :
    t.Phase ∧ t.left chunks < s.left chunks := by
  obtain ⟨hposition, m, rest, hqueue, rfl⟩ := Net.step_clientReceive hstep
  cases h.phase with
  | answered m' _ hretries htoServer htoClient haccepted hundamaged hseq =>
      obtain ⟨rfl, rfl⟩ : m = m' ∧ rest = [] := by simpa [hqueue] using htoClient
      have hgood : checkAck beyond s.client.packet m.body = .goodAck :=
        checkAck_eq_goodAck.mpr ⟨hundamaged beyond, hseq⟩
      rw [Client.receive_good hgood]
      generalize hc : ({ s.client with
        servAddr := s.serverAddr
        acked := s.client.acked ++ [s.client.index] } : Client) = c
      have hfinal : c.final = s.client.final := by rw [← hc]
      have hindex : c.index = s.client.index := by rw [← hc]
      by_cases hlast : s.client.final = true
      · rw [Client.return_final (hfinal.trans hlast)]
        refine ⟨.ended rfl htoServer rfl ?_ (hfinal.trans hlast), ?_⟩
        · exact haccepted.trans (congrArg (· + 1) hindex.symm)
        · simp [Net.left, hposition, hindex]
      · obtain ⟨hnext, hretries', hposition'⟩ :=
          Client.return_chunk (hfinal.trans (Bool.not_eq_true _ ▸ hlast))
        rw [hindex] at hnext
        have hlt : s.client.index < chunks.length :=
          Nat.lt_of_le_of_ne h.client.index_le fun heq => hlast (h.client.final.mpr heq)
        refine ⟨.loop hposition' hretries' htoServer rfl (haccepted.trans hnext.symm), ?_⟩
        simp only [Net.left, hnext, hposition, hposition']
        omega
  | loop _ _ _ htoClient => simp [hqueue] at htoClient
  | sent _ _ _ _ htoClient => simp [hqueue] at htoClient
  | ended _ _ htoClient => simp [hqueue] at htoClient

theorem Net.Lockstep.not_giveUp (h : s.Lockstep chunks old) : s.step .giveUp = none := by
  cases hgive : s.step .giveUp with
  | none => rfl
  | some t =>
      obtain ⟨c, hc, rfl⟩ := Option.map_eq_some_iff.mp hgive
      obtain ⟨hposition, hretries, _⟩ := Client.giveUp_eq_some hc
      cases h.phase with
      | loop _ hzero => omega
      | sent _ hother => simp [hposition] at hother
      | answered _ hother => simp [hposition] at hother
      | ended hother => simp [hposition] at hother

theorem Net.Lockstep.step (h : s.Lockstep chunks old) {a : Action} (ha : PerfectNet s a)
    (hstep : s.step a = some t) : t.Lockstep chunks old ∧ t.left chunks < s.left chunks := by
  have hgive : a ≠ .giveUp := by
    rintro rfl
    simp [h.not_giveUp] at hstep
  have hfifo : FifoNet s a := by
    cases a with
    | toServer f => exact ha.elim
    | toClient f => exact ha.elim
    | _ => trivial
  have haligned := h.toAligned.step hfifo (fun heq => (hgive heq).elim) hstep
  suffices hphase : t.Phase ∧ t.left chunks < s.left chunks from
    ⟨⟨haligned, hphase.1⟩, hphase.2⟩
  cases a with
  | transmit drop =>
      obtain rfl : drop = false := ha
      exact h.transmit hstep
  | serverReceive callee caller data drop =>
      obtain rfl : drop = false := ha
      exact h.serverReceive hstep
  | clientReceive beyond => exact h.clientReceive hstep
  | giveUp => exact (hgive rfl).elim
  | timeout => exact ha.elim
  | toServer f => exact ha.elim
  | toClient f => exact ha.elim

/-- Over a perfect channel the programs only stop when both are through. -/
theorem Net.Lockstep.through_of_stuck (h : s.Lockstep chunks old)
    (hstuck : Stuck Net.step PerfectNet s) :
    s.client.position = .done ∧ s.server.running = false ∧
      s.server.delivered = contents chunks := by
  cases h.phase with
  | loop hposition hretries =>
      have hnone := hstuck (.transmit false) rfl
      simp [Net.step, Client.transmit, hposition, hretries] at hnone
  | sent m hposition _ htoServer _ haccepted =>
      have hle := h.client.index_le
      have hrunning : s.server.running = true := by
        by_contra hstopped
        have hmem := h.running.mp (by simpa using hstopped)
        rw [h.accepted, List.mem_range] at hmem
        omega
      have hnone := hstuck (.serverReceive (fun _ => 0) (fun _ => 0) (.replicate 10 0) false) rfl
      simp [Net.step, hrunning, htoServer] at hnone
  | answered m hposition _ _ htoClient =>
      have hnone := hstuck (.clientReceive fun _ => 0) trivial
      simp [Net.step, hposition, htoClient] at hnone
  | ended hposition _ _ haccepted hfinal =>
      have hindex := h.client.final.mp hfinal
      refine ⟨hposition, h.running.mpr ?_, ?_⟩
      · rw [h.accepted, List.mem_range]
        omega
      · rw [h.delivered_eq_take, List.take_of_length_le (by omega)]

/-- A transfer leaves the source and nothing else when the old destination was no longer. -/
theorem ends_transferred_iff (serverAddr : SockAddr) (chunks : List Chunk) (old : List UInt8)
    (buffer finalData : Vector UInt8 10) :
    Ends Net.step PerfectNet (Net.start serverAddr chunks old buffer finalData)
      (Net.Transferred chunks) ↔ old.length ≤ (contents chunks).length := by
  have hstart := Net.start_lockstep serverAddr chunks old buffer finalData
  refine ends_iff (fun es t h => h.length_le (μ := Net.left chunks)
    (fun _ _ _ hs ha hstep => (Net.Lockstep.step hs ha hstep).1)
    (fun _ _ _ hs ha hstep => (hs.step ha hstep).2) hstart) ?_
  intro es t h hstuck
  have hinv : t.Lockstep chunks old :=
    h.invariant (fun _ _ _ hs ha hstep => (Net.Lockstep.step hs ha hstep).1) hstart
  obtain ⟨hposition, hrunning, hdelivered⟩ := hinv.through_of_stuck hstuck
  rw [Net.Transferred, hinv.file, hdelivered, OpenFile.content_reopen_write_eq_iff]
  exact ⟨fun hall => hall.2.2, fun hle => ⟨hposition, hrunning, hle⟩⟩

end NetLabs.StopWait
