import NetLabs.Library.Machine
import NetLabs.UdpCopy.Programs

/-! # Client and server in lockstep

There is never more than one datagram in transit, so a loss leaves both programs waiting, but
nothing can get out of order. -/

namespace NetLabs.UdpCopy

open Channel Machine

/-- A packet in `toServer` is tagged with its number, an ACK in `toClient` with the number
of packets the server had accepted when it sent it. -/
structure Net where
  client : Client
  server : Server
  toServer : List (Message Packet)
  toClient : List (Message Packet)
  deriving DecidableEq, Repr

inductive Action where
  | send
  | clientReceive
  | serverReceive (beyond : ℕ → UInt8)
  | toServer (f : Fault Packet)
  | toClient (f : Fault Packet)

def Net.step (s : Net) : Action → Option Net
  | .send => s.client.send.map fun (c, packet) =>
      { s with client := c, toServer := s.toServer ++ [⟨c.index, packet⟩] }
  | .clientReceive =>
      match s.client.position, s.toClient with
      | .recv, _ :: rest => some { s with client := s.client.receive, toClient := rest }
      | _, _ => none
  | .serverReceive beyond =>
      match s.server.running, s.toServer with
      | true, m :: rest =>
          let (server, packet) := s.server.receive beyond m
          some { s with
            server
            toServer := rest
            toClient := s.toClient ++ [⟨server.accepted.length, packet⟩] }
      | _, _ => none
  | .toServer f => (f.apply s.toServer).map fun c => { s with toServer := c }
  | .toClient f => (f.apply s.toClient).map fun c => { s with toClient := c }

/-- A source that `read` will bring in `chunks`, and a destination holding `old`. -/
def Net.start (chunks : List Chunk) (old : List UInt8) (buffer finalData : Vector UInt8 10) :
    Net where
  client := .start chunks buffer finalData
  server := .start old
  toServer := []
  toClient := []

/-- The network does nothing to a datagram but, if `lossy`, lose it. -/
def Channels (lossy : Prop) (_ : Net) : Action → Prop
  | .toServer f => lossy ∧ f.Lossy
  | .toClient f => lossy ∧ f.Lossy
  | _ => True

/-! ## The invariant -/

/-- How far the exchange of the client's packet has come. -/
inductive Net.Phase (lossy : Prop) (s : Net) : Prop
  | toSend (position : s.client.position = .send) (toServer : s.toServer = [])
      (toClient : s.toClient = []) (accepted : s.server.accepted.length = s.client.index)
  | sent (position : s.client.position = .recv)
      (toServer : s.toServer = [⟨s.client.index, s.client.packet⟩])
      (toClient : s.toClient = []) (accepted : s.server.accepted.length = s.client.index)
  | answered (m : Message Packet) (position : s.client.position = .recv)
      (toServer : s.toServer = []) (toClient : s.toClient = [m])
      (accepted : s.server.accepted.length = s.client.index + 1)
  | lost (lossy : lossy) (position : s.client.position = .recv) (toServer : s.toServer = [])
      (toClient : s.toClient = [])
      (accepted : s.server.accepted.length = s.client.index ∨
        s.server.accepted.length = s.client.index + 1)
  | ended (position : s.client.position = .done) (toServer : s.toServer = [])
      (toClient : s.toClient = []) (accepted : s.server.accepted.length = s.client.index + 1)
      (final : s.client.final = true)

structure Net.Lockstep (lossy : Prop) (chunks : List Chunk) (old : List UInt8) (s : Net) :
    Prop where
  client : s.client.Consistent chunks
  phase : s.Phase lossy
  indices : s.server.accepted.map Message.tag = List.range s.server.accepted.length
  carried : ∀ m ∈ s.server.accepted, Carries chunks m.tag m.body
  running : s.server.running = false ↔ s.server.accepted.length = chunks.length + 1
  file : s.server.file =
    (OpenFile.reopen old).write (contents (chunks.take s.server.accepted.length))

section Lockstep

variable {lossy : Prop} {chunks : List Chunk} {old : List UInt8} {s t : Net}

theorem Net.Phase.of_send (h : s.Phase lossy) (hposition : s.client.position = .send) :
    s.toServer = [] ∧ s.toClient = [] ∧ s.server.accepted.length = s.client.index := by
  cases h with
  | toSend _ htoServer htoClient haccepted => exact ⟨htoServer, htoClient, haccepted⟩
  | sent hother => simp [hposition] at hother
  | answered _ hother => simp [hposition] at hother
  | lost _ hother => simp [hposition] at hother
  | ended hother => simp [hposition] at hother

theorem Net.Phase.of_toServer (h : s.Phase lossy) (hqueue : s.toServer ≠ []) :
    s.client.position = .recv ∧ s.toServer = [⟨s.client.index, s.client.packet⟩] ∧
      s.toClient = [] ∧ s.server.accepted.length = s.client.index := by
  cases h with
  | sent hposition htoServer htoClient haccepted =>
      exact ⟨hposition, htoServer, htoClient, haccepted⟩
  | toSend _ htoServer => exact (hqueue htoServer).elim
  | answered _ _ htoServer => exact (hqueue htoServer).elim
  | lost _ _ htoServer => exact (hqueue htoServer).elim
  | ended _ htoServer => exact (hqueue htoServer).elim

theorem Net.Phase.of_toClient (h : s.Phase lossy) (hqueue : s.toClient ≠ []) :
    s.client.position = .recv ∧ s.toServer = [] ∧ s.toClient.length = 1 ∧
      s.server.accepted.length = s.client.index + 1 := by
  cases h with
  | answered m hposition htoServer htoClient haccepted =>
      exact ⟨hposition, htoServer, by simp [htoClient], haccepted⟩
  | toSend _ _ htoClient => exact (hqueue htoClient).elim
  | sent _ _ htoClient => exact (hqueue htoClient).elim
  | lost _ _ _ htoClient => exact (hqueue htoClient).elim
  | ended _ _ htoClient => exact (hqueue htoClient).elim

theorem Net.start_lockstep (lossy : Prop) (chunks : List Chunk) (old : List UInt8)
    (buffer finalData : Vector UInt8 10) :
    (Net.start chunks old buffer finalData).Lockstep lossy chunks old where
  client := Client.start_consistent chunks buffer finalData
  phase := .toSend (Client.load_position _) rfl rfl
    (by simp [Net.start, Server.start, Client.start])
  indices := rfl
  carried := by simp [Net.start, Server.start]
  running := by simp [Net.start, Server.start]
  file := by simp [Net.start, Server.start]

/-- A step of the client or of the network leaves the server's part of the invariant. -/
theorem Net.Lockstep.of_server (h : s.Lockstep lossy chunks old)
    (hserver : t.server = s.server) (hclient : t.client.Consistent chunks)
    (hphase : t.Phase lossy) : t.Lockstep lossy chunks old where
  client := hclient
  phase := hphase
  indices := hserver ▸ h.indices
  carried := hserver ▸ h.carried
  running := hserver ▸ h.running
  file := hserver ▸ h.file

theorem Net.step_send (h : s.step .send = some t) :
    s.client.position = .send ∧ t = { s with
      client := { s.client with position := .recv }
      toServer := s.toServer ++ [⟨s.client.index, s.client.packet⟩] } := by
  obtain ⟨⟨c, packet⟩, hsend, rfl⟩ := Option.map_eq_some_iff.mp h
  unfold Client.send at hsend
  split at hsend
  · rename_i hposition
    simp only [Option.some.injEq, Prod.mk.injEq] at hsend
    obtain ⟨rfl, rfl⟩ := hsend
    exact ⟨hposition, rfl⟩
  · simp at hsend

theorem Net.Lockstep.send (h : s.Lockstep lossy chunks old) (hstep : s.step .send = some t) :
    t.Lockstep lossy chunks old := by
  obtain ⟨hposition, rfl⟩ := Net.step_send hstep
  obtain ⟨htoServer, htoClient, haccepted⟩ := h.phase.of_send hposition
  refine h.of_server rfl ⟨h.client.carries, h.client.todo, h.client.final⟩ ?_
  exact .sent rfl (by simp [htoServer]) htoClient haccepted

theorem Net.step_clientReceive (h : s.step .clientReceive = some t) :
    s.client.position = .recv ∧ ∃ m rest, s.toClient = m :: rest ∧
      t = { s with client := s.client.receive, toClient := rest } := by
  simp only [Net.step] at h
  split at h
  · rename_i m rest hposition hchannel
    exact ⟨hposition, m, rest, hchannel, (Option.some.inj h).symm⟩
  · simp at h

theorem Net.Lockstep.clientReceive (h : s.Lockstep lossy chunks old)
    (hstep : s.step .clientReceive = some t) : t.Lockstep lossy chunks old := by
  obtain ⟨_, m, rest, hqueue, rfl⟩ := Net.step_clientReceive hstep
  obtain ⟨_, htoServer, hone, haccepted⟩ := h.phase.of_toClient (by simp [hqueue])
  obtain rfl : rest = [] := by simpa [hqueue] using hone
  refine h.of_server rfl (Client.receive_consistent h.client) ?_
  cases hfinal : s.client.final with
  | true =>
      have hclient := Client.receive_final hfinal
      exact .ended (by simp [hclient]) htoServer rfl (by simp [hclient, haccepted])
        (by simp [hclient, hfinal])
  | false =>
      obtain ⟨hindex, hposition⟩ := Client.receive_chunk hfinal
      exact .toSend hposition htoServer rfl (by rw [hindex]; exact haccepted)

theorem Net.step_serverReceive {beyond : ℕ → UInt8}
    (h : s.step (.serverReceive beyond) = some t) :
    s.server.running = true ∧ ∃ m rest, s.toServer = m :: rest ∧
      t = { s with
        server := (s.server.receive beyond m).1
        toServer := rest
        toClient := s.toClient ++ [⟨s.server.accepted.length + 1, ack⟩] } := by
  simp only [Net.step] at h
  split at h
  · rename_i m rest hrunning hchannel
    refine ⟨hrunning, m, rest, hchannel, ?_⟩
    rw [← Option.some.inj h]
    simp [Server.receive]
  · simp at h

theorem Net.Lockstep.serverReceive (h : s.Lockstep lossy chunks old) {beyond : ℕ → UInt8}
    (hstep : s.step (.serverReceive beyond) = some t) : t.Lockstep lossy chunks old := by
  obtain ⟨_, m, rest, hqueue, rfl⟩ := Net.step_serverReceive hstep
  obtain ⟨hposition, hone, htoClient, haccepted⟩ := h.phase.of_toServer (by simp [hqueue])
  obtain ⟨rfl, rfl⟩ : m = ⟨s.client.index, s.client.packet⟩ ∧ rest = [] := by
    simpa [hqueue] using hone
  have hcarries := h.client.carries
  have hlength : (s.server.receive beyond
      ⟨s.client.index, s.client.packet⟩).1.accepted.length = s.client.index + 1 := by
    simp [Server.receive, haccepted]
  refine ⟨⟨hcarries, h.client.todo, h.client.final⟩, ?_, ?_, ?_, ?_, ?_⟩
  · exact .answered _ hposition rfl (by simp only [htoClient]; rfl) hlength
  · dsimp only
    rw [hlength, List.range_succ, ← haccepted, ← h.indices]
    simp [Server.receive, haccepted]
  · exact forall_mem_snoc h.carried hcarries
  · dsimp only
    rw [hlength]
    simp only [Server.receive, decide_eq_false_iff_not, not_not]
    rw [hcarries.len_eq_zero_iff]
    omega
  · dsimp only
    rw [hlength, ← flatMap_bytesAt_range, List.range_succ, List.flatMap_append,
      flatMap_bytesAt_range, ← OpenFile.write_write]
    simp only [Server.receive, hcarries.writtenBytes_eq, h.file, haccepted,
      List.flatMap_cons, List.flatMap_nil, List.append_nil]

/-- Losing the one datagram in transit leaves both programs waiting. -/
theorem Net.Lockstep.loseToServer (h : s.Lockstep lossy chunks old) {f : Fault Packet}
    (hlossy : lossy) (hf : f.Lossy) (hstep : s.step (.toServer f) = some t) :
    t.Lockstep lossy chunks old := by
  obtain ⟨c, hc, rfl⟩ := Option.map_eq_some_iff.mp hstep
  have hlength := hf.length_succ hc
  have hqueue : s.toServer ≠ [] := List.ne_nil_of_length_eq_add_one hlength.symm
  obtain ⟨hposition, hone, htoClient, haccepted⟩ := h.phase.of_toServer hqueue
  have hnil : c = [] := by simpa [hone] using hlength
  exact h.of_server rfl h.client (.lost hlossy hposition hnil htoClient (.inl haccepted))

theorem Net.Lockstep.loseToClient (h : s.Lockstep lossy chunks old) {f : Fault Packet}
    (hlossy : lossy) (hf : f.Lossy) (hstep : s.step (.toClient f) = some t) :
    t.Lockstep lossy chunks old := by
  obtain ⟨c, hc, rfl⟩ := Option.map_eq_some_iff.mp hstep
  have hlength := hf.length_succ hc
  have hqueue : s.toClient ≠ [] := List.ne_nil_of_length_eq_add_one hlength.symm
  obtain ⟨hposition, htoServer, hone, haccepted⟩ := h.phase.of_toClient hqueue
  have hnil : c = [] := List.length_eq_zero_iff.mp (by omega)
  exact h.of_server rfl h.client (.lost hlossy hposition htoServer hnil (.inr haccepted))

/-- Every step keeps the invariant. -/
theorem Net.Lockstep.step (h : s.Lockstep lossy chunks old) {a : Action}
    (ha : Channels lossy s a) (hstep : s.step a = some t) : t.Lockstep lossy chunks old := by
  cases a with
  | send => exact h.send hstep
  | clientReceive => exact h.clientReceive hstep
  | serverReceive beyond => exact h.serverReceive hstep
  | toServer f => exact h.loseToServer ha.1 ha.2 hstep
  | toClient f => exact h.loseToClient ha.1 ha.2 hstep

theorem Net.lockstep_of_run {buffer finalData : Vector UInt8 10} {es : List Action}
    (h : Run Net.step (Channels lossy) (.start chunks old buffer finalData) es t) :
    t.Lockstep lossy chunks old :=
  h.invariant (fun _ _ _ hs ha hstep => hs.step ha hstep)
    (Net.start_lockstep lossy chunks old buffer finalData)

/-! ## What a loss cannot spoil -/

theorem Net.Phase.flight_le (h : s.Phase lossy) : s.toServer.length + s.toClient.length ≤ 1 := by
  cases h with
  | toSend _ htoServer htoClient => simp [htoServer, htoClient]
  | sent _ htoServer htoClient => simp [htoServer, htoClient]
  | answered _ _ htoServer htoClient => simp [htoServer, htoClient]
  | lost _ _ htoServer htoClient => simp [htoServer, htoClient]
  | ended _ htoServer htoClient => simp [htoServer, htoClient]

theorem Net.Phase.accepted_length (h : s.Phase lossy) :
    s.server.accepted.length = s.client.index ∨
      s.server.accepted.length = s.client.index + 1 := by
  cases h with
  | toSend _ _ _ haccepted => exact .inl haccepted
  | sent _ _ _ haccepted => exact .inl haccepted
  | answered _ _ _ _ haccepted => exact .inr haccepted
  | lost _ _ _ _ haccepted => exact haccepted
  | ended _ _ _ haccepted => exact .inr haccepted

/-- The client has left its packet: for the next one, or with the last for good. -/
def Client.MovedOn (c c' : Client) : Prop :=
  c'.index ≠ c.index ∨ c.position ≠ .done ∧ c'.position = .done

/-- The client leaves its packet only by taking an ACK. -/
theorem Net.eq_clientReceive {a : Action} (hstep : s.step a = some t)
    (hmoved : s.client.MovedOn t.client) : a = .clientReceive := by
  cases a with
  | clientReceive => rfl
  | send =>
      obtain ⟨_, rfl⟩ := Net.step_send hstep
      simp [Client.MovedOn] at hmoved
  | serverReceive beyond =>
      obtain ⟨_, m, rest, _, rfl⟩ := Net.step_serverReceive hstep
      exact absurd hmoved (by simp [Client.MovedOn])
  | toServer f =>
      obtain ⟨_, _, rfl⟩ := Option.map_eq_some_iff.mp hstep
      exact absurd hmoved (by simp [Client.MovedOn])
  | toClient f =>
      obtain ⟨_, _, rfl⟩ := Option.map_eq_some_iff.mp hstep
      exact absurd hmoved (by simp [Client.MovedOn])

end Lockstep

/-- Over channels that lose and delay, at all times at most one datagram is in transit; the
server has accepted the packets before the client's packet `k`, or these and packet `k`, each
with the bytes of its chunk; the client leaves packet `k` only when it is accepted, and the
server its loop only with the whole file. -/
theorem loss_only_blocks (chunks : List Chunk) (old : List UInt8)
    (buffer finalData : Vector UInt8 10) (es : List Action) (t : Net)
    (h : Run Net.step (Channels True) (.start chunks old buffer finalData) es t) :
    t.toServer.length + t.toClient.length ≤ 1 ∧
    (t.server.accepted.length = t.client.index ∨
      t.server.accepted.length = t.client.index + 1) ∧
    t.server.accepted.map Message.tag = List.range t.server.accepted.length ∧
    (∀ m ∈ t.server.accepted, Carries chunks m.tag m.body) ∧
    t.server.file =
      (OpenFile.reopen old).write (contents (chunks.take t.server.accepted.length)) ∧
    (∀ a u, t.step a = some u → t.client.MovedOn u.client →
      t.server.accepted.length = t.client.index + 1) ∧
    (t.server.running = false → t.server.accepted.length = chunks.length + 1) := by
  have hinv := Net.lockstep_of_run h
  refine ⟨hinv.phase.flight_le, hinv.phase.accepted_length, hinv.indices, hinv.carried,
    hinv.file, ?_, hinv.running.mp⟩
  intro a u hstep hmoved
  obtain rfl := Net.eq_clientReceive hstep hmoved
  obtain ⟨_, m, rest, hqueue, _⟩ := Net.step_clientReceive hstep
  exact (hinv.phase.of_toClient (by simp [hqueue])).2.2.2

/-- The ACK of the first chunk is lost: the server has the chunk, and both wait for ever. -/
theorem loss_only_blocks_lostAck :
    ∃ (chunks : List Chunk) (es : List Action) (t : Net),
      Run Net.step (Channels True) (.start chunks [] (.replicate 10 0) (.replicate 10 0)) es t ∧
      t.server.accepted.length = 1 ∧ t.client.index = 0 ∧
      t.toServer.length + t.toClient.length ≤ 1 := by
  let chunks : List Chunk := [⟨[101], by decide, by decide⟩]
  let run : List Action := [.send, .serverReceive fun _ => 0, .toClient (.lose 0)]
  obtain ⟨t, hrun, hobs⟩ : ∃ t, Run Net.step (Channels True)
      (.start chunks [] (.replicate 10 0) (.replicate 10 0)) run t ∧
        (t.server.accepted.length, t.client.index) = (1, 0) :=
    Run.exists_of_exec (by simp [run, Channels, Fault.Lossy]) (by decide)
  obtain ⟨haccepted, hindex⟩ := Prod.mk.inj hobs
  exact ⟨chunks, run, t, hrun, haccepted, hindex, (loss_only_blocks chunks _ _ _ run t hrun).1⟩

end NetLabs.UdpCopy
