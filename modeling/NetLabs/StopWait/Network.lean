import NetLabs.Library.Machine
import NetLabs.StopWait.Client
import NetLabs.StopWait.Server

/-! # Client, server and the two directions of the socket

An action names every choice that the programs do not make themselves: the two calls of
`rand`, the timer, the order of deliveries, the faults of the network, and the contents of
memory that is never assigned. -/

namespace NetLabs.StopWait

open Channel Machine

/-- A packet in `toServer` is tagged with its number, an ACK in `toClient` with the number
of packets the server had accepted when it sent it. -/
structure Net where
  client : Client
  server : Server
  serverAddr : SockAddr
  toServer : List (Message Packet)
  toClient : List (Message Packet)
  deriving DecidableEq, Repr

inductive Action where
  | transmit (drop : Bool)
  | giveUp
  | timeout
  | clientReceive (beyond : ℕ → UInt8)
  | serverReceive (callee caller : ℕ → UInt8) (data : Vector UInt8 10) (drop : Bool)
  | toServer (f : Fault Packet)
  | toClient (f : Fault Packet)

/-- A datagram reaches the server only if it is addressed to it. -/
def Net.send (s : Net) (c : Client) (packet : Option Packet) : Net :=
  match packet with
  | some packet =>
      if c.servAddr = s.serverAddr then
        { s with client := c, toServer := s.toServer ++ [⟨c.index, packet⟩] }
      else { s with client := c }
  | none => { s with client := c }

def Net.acknowledge (s : Net) (server : Server) (ack : Option Packet) : Net :=
  match ack with
  | some ack =>
      { s with server, toClient := s.toClient ++ [⟨server.accepted.length, ack⟩] }
  | none => { s with server }

def Net.step (s : Net) : Action → Option Net
  | .transmit drop => (s.client.transmit drop).map fun (c, packet) => s.send c packet
  | .giveUp => s.client.giveUp.map fun c => { s with client := c }
  | .timeout => s.client.timeout.map fun c => { s with client := c }
  | .clientReceive beyond =>
      match s.client.position, s.toClient with
      | .select, m :: rest =>
          some { s with
            client := s.client.receive beyond s.serverAddr m.body
            toClient := rest }
      | _, _ => none
  | .serverReceive callee caller data drop =>
      match s.server.running, s.toServer with
      | true, m :: rest =>
          let (server, ack) := s.server.receive callee caller data drop m
          some (({ s with toServer := rest }).acknowledge server ack)
      | _, _ => none
  | .toServer f => (f.apply s.toServer).map fun c => { s with toServer := c }
  | .toClient f => (f.apply s.toClient).map fun c => { s with toClient := c }

/-- A client before its first packet, with any server at the other end, running or not: a
source that `read` will bring in `chunks`, and whatever the uninitialised buffers hold. -/
def Net.startWith (server : Server) (serverAddr : SockAddr) (chunks : List Chunk)
    (buffer finalData : Vector UInt8 10) : Net where
  client := .start serverAddr chunks buffer finalData
  server := server
  serverAddr := serverAddr
  toServer := []
  toClient := []

/-- Both programs before the first packet, with a destination that holds `old`. -/
def Net.start (serverAddr : SockAddr) (chunks : List Chunk) (old : List UInt8)
    (buffer finalData : Vector UInt8 10) : Net :=
  .startWith (.start old) serverAddr chunks buffer finalData

/-- A call of `clientSend` in which every packet is dropped on purpose and every `select`
times out. -/
def abandonedCall : List Action :=
  [.transmit true, .timeout, .transmit true, .timeout, .transmit true, .timeout, .giveUp]

/-! ## What one action does -/

theorem Client.transmit_eq_some {drop : Bool} {c c' : Client} {packet : Option Packet}
    (h : c.transmit drop = some (c', packet)) :
    c.position = .loop ∧ c.retries < 3 ∧
      ((packet = none ∧
          c' = { c with position := .select, selects := c.selects ++ [c.index] }) ∨
        (packet = some c.packet.seal ∧
          c' = { c with
            position := .select
            selects := c.selects ++ [c.index]
            packet := c.packet.seal })) := by
  unfold Client.transmit at h
  split at h
  · rename_i hguard
    refine ⟨hguard.1, hguard.2, ?_⟩
    cases drop with
    | true =>
        simp only [if_true, Option.some.injEq, Prod.mk.injEq] at h
        exact .inl ⟨h.2.symm, h.1.symm⟩
    | false =>
        simp only [Bool.false_eq_true, if_false, Option.some.injEq, Prod.mk.injEq] at h
        exact .inr ⟨h.2.symm, h.1.symm⟩
  · simp at h

theorem Client.giveUp_eq_some {c c' : Client} (h : c.giveUp = some c') :
    c.position = .loop ∧ 3 ≤ c.retries ∧ c' = c.return := by
  unfold Client.giveUp at h
  split at h
  · rename_i hguard
    exact ⟨hguard.1, hguard.2, (Option.some.inj h).symm⟩
  · simp at h

theorem Client.timeout_eq_some {c c' : Client} (h : c.timeout = some c') :
    c.position = .select ∧ c' = { c with retries := c.retries + 1, position := .loop } := by
  unfold Client.timeout at h
  split at h
  · rename_i hguard
    exact ⟨hguard, (Option.some.inj h).symm⟩
  · simp at h

theorem Net.step_clientReceive {s s' : Net} {beyond : ℕ → UInt8}
    (h : s.step (.clientReceive beyond) = some s') :
    s.client.position = .select ∧ ∃ m rest, s.toClient = m :: rest ∧
      s' = { s with
        client := s.client.receive beyond s.serverAddr m.body
        toClient := rest } := by
  simp only [Net.step] at h
  split at h
  · rename_i m rest hposition hchannel
    exact ⟨hposition, m, rest, hchannel, (Option.some.inj h).symm⟩
  · simp at h

theorem Net.step_serverReceive {s s' : Net} {callee caller : ℕ → UInt8}
    {data : Vector UInt8 10} {drop : Bool}
    (h : s.step (.serverReceive callee caller data drop) = some s') :
    s.server.running = true ∧ ∃ m rest, s.toServer = m :: rest ∧
      s' = ({ s with toServer := rest }).acknowledge
        (s.server.receive callee caller data drop m).1
        (s.server.receive callee caller data drop m).2 := by
  simp only [Net.step] at h
  split at h
  · rename_i m rest hrunning hchannel
    exact ⟨hrunning, m, rest, hchannel, (Option.some.inj h).symm⟩
  · simp at h

@[simp] theorem Net.send_client (s : Net) (c : Client) (packet : Option Packet) :
    (s.send c packet).client = c := by
  unfold Net.send
  split
  · split <;> rfl
  · rfl

@[simp] theorem Net.send_server (s : Net) (c : Client) (packet : Option Packet) :
    (s.send c packet).server = s.server := by
  unfold Net.send
  split
  · split <;> rfl
  · rfl

@[simp] theorem Net.send_serverAddr (s : Net) (c : Client) (packet : Option Packet) :
    (s.send c packet).serverAddr = s.serverAddr := by
  unfold Net.send
  split
  · split <;> rfl
  · rfl

/-- Only the server and the channel to the client change when the server answers. -/
theorem Net.acknowledge_eq (s : Net) (server : Server) (ack : Option Packet) :
    s.acknowledge server ack =
      { s with
        server
        toClient := s.toClient ++
          ack.toList.map fun packet => ⟨server.accepted.length, packet⟩ } := by
  cases ack <;> simp [Net.acknowledge]

end NetLabs.StopWait
