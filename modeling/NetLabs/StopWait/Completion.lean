import NetLabs.StopWait.Acknowledgement
import NetLabs.StopWait.Termination

/-! # Transfers over channels that lose

Both programs and both channels come to rest: the client always ends, and it has sent only so
many packets that the server can answer. If it has given up only chunks that the server had
accepted, and each at a time when no ACK of the other bit was in flight, the source is
delivered. -/

namespace NetLabs.StopWait

open Channel Machine

/-- A step of one of the programs. -/
def OfProgram (_ : Net) : Action → Prop
  | .toServer _ => False
  | .toClient _ => False
  | _ => True

theorem LossyNet.unordered {s : Net} {a : Action} (h : LossyNet s a) : UnorderedNet s a := by
  cases a with
  | toServer f => cases f <;> simp_all [LossyNet, UnorderedNet, Fault.Lossy, Fault.Unordered]
  | toClient f => cases f <;> simp_all [LossyNet, UnorderedNet, Fault.Lossy, Fault.Unordered]
  | _ => trivial

variable {chunks : List Chunk} {s t : Net}

/-! ## Steps of the server and of the channels -/

/-- A step of the client may put one datagram into a channel, which can cost one step of the
server and one loss. -/
theorem Net.inTransit_step {a : Action} (ha : LossyNet s a) (hstep : s.step a = some t) :
    1 + (2 * t.toServer.length + t.toClient.length) ≤
      2 * s.toServer.length + s.toClient.length + if a.isClient then 3 else 0 := by
  cases a with
  | transmit drop =>
      obtain ⟨⟨c, packet⟩, _, rfl⟩ := Option.map_eq_some_iff.mp hstep
      cases packet with
      | none =>
          simp [Net.send, Action.isClient]
          omega
      | some packet =>
          by_cases haddr : c.servAddr = s.serverAddr
          · simp only [Net.send, haddr, if_true, List.length_append, List.length_singleton,
              Action.isClient]
            omega
          · simp [Net.send, haddr, Action.isClient]
            omega
  | giveUp =>
      obtain ⟨c, _, rfl⟩ := Option.map_eq_some_iff.mp hstep
      simp [Action.isClient]
      omega
  | timeout =>
      obtain ⟨c, _, rfl⟩ := Option.map_eq_some_iff.mp hstep
      simp [Action.isClient]
      omega
  | clientReceive beyond =>
      obtain ⟨_, m, rest, hqueue, rfl⟩ := Net.step_clientReceive hstep
      simp only [hqueue, List.length_cons, Action.isClient, if_true]
      omega
  | serverReceive callee caller data drop =>
      obtain ⟨_, m, rest, hqueue, rfl⟩ := Net.step_serverReceive hstep
      have hone : (s.server.receive callee caller data drop m).2.toList.length ≤ 1 :=
        Option.length_toList_le
      rw [Net.acknowledge_eq]
      simp only [hqueue, List.length_cons, List.length_append, List.length_map, Action.isClient]
      omega
  | toServer f =>
      obtain ⟨c, hc, rfl⟩ := Option.map_eq_some_iff.mp hstep
      have hlength := Fault.Lossy.length_succ ha hc
      simp only [Action.isClient]
      omega
  | toClient f =>
      obtain ⟨c, hc, rfl⟩ := Option.map_eq_some_iff.mp hstep
      have hlength := Fault.Lossy.length_succ ha hc
      simp only [Action.isClient]
      omega

theorem Net.length_le_of_run {es : List Action} (h : Run Net.step LossyNet s es t) :
    es.length + (2 * t.toServer.length + t.toClient.length) ≤
      2 * s.toServer.length + s.toClient.length + 3 * es.countP Action.isClient := by
  induction h with
  | nil => simp
  | @snoc es t a u _ ha hstep ih =>
      have hle := Net.inTransit_step ha hstep
      rw [List.length_append, List.length_singleton, List.countP_append, List.countP_singleton]
      split at hle <;> rename_i hclient <;> simp only [hclient, if_true] <;> omega

/-! ## At rest -/

theorem Client.final_of_return {c : Client} (h : c.return.position = .done) :
    c.return.final = true := by
  cases hfinal : c.final with
  | true =>
      rw [Client.return_final hfinal]
      exact hfinal
  | false => simp [(Client.return_chunk hfinal).2.2] at h

/-- The client ends with the last packet. -/
theorem Net.final_of_step {a : Action} (hstep : s.step a = some t)
    (h : s.client.position = .done → s.client.final = true)
    (hdone : t.client.position = .done) : t.client.final = true := by
  cases a with
  | transmit drop =>
      obtain ⟨⟨c, packet⟩, htransmit, rfl⟩ := Option.map_eq_some_iff.mp hstep
      obtain ⟨_, _, ⟨_, rfl⟩ | ⟨_, rfl⟩⟩ := Client.transmit_eq_some htransmit <;>
        simp at hdone
  | giveUp =>
      obtain ⟨c, hc, rfl⟩ := Option.map_eq_some_iff.mp hstep
      obtain ⟨_, _, rfl⟩ := Client.giveUp_eq_some hc
      exact Client.final_of_return hdone
  | timeout =>
      obtain ⟨c, hc, rfl⟩ := Option.map_eq_some_iff.mp hstep
      obtain ⟨_, rfl⟩ := Client.timeout_eq_some hc
      simp at hdone
  | clientReceive beyond =>
      obtain ⟨_, m, rest, _, rfl⟩ := Net.step_clientReceive hstep
      by_cases hgood : checkAck beyond s.client.packet m.body = .goodAck
      · dsimp only at hdone ⊢
        rw [Client.receive_good hgood] at hdone ⊢
        exact Client.final_of_return hdone
      · simp [Client.receive_bad hgood] at hdone
  | serverReceive callee caller data drop =>
      obtain ⟨_, m, rest, _, rfl⟩ := Net.step_serverReceive hstep
      rw [Net.acknowledge_eq] at hdone ⊢
      exact h hdone
  | toServer f =>
      obtain ⟨c, _, rfl⟩ := Option.map_eq_some_iff.mp hstep
      exact h hdone
  | toClient f =>
      obtain ⟨c, _, rfl⟩ := Option.map_eq_some_iff.mp hstep
      exact h hdone

/-- Where no program has a step left, the client is done and the server has ended or waits. -/
theorem Net.at_rest (h : Stuck Net.step OfProgram s) :
    s.client.position = .done ∧ (s.server.running = true → s.toServer = []) := by
  refine ⟨?_, fun hrunning => ?_⟩
  · by_contra hposition
    obtain ⟨a, hclient, _, hstep⟩ := Net.exists_client_step hposition
    have hprogram : OfProgram s a := by
      cases a <;> simp_all [OfProgram, Action.isClient]
    rw [h a hprogram] at hstep
    simp at hstep
  · cases hqueue : s.toServer with
    | nil => rfl
    | cons m rest =>
        have hnone := h (.serverReceive (fun _ => 0) (fun _ => 0) (.replicate 10 0) false) trivial
        simp [Net.step, hrunning, hqueue] at hnone

/-- Over channels that lose, however much, a run is bounded, and when both programs have come to
rest the client is done and the server has ended or has nothing left to receive. If all that was
given up was settled, the server has then written the whole source, and has ended if it has
received the last packet as well. -/
theorem lossy_runs_end (serverAddr : SockAddr) (chunks : List Chunk) (old : List UInt8)
    (buffer finalData : Vector UInt8 10) (es : List Action) (t : Net)
    (h : Run Net.step LossyNet (.start serverAddr chunks old buffer finalData) es t) :
    es.length ≤ 3 * (3 * (chunks.length + 1) * (chunks.length + 2) + chunks.length + 1) ∧
    (Stuck Net.step OfProgram t →
      t.client.position = .done ∧ (t.server.running = true → t.toServer = [])) ∧
    (Run Net.step SettledGiveUps (.start serverAddr chunks old buffer finalData) es t →
      t.client.position = .done →
        t.server.file = (OpenFile.reopen old).write (contents chunks) ∧
        (t.server.running = false ↔ t.server.accepted.length = chunks.length + 1)) := by
  refine ⟨?_, Net.at_rest, fun hkept hdone => ?_⟩
  · have hseqnum : IsBit (Server.start old).seqnum := .inl rfl
    have hclient := Net.countP_isClient_le hseqnum (h.mono fun _ _ ha => ha.unordered)
    have hlength := Net.length_le_of_run h
    simp only [Net.start, Net.startWith, List.length_nil] at hlength
    omega
  · have hinv : t.Aligned chunks old :=
      hkept.invariant
        (fun _ _ _ hs ha hstep => Net.Aligned.step hs ha.1.fifoNet ha.2 hstep)
        (Net.start_aligned serverAddr chunks old buffer finalData)
    have hfinal : t.client.position = .done → t.client.final = true :=
      h.invariant (P := fun s => s.client.position = .done → s.client.final = true)
        (fun _ _ _ hs _ hstep => Net.final_of_step hstep hs)
        (by simp [Net.start, Net.startWith, Client.start])
    have hindex := hinv.client.final.mp (hfinal hdone)
    have hahead := hinv.ahead
    have hall : t.server.delivered = contents chunks := by
      rw [hinv.delivered_eq_take, List.take_of_length_le (by omega)]
    refine ⟨hall ▸ hinv.file, ?_⟩
    rw [hinv.running, hinv.accepted, List.mem_range]
    omega

/-- The last packet is lost three times: the client gives up, and the server waits for ever
with the whole source in its file. -/
theorem lossy_runs_end_waiting :
    ∃ (chunks : List Chunk) (es : List Action) (t : Net),
      Run Net.step LossyNet (.start ⟨5000, 0⟩ chunks [] (.replicate 10 0) (.replicate 10 0)) es t ∧
      t.server.running = true ∧ t.server.file.content = contents chunks ∧
      es.length ≤ 3 * (3 * (chunks.length + 1) * (chunks.length + 2) + chunks.length + 1) := by
  let zero : ℕ → UInt8 := fun _ => 0
  let empty : Vector UInt8 10 := .replicate 10 0
  let chunks : List Chunk := [⟨[101, 102], by decide, by decide⟩]
  let lost : List Action := [.transmit false, .toServer (.lose 0), .timeout]
  let before : List Action :=
    [.transmit false, .serverReceive zero zero empty false, .clientReceive zero] ++
      (lost ++ lost ++ lost)
  obtain ⟨s, hbefore, hobs⟩ : ∃ s, Run Net.step SettledGiveUps
      (.start ⟨5000, 0⟩ chunks [] empty empty) before s ∧
        (s.client.final, (s.step .giveUp).map fun t => (t.server.running, t.client.position)) =
          (true, some (true, .done)) :=
    Run.exists_of_exec
      (by simp [before, lost, LossyNet, SettledGiveUps, GivesUpSettled, Fault.Lossy])
      (by decide)
  obtain ⟨hfinal, hlast⟩ := Prod.mk.inj hobs
  obtain ⟨t, hstep, hends⟩ := Option.map_eq_some_iff.mp hlast
  obtain ⟨hrunning, hdone⟩ := Prod.mk.inj hends
  have hsettled : SettledGiveUps s .giveUp := ⟨trivial, fun _ => .inl hfinal⟩
  have hkept := hbefore.snoc hsettled hstep
  have hrun := hkept.mono fun _ _ ha => ha.1
  obtain ⟨hbound, _, hwhole⟩ := lossy_runs_end _ chunks _ _ _ _ t hrun
  refine ⟨chunks, _, t, hrun, hrunning, ?_, hbound⟩
  rw [(hwhole hkept hdone).1]
  rfl

end NetLabs.StopWait
