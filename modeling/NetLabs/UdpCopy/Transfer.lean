import NetLabs.UdpCopy.Network

/-! # Complete transfers over a perfect channel -/

namespace NetLabs.UdpCopy

open Channel Machine

/-- Both programs have left their loops, and the destination holds the source. -/
def Net.Transferred (chunks : List Chunk) (s : Net) : Prop :=
  s.client.position = .done ∧ s.server.running = false ∧
    s.server.file.content = contents chunks

/-- The steps left: three for each packet. -/
def Net.left (chunks : List Chunk) (s : Net) : ℕ :=
  3 * (chunks.length - s.client.index) +
    match s.client.position with
    | .send => 3
    | .recv => s.toServer.length + 1
    | .done => 0

variable {chunks : List Chunk} {old : List UInt8} {s t : Net}

theorem Net.Lockstep.left_lt (h : s.Lockstep False chunks old) {a : Action}
    (ha : Channels False s a) (hstep : s.step a = some t) :
    t.left chunks < s.left chunks := by
  have hnext := h.step ha hstep
  cases a with
  | send =>
      obtain ⟨hposition, rfl⟩ := Net.step_send hstep
      simp [Net.left, hposition, (h.phase.of_send hposition).1]
  | clientReceive =>
      obtain ⟨hposition, m, rest, hqueue, rfl⟩ := Net.step_clientReceive hstep
      cases hfinal : s.client.final with
      | true => simp [Net.left, Client.receive_final hfinal, hposition]
      | false =>
          obtain ⟨hindex, hposition'⟩ := Client.receive_chunk hfinal
          have hle := hnext.client.carries.index_le
          simp only [Net.left, hindex, hposition, hposition'] at hle ⊢
          omega
  | serverReceive beyond =>
      obtain ⟨_, m, rest, hqueue, rfl⟩ := Net.step_serverReceive hstep
      simp [Net.left, (h.phase.of_toServer (by simp [hqueue])).1, hqueue]
  | toServer f => exact ha.1.elim
  | toClient f => exact ha.1.elim

/-- Over a perfect channel the programs only stop when both are through. -/
theorem Net.Lockstep.through_of_stuck (h : s.Lockstep False chunks old)
    (hstuck : Stuck Net.step (Channels False) s) :
    s.client.position = .done ∧ s.server.running = false ∧
      s.server.accepted.length = chunks.length + 1 := by
  cases h.phase with
  | toSend hposition =>
      have hnone := hstuck .send trivial
      simp [Net.step, Client.send, hposition] at hnone
  | sent hposition htoServer htoClient haccepted =>
      have hle := h.client.carries.index_le
      have hrunning : s.server.running = true := by
        by_contra hstopped
        have := h.running.mp (by simpa using hstopped)
        omega
      have hnone := hstuck (.serverReceive fun _ => 0) trivial
      simp [Net.step, hrunning, htoServer] at hnone
  | answered m hposition htoServer htoClient =>
      have hnone := hstuck .clientReceive trivial
      simp [Net.step, hposition, htoClient] at hnone
  | lost hfalse => exact hfalse.elim
  | ended hposition _ _ haccepted hfinal =>
      have hindex := h.client.final.mp hfinal
      have hall : s.server.accepted.length = chunks.length + 1 := by omega
      exact ⟨hposition, h.running.mpr hall, hall⟩

/-- A transfer leaves the source and nothing else when the old destination was no longer. -/
theorem ends_transferred_iff (chunks : List Chunk) (old : List UInt8)
    (buffer finalData : Vector UInt8 10) :
    Ends Net.step (Channels False) (Net.start chunks old buffer finalData)
      (Net.Transferred chunks) ↔ old.length ≤ (contents chunks).length := by
  refine ends_iff (fun es t h => h.length_le (μ := Net.left chunks)
    (fun _ _ _ hs ha hstep => Net.Lockstep.step hs ha hstep)
    (fun _ _ _ hs ha hstep => hs.left_lt ha hstep)
    (Net.start_lockstep False chunks old buffer finalData)) ?_
  intro es t h hstuck
  have hinv := Net.lockstep_of_run h
  obtain ⟨hposition, hrunning, haccepted⟩ := hinv.through_of_stuck hstuck
  have hfile := hinv.file
  rw [haccepted, List.take_of_length_le (Nat.le_succ _)] at hfile
  rw [Net.Transferred, hfile, OpenFile.content_reopen_write_eq_iff]
  exact ⟨fun hall => hall.2.2, fun hle => ⟨hposition, hrunning, hle⟩⟩

end NetLabs.UdpCopy
