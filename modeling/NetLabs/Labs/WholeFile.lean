import NetLabs.StopWait.Transfer
import NetLabs.UdpCopy.Transfer

/-! # Whole-file transfer

Both servers open their destination without truncating it, unlike the other copy programs of
the repository. -/

namespace NetLabs

open Machine

/-- A source of one byte over a destination of two: when both programs have left their
loops, the second byte of the old destination is still there. -/
theorem leftover_byte :
    (∃ (chunks : List Chunk) (es : List UdpCopy.Action) (t : UdpCopy.Net),
      Run UdpCopy.Net.step (UdpCopy.Channels False)
        (.start chunks [120, 121] (.replicate 10 0) (.replicate 10 0)) es t ∧
      contents chunks = [97] ∧ t.client.position = .done ∧ t.server.running = false ∧
      t.server.file.content = [97, 121]) ∧
    ∃ (chunks : List Chunk) (es : List StopWait.Action) (t : StopWait.Net),
      Run StopWait.Net.step StopWait.PerfectNet
        (.start ⟨5000, 0⟩ chunks [120, 121] (.replicate 10 0) (.replicate 10 0)) es t ∧
      contents chunks = [97] ∧ t.client.position = .done ∧ t.server.running = false ∧
      t.server.file.content = [97, 121] := by
  let zero : ℕ → UInt8 := fun _ => 0
  let empty : Vector UInt8 10 := .replicate 10 0
  let chunks : List Chunk := [⟨[97], by decide, by decide⟩]
  let copy : List UdpCopy.Action :=
    [.send, .serverReceive zero, .clientReceive, .send, .serverReceive zero, .clientReceive]
  let stopWait : List StopWait.Action :=
    [.transmit false, .serverReceive zero zero empty false, .clientReceive zero,
      .transmit false, .serverReceive zero zero empty false, .clientReceive zero]
  refine ⟨⟨chunks, copy, _, .of_get ?_ (by decide), rfl, by decide⟩,
    ⟨chunks, stopWait, _, .of_get ?_ (by decide), rfl, by decide⟩⟩
  · simp [copy, UdpCopy.Channels]
  · simp [stopWait, StopWait.PerfectNet]

/-- Over perfect channels, both pairs of programs always come to an end, with the source and
nothing else in the destination, exactly when the old destination was no longer than the
source. -/
theorem whole_file_iff (serverAddr : StopWait.SockAddr) (chunks : List Chunk)
    (old : List UInt8) (buffer finalData : Vector UInt8 10) :
    (Ends UdpCopy.Net.step (UdpCopy.Channels False)
        (UdpCopy.Net.start chunks old buffer finalData) (UdpCopy.Net.Transferred chunks) ↔
      old.length ≤ (contents chunks).length) ∧
    (Ends StopWait.Net.step StopWait.PerfectNet
        (StopWait.Net.start serverAddr chunks old buffer finalData)
        (StopWait.Net.Transferred chunks) ↔
      old.length ≤ (contents chunks).length) :=
  ⟨UdpCopy.ends_transferred_iff chunks old buffer finalData,
    StopWait.ends_transferred_iff serverAddr chunks old buffer finalData⟩

end NetLabs
