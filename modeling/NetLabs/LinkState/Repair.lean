import NetLabs.LinkState.Agreement
import NetLabs.LinkState.History
import NetLabs.LinkState.Unreliable

/-! # Tables that are repaired

Where updates were lost, repeated or reordered, the routers may disagree on a link for as long
as nobody edits it. The next edit that is not contested puts this right. -/

namespace NetLabs.LinkState

open Broadcast Machine

variable {N rounds : ℕ} {s t : System N}

/-! ## Routers that disagree, as copies -/

/-- Every packet on its way is a write to some link. -/
theorem System.Traced.map_write (hN : N ≤ 2 ^ 31) (h : s.Traced) (p q : Fin N) :
    (s.stream p q).map (Packet.write (N := N)) =
      ((s.stream p q).filterMap Packet.write).map some := by
  rw [List.map_filterMap_some_eq_filter_map_isSome, eq_comm, List.filter_eq_self]
  intro w hw
  obtain ⟨packet, hpacket, rfl⟩ := List.mem_map.mp hw
  obtain ⟨_, e, _, _, _, rfl⟩ := h p q packet hpacket
  simp [Packet.write, decode_packetOf (index_ofNat hN p) (index_ofNat hN e.id)]

/-- Whatever the tables of the routers, they are copies of something. -/
theorem System.Traced.exists_refines (hN : N ≤ 2 ^ 31) (h : s.Traced)
    (hsymm : ∀ r i j, (s.routers r).costs i j = (s.routers r).costs j i) :
    ∃ d : Database N, s.Refines d :=
  ⟨{ value := fun r k => k.lift ⟨(s.routers r).costs, hsymm r⟩
     queue := fun p q => (s.stream p q).filterMap Packet.write
     log := s.edits.map Edit.write },
    fun _ _ _ => rfl, h.map_write hN, rfl⟩

theorem System.Refines.queue_self {d : Database N} (h : s.Refines d) (htraced : s.Traced)
    (r : Fin N) : d.queue r r = [] := by
  have hqueue := h.queue r r
  rw [System.stream_self htraced] at hqueue
  exact List.map_eq_nil_iff.mp hqueue.symm

/-- From any state on, uncontested edits lead. -/
theorem System.exists_ledSince (hN : N ≤ 2 ^ 31) (htraced : s.Traced)
    (hsymm : ∀ r i j, (s.routers r).costs i j = (s.routers r).costs j i)
    {fs : List (SystemAction N)}
    (h : Run (System.step rounds) (fun _ _ => True) s fs t) :
    ∃ d : Database N, t.Refines d ∧ d.LedSince s.edits.length := by
  obtain ⟨d, hd⟩ := htraced.exists_refines hN hsymm
  have hlength : d.log.length = s.edits.length := by
    rw [← hd.log, List.length_map]
  have hstart : s.Traced ∧ ∃ d : Database N, s.Refines d ∧ d.LedSince s.edits.length :=
    ⟨htraced, d, hd, hlength ▸ d.ledSince_length⟩
  refine (h.invariant (P := fun t => t.Traced ∧ ∃ d : Database N, t.Refines d ∧
    d.LedSince s.edits.length) ?_ hstart).2
  rintro t a u ⟨htraced, d, hd, hled⟩ _ hstep
  refine ⟨htraced.step hN hstep, ?_⟩
  rcases hd.step hN hstep with hsame | ⟨b, d', hb, hd'⟩
  · exact ⟨d, hsame, hled⟩
  · exact ⟨d', hd', hled.step (hd.queue_self htraced) hb⟩

/-! ## Edits after losses -/

/-- Suppose that the network has lost, repeated and reordered packets, so that the tables,
each of which started symmetric, differ, and does so no longer. If the last edit that is made
of a link from then on is not contested, every router that no update of this link is still on
its way to has the cost that was entered. -/
theorem edit_repairs (rounds : ℕ) (hN : N ≤ 2 ^ 31) (tables : Fin N → Costs N)
    (hsymm : ∀ r i j, tables r i j = tables r j i)
    (es : List (Unreliable (SystemAction N) N)) (s : System N)
    (h : Run (System.unreliableStep rounds) (fun _ _ => True) (.boot tables) es s)
    (fs : List (SystemAction N)) (t : System N)
    (h' : Run (System.step rounds) (fun _ _ => True) s fs t) (i j : Fin N) (e : Edit N)
    (he : lastEdit (t.edits.drop s.edits.length) i j = some e) (hfree : e.contested = false)
    (r : Fin N) (hstored : ∀ sender, (t.stream sender r).any (Packet.about i j) = false) :
    (t.routers r).costs i j = e.cost := by
  obtain ⟨d, hd, _, hleads⟩ := System.exists_ledSince hN
    (System.sourced_of_unreliable hN h).traced (System.symm_of_unreliable hsymm h) h'
  have hlast : lastWrite (d.log.drop s.edits.length) s(i, j) = some e.write := by
    rw [← hd.log, ← List.map_drop, lastWrite_map, he, Option.map_some]
  have hkey : e.write.key = s(i, j) := (mem_of_lastWrite hlast).2
  have hvalue := (hleads _ _ hlast hfree).value_eq (p := r) ?_
  · rw [hkey] at hvalue
    exact (hd.value r i j).trans hvalue
  · rw [hkey]
    intro hmem
    obtain ⟨⟨_, cost⟩, hu, rfl⟩ := List.mem_map.mp hmem
    have hpacket : some (s(i, j), cost) ∈ (t.stream e.editor r).map Packet.write := by
      rw [hd.queue]
      exact List.mem_map_of_mem hu
    obtain ⟨packet, hpacket, hwrite⟩ := List.mem_map.mp hpacket
    have habout : (t.stream e.editor r).any (Packet.about i j) = true :=
      List.any_eq_true.mpr ⟨packet, hpacket, Packet.about_iff.mpr ⟨cost, hwrite⟩⟩
    rw [hstored] at habout
    simp at habout

/-- Router 1 has missed the first edit of router 0 for good, and has stored the second one. -/
theorem edit_repairs_missed :
    ∃ (es : List (Unreliable (SystemAction 2) 2)) (fs : List (SystemAction 2)) (s t : System 2),
      Run (System.unreliableStep 3) (fun _ _ => True) (.boot fun _ _ _ => 900) es s ∧
      Run (System.step 3) (fun _ _ => True) s fs t ∧ s.Quiet ∧
      (s.routers 0).costs 0 1 = 5 ∧ (s.routers 1).costs 0 1 = 900 ∧
      (t.routers 1).costs 0 1 = 6 := by
  let es : List (Unreliable (SystemAction 2) 2) :=
    [.step (.enter 0 1 5), .step (.send 0), .step (.send 0), .step (.send 0), .network 0 1 []]
  let fs : List (SystemAction 2) := [.enter 0 1 6, .send 0, .send 0, .recv 1 0, .store 1]
  let s : System 2 :=
    (exec (System.unreliableStep 3) (.boot fun _ _ _ => 900) es).get (by decide +kernel)
  let t : System 2 := (exec (System.step 3) s fs).get (by decide +kernel)
  have hrun : Run (System.unreliableStep 3) (fun _ _ => True) (.boot fun _ _ _ => 900) es s :=
    .of_get (fun _ _ _ => trivial) _
  have hrun' : Run (System.step 3) (fun _ _ => True) s fs t := .of_get (fun _ _ _ => trivial) _
  exact ⟨es, fs, s, t, hrun, hrun', by decide +kernel, by decide +kernel, by decide +kernel,
    edit_repairs 3 (by decide) _ (fun _ _ _ => rfl) es s hrun fs t hrun' 0 1 ⟨0, 1, 6, false⟩
      (by decide +kernel) rfl 1 (by decide +kernel)⟩

end NetLabs.LinkState
