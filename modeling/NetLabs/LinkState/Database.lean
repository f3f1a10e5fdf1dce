import Mathlib.Data.Sym.Sym2
import NetLabs.Library.Broadcast
import NetLabs.LinkState.Router

/-! # The routers as copies of one database

Seen from outside, the routers keep copies of a map from links to costs, and an edit is a
write that is broadcast. Each step of a router is a step of such copies or is not seen. -/

namespace NetLabs.LinkState

open Broadcast Machine

variable {N : ℕ}

abbrev Database (N : ℕ) := Broadcast.State (Fin N) (Sym2 (Fin N)) Int32

/-- A packet as a write to a link. -/
def Packet.write (packet : Packet) : Option (Sym2 (Fin N) × Int32) :=
  packet.decode.map fun (n0, n1, n2) => (s(n0, n1), n2)

def Edit.write (e : Edit N) : Write (Fin N) (Sym2 (Fin N)) Int32 :=
  ⟨e.editor, s(e.editor, e.id), e.cost, e.contested⟩

/-- The routers hold the copies, and the packets on their way carry the writes. -/
structure System.Refines (s : System N) (d : Database N) : Prop where
  value : ∀ r i j, (s.routers r).costs i j = d.value r s(i, j)
  queue : ∀ p q, (s.stream p q).map Packet.write = (d.queue p q).map some
  log : s.edits.map Edit.write = d.log

theorem onLink_iff {a b i j : Fin N} : OnLink a b i j ↔ s(a, b) = s(i, j) := by
  rw [Sym2.eq_iff, OnLink]
  exact or_congr (and_congr eq_comm eq_comm)
    ⟨fun h => ⟨h.2.symm, h.1.symm⟩, fun h => ⟨h.2.symm, h.1.symm⟩⟩

/-- An update of a link is a write to it. -/
theorem setLink_eq_update {costs : Costs N} {value : Sym2 (Fin N) → Int32}
    (h : ∀ i j, costs i j = value s(i, j)) (n0 n1 : Fin N) (n2 : Int32) (i j : Fin N) :
    costs.setLink n0 n1 n2 i j = Function.update value s(n0, n1) n2 s(i, j) := by
  rw [Costs.setLink_apply, Function.update_apply, h]
  by_cases hon : OnLink n0 n1 i j
  · rw [if_pos hon, if_pos (onLink_iff.mp hon).symm]
  · rw [if_neg hon, if_neg fun heq => hon (onLink_iff.mpr heq.symm)]

theorem Packet.about_iff {a b : Fin N} {packet : Packet} :
    packet.about a b = true ↔ ∃ cost, packet.write = some (s(a, b), cost) := by
  simp only [Packet.about, Packet.write, Option.any_eq_true, Option.map_eq_some_iff,
    decide_eq_true_eq, Prod.exists, Prod.mk.injEq]
  constructor
  · rintro ⟨n0, n1, n2, hdecode, hon⟩
    exact ⟨n2, n0, n1, n2, hdecode, (onLink_iff.mp hon).symm, rfl⟩
  · rintro ⟨_, n0, n1, n2, hdecode, heq, _⟩
    exact ⟨n0, n1, n2, hdecode, onLink_iff.mpr heq.symm⟩

variable {s t : System N} {d : Database N}

theorem System.Refines.contested_iff (h : s.Refines d) (myid peer : Fin N) :
    s.Contested myid peer ↔ d.Contested myid s(myid, peer) := by
  have hstream : ∀ p q, (∃ packet ∈ s.stream p q, packet.about myid peer = true) ↔
      s(myid, peer) ∈ (d.queue p q).map Prod.fst := by
    intro p q
    have hmem : ∀ u, u ∈ d.queue p q ↔ some u ∈ (s.stream p q).map Packet.write := by
      intro u
      rw [h.queue]
      simp
    constructor
    · rintro ⟨packet, hpacket, habout⟩
      obtain ⟨cost, hwrite⟩ := Packet.about_iff.mp habout
      exact List.mem_map.mpr
        ⟨_, (hmem _).mpr (List.mem_map.mpr ⟨packet, hpacket, hwrite⟩), rfl⟩
    · intro hkey
      obtain ⟨⟨k, cost⟩, hu, rfl⟩ := List.mem_map.mp hkey
      obtain ⟨packet, hpacket, hwrite⟩ := List.mem_map.mp ((hmem _).mp hu)
      exact ⟨packet, hpacket, Packet.about_iff.mpr ⟨cost, hwrite⟩⟩
  exact exists_congr fun p => and_congr_right fun _ => exists_congr fun q => hstream p q

theorem System.Refines.congr (h : s.Refines d)
    (hcosts : ∀ p, (t.routers p).costs = (s.routers p).costs)
    (hstream : ∀ p q, t.stream p q = s.stream p q) (hedits : t.edits = s.edits) :
    t.Refines d where
  value := fun r i j => (hcosts r) ▸ h.value r i j
  queue := fun p q => (hstream p q) ▸ h.queue p q
  log := hedits ▸ h.log

theorem System.Refines.edit (h : s.Refines d) (hN : N ≤ 2 ^ 31) {myid peer : Fin N} {i : ℕ}
    {id cost : Int32} (hmain : (s.routers myid).main = .prompt i)
    (hpeer : index id = some peer) :
    System.Refines { s.set myid ((s.routers myid).edit i myid id peer cost) with
      edits := s.edits ++ [⟨myid, peer, cost, decide (s.Contested myid peer)⟩] }
      (d.write myid s(myid, peer) cost) := by
  refine ⟨?_, ?_, ?_⟩
  · intro r i j
    by_cases hr : r = myid
    · subst hr
      simp only [System.set, State.write, Function.update_self, Router.edit]
      exact setLink_eq_update (h.value r) r peer cost i j
    · simp only [System.set, State.write, Function.update_of_ne hr]
      exact h.value r i j
  · intro p q
    have hstream := System.stream_edit hmain id peer cost p q
    have hwrite : (packetOf (.ofNat myid) id cost).write = some (s(myid, peer), cost) := by
      simp [Packet.write, decode_packetOf (index_ofNat hN myid) hpeer]
    change ((s.set myid ((s.routers myid).edit i myid id peer cost)).stream p q).map
      Packet.write = _
    rw [hstream]
    by_cases hp : p = myid ∧ q ≠ myid
    · rw [if_pos hp, List.map_append, h.queue]
      simp [State.write, hp, hwrite]
    · rw [if_neg hp, h.queue]
      simp only [State.write, if_neg hp]
  · simp only [State.write, List.map_append, List.map_cons, List.map_nil, h.log, Edit.write,
      h.contested_iff]

theorem System.Refines.store (h : s.Refines d) {rounds : ℕ} {myid : Fin N}
    (hstep : s.step rounds (.store myid) = some t) :
    ∃ b d', d.step b = some d' ∧ t.Refines d' := by
  obtain ⟨sender, packet, n0, n1, n2, hdecode, hstream, hother, hcosts, hcosts', hedits⟩ :=
    System.store_cases hstep
  have hqueue := h.queue sender myid
  rw [hstream, List.map_cons] at hqueue
  have hwrite : packet.write = some (s(n0, n1), n2) := by simp [Packet.write, hdecode]
  rw [hwrite] at hqueue
  cases hcase : d.queue sender myid with
  | nil => simp [hcase] at hqueue
  | cons u rest =>
      simp only [hcase, List.map_cons, List.cons.injEq, Option.some.injEq] at hqueue
      obtain ⟨rfl, hrest⟩ := hqueue
      refine ⟨.apply sender myid, _, by simp only [State.step, hcase]; rfl, ?_, ?_, ?_⟩
      · intro r i j
        by_cases hr : r = myid
        · subst hr
          rw [hcosts]
          simp only [Function.update_self]
          exact setLink_eq_update (h.value r) n0 n1 n2 i j
        · rw [hcosts' r hr]
          simp only [Function.update_of_ne hr]
          exact h.value r i j
      · intro p q
        by_cases hp : p = sender ∧ q = myid
        · obtain ⟨rfl, rfl⟩ := hp
          simpa using hrest
        · rw [hother p q hp, h.queue]
          by_cases hp' : p = sender
          · subst hp'
            have hq : q ≠ myid := fun heq => hp ⟨rfl, heq⟩
            simp [hq]
          · simp [hp']
      · rw [hedits]
        exact h.log

theorem System.Refines.step (hN : N ≤ 2 ^ 31) {rounds : ℕ} {a : SystemAction N}
    (h : s.Refines d) (hstep : s.step rounds a = some t) :
    t.Refines d ∨ ∃ b d', d.step b = some d' ∧ t.Refines d' := by
  cases a with
  | enter myid id cost =>
      rcases System.enter_cases hstep with
        ⟨hcosts, hstream, hedits⟩ | ⟨i, peer, hmain, hpeer, _, rfl⟩
      · exact .inl (h.congr hcosts hstream hedits)
      · exact .inr ⟨.write myid s(myid, peer) cost, _, rfl, h.edit hN hmain hpeer⟩
  | send myid =>
      obtain ⟨hcosts, hedits⟩ := System.frame_of_send hstep
      exact .inl (h.congr hcosts (System.stream_send hstep) hedits)
  | recv myid sender =>
      obtain ⟨hcosts, hedits⟩ := System.frame_of_recv hstep
      exact .inl (h.congr hcosts (System.stream_recv hstep) hedits)
  | store myid => exact .inr (h.store hstep)

end NetLabs.LinkState
