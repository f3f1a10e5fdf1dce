import Mathlib.Algebra.Order.Group.Abs
import Mathlib.Data.Fintype.Prod
import NetLabs.Library.Stability
import NetLabs.LinkState.Agreement
import NetLabs.LinkState.Mutual
import NetLabs.LinkState.Unreliable

/-! # Distances from tables that are not up to date

Until a router has stored the last updates its distances are those of an older table. What
they are off by is bounded by what has changed on the links it has still to hear of. -/

namespace NetLabs.LinkState

open Broadcast Machine ShortestPath

variable {N rounds : ℕ}

/-! ## Tables that differ on some links -/

/-- A link is taken as a pair with its smaller end first. -/
theorem eq_of_link_eq {l l' : Fin N × Fin N} (h : l.1 ≤ l.2) (h' : l'.1 ≤ l'.2)
    (heq : s(l.1, l.2) = s(l'.1, l'.2)) : l = l' := by
  rcases Sym2.eq_iff.mp heq with ⟨h1, h2⟩ | ⟨h1, h2⟩
  · exact Prod.ext h1 h2
  · have hle : l'.2 ≤ l'.1 := h1 ▸ h2 ▸ h
    have hsame : l'.1 = l'.2 := le_antisymm h' hle
    exact Prod.ext (h1.trans hsame.symm) (h2.trans hsame)

/-- By how much two tables differ on a link. -/
def Costs.gap (m m' : Costs N) (l : Fin N × Fin N) : ℤ :=
  |m.weight l.1 l.2 - m'.weight l.1 l.2|

variable {m m' : Costs N}

theorem Costs.gap_comm (l : Fin N × Fin N) : m.gap m' l = m'.gap m l :=
  abs_sub_comm _ _

/-- A distance in `m` is larger than in `m'` by no more than the links are that differ. -/
theorem le_add_sum_gap (hsymm : ∀ i j, m i j = m j i) (hsymm' : ∀ i j, m' i j = m' j i)
    (hm : ∀ u v, 0 ≤ m.weight u v) (hm' : ∀ u v, 0 ≤ m'.weight u v)
    {S : Finset (Fin N × Fin N)} (hS : ∀ l ∈ S, l.1 ≤ l.2)
    (hsame : ∀ l, l.1 ≤ l.2 → l ∉ S → m l.1 l.2 = m' l.1 l.2) {r j : Fin N} {d d' : ℤ}
    (h : IsDist m.weight r j d) (h' : IsDist m'.weight r j d') :
    d ≤ d' + ∑ l ∈ S, m.gap m' l := by
  have hgap : ∀ u v, m.gap m' (u, v) = m.gap m' (v, u) := by
    intro u v
    simp only [Costs.gap, Costs.weight, hsymm u v, hsymm' u v]
  let gap : Sym2 (Fin N) → ℤ := Sym2.lift ⟨fun u v => m.gap m' (u, v), hgap⟩
  have hnonneg : ∀ k, 0 ≤ gap k := by
    intro k
    induction k using Sym2.ind with
    | _ u v => exact abs_nonneg _
  have hlink : ∀ u v, m.weight u v ≤ m'.weight u v + gap s(u, v) := by
    intro u v
    have hle : m.weight u v - m'.weight u v ≤ gap s(u, v) := le_abs_self _
    omega
  have hother : ∀ u v, s(u, v) ∉ S.image (fun l => s(l.1, l.2)) →
      m.weight u v ≤ m'.weight u v := by
    intro u v hmem
    have hnot : ∀ l, s(l.1, l.2) = s(u, v) → l ∉ S :=
      fun l heq hl => hmem (Finset.mem_image.mpr ⟨l, hl, heq⟩)
    rcases le_total u v with hle | hle
    · have heq := hsame (u, v) hle (hnot (u, v) rfl)
      exact (congrArg Int32.toInt heq).le
    · have heq := hsame (v, u) hle (hnot (v, u) Sym2.eq_swap)
      rw [Costs.weight, Costs.weight, hsymm u v, hsymm' u v]
      exact (congrArg Int32.toInt heq).le
  have hsum : ∑ k ∈ S.image (fun l => s(l.1, l.2)), gap k = ∑ l ∈ S, m.gap m' l :=
    Finset.sum_image fun l hl l' hl' heq => eq_of_link_eq (hS l hl) (hS l' hl') heq
  rw [← hsum]
  exact h'.le_add_sum hnonneg hm' hm _ hother (fun u v _ => hlink u v) h

theorem abs_sub_le_sum_gap (hsymm : ∀ i j, m i j = m j i) (hsymm' : ∀ i j, m' i j = m' j i)
    (hm : ∀ u v, 0 ≤ m.weight u v) (hm' : ∀ u v, 0 ≤ m'.weight u v)
    {S : Finset (Fin N × Fin N)} (hS : ∀ l ∈ S, l.1 ≤ l.2)
    (hsame : ∀ l, l.1 ≤ l.2 → l ∉ S → m l.1 l.2 = m' l.1 l.2) {r j : Fin N} {d d' : ℤ}
    (h : IsDist m.weight r j d) (h' : IsDist m'.weight r j d') :
    |d - d'| ≤ ∑ l ∈ S, m.gap m' l := by
  have hle := le_add_sum_gap hsymm hsymm' hm hm' hS hsame h h'
  have hle' := le_add_sum_gap hsymm' hsymm hm' hm hS
    (fun l hl hmem => (hsame l hl hmem).symm) h' h
  have hcomm : ∑ l ∈ S, m'.gap m l = ∑ l ∈ S, m.gap m' l :=
    Finset.sum_congr rfl fun l _ => Costs.gap_comm l
  rw [hcomm] at hle'
  rw [abs_le]
  constructor <;> omega

/-! ## What a router has still to hear of -/

/-- The links that packets on their way to router `r` are about. -/
def System.awaited (s : System N) (r : Fin N) : Finset (Fin N × Fin N) :=
  Finset.univ.filter fun l =>
    l.1 ≤ l.2 ∧ ∃ sender, (s.stream sender r).any (Packet.about l.1 l.2) = true

variable {s : System N} {initial : Costs N}

theorem System.mem_awaited {r : Fin N} {l : Fin N × Fin N} : l ∈ s.awaited r ↔
    l.1 ≤ l.2 ∧ ∃ sender, (s.stream sender r).any (Packet.about l.1 l.2) = true := by
  rw [System.awaited, Finset.mem_filter, and_iff_right (Finset.mem_univ l)]

/-- An entry is up to date, or an update of its link is on its way. -/
theorem System.Refines.costs_eq_of_not_awaited {d : Database N} (h : s.Refines d)
    {hsymm : ∀ i j, initial i j = initial j i}
    (hsettled : d.Settled fun k => k.lift ⟨initial, hsymm⟩)
    (hfree : ∀ i j, ∀ e ∈ lastEdit s.edits i j, e.contested = false) {r : Fin N}
    {l : Fin N × Fin N} (hl : l.1 ≤ l.2) (hmem : l ∉ s.awaited r) :
    (s.routers r).costs l.1 l.2 = overlay initial s.edits l.1 l.2 := by
  have hlast : lastWrite d.log s(l.1, l.2) = (lastEdit s.edits l.1 l.2).map Edit.write := by
    rw [← h.log, lastWrite_map]
  have hvalue := hsettled.value_eq_or (k := s(l.1, l.2)) (fun w hw => ?_) r
  · rw [hlast, Option.map_map] at hvalue
    rcases hvalue with heq | ⟨sender, hkey⟩
    · exact (h.value r l.1 l.2).trans heq
    · refine (hmem (System.mem_awaited.mpr ⟨hl, sender, ?_⟩)).elim
      obtain ⟨⟨k, cost⟩, hu, rfl⟩ := List.mem_map.mp hkey
      have hpacket : some (s(l.1, l.2), cost) ∈ (s.stream sender r).map Packet.write := by
        rw [h.queue]
        exact List.mem_map_of_mem hu
      obtain ⟨packet, hpacket, hwrite⟩ := List.mem_map.mp hpacket
      exact List.any_eq_true.mpr ⟨packet, hpacket, Packet.about_iff.mpr ⟨cost, hwrite⟩⟩
  · rw [hlast] at hw
    obtain ⟨e, he, rfl⟩ := Option.map_eq_some_iff.mp hw
    exact hfree l.1 l.2 e he

theorem System.Refines.costs_symm {d : Database N} (h : s.Refines d) (r i j : Fin N) :
    (s.routers r).costs i j = (s.routers r).costs j i := by
  rw [h.value, h.value, Sym2.eq_swap]

/-- Suppose that no link's last edit was contested. A pass over the table that a router holds
now gives distances that differ from those of the table of last edits by no more than the two
tables differ on the links that packets on their way to the router are about; and two routers
differ about how far they are apart by no more than both together. -/
theorem stale_distances (rounds : ℕ) (initial : Costs N) (hN : N ≤ 2 ^ 31)
    (hsymm : ∀ i j, initial i j = initial j i) (hdiag : ∀ i, initial i i = 0)
    (es : List (SystemAction N)) (s : System N)
    (h : Run (System.step rounds) (fun _ _ => True) (.start initial) es s)
    (hfree : ∀ i j, ∀ e ∈ lastEdit s.edits i j, e.contested = false)
    (hlast : ∀ u v, 0 ≤ (overlay initial s.edits).weight u v) (routers : List (Fin N))
    (hnonneg : ∀ r ∈ routers, ∀ u v, 0 ≤ (s.routers r).costs.weight u v)
    (hreach : ∀ r ∈ routers, ∀ v, ∃ c < INFINITE.toInt,
      Walk (arcs (s.routers r).costs.weight) r v c)
    (p : Fin N → Pass N) (hp : ∀ r ∈ routers, (p r).Completed (s.routers r).costs r) :
    (∀ r ∈ routers, ∀ j d, IsDist (overlay initial s.edits).weight r j d →
      |((p r).distances j).toInt - d| ≤
        ∑ l ∈ s.awaited r, (s.routers r).costs.gap (overlay initial s.edits) l) ∧
    ∀ a ∈ routers, ∀ b ∈ routers,
      |((p a).distances b).toInt - ((p b).distances a).toInt| ≤
        ∑ l ∈ s.awaited a, (s.routers a).costs.gap (overlay initial s.edits) l +
          ∑ l ∈ s.awaited b, (s.routers b).costs.gap (overlay initial s.edits) l := by
  obtain ⟨_, hrefines, _, hsettled⟩ := System.exists_database hN hsymm h
  have hoverlay := overlay_symm hsymm s.edits
  have hself : ∀ r i, (s.routers r).costs i i = 0 := by
    intro r i
    have hrun : Run (System.step rounds) (fun _ _ => True) (.boot fun _ => initial) es s := h
    rw [(System.sourced_of_run hN hrun).costs_self, hdiag]
  have hstale : ∀ r ∈ routers, ∀ j d, IsDist (overlay initial s.edits).weight r j d →
      |((p r).distances j).toInt - d| ≤
        ∑ l ∈ s.awaited r, (s.routers r).costs.gap (overlay initial s.edits) l := by
    intro r hr j d hd
    have hdist := (hp r hr).isDist (hnonneg r hr) (hself r) (hreach r hr) j
    exact abs_sub_le_sum_gap (hrefines.costs_symm r) hoverlay (hnonneg r hr) hlast
      (fun l hl => (System.mem_awaited.mp hl).1)
      (fun l hl hmem => hrefines.costs_eq_of_not_awaited hsettled hfree hl hmem) hdist hd
  refine ⟨hstale, fun a ha b hb => ?_⟩
  obtain ⟨d, hd⟩ := exists_isDist hlast a b
  have hback : IsDist (overlay initial s.edits).weight b a d :=
    hd.symm fun u v => congrArg Int32.toInt (hoverlay u v)
  have hfirst := hstale a ha b d hd
  have hsecond := hstale b hb a d hback
  rw [abs_sub_comm] at hsecond
  exact (abs_sub_le _ d _).trans (add_le_add hfirst hsecond)

/-- Router 1 has not yet stored what router 0 has entered. -/
theorem stale_distances_onTheWay :
    ∃ (es : List (SystemAction 2)) (s : System 2) (p : Pass 2),
      Run (System.step 3) (fun _ _ => True)
        (.start (Costs.setLink (fun _ _ => 0) 0 1 900)) es s ∧
      p.Completed (s.routers 1).costs 1 ∧ (p.distances 0).toInt = 900 ∧
      |(p.distances 0).toInt - 5| ≤ 895 := by
  let initial : Costs 2 := Costs.setLink (fun _ _ => 0) 0 1 900
  let es : List (SystemAction 2) := [.enter 0 1 5, .send 0, .send 0, .recv 1 0]
  let s : System 2 := (exec (System.step 3) (.start initial) es).get (by decide +kernel)
  have hrun : Run (System.step 3) (fun _ _ => True) (.start initial) es s :=
    .of_get (fun _ _ _ => trivial) _
  have hfree : ∀ e ∈ s.edits, e.contested = false := by decide +kernel
  have hnonneg : ∀ u v, 0 ≤ (overlay initial s.edits).weight u v := by decide +kernel
  let D : Fin 2 → ℤ := fun v => if v = 0 then 5 else 0
  have hpotential : ∀ u v, D v ≤ D u + (overlay initial s.edits).weight u v := by
    decide +kernel
  have hdist : IsDist (overlay initial s.edits).weight 1 0 5 := by
    have hfive : 0 + (overlay initial s.edits).weight 1 0 = 5 := by decide +kernel
    refine ⟨hfive ▸ .snoc .nil rfl, fun c hc => ?_⟩
    refine Walk.le_of_potential (D := D) le_rfl ?_ hc
    rintro u v x rfl
    exact hpotential u v
  obtain ⟨p, hp, hdistances⟩ := Pass.Completed.exists_of_exec (s.routers 1).costs 1 8 [900, 0]
    (by decide +kernel)
  have hzero : p.distances 0 = 900 := by
    simpa using congrArg List.head? hdistances
  have hnear : ∀ r ∈ [1], ∀ v, 0 + (s.routers r).costs.weight r v < INFINITE.toInt := by
    decide +kernel
  have hmain := stale_distances 3 initial (by decide) (by decide +kernel) (by decide +kernel)
    es s hrun (fun _ _ e he => hfree e (mem_of_lastEdit he)) hnonneg [1] (by decide +kernel)
    (fun r hr v => ⟨_, hnear r hr v, .snoc .nil rfl⟩) (fun _ => p)
    (fun r hr => List.mem_singleton.mp hr ▸ hp)
  have hstale := hmain.1 1 (List.mem_singleton_self 1) 0 5 hdist
  have hawaited : s.awaited 1 = {(0, 1)} := by decide +kernel
  have hnow : (s.routers 1).costs.weight 0 1 = 900 := by decide +kernel
  have hlast : (overlay initial s.edits).weight 0 1 = 5 := by decide +kernel
  rw [hawaited, Finset.sum_singleton, Costs.gap, hnow, hlast] at hstale
  exact ⟨es, s, p, hrun, hp, by rw [hzero]; rfl, hstale⟩

end NetLabs.LinkState
