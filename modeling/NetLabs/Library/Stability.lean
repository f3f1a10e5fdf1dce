import Mathlib.Algebra.Order.BigOperators.Group.Finset
import Mathlib.Data.Sym.Sym2
import NetLabs.Library.ShortestPath

/-! # Distances while links change

A link is an unordered pair of vertices. A shortest walk has no reason to use a link twice, so
what a link becomes dearer is added to a distance at most once. -/

namespace NetLabs.ShortestPath

variable {V M : Type*} [AddCommMonoid M] [LinearOrder M] {w w' : V → V → M}
  {s t u v : V} {c d x δ : M}

/-- Some walk from `s` to `t` costs no more than `c`. -/
def Within (w : V → V → M) (s t : V) (c : M) : Prop :=
  ∃ d ≤ c, Walk (arcs w) s t d

theorem Within.mono (h : Within w s t c) (hle : c ≤ d) : Within w s t d := by
  obtain ⟨b, hb, hwalk⟩ := h
  exact ⟨b, hb.trans hle, hwalk⟩

theorem IsDist.le_of_within (h : IsDist w s t d) (hwithin : Within w s t c) : d ≤ c := by
  obtain ⟨b, hb, hwalk⟩ := hwithin
  exact (h.2 hwalk).trans hb

variable [IsOrderedAddMonoid M]

theorem Within.snoc (h : Within w s u c) (hle : w u v ≤ x) : Within w s v (c + x) := by
  obtain ⟨b, hb, hwalk⟩ := h
  exact ⟨b + w u v, add_le_add hb hle, hwalk.snoc rfl⟩

/-- One link becomes dearer by `δ` at most. A walk that has not used it costs no more than
before; one that has may go on from either end of the link as if it came there first. -/
theorem Walk.within_or {a b : V} (hδ : 0 ≤ δ) (hw : ∀ u v, 0 ≤ w u v)
    (hother : ∀ u v, s(u, v) ≠ s(a, b) → w' u v ≤ w u v)
    (hlink : ∀ u v, s(u, v) = s(a, b) → w' u v ≤ w u v + δ) (h : Walk (arcs w) s t c) :
    Within w' s t c ∨
      Within w' s t (c + δ) ∧ Within w' s a (c + δ) ∧ Within w' s b (c + δ) := by
  induction h with
  | nil => exact .inl ⟨0, le_rfl, .nil⟩
  | @snoc u v c x _ harc ih =>
      obtain rfl : x = w u v := harc
      have hlater : c + δ ≤ c + w u v + δ := by
        rw [add_right_comm]
        exact le_add_of_nonneg_right (hw u v)
      by_cases heq : s(u, v) = s(a, b)
      · right
        have hu : Within w' s u (c + w u v + δ) := by
          rcases ih with hfree | ⟨hu, _⟩
          · exact (hfree.mono (le_add_of_nonneg_right hδ)).mono hlater
          · exact hu.mono hlater
        have hv : Within w' s v (c + w u v + δ) := by
          rcases ih with hfree | ⟨_, ha, hb⟩
          · rw [add_assoc]
            exact hfree.snoc (hlink u v heq)
          · rcases Sym2.eq_iff.mp heq with ⟨_, rfl⟩ | ⟨_, rfl⟩
            · exact hb.mono hlater
            · exact ha.mono hlater
        rcases Sym2.eq_iff.mp heq with ⟨rfl, rfl⟩ | ⟨rfl, rfl⟩
        · exact ⟨hv, hu, hv⟩
        · exact ⟨hv, hv, hu⟩
      · rcases ih with hfree | ⟨hu, ha, hb⟩
        · exact .inl (hfree.snoc (hother u v heq))
        · refine .inr ⟨?_, ha.mono hlater, hb.mono hlater⟩
          rw [add_right_comm]
          exact hu.snoc (hother u v heq)

/-- The links of `S` become dearer, each by its `gap` at most. -/
theorem Walk.within_sum {gap : Sym2 V → M} (hgap : ∀ e, 0 ≤ gap e) (hw : ∀ u v, 0 ≤ w u v)
    (S : Finset (Sym2 V)) (hw' : ∀ u v, 0 ≤ w' u v)
    (hother : ∀ u v, s(u, v) ∉ S → w' u v ≤ w u v)
    (hlink : ∀ u v, s(u, v) ∈ S → w' u v ≤ w u v + gap s(u, v))
    (h : Walk (arcs w) s t c) : Within w' s t (c + ∑ e ∈ S, gap e) := by
  classical
  induction S using Finset.cons_induction generalizing w' with
  | empty =>
      rw [Finset.sum_empty, add_zero]
      refine Walk.exists_le ?_ h
      rintro u v x rfl
      exact hother u v (Finset.notMem_empty _)
  | cons e S he ih =>
      -- the matrix in which the links of `S` have become dearer, and `e` has not
      let before : V → V → M := fun u v => if s(u, v) = e then w u v else w' u v
      have hbefore : ∀ u v, s(u, v) ≠ e → before u v = w' u v := fun u v hne => if_neg hne
      have hbefore' : ∀ u v, s(u, v) = e → before u v = w u v := fun u v heq => if_pos heq
      have hnonneg : ∀ u v, 0 ≤ before u v := by
        intro u v
        by_cases heq : s(u, v) = e
        · rw [hbefore' u v heq]
          exact hw u v
        · rw [hbefore u v heq]
          exact hw' u v
      obtain ⟨d, hd, hwalk⟩ : Within before s t (c + ∑ e ∈ S, gap e) := by
        refine ih hnonneg ?_ ?_
        · intro u v hmem
          by_cases heq : s(u, v) = e
          · rw [hbefore' u v heq]
          · rw [hbefore u v heq]
            exact hother u v (by simp [heq, hmem])
        · intro u v hmem
          have hne : s(u, v) ≠ e := fun heq => he (heq ▸ hmem)
          rw [hbefore u v hne]
          exact hlink u v (by simp [hmem])
      have hlast : Within w' s t (d + gap e) := by
        induction e using Sym2.ind with
        | _ a b =>
            have hother' : ∀ u v, s(u, v) ≠ s(a, b) → w' u v ≤ before u v :=
              fun u v hne => (hbefore u v hne).ge
            have hlink' : ∀ u v, s(u, v) = s(a, b) →
                w' u v ≤ before u v + gap s(a, b) := by
              intro u v heq
              rw [hbefore' u v heq, ← heq]
              exact hlink u v (by simp [heq])
            rcases hwalk.within_or (hgap s(a, b)) hnonneg hother' hlink' with hfree | ⟨ht, _⟩
            · exact hfree.mono (le_add_of_nonneg_right (hgap _))
            · exact ht
      refine hlast.mono ?_
      rw [Finset.sum_cons, add_comm (gap e), ← add_assoc]
      exact add_le_add_left hd _

/-- A distance grows by no more than the links do. -/
theorem IsDist.le_add_sum {gap : Sym2 V → M} (hgap : ∀ e, 0 ≤ gap e)
    (hw : ∀ u v, 0 ≤ w u v) (hw' : ∀ u v, 0 ≤ w' u v) (S : Finset (Sym2 V))
    (hother : ∀ u v, s(u, v) ∉ S → w' u v ≤ w u v)
    (hlink : ∀ u v, s(u, v) ∈ S → w' u v ≤ w u v + gap s(u, v))
    (h : IsDist w s t c) (h' : IsDist w' s t d) : d ≤ c + ∑ e ∈ S, gap e :=
  h'.le_of_within (Walk.within_sum hgap hw S hw' hother hlink h.1)

end NetLabs.ShortestPath
