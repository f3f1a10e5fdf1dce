import Mathlib.Data.Fintype.Card
import NetLabs.Library.ShortestPath

/-! # Greedy orders

The order in which a greedy search takes the vertices of a cost matrix, where it goes on for
as long as some vertex costs less than a limit. Costs may be negative, so the order is
stated for itself; where they are not, it exists when all vertices are near. -/

namespace NetLabs.ShortestPath

variable {V M : Type*} {w : V → V → M} {s v : V} {order order' : List (V × M)} {d : M}

/-! ## Taking vertices one by one -/

/-- Neither the source nor taken; the list has the vertices taken with their costs, the last
one first. -/
def Left (s : V) (order : List (V × M)) (v : V) : Prop :=
  v ≠ s ∧ v ∉ order.map Prod.fst

@[simp] theorem left_nil : Left s ([] : List (V × M)) v ↔ v ≠ s := by
  simp [Left]

@[simp] theorem left_cons {u : V} :
    Left s ((u, d) :: order) v ↔ v ≠ u ∧ Left s order v := by
  simp only [Left, List.map_cons, List.mem_cons, not_or]
  tauto

theorem mem_of_not_left (h : ¬ Left s order v) : v ∈ s :: order.map Prod.fst := by
  by_contra hv
  rw [List.mem_cons, not_or] at hv
  exact h hv

variable [AddCommMonoid M] [LinearOrder M]

/-- The least cost of `v` directly from `s` or over a vertex taken. -/
def tentative (w : V → V → M) (s : V) : List (V × M) → V → M
  | [], v => w s v
  | (u, d) :: order, v => min (tentative w s order v) (d + w u v)

/-- Such a cost is that of a walk. -/
theorem exists_walk_tentative (h : ∀ e ∈ order, Walk (arcs w) s e.1 e.2) (v : V) :
    Walk (arcs w) s v (tentative w s order v) := by
  induction order with
  | nil =>
      have hwalk : Walk (arcs w) s v (0 + w s v) := .snoc .nil rfl
      simpa [tentative] using hwalk
  | cons e order ih =>
      obtain ⟨u, d⟩ := e
      rcases min_choice (tentative w s order v) (d + w u v) with hmin | hmin <;>
        rw [tentative, hmin]
      · exact ih fun e he => h e (List.mem_cons_of_mem _ he)
      · exact .snoc (h (u, d) List.mem_cons_self) rfl

variable [LinearOrder V]

/-- The first among the closest vertices that are left. -/
structure Closest (w : V → V → M) (s : V) (order : List (V × M)) (v : V) : Prop where
  left : Left s order v
  le : ∀ x, Left s order x → tentative w s order v ≤ tentative w s order x
  first : ∀ x, Left s order x → tentative w s order x = tentative w s order v → v ≤ x

theorem Closest.unique {v' : V} (h : Closest w s order v) (h' : Closest w s order v') :
    v = v' := by
  have heq := le_antisymm (h.le v' h'.left) (h'.le v h.left)
  exact le_antisymm (h.first v' h'.left heq.symm) (h'.first v h.left heq)

/-- The order of a greedy search: each vertex taken was the closest, was nearer than the
limit, and its sums with the arcs to the vertices left are all in range. -/
inductive Greedy (w : V → V → M) (s : V) (limit : M) (InRange : M → Prop) :
    List (V × M) → Prop
  | nil : Greedy w s limit InRange []
  | cons {order : List (V × M)} {v : V} : Greedy w s limit InRange order →
      Closest w s order v → tentative w s order v < limit →
      (∀ x, Left s ((v, tentative w s order v) :: order) x →
        InRange (tentative w s order v + w v x)) →
      Greedy w s limit InRange ((v, tentative w s order v) :: order)

variable {limit : M} {InRange : M → Prop}

/-! ## There is only one -/

theorem Greedy.eq_of_length_eq (h : Greedy w s limit InRange order)
    (h' : Greedy w s limit InRange order') (hlength : order.length = order'.length) :
    order = order' := by
  induction h generalizing order' with
  | nil => exact (List.length_eq_zero_iff.mp hlength.symm).symm
  | cons _ hv _ _ ih =>
      cases h' with
      | nil => simp at hlength
      | cons hrest hv' =>
          obtain rfl := ih hrest (by simpa using hlength)
          rw [hv.unique hv']

/-- As long as another greedy order is longer, a vertex can be taken. -/
theorem Greedy.exists_next (h : Greedy w s limit InRange order)
    (h' : Greedy w s limit InRange order') (hlt : order.length < order'.length) :
    ∃ v, Closest w s order v ∧ tentative w s order v < limit ∧
      ∀ x, Left s ((v, tentative w s order v) :: order) x →
        InRange (tentative w s order v + w v x) := by
  induction h' with
  | nil => simp at hlt
  | @cons rest v hrest hv hlimit hrange ih =>
      by_cases hlength : order.length = rest.length
      · obtain rfl := h.eq_of_length_eq hrest hlength
        exact ⟨v, hv, hlimit, hrange⟩
      · exact ih (by rw [List.length_cons] at hlt; omega)

/-! ## Counting -/

theorem Greedy.nodup (h : Greedy w s limit InRange order) :
    (s :: order.map Prod.fst).Nodup := by
  induction h with
  | nil => simp
  | cons _ hv _ _ ih =>
      obtain ⟨hs, hnodup⟩ := List.nodup_cons.mp ih
      simp only [List.map_cons, List.nodup_cons, List.mem_cons, not_or]
      exact ⟨⟨hv.left.1.symm, hs⟩, hv.left.2, hnodup⟩

theorem Greedy.complete_iff [Fintype V] (h : Greedy w s limit InRange order) :
    (∀ v, ¬ Left s order v) ↔ Fintype.card V ≤ order.length + 1 := by
  have hlength : (s :: order.map Prod.fst).length = order.length + 1 := by simp
  rw [← hlength]
  constructor
  · intro hall
    rw [← List.toFinset_card_of_nodup h.nodup, ← Finset.card_univ]
    refine Finset.card_le_card fun v _ => ?_
    rw [List.mem_toFinset]
    exact mem_of_not_left (hall v)
  · rintro hcard v ⟨hs, hv⟩
    have hnodup : (v :: s :: order.map Prod.fst).Nodup :=
      List.nodup_cons.mpr ⟨by simp only [List.mem_cons, not_or]; exact ⟨hs, hv⟩, h.nodup⟩
    have hle := hnodup.length_le_card
    rw [List.length_cons] at hle
    omega

/-! ## Orders and walks -/

/-- Every vertex taken is nearer than the limit. -/
theorem Greedy.walk (h : Greedy w s limit InRange order) :
    ∀ e ∈ order, Walk (arcs w) s e.1 e.2 ∧ e.2 < limit := by
  induction h with
  | nil => simp
  | cons _ _ hlimit _ ih =>
      intro e he
      rcases List.mem_cons.mp he with rfl | he
      · exact ⟨exists_walk_tentative (fun e he => (ih e he).1) _, hlimit⟩
      · exact ih e he

theorem Greedy.exists_walk (h : Greedy w s limit InRange order) (hv : ¬ Left s order v)
    (hlimit : 0 < limit) : ∃ c < limit, Walk (arcs w) s v c := by
  rcases List.mem_cons.mp (mem_of_not_left hv) with rfl | hmem
  · exact ⟨0, hlimit, .nil⟩
  · obtain ⟨e, he, rfl⟩ := List.mem_map.mp hmem
    obtain ⟨hwalk, hlt⟩ := h.walk e he
    exact ⟨e.2, hlt, hwalk⟩

end NetLabs.ShortestPath
