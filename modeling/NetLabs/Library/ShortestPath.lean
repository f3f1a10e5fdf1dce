import Mathlib.Algebra.Order.Group.Int
import Mathlib.Algebra.Order.Monoid.Defs
import Mathlib.Algebra.Order.Monoid.Unbundled.Basic
import Mathlib.Data.Int.LeastGreatest
import Mathlib.Order.Bounds.Basic

/-! # Shortest walks, found greedily

Arcs are a relation, so that a graph can be explored one arc at a time: the arcs known so
far are the part of the graph that has been read. Costs lie in an ordered monoid. -/

namespace NetLabs.ShortestPath

variable {V M : Type*} [AddCommMonoid M]

/-- `Walk arc s t c`: some walk from `s` to `t` along `arc` costs `c`. -/
inductive Walk (arc : V → V → M → Prop) (s : V) : V → M → Prop
  | nil : Walk arc s s 0
  | snoc {u v c w} : Walk arc s u c → arc u v w → Walk arc s v (c + w)

/-- The complete graph of a cost matrix. -/
def arcs (w : V → V → M) (u v : V) (c : M) : Prop :=
  c = w u v

variable {arc arc' : V → V → M → Prop} {s t : V} {c : M}

theorem Walk.mono (himp : ∀ u v w, arc u v w → arc' u v w) (h : Walk arc s t c) :
    Walk arc' s t c := by
  induction h with
  | nil => exact .nil
  | snoc _ harc ih => exact .snoc ih (himp _ _ _ harc)

theorem Walk.trans {u : V} {d : M} (h : Walk arc s t c) (h' : Walk arc t u d) :
    Walk arc s u (c + d) := by
  induction h' with
  | nil => simpa using h
  | snoc _ harc ih => simpa [add_assoc] using ih.snoc harc

/-- Where every arc leads both ways, so does every walk. -/
theorem Walk.reverse (hsymm : ∀ u v w, arc u v w → arc v u w) (h : Walk arc s t c) :
    Walk arc t s c := by
  induction h with
  | nil => exact .nil
  | @snoc u v c w _ harc ih =>
      have hback : Walk arc v u (0 + w) := .snoc .nil (hsymm _ _ _ harc)
      simpa [add_comm] using hback.trans ih

variable [LinearOrder M]

/-- `d` is the least cost of a walk from `s` to `t` in the matrix `w`. -/
def IsDist (w : V → V → M) (s t : V) (d : M) : Prop :=
  IsLeast {c | Walk (arcs w) s t c} d

/-! ## Distances as a metric -/

theorem IsDist.le_arc {w : V → V → M} {d : M} (h : IsDist w s t d) : d ≤ w s t := by
  have hwalk : Walk (arcs w) s t (0 + w s t) := .snoc .nil rfl
  simpa using h.2 hwalk

theorem IsDist.le_add {w : V → V → M} {u : V} {d d' e : M} (h : IsDist w s t d)
    (h' : IsDist w t u d') (h'' : IsDist w s u e) : e ≤ d + d' :=
  h''.2 (h.1.trans h'.1)

theorem IsDist.symm {w : V → V → M} (hw : ∀ u v, w u v = w v u) {d : M}
    (h : IsDist w s t d) : IsDist w t s d := by
  have harc : ∀ u v x, arcs w u v x → arcs w v u x := fun u v _ hx => hx.trans (hw u v)
  exact ⟨h.1.reverse harc, fun c hc => h.2 (Walk.reverse harc hc)⟩

theorem IsDist.unique {w : V → V → M} {d d' : M} (h : IsDist w s t d)
    (h' : IsDist w s t d') : d = d' :=
  IsLeast.unique h h'

/-! ## Bounds on walks -/

section Bounds

variable [IsOrderedAddMonoid M]

/-- A labelling that no arc can improve bounds every walk from below. -/
theorem Walk.le_of_potential {D : V → M} (hs : D s ≤ 0)
    (harc : ∀ u v w, arc u v w → D v ≤ D u + w) (h : Walk arc s t c) : D t ≤ c := by
  induction h with
  | nil => exact hs
  | snoc _ hw ih => exact (harc _ _ _ hw).trans (add_le_add_left ih _)

/-- In a smaller matrix there is a walk that costs no more. -/
theorem Walk.exists_le {w : V → V → M} (hle : ∀ u v x, arc u v x → w u v ≤ x)
    (h : Walk arc s t c) : ∃ d ≤ c, Walk (arcs w) s t d := by
  induction h with
  | nil => exact ⟨0, le_rfl, .nil⟩
  | snoc _ harc ih =>
      obtain ⟨d, hd, hwalk⟩ := ih
      exact ⟨_, add_le_add hd (hle _ _ _ harc), .snoc hwalk rfl⟩

/-- A larger matrix has no smaller distances. -/
theorem IsDist.mono {w w' : V → V → M} {d d' : M} (hle : ∀ u v, w u v ≤ w' u v)
    (h : IsDist w s t d) (h' : IsDist w' s t d') : d ≤ d' := by
  have harc : ∀ u v x, arcs w' u v x → w u v ≤ x := by
    rintro u v x rfl
    exact hle u v
  obtain ⟨c, hc, hwalk⟩ := Walk.exists_le harc h'.1
  exact (h.2 hwalk).trans hc

theorem Walk.nonneg (hnonneg : ∀ u v w, arc u v w → 0 ≤ w) (h : Walk arc s t c) : 0 ≤ c := by
  induction h with
  | nil => exact le_rfl
  | snoc _ harc ih => exact add_nonneg ih (hnonneg _ _ _ harc)

end Bounds

/-- Among the integers, distances exist. -/
theorem exists_isDist {w : V → V → ℤ} (hw : ∀ u v, 0 ≤ w u v) (s t : V) :
    ∃ d, IsDist w s t d := by
  have hbelow : ∀ c, Walk (arcs w) s t c → 0 ≤ c := by
    refine fun c => Walk.nonneg ?_
    rintro u v x rfl
    exact hw u v
  obtain ⟨d, hwalk, hleast⟩ :=
    Int.exists_least_of_bdd ⟨0, hbelow⟩ ⟨0 + w s t, .snoc .nil rfl⟩
  exact ⟨d, hwalk, fun c hc => hleast c hc⟩

/-! ## The greedy invariant -/

/-- What a greedy search knows: the arcs read so far, the settled vertices, the labels, and
which arcs out of settled vertices are still to be read. -/
structure Explored (arc : V → V → M → Prop) (s : V) (settled : Set V)
    (pending : V → V → Prop) (D : V → M) : Prop where
  source : D s = 0
  source_settled : s ∈ settled
  nonneg : ∀ u v w, arc u v w → 0 ≤ w
  from_settled : ∀ u v w, arc u v w → u ∈ settled
  walk : ∀ v, Walk arc s v (D v)
  relaxed : ∀ u v w, arc u v w → D v ≤ D u + w
  covered : ∀ u v, u ∈ settled → ¬ pending u v → (∃ w, arc u v w) ∨ D v ≤ D u
  greedy : ∀ u v, u ∈ settled → v ∉ settled → D u ≤ D v

variable {settled : Set V} {pending : V → V → Prop} {D : V → M}

/-- All arcs out of the source are read, and it alone is settled. -/
theorem Explored.start {row : V → M} (hnonneg : ∀ v, 0 ≤ row v) [DecidableEq V] :
    Explored (fun u v w => u = s ∧ w = row v) s {s} (fun _ _ => False)
      (fun v => if v = s then 0 else row v) where
  source := by simp
  source_settled := rfl
  nonneg := by
    rintro u v w ⟨_, rfl⟩
    exact hnonneg v
  from_settled := by
    rintro u v w ⟨rfl, _⟩
    rfl
  walk := by
    intro v
    by_cases hv : v = s
    · subst hv
      simpa using Walk.nil
    · have hwalk : Walk (fun u v w => u = s ∧ w = row v) s v (0 + row v) :=
        .snoc .nil ⟨rfl, rfl⟩
      simpa [hv] using hwalk
  relaxed := by
    rintro u v w ⟨rfl, rfl⟩
    by_cases hv : v = u <;> simp [hv, hnonneg]
  covered := by
    rintro u v rfl _
    exact .inl ⟨row v, rfl, rfl⟩
  greedy := by
    rintro u v rfl hv
    have hne : v ≠ u := hv
    simp [hne, hnonneg]

/-- The closest vertex that is not settled can be settled; its arcs to the others become
pending. -/
theorem Explored.settle (h : Explored arc s settled (fun _ _ => False) D) {v : V}
    (hv : v ∉ settled) (hmin : ∀ x, x ∉ settled → D v ≤ D x) :
    Explored arc s (insert v settled) (fun u x => u = v ∧ x ∉ insert v settled) D where
  source := h.source
  source_settled := .inr h.source_settled
  nonneg := h.nonneg
  from_settled := fun u x w harc => .inr (h.from_settled u x w harc)
  walk := h.walk
  relaxed := h.relaxed
  covered := by
    rintro u x (rfl | hu) hpending
    · right
      have hx : x ∈ insert u settled := by
        by_contra hx
        exact hpending ⟨rfl, hx⟩
      rcases hx with rfl | hx
      · exact le_rfl
      · exact h.greedy x u hx hv
    · exact h.covered u x hu id
  greedy := by
    rintro u x (rfl | hu) hx
    · exact hmin x fun hmem => hx (.inr hmem)
    · exact h.greedy u x hu fun hmem => hx (.inr hmem)

/-- Fewer arcs may be called pending when the others are known not to matter. -/
theorem Explored.congr (h : Explored arc s settled pending D) {pending' : V → V → Prop}
    (harc : ∀ u v w, arc u v w ↔ arc' u v w)
    (hpending : ∀ u v, u ∈ settled → pending u v → pending' u v) :
    Explored arc' s settled pending' D := by
  have heq : arc' = arc := by
    funext u v w
    exact propext (harc u v w).symm
  subst heq
  exact { h with covered := fun u v hu hn => h.covered u v hu fun hp => hn (hpending u v hu hp) }

variable [IsOrderedAddMonoid M]

/-- Reading one pending arc of the vertex settled last, and relaxing its target. -/
theorem Explored.relax [DecidableEq V] (h : Explored arc s settled pending D) {v x : V}
    {w : M} (hv : v ∈ settled) (hlast : ∀ u ∈ settled, D u ≤ D v) (hx : x ∉ settled)
    (hw : 0 ≤ w) :
    Explored (fun a b c => arc a b c ∨ a = v ∧ b = x ∧ c = w) s settled
      (fun a b => pending a b ∧ ¬ (a = v ∧ b = x))
      (Function.update D x (min (D x) (D v + w))) := by
  have hsame : ∀ u, u ∈ settled → Function.update D x (min (D x) (D v + w)) u = D u :=
    fun u hu => Function.update_of_ne (by rintro rfl; exact hx hu) _ _
  have hle : ∀ u, Function.update D x (min (D x) (D v + w)) u ≤ D u := by
    intro u
    by_cases hu : u = x
    · subst hu
      simp
    · rw [Function.update_of_ne hu]
  have hmono : ∀ a b c, arc a b c → arc a b c ∨ a = v ∧ b = x ∧ c = w :=
    fun _ _ _ harc => .inl harc
  refine ⟨?_, h.source_settled, ?_, ?_, ?_, ?_, ?_, ?_⟩
  · rw [hsame s h.source_settled, h.source]
  · rintro a b c (harc | ⟨rfl, rfl, rfl⟩)
    · exact h.nonneg a b c harc
    · exact hw
  · rintro a b c (harc | ⟨rfl, rfl, rfl⟩)
    · exact h.from_settled a b c harc
    · exact hv
  · intro u
    by_cases hu : u = x
    · subst hu
      rw [Function.update_self]
      rcases min_choice (D u) (D v + w) with hmin | hmin <;> rw [hmin]
      · exact (h.walk u).mono hmono
      · exact .snoc ((h.walk v).mono hmono) (.inr ⟨rfl, rfl, rfl⟩)
    · rw [Function.update_of_ne hu]
      exact (h.walk u).mono hmono
  · rintro a b c (harc | ⟨rfl, rfl, rfl⟩)
    · rw [hsame a (h.from_settled a b c harc)]
      exact (hle b).trans (h.relaxed a b c harc)
    · rw [hsame a hv, Function.update_self]
      exact min_le_right _ _
  · intro a b ha hpending
    by_cases hnew : a = v ∧ b = x
    · exact .inl ⟨w, .inr ⟨hnew.1, hnew.2, rfl⟩⟩
    · rcases h.covered a b ha fun hp => hpending ⟨hp, hnew⟩ with ⟨c, harc⟩ | hab
      · exact .inl ⟨c, .inl harc⟩
      · rw [hsame a ha]
        exact .inr ((hle b).trans hab)
  · intro a b ha hb
    rw [hsame a ha]
    by_cases hbx : b = x
    · subst hbx
      rw [Function.update_self]
      exact le_min (h.greedy a b ha hb)
        ((hlast a ha).trans (le_add_of_nonneg_right hw))
    · rw [Function.update_of_ne hbx]
      exact h.greedy a b ha hb

/-! ## What the labels are worth -/

theorem Explored.label_nonneg (h : Explored arc s settled pending D) (v : V) : 0 ≤ D v :=
  (h.walk v).nonneg h.nonneg

/-- Along a walk in a matrix no smaller than the arcs read, either some vertex not settled
has a label within the cost, or the end is settled and has. -/
theorem Explored.frontier (h : Explored arc s settled (fun _ _ => False) D) {w : V → V → M}
    (hw : ∀ u v, 0 ≤ w u v) (hle : ∀ u v x, arc u v x → x ≤ w u v)
    (hwalk : Walk (arcs w) s t c) :
    (∃ y, y ∉ settled ∧ D y ≤ c) ∨ t ∈ settled ∧ D t ≤ c := by
  induction hwalk with
  | nil => exact .inr ⟨h.source_settled, h.source.le⟩
  | @snoc u v c x _ harc ih =>
      obtain rfl : x = w u v := harc
      rcases ih with ⟨y, hy, hyc⟩ | ⟨hu, huc⟩
      · exact .inl ⟨y, hy, hyc.trans (le_add_of_nonneg_right (hw u v))⟩
      · have hv : D v ≤ c + w u v := by
          rcases h.covered u v hu id with ⟨x, hx⟩ | hle'
          · calc
              D v ≤ D u + x := h.relaxed u v x hx
              _ ≤ c + w u v := add_le_add huc (hle u v x hx)
          · exact hle'.trans (huc.trans (le_add_of_nonneg_right (hw u v)))
        by_cases hmem : v ∈ settled
        · exact .inr ⟨hmem, hv⟩
        · exact .inl ⟨v, hmem, hv⟩

/-- Once everything is settled, the labels bound every matrix above the arcs read from
below. -/
theorem Explored.le_of_walk (h : Explored arc s settled (fun _ _ => False) D)
    (hall : ∀ v, v ∈ settled) {w : V → V → M} (hw : ∀ u v, 0 ≤ w u v)
    (hle : ∀ u v x, arc u v x → x ≤ w u v) (hwalk : Walk (arcs w) s t c) : D t ≤ c := by
  rcases h.frontier hw hle hwalk with ⟨y, hy, _⟩ | ⟨_, ht⟩
  · exact (hy (hall y)).elim
  · exact ht

/-- Once everything is settled, the labels are the distances in every matrix that agrees
with the arcs read. -/
theorem Explored.isDist (h : Explored arc s settled (fun _ _ => False) D)
    (hall : ∀ v, v ∈ settled) {w : V → V → M} (hw : ∀ u v, 0 ≤ w u v)
    (hagree : ∀ u v x, arc u v x → x = w u v) (t : V) : IsDist w s t (D t) :=
  ⟨(h.walk t).mono hagree, fun _ hwalk =>
    h.le_of_walk hall hw (fun u v x harc => (hagree u v x harc).le) hwalk⟩

end NetLabs.ShortestPath
