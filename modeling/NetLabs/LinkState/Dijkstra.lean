import Mathlib.Data.Fintype.Card
import Mathlib.Data.List.Pairwise
import NetLabs.LinkState.Pass

/-! # The greedy invariant of a pass

The pass reads each link at most once, so what it knows is a graph that nobody changes any
more: the reads made so far. On that graph it is Dijkstra's algorithm. -/

namespace NetLabs.LinkState

open ShortestPath Machine

variable {N : ℕ}

/-! ## The closest node -/

/-- What the search for the closest node has found among the nodes `seen`. -/
structure Best (taken : Fin N → Bool) (distances : Fin N → Int32) (seen : List (Fin N))
    (best : Int32 × Option (Fin N)) : Prop where
  le_infinite : best.1.toInt ≤ INFINITE.toInt
  of_none : best.2 = none → best.1 = INFINITE
  of_some : ∀ spot, best.2 = some spot →
    taken spot = false ∧ distances spot = best.1 ∧ best.1.toInt < INFINITE.toInt
  le : ∀ j ∈ seen, taken j = false → best.1.toInt ≤ (distances j).toInt

theorem Best.closer {taken : Fin N → Bool} {distances : Fin N → Int32} {seen : List (Fin N)}
    {best : Int32 × Option (Fin N)} (h : Best taken distances seen best) (j : Fin N) :
    Best taken distances (seen ++ [j]) (closer taken distances best j) := by
  unfold LinkState.closer
  by_cases hj : taken j = false ∧ distances j < best.1
  · rw [if_pos hj]
    have hlt := Int32.lt_iff_toInt_lt.mp hj.2
    have hle := h.le_infinite
    refine ⟨by dsimp only; omega, by simp, ?_, ?_⟩
    · intro spot hspot
      obtain rfl := Option.some.inj hspot
      exact ⟨hj.1, rfl, by dsimp only; omega⟩
    · intro k hk hfree
      rcases List.mem_append.mp hk with hk | hk
      · exact (hlt.trans_le (h.le k hk hfree)).le
      · obtain rfl := List.mem_singleton.mp hk
        exact le_rfl
  · rw [if_neg hj]
    refine ⟨h.le_infinite, h.of_none, h.of_some, ?_⟩
    intro k hk hfree
    rcases List.mem_append.mp hk with hk | hk
    · exact h.le k hk hfree
    · obtain rfl := List.mem_singleton.mp hk
      by_contra hlt
      exact hj ⟨hfree, Int32.lt_iff_toInt_lt.mpr (by omega)⟩

theorem Best.foldl (taken : Fin N → Bool) (distances : Fin N → Int32) (rest : List (Fin N)) :
    Best taken distances rest
      (rest.foldl (LinkState.closer taken distances) (INFINITE, none)) := by
  induction rest using List.reverseRecOn with
  | nil => exact ⟨le_rfl, fun _ => rfl, by simp, by simp⟩
  | append_singleton rest j ih =>
      rw [List.foldl_append]
      exact ih.closer j

theorem closest_eq_none {taken : Fin N → Bool} {distances : Fin N → Int32}
    (h : closest taken distances = none) (j : Fin N) (hj : taken j = false) :
    INFINITE.toInt ≤ (distances j).toInt := by
  have hbest := Best.foldl taken distances (List.finRange N)
  rw [← hbest.of_none h]
  exact hbest.le j (List.mem_finRange j) hj

/-- The search finds the closest of the nodes nearer than `INFINITE`. -/
theorem closest_eq_some {taken : Fin N → Bool} {distances : Fin N → Int32} {spot : Fin N}
    (h : closest taken distances = some spot) :
    taken spot = false ∧ (distances spot).toInt < INFINITE.toInt ∧
      ∀ j, taken j = false → (distances spot).toInt ≤ (distances j).toInt := by
  have hbest := Best.foldl taken distances (List.finRange N)
  obtain ⟨hfree, hmin, hlt⟩ := hbest.of_some spot h
  rw [hmin]
  exact ⟨hfree, hlt, fun j hj => hbest.le j (List.mem_finRange j) hj⟩

/-! ## The invariant -/

/-- The arcs read so far, with the costs read. -/
def Pass.arcsRead (p : Pass N) (u v : Fin N) (c : ℤ) : Prop :=
  ∃ r ∈ p.reads, r.src = u ∧ r.dst = v ∧ r.cost.toInt = c

def Pass.settled (p : Pass N) : Set (Fin N) :=
  {v | p.taken v = true}

/-- The distances, with the entry of `myid` that nobody uses replaced by zero. -/
def label (myid : Fin N) (distances : Fin N → Int32) (v : Fin N) : ℤ :=
  if v = myid then 0 else (distances v).toInt

abbrev Pass.label (p : Pass N) : Fin N → ℤ :=
  LinkState.label p.myid p.distances

/-- The number of nodes in the set. -/
def Pass.size (p : Pass N) : ℕ :=
  (Finset.univ.filter fun v => p.taken v = true).card

abbrev Pass.Known (p : Pass N) (pending : Fin N → Fin N → Prop) : Prop :=
  Explored p.arcsRead p.myid p.settled pending p.label

/-- What the pass has reached, when no cost is negative. -/
def Pass.Progress (p : Pass N) : Prop :=
  match p.stage with
  | .init i =>
      (∀ r ∈ p.reads, r.src = p.myid ∧ r.dst < i ∧ p.distances r.dst = r.cost) ∧
      ∀ k : Fin N, k < i → p.taken k = false ∧ ∃ r ∈ p.reads, r.dst = k
  | .select i => p.Known (fun _ _ => False) ∧ p.size = i
  | .relax i spot j =>
      p.Known (fun u x => u = spot ∧ p.taken x = false ∧ j ≤ x) ∧ p.size = i + 1 ∧
      spot ≠ p.myid ∧ p.taken spot = true ∧ (p.distances spot).toInt < INFINITE.toInt ∧
      (∀ u ∈ p.settled, p.label u ≤ p.label spot) ∧
      ∀ r ∈ p.reads, r.src = spot → r.dst < j
  | .finished => p.Known (fun _ _ => False) ∧ ∀ v, v ∈ p.settled
  | .undefined .noSpot =>
      p.Known (fun _ _ => False) ∧ (∃ v, v ∉ p.settled) ∧
      ∀ v, v ∉ p.settled → INFINITE.toInt ≤ p.label v
  | .undefined .overflow =>
      ∃ m ∈ p.held, ∃ u v, Int32.maxValue.toInt - INFINITE.toInt < m.weight u v

/-- No two reads are of the same link. -/
def ReadsOnce (reads : List (Read N)) : Prop :=
  reads.Pairwise fun r r' => ¬ OnLink r.src r.dst r'.src r'.dst

theorem ReadsOnce.eq_of_onLink {reads : List (Read N)} (h : ReadsOnce reads) {r r' : Read N}
    (hr : r ∈ reads) (hr' : r' ∈ reads) (hlink : OnLink r.src r.dst r'.src r'.dst) :
    r = r' := by
  by_contra hne
  have hsymm : Std.Symm fun r r' : Read N => ¬ OnLink r.src r.dst r'.src r'.dst :=
    ⟨fun _ _ hn hlink => hn hlink.symm⟩
  exact List.Pairwise.forall h hr hr' hne hlink

def Nonneg (tables : List (Costs N)) : Prop :=
  ∀ m ∈ tables, ∀ u v, 0 ≤ m.weight u v

instance (tables : List (Costs N)) : Decidable (Nonneg tables) :=
  inferInstanceAs (Decidable (∀ m ∈ tables, ∀ u v, 0 ≤ m.weight u v))

/-! ## The first loop -/

section Init

variable {p : Pass N} {i : ℕ}

theorem Pass.Progress.copy (h : p.Progress) (hstage : p.stage = .init i) (hi : i < N) :
    Pass.Progress { p with
      taken := Function.update p.taken ⟨i, hi⟩ false
      distances := Function.update p.distances ⟨i, hi⟩ (p.costs p.myid ⟨i, hi⟩)
      stage := .init (i + 1)
      reads := p.reads ++ [⟨p.myid, ⟨i, hi⟩, p.costs⟩] } := by
  simp only [Pass.Progress, hstage] at h
  obtain ⟨hreads, hcopied⟩ := h
  refine ⟨?_, ?_⟩
  · intro r hr
    rcases List.mem_append.mp hr with hr | hr
    · obtain ⟨hsrc, hdst, hcost⟩ := hreads r hr
      have hne : r.dst ≠ ⟨i, hi⟩ := by
        rintro heq
        simp [heq] at hdst
      refine ⟨hsrc, by omega, ?_⟩
      dsimp only
      rw [Function.update_of_ne hne, hcost]
    · obtain rfl := List.mem_singleton.mp hr
      exact ⟨rfl, by simp, by simp [Read.cost]⟩
  · intro k hk
    by_cases hki : k = ⟨i, hi⟩
    · subst hki
      exact ⟨by simp, ⟨p.myid, ⟨i, hi⟩, p.costs⟩, by simp, rfl⟩
    · have hlt : (k : ℕ) < i := by
        have hval : (k : ℕ) ≠ i := fun heq => hki (Fin.ext heq)
        omega
      obtain ⟨hfree, r, hr, hdst⟩ := hcopied k hlt
      refine ⟨?_, r, by simp [hr], hdst⟩
      dsimp only
      rw [Function.update_of_ne hki, hfree]

theorem Pass.Progress.readsOnce_copy (h : ReadsOnce p.reads) (hprogress : p.Progress)
    (hstage : p.stage = .init i) (hi : i < N) :
    ReadsOnce (p.reads ++ [⟨p.myid, ⟨i, hi⟩, p.costs⟩]) := by
  simp only [Pass.Progress, hstage] at hprogress
  refine List.pairwise_append.mpr ⟨h, by simp, ?_⟩
  intro r hr r' hr' hlink
  obtain rfl := List.mem_singleton.mp hr'
  obtain ⟨hsrc, hdst, _⟩ := hprogress.1 r hr
  rcases hlink with ⟨_, heq⟩ | ⟨heq, heq'⟩
  · simp [← heq] at hdst
  · dsimp only at heq heq'
    rw [← heq, ← hsrc, ← heq'] at hdst
    simp at hdst

/-- When the row of `myid` is copied, every node is known to be as far as its link. -/
theorem Pass.Progress.settleSource (h : p.Progress) (hstage : p.stage = .init i)
    (hi : ¬ i < N) (htables : ∀ r ∈ p.reads, r.table ∈ p.held) (hnonneg : Nonneg p.held) :
    Pass.Progress { p with
      taken := Function.update p.taken p.myid true
      stage := .select 1 } := by
  simp only [Pass.Progress, hstage] at h
  obtain ⟨hreads, hcopied⟩ := h
  have hall : ∀ k, p.taken k = false ∧ ∃ r ∈ p.reads, r.dst = k :=
    fun k => hcopied k (by omega)
  have hrow : ∀ v, 0 ≤ (p.distances v).toInt := by
    intro v
    obtain ⟨_, r, hr, rfl⟩ := hall v
    rw [(hreads r hr).2.2]
    exact hnonneg r.table (htables r hr) r.src r.dst
  have htaken : ∀ v, Function.update p.taken p.myid true v = true ↔ v = p.myid := by
    intro v
    by_cases hv : v = p.myid
    · simp [hv]
    · simp [hv, (hall v).1]
  refine ⟨?_, ?_⟩
  · have hsettled : Pass.settled { p with
        taken := Function.update p.taken p.myid true
        stage := .select 1 } = {p.myid} := by
      ext v
      exact htaken v
    unfold Pass.Known
    rw [hsettled]
    refine (Explored.start hrow).congr ?_ fun _ _ _ hp => hp
    rintro u v w
    constructor
    · rintro ⟨rfl, rfl⟩
      obtain ⟨_, r, hr, rfl⟩ := hall v
      exact ⟨r, hr, (hreads r hr).1, rfl, by rw [(hreads r hr).2.2]⟩
    · rintro ⟨r, hr, rfl, rfl, rfl⟩
      exact ⟨(hreads r hr).1, by rw [(hreads r hr).2.2]⟩
  · simp [Pass.size, htaken, Finset.filter_eq']

end Init

/-! ## The selection loop -/

section Select

variable {p : Pass N} {i : ℕ}

theorem Pass.label_of_ne {v : Fin N} (hv : v ≠ p.myid) :
    p.label v = (p.distances v).toInt :=
  if_neg hv

theorem Pass.Known.ne_myid {pending : Fin N → Fin N → Prop} (h : p.Known pending)
    {v : Fin N} (hv : p.taken v = false) : v ≠ p.myid := by
  rintro rfl
  have hmem : p.taken p.myid = true := h.source_settled
  simp [hv] at hmem

theorem Pass.not_mem_settled {v : Fin N} : v ∉ p.settled ↔ p.taken v = false := by
  simp [Pass.settled]

theorem Pass.exists_not_mem_settled (hsize : p.size < N) : ∃ v, v ∉ p.settled := by
  by_contra hall
  have heq : p.size = N := by
    have htaken : ∀ v, p.taken v = true := by simpa [Pass.settled] using hall
    simp [Pass.size, htaken]
  omega

theorem Pass.mem_settled_of_size (hsize : N ≤ p.size) (v : Fin N) : v ∈ p.settled := by
  have hall : (Finset.univ.filter fun v => p.taken v = true) = Finset.univ :=
    Finset.eq_univ_of_card _
      (le_antisymm (Finset.card_le_univ _) (by rwa [Fintype.card_fin]))
  exact (Finset.filter_eq_self.mp hall) v (Finset.mem_univ v)

theorem Pass.Progress.noSpot (h : p.Progress) (hstage : p.stage = .select i) (hi : i < N)
    (hclosest : closest p.taken p.distances = none) :
    Pass.Progress { p with stage := .undefined .noSpot } := by
  simp only [Pass.Progress, hstage] at h
  obtain ⟨hknown, hsize⟩ := h
  refine ⟨hknown, Pass.exists_not_mem_settled (p := p) (by omega), ?_⟩
  intro v hv
  have hfree : p.taken v = false := Pass.not_mem_settled.mp hv
  calc
    INFINITE.toInt ≤ (p.distances v).toInt := closest_eq_none hclosest v hfree
    _ = p.label v := (Pass.label_of_ne (hknown.ne_myid hfree)).symm

theorem Pass.Progress.select {spot : Fin N} (h : p.Progress) (hstage : p.stage = .select i)
    (hclosest : closest p.taken p.distances = some spot) :
    Pass.Progress { p with
      taken := Function.update p.taken spot true
      stage := .relax i spot 0 } := by
  simp only [Pass.Progress, hstage] at h
  obtain ⟨hknown, hsize⟩ := h
  obtain ⟨hfree, hlt, hle⟩ := closest_eq_some hclosest
  have hne := hknown.ne_myid hfree
  have hsettled : Pass.settled { p with
      taken := Function.update p.taken spot true
      stage := .relax i spot 0 } = insert spot p.settled := by
    ext v
    by_cases hv : v = spot <;> simp [Pass.settled, hv]
  have hmin : ∀ x, x ∉ p.settled → p.label spot ≤ p.label x := by
    intro x hx
    have hx' := Pass.not_mem_settled.mp hx
    rw [Pass.label_of_ne hne, Pass.label_of_ne (hknown.ne_myid hx')]
    exact hle x hx'
  have hspot : spot ∉ p.settled := Pass.not_mem_settled.mpr hfree
  refine ⟨?_, ?_, hne, by simp, hlt, ?_, ?_⟩
  · unfold Pass.Known
    rw [hsettled]
    refine (hknown.settle hspot hmin).congr (fun _ _ _ => Iff.rfl) ?_
    rintro u x _ ⟨rfl, hx⟩
    rw [← hsettled, Pass.not_mem_settled] at hx
    exact ⟨rfl, hx, Nat.zero_le _⟩
  · have hinsert : (Finset.univ.filter fun v => Function.update p.taken spot true v = true) =
        insert spot (Finset.univ.filter fun v => p.taken v = true) := by
      ext v
      by_cases hv : v = spot <;> simp [hv]
    simp only [Pass.size]
    rw [hinsert, Finset.card_insert_of_notMem (by simp [hfree])]
    exact congrArg (· + 1) hsize
  · rw [hsettled]
    rintro u (rfl | hu)
    · exact le_rfl
    · exact hknown.greedy u spot hu hspot
  · rintro r hr rfl
    obtain hmem : r.src ∈ p.settled := hknown.from_settled r.src r.dst _ ⟨r, hr, rfl, rfl, rfl⟩
    exact (hspot hmem).elim

theorem Pass.Progress.finish (h : p.Progress) (hstage : p.stage = .select i)
    (hi : ¬ i < N) : Pass.Progress { p with stage := .finished } := by
  simp only [Pass.Progress, hstage] at h
  obtain ⟨hknown, hsize⟩ := h
  exact ⟨hknown, Pass.mem_settled_of_size (p := p) (by omega)⟩

end Select

/-! ## The relaxation loop -/

section Relax

variable {p : Pass N} {i j : ℕ} {spot : Fin N}

theorem Pass.Progress.skip (h : p.Progress) (hstage : p.stage = .relax i spot j)
    (hj : j < N) (htaken : p.taken ⟨j, hj⟩ ≠ false) :
    Pass.Progress { p with stage := .relax i spot (j + 1) } := by
  simp only [Pass.Progress, hstage] at h
  obtain ⟨hknown, hsize, hne, hspot, hlt, hlast, hreads⟩ := h
  refine ⟨?_, hsize, hne, hspot, hlt, hlast, fun r hr hsrc => (hreads r hr hsrc).trans ?_⟩
  · refine Explored.congr hknown (fun _ _ _ => Iff.rfl) ?_
    rintro u x _ ⟨rfl, hx, hjx⟩
    have hval : j ≠ (x : ℕ) := by
      rintro rfl
      exact htaken hx
    exact ⟨rfl, hx, by omega⟩
  · exact Nat.lt_succ_self j

theorem Pass.Progress.endRound (h : p.Progress) (hstage : p.stage = .relax i spot j)
    (hj : ¬ j < N) : Pass.Progress { p with stage := .select (i + 1) } := by
  simp only [Pass.Progress, hstage] at h
  obtain ⟨hknown, hsize, -⟩ := h
  refine ⟨Explored.congr hknown (fun _ _ _ => Iff.rfl) ?_, hsize⟩
  rintro u x _ ⟨_, _, hjx⟩
  omega

theorem Pass.Progress.overflow (h : p.Progress) (hstage : p.stage = .relax i spot j)
    (hheld : p.costs ∈ p.held) (hnonneg : Nonneg p.held) {x : Fin N}
    (hsum : addInt (p.distances spot) (p.costs spot x) = none) :
    Pass.Progress { p with stage := .undefined .overflow } := by
  simp only [Pass.Progress, hstage] at h
  obtain ⟨hknown, _, hne, hspot, hlt, _, _⟩ := h
  have hspot0 : 0 ≤ (p.distances spot).toInt := by
    have hle := hknown.label_nonneg spot
    rwa [Pass.label_of_ne hne] at hle
  have hover := addInt_eq_none hsum hspot0 (hnonneg _ hheld spot x)
  refine ⟨p.costs, hheld, spot, x, ?_⟩
  simp only [Costs.weight, Int32.toInt_maxValue]
  omega

theorem label_update {myid x : Fin N} {distances : Fin N → Int32} {cost sum : Int32}
    (hspot : spot ≠ myid) (hx : x ≠ myid) (hsum : addInt (distances spot) cost = some sum) :
    label myid (Function.update distances x (MIN (distances x) sum)) =
      Function.update (label myid distances) x
        (min (label myid distances x) (label myid distances spot + cost.toInt)) := by
  funext v
  by_cases hv : v = x
  · subst hv
    simp only [label, if_neg hx, if_neg hspot, Function.update_self]
    rw [toInt_MIN, addInt_eq_some hsum]
  · simp only [label, Function.update_of_ne hv]

theorem Pass.Progress.relax (h : p.Progress) (hstage : p.stage = .relax i spot j)
    (hheld : p.costs ∈ p.held) (hnonneg : Nonneg p.held) (hj : j < N)
    (hfree : p.taken ⟨j, hj⟩ = false) {sum : Int32}
    (hsum : addInt (p.distances spot) (p.costs spot ⟨j, hj⟩) = some sum) :
    Pass.Progress { p with
      distances := Function.update p.distances ⟨j, hj⟩ (MIN (p.distances ⟨j, hj⟩) sum)
      stage := .relax i spot (j + 1)
      reads := p.reads ++ [⟨spot, ⟨j, hj⟩, p.costs⟩] } := by
  simp only [Pass.Progress, hstage] at h
  obtain ⟨hknown, hsize, hne, hspot, hlt, hlast, hreads⟩ := h
  have hspotj : spot ≠ ⟨j, hj⟩ := by
    rintro rfl
    simp [hfree] at hspot
  have hlabel : LinkState.label p.myid
      (Function.update p.distances ⟨j, hj⟩ (MIN (p.distances ⟨j, hj⟩) sum)) =
      Function.update p.label ⟨j, hj⟩
        (min (p.label ⟨j, hj⟩) (p.label spot + p.costs.weight spot ⟨j, hj⟩)) :=
    label_update hne (hknown.ne_myid hfree) hsum
  refine ⟨?_, hsize, hne, hspot, ?_, ?_, ?_⟩
  · have hrelaxed := Explored.relax hknown hspot hlast (Pass.not_mem_settled.mpr hfree)
      (hnonneg _ hheld spot ⟨j, hj⟩)
    rw [← hlabel] at hrelaxed
    refine hrelaxed.congr ?_ ?_
    · intro u v c
      simp only [Pass.arcsRead, List.mem_append, List.mem_singleton, or_and_right,
        exists_or, exists_eq_left, Read.cost, Costs.weight]
      exact or_congr_right ⟨fun ⟨hu, hv, hc⟩ => ⟨hu.symm, hv.symm, hc.symm⟩,
        fun ⟨hu, hv, hc⟩ => ⟨hu.symm, hv.symm, hc.symm⟩⟩
    · rintro u x _ ⟨⟨rfl, hx, hjx⟩, hnew⟩
      have hval : j ≠ (x : ℕ) := by
        rintro rfl
        exact hnew ⟨rfl, rfl⟩
      exact ⟨rfl, hx, Nat.lt_of_le_of_ne hjx hval⟩
  · dsimp only
    rwa [Function.update_of_ne hspotj]
  · intro u hu
    have hu' : u ≠ ⟨j, hj⟩ := by
      rintro rfl
      exact Pass.not_mem_settled.mpr hfree hu
    unfold Pass.label
    dsimp only
    rw [hlabel, Function.update_of_ne hu', Function.update_of_ne hspotj]
    exact hlast u hu
  · intro r hr hsrc
    rcases List.mem_append.mp hr with hr | hr
    · exact (hreads r hr hsrc).trans (Nat.lt_succ_self j)
    · obtain rfl := List.mem_singleton.mp hr
      exact Nat.lt_succ_self j

theorem Pass.Progress.readsOnce_relax (h : ReadsOnce p.reads) (hprogress : p.Progress)
    (hstage : p.stage = .relax i spot j) (hj : j < N) (hfree : p.taken ⟨j, hj⟩ = false) :
    ReadsOnce (p.reads ++ [⟨spot, ⟨j, hj⟩, p.costs⟩]) := by
  simp only [Pass.Progress, hstage] at hprogress
  obtain ⟨hknown, _, _, _, _, _, hreads⟩ := hprogress
  refine List.pairwise_append.mpr ⟨h, by simp, ?_⟩
  intro r hr r' hr' hlink
  obtain rfl := List.mem_singleton.mp hr'
  have hsettled : p.taken r.src = true :=
    hknown.from_settled r.src r.dst _ ⟨r, hr, rfl, rfl, rfl⟩
  rcases hlink with ⟨heq, heq'⟩ | ⟨_, heq⟩
  · have hlt := hreads r hr heq.symm
    simp [← heq'] at hlt
  · dsimp only at heq
    simp [← heq, hfree] at hsettled

end Relax

/-! ## The whole pass -/

/-- The invariant of a pass between any changes of the table. -/
structure Pass.Sound (p : Pass N) : Prop where
  costs_held : p.costs ∈ p.held
  read_held : ∀ r ∈ p.reads, r.table ∈ p.held
  explored : Nonneg p.held → p.Progress ∧ ReadsOnce p.reads

theorem Pass.Sound.start (myid : Fin N) (costs : Costs N) (taken : Fin N → Bool)
    (distances : Fin N → Int32) : (Pass.start myid costs taken distances).Sound where
  costs_held := by simp [Pass.start]
  read_held := by simp [Pass.start]
  explored := by
    intro _
    refine ⟨⟨by simp [Pass.start], ?_⟩, .nil⟩
    intro k hk
    exact absurd hk (Nat.not_lt_zero _)

variable {p q : Pass N}

/-- A step of the pass leaves the table alone and reads at most one entry of it. -/
theorem Pass.frame_of_run (h : p.run = some q) :
    q.myid = p.myid ∧ q.costs = p.costs ∧ q.held = p.held ∧
      (q.reads = p.reads ∨ ∃ src dst, q.reads = p.reads ++ [⟨src, dst, p.costs⟩]) := by
  cases Pass.next_of_run h with
  | copy i _ hi => exact ⟨rfl, rfl, rfl, .inr ⟨p.myid, ⟨i, hi⟩, rfl⟩⟩
  | relax i spot j sum _ hj => exact ⟨rfl, rfl, rfl, .inr ⟨spot, ⟨j, hj⟩, rfl⟩⟩
  | _ => exact ⟨rfl, rfl, rfl, .inl rfl⟩

theorem Pass.Progress.run (hprogress : p.Progress) (honce : ReadsOnce p.reads)
    (hheld : p.costs ∈ p.held) (htables : ∀ r ∈ p.reads, r.table ∈ p.held)
    (hnonneg : Nonneg p.held) (h : p.run = some q) : q.Progress ∧ ReadsOnce q.reads := by
  cases Pass.next_of_run h with
  | copy i hstage hi =>
      exact ⟨hprogress.copy hstage hi, hprogress.readsOnce_copy honce hstage hi⟩
  | settleSource i hstage hi =>
      exact ⟨hprogress.settleSource hstage hi htables hnonneg, honce⟩
  | select i spot hstage _ hspot => exact ⟨hprogress.select hstage hspot, honce⟩
  | noSpot i hstage hi hnone => exact ⟨hprogress.noSpot hstage hi hnone, honce⟩
  | finish i hstage hi => exact ⟨hprogress.finish hstage hi, honce⟩
  | relax i spot j sum hstage hj hfree hsum =>
      exact ⟨hprogress.relax hstage hheld hnonneg hj hfree hsum,
        hprogress.readsOnce_relax honce hstage hj hfree⟩
  | overflow i spot j hstage _ hsum =>
      exact ⟨hprogress.overflow hstage hheld hnonneg hsum, honce⟩
  | skip i spot j hstage hj htaken => exact ⟨hprogress.skip hstage hj htaken, honce⟩
  | endRound i spot j hstage hj => exact ⟨hprogress.endRound hstage hj, honce⟩

/-- A change of the table does not touch what the pass has read. -/
theorem Pass.Progress.update (h : p.Progress) (costs : Costs N) :
    Pass.Progress { p with costs := costs, held := p.held ++ [costs] } := by
  obtain ⟨myid, old, taken, distances, stage, reads, held⟩ := p
  cases stage with
  | undefined reason =>
      cases reason with
      | noSpot => exact h
      | overflow =>
          obtain ⟨m, hm, u, v, hlt⟩ := h
          exact ⟨m, List.mem_append_left _ hm, u, v, hlt⟩
  | _ => exact h

theorem Pass.Sound.step (h : p.Sound) {a : PassAction N} (hstep : p.step a = some q) :
    q.Sound := by
  cases a with
  | run =>
      obtain ⟨_, hcosts, hheld, hreads⟩ := Pass.frame_of_run hstep
      refine ⟨by rw [hcosts, hheld]; exact h.costs_held, ?_, ?_⟩
      · intro r hr
        rw [hheld]
        rcases hreads with heq | ⟨src, dst, heq⟩
        · exact h.read_held r (heq ▸ hr)
        · rw [heq, List.mem_append, List.mem_singleton] at hr
          rcases hr with hr | rfl
          · exact h.read_held r hr
          · exact h.costs_held
      · intro hnonneg
        rw [hheld] at hnonneg
        obtain ⟨hprogress, honce⟩ := h.explored hnonneg
        exact hprogress.run honce h.costs_held h.read_held hnonneg hstep
  | update n0 n1 n2 =>
      obtain rfl := Option.some.inj hstep
      refine ⟨by simp, fun r hr => List.mem_append_left _ (h.read_held r hr), ?_⟩
      intro hnonneg
      obtain ⟨hprogress, honce⟩ := h.explored fun m hm => hnonneg m (List.mem_append_left _ hm)
      exact ⟨hprogress.update _, honce⟩

theorem Pass.sound_of_run {ok : Pass N → PassAction N → Prop} {myid : Fin N}
    {costs : Costs N} {taken : Fin N → Bool} {distances : Fin N → Int32}
    {es : List (PassAction N)}
    (h : Run Pass.step ok (Pass.start myid costs taken distances) es p) : p.Sound :=
  h.invariant (fun _ _ _ hs _ hstep => hs.step hstep) (.start myid costs taken distances)

theorem Pass.myid_of_run {ok : Pass N → PassAction N → Prop} {myid : Fin N}
    {costs : Costs N} {taken : Fin N → Bool} {distances : Fin N → Int32}
    {es : List (PassAction N)}
    (h : Run Pass.step ok (Pass.start myid costs taken distances) es p) : p.myid = myid := by
  refine h.invariant (P := fun p => p.myid = myid) ?_ rfl
  intro p a q hp _ hstep
  cases a with
  | run => rw [(Pass.frame_of_run hstep).1, hp]
  | update n0 n1 n2 =>
      obtain rfl := Option.some.inj hstep
      exact hp

end NetLabs.LinkState
