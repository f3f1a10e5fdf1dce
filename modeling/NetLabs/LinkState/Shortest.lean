import NetLabs.LinkState.Dijkstra

/-! # What a pass computes while the table changes

The distances a pass ends with are those of a table put together from costs that were held,
each at some moment of the pass. -/

namespace NetLabs.LinkState

open ShortestPath Machine

variable {N : ℕ} {p q : Pass N}

/-! ## Tables that bound a history -/

def highest (tables : List (Costs N)) (u v : Fin N) : ℤ :=
  ((tables.map fun m => m.weight u v).max?).getD 0

def lowest (tables : List (Costs N)) (u v : Fin N) : ℤ :=
  ((tables.map fun m => m.weight u v).min?).getD 0

theorem weight_le_highest {tables : List (Costs N)} {m : Costs N} (hm : m ∈ tables)
    (u v : Fin N) : m.weight u v ≤ highest tables u v := by
  have hmem := List.mem_map_of_mem (f := fun m : Costs N => m.weight u v) hm
  obtain ⟨x, hx⟩ := Option.isSome_iff_exists.mp (List.isSome_max?_of_mem hmem)
  have hle := (List.max?_eq_some_iff.mp hx).2 _ hmem
  simpa [highest, hx] using hle

theorem lowest_le_weight {tables : List (Costs N)} {m : Costs N} (hm : m ∈ tables)
    (u v : Fin N) : lowest tables u v ≤ m.weight u v := by
  have hmem := List.mem_map_of_mem (f := fun m : Costs N => m.weight u v) hm
  obtain ⟨x, hx⟩ := Option.isSome_iff_exists.mp (List.isSome_min?_of_mem hmem)
  have hle := (List.min?_eq_some_iff.mp hx).2 _ hmem
  simpa [lowest, hx] using hle

theorem lowest_nonneg {tables : List (Costs N)} (h : Nonneg tables) (u v : Fin N) :
    0 ≤ lowest tables u v := by
  unfold lowest
  cases hmin : (tables.map fun m => m.weight u v).min? with
  | none => exact le_rfl
  | some x =>
      obtain ⟨m, hm, rfl⟩ := List.mem_map.mp (List.min?_eq_some_iff.mp hmin).1
      exact h m hm u v

/-! ## The end of a pass -/

/-- As long as every node is near in some table no cheaper than what was read, a closest
node is found. -/
theorem Pass.Sound.stage_ne_noSpot (h : p.Sound) (hnonneg : Nonneg p.held)
    {w : Fin N → Fin N → ℤ} (hw : ∀ u v, 0 ≤ w u v)
    (hle : ∀ r ∈ p.reads, r.cost.toInt ≤ w r.src r.dst)
    (hreach : ∀ v, ∃ c < INFINITE.toInt, Walk (arcs w) p.myid v c) :
    p.stage ≠ .undefined .noSpot := by
  intro hstage
  have hprogress := (h.explored hnonneg).1
  simp only [Pass.Progress, hstage] at hprogress
  obtain ⟨hknown, ⟨v, hv⟩, hfar⟩ := hprogress
  obtain ⟨c, hc, hwalk⟩ := hreach v
  have hread : ∀ a b x, p.arcsRead a b x → x ≤ w a b := by
    rintro a b x ⟨r, hr, rfl, rfl, rfl⟩
    exact hle r hr
  rcases hknown.frontier hw hread hwalk with ⟨y, hy, hyc⟩ | ⟨hmem, _⟩
  · have := hfar y hy
    omega
  · exact hv hmem

/-- A pass that has ended has found the distances of every table that agrees with what it
read. -/
theorem Pass.Sound.isDist (h : p.Sound) (hnonneg : Nonneg p.held)
    (hstage : p.stage = .finished) {w : Fin N → Fin N → ℤ} (hw : ∀ u v, 0 ≤ w u v)
    (hagree : ∀ r ∈ p.reads, r.cost.toInt = w r.src r.dst) {j : Fin N} (hj : j ≠ p.myid) :
    IsDist w p.myid j (p.distances j).toInt := by
  have hprogress := (h.explored hnonneg).1
  simp only [Pass.Progress, hstage] at hprogress
  obtain ⟨hknown, hall⟩ := hprogress
  rw [← Pass.label_of_ne hj]
  refine hknown.isDist hall hw ?_ j
  rintro a b x ⟨r, hr, rfl, rfl, rfl⟩
  exact hagree r hr

theorem Pass.Sound.stage_ne_overflow (h : p.Sound) (hnonneg : Nonneg p.held)
    (hbound : ∀ m ∈ p.held, ∀ u v,
      m.weight u v ≤ Int32.maxValue.toInt - INFINITE.toInt) :
    p.stage ≠ .undefined .overflow := by
  intro hstage
  have hprogress := (h.explored hnonneg).1
  simp only [Pass.Progress, hstage] at hprogress
  obtain ⟨m, hm, u, v, hlt⟩ := hprogress
  have := hbound m hm u v
  omega

/-- A pass over costs below overflow is defined, as long as every node is near. -/
theorem Pass.Sound.defined (h : p.Sound) (hnonneg : Nonneg p.held)
    (hbound : ∀ m ∈ p.held, ∀ u v, m.weight u v ≤ Int32.maxValue.toInt - INFINITE.toInt)
    {w : Fin N → Fin N → ℤ} (hw : ∀ u v, 0 ≤ w u v)
    (hle : ∀ r ∈ p.reads, r.cost.toInt ≤ w r.src r.dst)
    (hreach : ∀ v, ∃ c < INFINITE.toInt, Walk (arcs w) p.myid v c) (reason : Undefined) :
    p.stage ≠ .undefined reason := by
  cases reason with
  | noSpot => exact h.stage_ne_noSpot hnonneg hw hle hreach
  | overflow => exact h.stage_ne_overflow hnonneg hbound

theorem Pass.Sound.highest_nonneg (h : p.Sound) (hnonneg : Nonneg p.held) (u v : Fin N) :
    0 ≤ highest p.held u v :=
  (hnonneg _ h.costs_held u v).trans (weight_le_highest h.costs_held u v)

theorem Pass.Sound.cost_le_highest (h : p.Sound) :
    ∀ r ∈ p.reads, r.cost.toInt ≤ highest p.held r.src r.dst :=
  fun r hr => weight_le_highest (h.read_held r hr) r.src r.dst

/-- The costs read, filled up with those the table started with, are all costs held. -/
theorem Pass.Sound.exists_agreeing (h : p.Sound) (hnonneg : Nonneg p.held) :
    ∃ cstar : Costs N, (∀ u v, ∃ m ∈ p.held, cstar u v = m u v) ∧
      ∀ r ∈ p.reads, r.cost = cstar r.src r.dst := by
  have hentry : ∀ u v, ∃ x, (∃ m ∈ p.held, x = m u v) ∧
      ∀ r ∈ p.reads, r.src = u → r.dst = v → r.cost = x := by
    intro u v
    by_cases hread : ∃ r ∈ p.reads, r.src = u ∧ r.dst = v
    · obtain ⟨r, hr, rfl, rfl⟩ := hread
      refine ⟨r.cost, ⟨r.table, h.read_held r hr, rfl⟩, ?_⟩
      intro r' hr' hsrc hdst
      have hsame : r = r' :=
        (h.explored hnonneg).2.eq_of_onLink hr hr' (.inl ⟨hsrc, hdst⟩)
      rw [hsame]
    · exact ⟨p.costs u v, ⟨p.costs, h.costs_held, rfl⟩,
        fun r hr hsrc hdst => (hread ⟨r, hr, hsrc, hdst⟩).elim⟩
  choose cstar hheld hagree using hentry
  exact ⟨cstar, hheld, fun r hr => hagree r.src r.dst r hr rfl rfl⟩

/-! ## The number of steps -/

def PassAction.isRun : PassAction N → Bool
  | .run => true
  | .update .. => false

/-- A bound on the steps that the pass still has to make. -/
def Stage.left : Stage N → ℕ
  | .init i => (N - i) + N * (N + 2) + 2
  | .select i => (N - i) * (N + 2) + 1
  | .relax i _ j => (N - (i + 1)) * (N + 2) + (N - j) + 2
  | .finished => 0
  | .undefined _ => 0

theorem Pass.left_of_run (h : p.run = some q) : q.stage.left < p.stage.left := by
  cases Pass.next_of_run h with
  | settleSource i hstage =>
      have hle : (N - 1) * (N + 2) ≤ N * (N + 2) := Nat.mul_le_mul_right _ (Nat.sub_le _ _)
      simp only [hstage, Stage.left]
      omega
  | select i spot hstage hi =>
      have hround : (N - i) * (N + 2) = (N - (i + 1)) * (N + 2) + (N + 2) := by
        rw [← Nat.succ_mul]
        congr 1
        omega
      simp only [hstage, Stage.left]
      omega
  | copy i hstage | noSpot i hstage | finish i hstage =>
      simp only [hstage, Stage.left]
      omega
  | relax i spot j sum hstage | overflow i spot j hstage | skip i spot j hstage
  | endRound i spot j hstage =>
      simp only [hstage, Stage.left]
      omega

/-- Whatever the other threads do, the pass itself makes a bounded number of steps. -/
theorem Pass.countP_isRun_le {ok : Pass N → PassAction N → Prop} {myid : Fin N}
    {costs : Costs N} {taken : Fin N → Bool} {distances : Fin N → Int32}
    {es : List (PassAction N)}
    (h : Run Pass.step ok (Pass.start myid costs taken distances) es p) :
    es.countP PassAction.isRun ≤ N + N * (N + 2) + 2 := by
  have hle := h.weight_le (P := fun _ => True) (w := fun a => if a.isRun then 1 else 0)
    (μ := fun p => p.stage.left) (fun _ _ _ _ _ _ => trivial) ?_ trivial
  · rw [sum_map_indicator] at hle
    exact (Nat.le_add_left _ _).trans hle
  · intro t a u _ _ hstep
    cases a with
    | run => exact Pass.left_of_run hstep
    | update n0 n1 n2 =>
        obtain rfl := Option.some.inj hstep
        exact le_rfl

theorem Pass.exists_run (h : ∀ reason, p.stage ≠ .undefined reason)
    (hstage : p.stage ≠ .finished) : ∃ q, p.step .run = some q := by
  simp only [Pass.step, Pass.run]
  cases hcase : p.stage with
  | init i => dsimp only; split <;> exact ⟨_, rfl⟩
  | select i =>
      dsimp only
      split
      · split <;> exact ⟨_, rfl⟩
      · exact ⟨_, rfl⟩
  | relax i spot j =>
      dsimp only
      split
      · split <;> exact ⟨_, rfl⟩
      · exact ⟨_, rfl⟩
  | finished => exact (hstage hcase).elim
  | undefined reason => exact (h reason hcase).elim

/-! ## The pass among updates -/

/-- If no cost held is negative or near overflow, and every node is nearer than `INFINITE`
even at the highest costs held, the pass always finds a closest node and comes to its end;
it has then computed the distances of a table made of costs that were held. These lie
between the distances at the lowest and at the highest costs held, and where the table did
not change they are its distances. -/
theorem shortest_of_held (myid : Fin N) (costs : Costs N) (taken : Fin N → Bool)
    (distances : Fin N → Int32) (es : List (PassAction N)) (p : Pass N)
    (h : Run Pass.step (fun _ _ => True) (Pass.start myid costs taken distances) es p)
    (hnonneg : Nonneg p.held)
    (hbound : ∀ m ∈ p.held, ∀ u v, m.weight u v ≤ Int32.maxValue.toInt - INFINITE.toInt)
    (hreach : ∀ v, ∃ c < INFINITE.toInt, Walk (arcs (highest p.held)) myid v c) :
    (∀ reason, p.stage ≠ .undefined reason) ∧
    (p.stage ≠ .finished → ∃ q, p.step .run = some q) ∧
    es.countP PassAction.isRun ≤ N + N * (N + 2) + 2 ∧
    (p.stage = .finished →
      (∃ cstar : Costs N, (∀ u v, ∃ m ∈ p.held, cstar u v = m u v) ∧
        ∀ j, j ≠ myid → IsDist cstar.weight myid j (p.distances j).toInt) ∧
      (∀ j, j ≠ myid →
        (∃ lo ≤ (p.distances j).toInt, IsDist (lowest p.held) myid j lo) ∧
        ∃ hi ≥ (p.distances j).toInt, IsDist (highest p.held) myid j hi) ∧
      ((∀ m ∈ p.held, m = costs) →
        ∀ j, j ≠ myid → IsDist costs.weight myid j (p.distances j).toInt)) := by
  have hsound := Pass.sound_of_run h
  have hmyid := Pass.myid_of_run h
  subst hmyid
  have hhighest := hsound.highest_nonneg hnonneg
  have hdefined := hsound.defined hnonneg hbound hhighest hsound.cost_le_highest hreach
  refine ⟨hdefined, Pass.exists_run hdefined, Pass.countP_isRun_le h, ?_⟩
  intro hfinished
  obtain ⟨cstar, hheld, hagree⟩ := hsound.exists_agreeing hnonneg
  have hweight : ∀ u v, ∃ m ∈ p.held, cstar.weight u v = m.weight u v := by
    intro u v
    obtain ⟨m, hm, heq⟩ := hheld u v
    exact ⟨m, hm, congrArg Int32.toInt heq⟩
  have hdist : ∀ j, j ≠ p.myid → IsDist cstar.weight p.myid j (p.distances j).toInt := by
    intro j hj
    refine hsound.isDist hnonneg hfinished ?_ (fun r hr => congrArg Int32.toInt (hagree r hr)) hj
    intro u v
    obtain ⟨m, hm, heq⟩ := hweight u v
    exact heq ▸ hnonneg m hm u v
  refine ⟨⟨cstar, hheld, hdist⟩, ?_, ?_⟩
  · intro j hj
    obtain ⟨lo, hlo⟩ := exists_isDist (lowest_nonneg hnonneg) p.myid j
    obtain ⟨hi, hhi⟩ := exists_isDist hhighest p.myid j
    refine ⟨⟨lo, hlo.mono ?_ (hdist j hj), hlo⟩, hi, (hdist j hj).mono ?_ hhi, hhi⟩
    · intro u v
      obtain ⟨m, hm, heq⟩ := hweight u v
      exact heq ▸ lowest_le_weight hm u v
    · intro u v
      obtain ⟨m, hm, heq⟩ := hweight u v
      exact heq ▸ weight_le_highest hm u v
  · intro hsame j hj
    have heq : cstar = costs := by
      funext u v
      obtain ⟨m, hm, heq⟩ := hheld u v
      rw [heq, hsame m hm]
    exact heq ▸ hdist j hj

/-- Four nodes, the last of them 500 away from the others. -/
def sampleCosts (c01 c02 c12 : Int32) : Costs 4 :=
  let near := ((Costs.setLink (fun _ _ => 0) 0 1 c01).setLink 0 2 c02).setLink 1 2 c12
  ((near.setLink 0 3 500).setLink 1 3 500).setLink 2 3 500

/-- The cost of the link from 1 to 2 drops after the row of node 0 is copied. -/
theorem shortest_of_held_update :
    ∃ (es : List (PassAction 4)) (p : Pass 4),
      Run Pass.step (fun _ _ => True)
        (Pass.start 0 (sampleCosts 1 10 4) (fun _ => false) (fun _ => 0)) es p ∧
      p.distances 2 = 3 ∧
      ∃ cstar : Costs 4, (∀ u v, ∃ m ∈ p.held, cstar u v = m u v) ∧
        ∀ j, j ≠ 0 → IsDist cstar.weight 0 j (p.distances j).toInt := by
  let es : List (PassAction 4) :=
    List.replicate 6 .run ++ [.update 1 2 2] ++ List.replicate 18 .run
  let start : Pass 4 := .start 0 (sampleCosts 1 10 4) (fun _ => false) (fun _ => 0)
  let p : Pass 4 := (exec Pass.step start es).get (by decide +kernel)
  have hrun : Run Pass.step (fun _ _ => True) start es p :=
    .of_get (fun _ _ _ => trivial) _
  have hnonneg : Nonneg p.held := by decide +kernel
  have hbound : ∀ m ∈ p.held, ∀ u v,
      m.weight u v ≤ Int32.maxValue.toInt - INFINITE.toInt := by decide +kernel
  have hnear : ∀ v, 0 + highest p.held 0 v < INFINITE.toInt := by decide +kernel
  have hmain := shortest_of_held 0 _ _ _ es p hrun hnonneg hbound
    fun v => ⟨_, hnear v, .snoc .nil rfl⟩
  exact ⟨es, p, hrun, by decide +kernel, (hmain.2.2.2 (by decide +kernel)).1⟩

end NetLabs.LinkState
