import NetLabs.LinkState.Shortest

/-! # Distances between routers

What two routers compute about each other, when each makes a pass over the same table and
nobody changes it meanwhile. -/

namespace NetLabs.LinkState

open ShortestPath Machine

variable {N : ℕ} {p q : Pass N} {costs : Costs N} {myid : Fin N}

/-- No other thread changes the table. -/
def Alone (_ : Pass N) (a : PassAction N) : Prop :=
  a = .run

/-- The table is `costs`, and the entry of `myid` is the one that was copied. -/
structure Pass.Undisturbed (costs : Costs N) (p : Pass N) : Prop where
  table : p.costs = costs
  held : p.held = [costs]
  own : match p.stage with
    | .init i => p.myid < i → p.distances p.myid = costs p.myid p.myid
    | .undefined _ => True
    | _ => p.taken p.myid = true ∧ p.distances p.myid = costs p.myid p.myid

theorem Pass.start_undisturbed (myid : Fin N) (costs : Costs N) (taken : Fin N → Bool)
    (distances : Fin N → Int32) :
    (Pass.start myid costs taken distances).Undisturbed costs where
  table := rfl
  held := rfl
  own := fun hlt => absurd hlt (Nat.not_lt_zero _)

theorem Pass.Undisturbed.run (h : p.Undisturbed costs) (hrun : p.run = some q) :
    q.Undisturbed costs := by
  obtain ⟨_, hcosts, hheld, _⟩ := Pass.frame_of_run hrun
  refine ⟨hcosts.trans h.table, hheld.trans h.held, ?_⟩
  have hown := h.own
  cases Pass.next_of_run hrun with
  | copy i hstage hi =>
      simp only [hstage] at hown
      intro hlt
      by_cases hself : p.myid = ⟨i, hi⟩
      · simp [← hself, h.table]
      · have hbefore : (p.myid : ℕ) < i := by
          have hne : (p.myid : ℕ) ≠ i := fun heq => hself (Fin.ext heq)
          dsimp only at hlt
          omega
        dsimp only
        rw [Function.update_of_ne hself]
        exact hown hbefore
  | settleSource i hstage hi =>
      simp only [hstage] at hown
      exact ⟨Function.update_self .., hown (by have := p.myid.isLt; omega)⟩
  | select i spot hstage =>
      simp only [hstage] at hown
      refine ⟨?_, hown.2⟩
      by_cases hself : p.myid = spot
      · simp [hself]
      · simp [Function.update_of_ne hself, hown.1]
  | relax i spot j sum hstage hj hfree =>
      simp only [hstage] at hown
      refine ⟨hown.1, ?_⟩
      have hself : p.myid ≠ ⟨j, hj⟩ := by
        intro heq
        simp [heq ▸ hown.1] at hfree
      dsimp only
      rw [Function.update_of_ne hself]
      exact hown.2
  | finish i hstage => simpa only [hstage] using hown
  | skip i spot j hstage => simpa only [hstage] using hown
  | endRound i spot j hstage => simpa only [hstage] using hown
  | noSpot => trivial
  | overflow => trivial

theorem Pass.undisturbed_of_run {taken : Fin N → Bool} {distances : Fin N → Int32}
    {es : List (PassAction N)}
    (h : Run Pass.step Alone (Pass.start myid costs taken distances) es p) :
    p.Undisturbed costs := by
  refine h.invariant (P := Pass.Undisturbed costs) ?_
    (Pass.start_undisturbed myid costs taken distances)
  rintro p a q hp rfl hstep
  exact hp.run hstep

/-- What a pass that was left alone knows: it is sound, and all it has read is the table. -/
theorem Pass.facts_of_run {taken : Fin N → Bool} {distances : Fin N → Int32}
    {es : List (PassAction N)}
    (h : Run Pass.step Alone (Pass.start myid costs taken distances) es p)
    (hnonneg : ∀ u v, 0 ≤ costs.weight u v) :
    p.myid = myid ∧ p.Sound ∧ p.Undisturbed costs ∧ Nonneg p.held ∧
      ∀ r ∈ p.reads, r.cost.toInt = costs.weight r.src r.dst := by
  have hsound := Pass.sound_of_run h
  have hquiet := Pass.undisturbed_of_run h
  have htable : ∀ m ∈ p.held, m = costs := by
    intro m hm
    rwa [hquiet.held, List.mem_singleton] at hm
  refine ⟨Pass.myid_of_run h, hsound, hquiet, fun m hm => htable m hm ▸ hnonneg, ?_⟩
  intro r hr
  rw [← htable r.table (hsound.read_held r hr)]
  rfl

/-- A pass of router `myid` that was left alone and has come to its end, with no sum out of
range. -/
structure Pass.Completed (costs : Costs N) (myid : Fin N) (p : Pass N) : Prop where
  alone : ∃ taken distances es,
    Run Pass.step Alone (Pass.start myid costs taken distances) es p
  ended : p.run = none
  fits : p.stage ≠ .undefined .overflow

theorem Pass.Completed.finished (h : p.Completed costs myid)
    (hnonneg : ∀ u v, 0 ≤ costs.weight u v)
    (hreach : ∀ v, ∃ c < INFINITE.toInt, Walk (arcs costs.weight) myid v c) :
    p.stage = .finished := by
  obtain ⟨taken, distances, es, hrun⟩ := h.alone
  obtain ⟨rfl, hsound, _, hheld, hread⟩ := Pass.facts_of_run hrun hnonneg
  have hdefined : ∀ reason, p.stage ≠ .undefined reason := by
    intro reason
    cases reason with
    | noSpot =>
        exact hsound.stage_ne_noSpot hheld hnonneg (fun r hr => (hread r hr).le) hreach
    | overflow => exact h.fits
  by_contra hstage
  obtain ⟨q, hq⟩ := Pass.exists_run hdefined hstage
  have hnone : p.step .run = none := h.ended
  rw [hnone] at hq
  simp at hq

/-- A completed pass has the distances to all nodes, its own included. -/
theorem Pass.Completed.isDist (h : p.Completed costs myid)
    (hnonneg : ∀ u v, 0 ≤ costs.weight u v) (hdiag : ∀ u, costs u u = 0)
    (hreach : ∀ v, ∃ c < INFINITE.toInt, Walk (arcs costs.weight) myid v c) (j : Fin N) :
    IsDist costs.weight myid j (p.distances j).toInt := by
  have hfinished := h.finished hnonneg hreach
  obtain ⟨taken, distances, es, hrun⟩ := h.alone
  obtain ⟨rfl, hsound, hquiet, hheld, hread⟩ := Pass.facts_of_run hrun hnonneg
  by_cases hj : j = p.myid
  · have hown := hquiet.own
    simp only [hfinished] at hown
    rw [hj, hown.2, hdiag]
    refine ⟨.nil, fun c hc => ?_⟩
    refine Walk.nonneg ?_ hc
    rintro u v x rfl
    exact hnonneg u v
  · exact hsound.isDist hheld hfinished hnonneg hread hj

/-- On a symmetric table the distances that routers compute about each other are a metric:
they agree both ways, obey the triangle inequality, and are within the direct links. -/
theorem mutual_distances (costs : Costs N) (a b c : Fin N) (pa pb pc : Pass N)
    (hsymm : ∀ u v, costs u v = costs v u) (hnonneg : ∀ u v, 0 ≤ costs.weight u v)
    (hdiag : ∀ u, costs u u = 0)
    (hreach : ∀ u v, ∃ d < INFINITE.toInt, Walk (arcs costs.weight) u v d)
    (ha : pa.Completed costs a) (hb : pb.Completed costs b) (hc : pc.Completed costs c) :
    (pa.stage = .finished ∧ pb.stage = .finished ∧ pc.stage = .finished) ∧
    pa.distances b = pb.distances a ∧
    (pa.distances c).toInt ≤ (pa.distances b).toInt + (pb.distances c).toInt ∧
    (pa.distances c).toInt ≤ (pa.distances b).toInt + (pc.distances b).toInt ∧
    ∀ v, (pa.distances v).toInt ≤ costs.weight a v := by
  have hdist := fun v => ha.isDist hnonneg hdiag (hreach a) v
  have hdist' := fun v => hb.isDist hnonneg hdiag (hreach b) v
  have hdist'' := fun v => hc.isDist hnonneg hdiag (hreach c) v
  have hweight : ∀ u v, costs.weight u v = costs.weight v u :=
    fun u v => congrArg Int32.toInt (hsymm u v)
  refine ⟨⟨ha.finished hnonneg (hreach a), hb.finished hnonneg (hreach b),
    hc.finished hnonneg (hreach c)⟩, ?_, (hdist b).le_add (hdist' c) (hdist c), ?_,
    fun v => (hdist v).le_arc⟩
  · exact Int32.toInt_inj.mp ((hdist b).unique ((hdist' a).symm hweight))
  · exact (hdist b).le_add ((hdist'' b).symm hweight) (hdist c)

/-- A pass can be completed by computing it. -/
theorem Pass.Completed.exists_of_exec (costs : Costs N) (myid : Fin N) (steps : ℕ)
    (distances : List Int32)
    (h : (exec Pass.step (.start myid costs (fun _ => false) fun _ => 0)
      (List.replicate steps .run)).map (fun p => (p.stage, List.ofFn p.distances)) =
      some (.finished, distances)) :
    ∃ p : Pass N, p.Completed costs myid ∧ List.ofFn p.distances = distances := by
  obtain ⟨p, hrun, hobs⟩ : ∃ p, Run Pass.step Alone _ _ p ∧ _ :=
    Run.exists_of_exec (by simp [Alone]) h
  obtain ⟨hstage, hdistances⟩ := Prod.mk.inj hobs
  exact ⟨p, ⟨⟨_, _, _, hrun⟩, by simp [Pass.run, hstage], by simp [hstage]⟩, hdistances⟩

/-- Routers 0 and 2 are nearer by way of 1 than by their link. -/
theorem mutual_distances_detour :
    ∃ pa pb pc : Pass 4, pa.Completed (sampleCosts 1 10 4) 0 ∧
      pb.Completed (sampleCosts 1 10 4) 2 ∧ pc.Completed (sampleCosts 1 10 4) 3 ∧
      List.ofFn pa.distances = [0, 1, 5, 500] ∧
      List.ofFn pb.distances = [5, 4, 0, 500] ∧ pa.distances 2 = pb.distances 0 ∧
      (pa.distances 3).toInt ≤ (pa.distances 2).toInt + (pb.distances 3).toInt ∧
      (pa.distances 2).toInt ≤ (sampleCosts 1 10 4).weight 0 2 := by
  obtain ⟨pa, ha, hpa⟩ := Pass.Completed.exists_of_exec (sampleCosts 1 10 4) 0 24
    [0, 1, 5, 500] (by decide +kernel)
  obtain ⟨pb, hb, hpb⟩ := Pass.Completed.exists_of_exec (sampleCosts 1 10 4) 2 24
    [5, 4, 0, 500] (by decide +kernel)
  obtain ⟨pc, hc, _⟩ := Pass.Completed.exists_of_exec (sampleCosts 1 10 4) 3 24
    [500, 500, 500, 0] (by decide +kernel)
  have hnear : ∀ u v, 0 + (sampleCosts 1 10 4).weight u v < INFINITE.toInt := by
    decide +kernel
  obtain ⟨_, hagree, htriangle, _, hdirect⟩ :=
    mutual_distances (sampleCosts 1 10 4) 0 2 3 pa pb pc (by decide +kernel)
      (by decide +kernel) (by decide +kernel) (fun u v => ⟨_, hnear u v, .snoc .nil rfl⟩)
      ha hb hc
  exact ⟨pa, pb, pc, ha, hb, hc, hpa, hpb, hagree, htriangle, hdirect 2⟩

end NetLabs.LinkState
