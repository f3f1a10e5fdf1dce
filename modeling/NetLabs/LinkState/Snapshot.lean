import NetLabs.LinkState.Shortest

/-! # Snapshots

Whether the distances printed after a pass belong to one table that was really held. -/

namespace NetLabs.LinkState

open ShortestPath Machine

variable {N : ℕ} {p : Pass N}

/-- Two updates, of two links, of which the pass sees the second only: the distances 1 and 3
are those of no table held. And a link of cost `INT_MAX`, although no shortest path takes it:
the sum with it is not defined. -/
theorem mixed_snapshot :
    (∃ (es : List (PassAction 4)) (p : Pass 4),
      Run Pass.step (fun _ _ => True)
        (Pass.start 0 (sampleCosts 1 10 100) (fun _ => false) (fun _ => 0)) es p ∧
      Nonneg p.held ∧
      (∀ m ∈ p.held, ∀ v, ∃ c < INFINITE.toInt, Walk (arcs m.weight) 0 v c) ∧
      p.stage = .finished ∧
      ¬ ∃ m ∈ p.held, ∀ j, j ≠ 0 → IsDist m.weight 0 j (p.distances j).toInt) ∧
    ∃ (es : List (PassAction 4)) (p : Pass 4),
      Run Pass.step (fun _ _ => True)
        (Pass.start 0 (sampleCosts 1 999 Int32.maxValue) (fun _ => false) (fun _ => 0)) es p ∧
      Nonneg p.held ∧
      (∀ m ∈ p.held, ∀ v, ∃ c < INFINITE.toInt, Walk (arcs m.weight) 0 v c) ∧
      p.stage = .undefined .overflow := by
  constructor
  · let es : List (PassAction 4) :=
      List.replicate 2 .run ++ [.update 0 1 2, .update 0 2 3] ++ List.replicate 22 .run
    let start : Pass 4 := .start 0 (sampleCosts 1 10 100) (fun _ => false) (fun _ => 0)
    let p : Pass 4 := (exec Pass.step start es).get (by decide +kernel)
    have hrun : Run Pass.step (fun _ _ => True) start es p :=
      .of_get (fun _ _ _ => trivial) _
    have hnear : ∀ m ∈ p.held, ∀ v, 0 + m.weight 0 v < INFINITE.toInt := by decide +kernel
    -- in each table the direct links are shortest, and some node is not as near as found
    have hdirect : ∀ m ∈ p.held, ∀ u v,
        label 0 (m 0) v ≤ label 0 (m 0) u + m.weight u v := by decide +kernel
    have hnearer : ∀ m ∈ p.held, ∃ j ≠ 0, (p.distances j).toInt < label 0 (m 0) j := by
      decide +kernel
    refine ⟨es, p, hrun, by decide +kernel, fun m hm v => ⟨_, hnear m hm v, .snoc .nil rfl⟩,
      by decide +kernel, ?_⟩
    rintro ⟨m, hm, hdist⟩
    obtain ⟨j, hj, hlt⟩ := hnearer m hm
    have hle := (hdist j hj).1.le_of_potential (D := label 0 (m 0)) le_rfl (by
      rintro u v w rfl
      exact hdirect m hm u v)
    omega
  · let es : List (PassAction 4) := List.replicate 9 .run
    let start : Pass 4 := .start 0 (sampleCosts 1 999 Int32.maxValue) (fun _ => false) (fun _ => 0)
    let p : Pass 4 := (exec Pass.step start es).get (by decide +kernel)
    have hrun : Run Pass.step (fun _ _ => True) start es p :=
      .of_get (fun _ _ _ => trivial) _
    have hnear : ∀ m ∈ p.held, ∀ v, 0 + m.weight 0 v < INFINITE.toInt := by decide +kernel
    exact ⟨es, p, hrun, by decide +kernel, fun m hm v => ⟨_, hnear m hm v, .snoc .nil rfl⟩,
      by decide +kernel⟩

/-! ## Updates of one link -/

theorem OnLink.trans {a b i j k l : Fin N} (h : OnLink a b i j) (h' : OnLink i j k l) :
    OnLink a b k l := by
  rcases h with ⟨rfl, rfl⟩ | ⟨rfl, rfl⟩
  · exact h'
  · exact Or.symm h'

/-- While only the link between `a` and `b` is updated, the rest of the table stands still. -/
theorem Pass.eq_of_not_onLink {ok : Pass N → PassAction N → Prop} {myid : Fin N}
    {costs : Costs N} {taken : Fin N → Bool} {distances : Fin N → Int32}
    {es : List (PassAction N)} {a b : Fin N}
    (h : Run Pass.step ok (Pass.start myid costs taken distances) es p)
    (hlink : ∀ n0 n1 n2, .update n0 n1 n2 ∈ es → OnLink a b n0 n1) :
    ∀ m ∈ p.held, ∀ i j, ¬ OnLink a b i j → m i j = costs i j := by
  induction h with
  | nil =>
      intro m hm i j _
      obtain rfl : m = costs := by simpa [Pass.start] using hm
      rfl
  | @snoc es t act u hrun _ hstep ih =>
      have ih := ih fun n0 n1 n2 hmem => hlink n0 n1 n2 (List.mem_append_left _ hmem)
      intro m hm i j hoff
      cases act with
      | run => exact ih m ((Pass.frame_of_run hstep).2.2.1 ▸ hm) i j hoff
      | update n0 n1 n2 =>
          obtain rfl := Option.some.inj hstep
          rcases List.mem_append.mp hm with hm | hm
          · exact ih m hm i j hoff
          · obtain rfl := List.mem_singleton.mp hm
            have hupdate := hlink n0 n1 n2 (by simp)
            rw [Costs.setLink_of_not_onLink fun hon => hoff (hupdate.trans hon)]
            exact ih t.costs (Pass.sound_of_run hrun).costs_held i j hoff

/-- With updates of one link only, a table that was held agrees with all the pass read. -/
theorem Pass.Sound.exists_held (h : p.Sound) (hnonneg : Nonneg p.held) {costs : Costs N}
    {a b : Fin N} (hoff : ∀ m ∈ p.held, ∀ i j, ¬ OnLink a b i j → m i j = costs i j) :
    ∃ m ∈ p.held, ∀ r ∈ p.reads, r.cost = m r.src r.dst := by
  by_cases hread : ∃ r ∈ p.reads, OnLink a b r.src r.dst
  · obtain ⟨r, hr, hlink⟩ := hread
    refine ⟨r.table, h.read_held r hr, ?_⟩
    intro r' hr'
    by_cases hlink' : OnLink a b r'.src r'.dst
    · have hsame : r = r' :=
        (h.explored hnonneg).2.eq_of_onLink hr hr' (hlink.symm.trans hlink')
      rw [hsame]
      rfl
    · exact (hoff r'.table (h.read_held r' hr') _ _ hlink').trans
        (hoff r.table (h.read_held r hr) _ _ hlink').symm
  · refine ⟨p.costs, h.costs_held, ?_⟩
    intro r hr
    have hlink : ¬ OnLink a b r.src r.dst := fun hlink => hread ⟨r, hr, hlink⟩
    exact (hoff r.table (h.read_held r hr) _ _ hlink).trans
      (hoff p.costs h.costs_held _ _ hlink).symm

/-- If the updates during a pass are all of one link, a pass over a table that stays
nonnegative, near and below overflow finds a closest node each time and comes to its end,
and the distances it ends with are those of a table that was held as a whole. -/
theorem snapshot_of_one_link (myid : Fin N) (costs : Costs N) (taken : Fin N → Bool)
    (distances : Fin N → Int32) (a b : Fin N) (es : List (PassAction N)) (p : Pass N)
    (h : Run Pass.step (fun _ _ => True) (Pass.start myid costs taken distances) es p)
    (hlink : ∀ n0 n1 n2, .update n0 n1 n2 ∈ es → OnLink a b n0 n1)
    (hnonneg : Nonneg p.held)
    (hbound : ∀ m ∈ p.held, ∀ u v, m.weight u v ≤ Int32.maxValue.toInt - INFINITE.toInt)
    (hreach : ∀ m ∈ p.held, ∀ v, ∃ c < INFINITE.toInt, Walk (arcs m.weight) myid v c) :
    (∀ reason, p.stage ≠ .undefined reason) ∧
    (p.stage ≠ .finished → ∃ q, p.step .run = some q) ∧
    es.countP PassAction.isRun ≤ N + N * (N + 2) + 2 ∧
    (p.stage = .finished →
      ∃ m ∈ p.held, ∀ j, j ≠ myid → IsDist m.weight myid j (p.distances j).toInt) := by
  have hsound := Pass.sound_of_run h
  obtain ⟨m, hm, hagree⟩ := hsound.exists_held hnonneg (Pass.eq_of_not_onLink h hlink)
  have hmyid := Pass.myid_of_run h
  subst hmyid
  have hread : ∀ r ∈ p.reads, r.cost.toInt = m.weight r.src r.dst :=
    fun r hr => congrArg Int32.toInt (hagree r hr)
  have hdefined := hsound.defined hnonneg hbound (hnonneg m hm)
    (fun r hr => (hread r hr).le) (hreach m hm)
  refine ⟨hdefined, Pass.exists_run hdefined, Pass.countP_isRun_le h, ?_⟩
  intro hfinished
  exact ⟨m, hm, fun j hj => hsound.isDist hnonneg hfinished (hnonneg m hm) hread hj⟩

/-- Two updates of one link, one before and one after the pass reads it. -/
theorem snapshot_of_one_link_twice :
    ∃ (es : List (PassAction 4)) (p : Pass 4),
      Run Pass.step (fun _ _ => True)
        (Pass.start 0 (sampleCosts 1 10 4) (fun _ => false) (fun _ => 0)) es p ∧
      p.distances 2 = 3 ∧
      ∃ m ∈ p.held, ∀ j, j ≠ 0 → IsDist m.weight 0 j (p.distances j).toInt := by
  let es : List (PassAction 4) :=
    List.replicate 6 .run ++ [.update 1 2 2] ++ List.replicate 5 .run ++ [.update 2 1 7] ++
      List.replicate 13 .run
  let start : Pass 4 := .start 0 (sampleCosts 1 10 4) (fun _ => false) (fun _ => 0)
  let p : Pass 4 := (exec Pass.step start es).get (by decide +kernel)
  have hrun : Run Pass.step (fun _ _ => True) start es p :=
    .of_get (fun _ _ _ => trivial) _
  have hlink : ∀ n0 n1 n2, .update n0 n1 n2 ∈ es → OnLink 1 2 n0 n1 := by
    intro n0 n1 n2 hmem
    simp only [es, List.mem_append, List.mem_replicate, List.mem_singleton, reduceCtorEq,
      and_false, false_or, or_false, PassAction.update.injEq] at hmem
    rcases hmem with ⟨rfl, rfl, _⟩ | ⟨rfl, rfl, _⟩ <;> decide +kernel
  have hnear : ∀ m ∈ p.held, ∀ v, 0 + m.weight 0 v < INFINITE.toInt := by decide +kernel
  have hbound : ∀ m ∈ p.held, ∀ u v,
      m.weight u v ≤ Int32.maxValue.toInt - INFINITE.toInt := by decide +kernel
  have hmain := snapshot_of_one_link 0 _ _ _ 1 2 es p hrun hlink (by decide +kernel) hbound
    fun m hm v => ⟨_, hnear m hm v, .snoc .nil rfl⟩
  exact ⟨es, p, hrun, by decide +kernel, hmain.2.2.2 (by decide +kernel)⟩

end NetLabs.LinkState
