import NetLabs.LinkState.Agreement
import NetLabs.LinkState.Mutual
import NetLabs.LinkState.Program

/-! # Convergence

Once nothing is on its way any more, the next pass of every router works on the table that
all of them hold, and its distances are those of that table. -/

namespace NetLabs.LinkState

open ShortestPath Machine

variable {N rounds : ℕ}

/-! ## Nothing on its way, and no edits -/

theorem System.Quiet.step {s t : System N} (h : s.Quiet) {a : SystemAction N}
    (hstep : s.step rounds a = some t) (hedits : t.edits = s.edits) :
    t.Quiet ∧ ∀ r, (t.routers r).costs = (s.routers r).costs := by
  cases a with
  | enter myid id cost =>
      rcases System.enter_cases hstep with ⟨hcosts, hstream, _⟩ | ⟨i, peer, _, _, _, rfl⟩
      · exact ⟨fun p q => (hstream p q).trans (h p q), hcosts⟩
      · simp at hedits
  | send myid =>
      exact ⟨fun p q => (System.stream_send hstep p q).trans (h p q),
        (System.frame_of_send hstep).1⟩
  | recv myid sender =>
      exact ⟨fun p q => (System.stream_recv hstep p q).trans (h p q),
        (System.frame_of_recv hstep).1⟩
  | store myid =>
      obtain ⟨sender, packet, _, _, _, _, hstream, _⟩ := System.store_cases hstep
      rw [h sender myid] at hstream
      simp at hstream

/-- All routers hold the table `m`, and nothing is on its way that could change it. -/
structure Program.Calm (m : Costs N) (s : Program N) : Prop where
  quiet : s.system.Quiet
  costs : ∀ r, (s.system.routers r).costs = m

variable {s t : Program N} {m : Costs N}

theorem Program.edits_prefix {ok : Program N → ProgramAction N → Prop}
    {es : List (ProgramAction N)} (h : Run (Program.step rounds) ok s es t) :
    s.system.edits <+: t.system.edits := by
  refine h.invariant (P := fun t => s.system.edits <+: t.system.edits) ?_ (List.prefix_refl _)
  intro t a u ht _ hstep
  rcases Program.edits_step hstep with hedits | ⟨_, e, _, hedits⟩
  · rwa [hedits]
  · rw [hedits]
    exact ht.trans (List.prefix_append _ _)

theorem Program.Calm.step (h : s.Calm m) {a : ProgramAction N}
    (hstep : s.step rounds a = some t) (hedits : t.system.edits = s.system.edits) :
    t.Calm m := by
  cases Program.next_of_step hstep with
  | system b u hb =>
      obtain ⟨hquiet, hcosts⟩ := h.quiet.step hb hedits
      exact ⟨hquiet, fun r => (hcosts r).trans (h.costs r)⟩
  | pass r p hp => exact ⟨h.quiet, h.costs⟩
  | again r hfinished => exact ⟨h.quiet, h.costs⟩

/-- The router has begun a pass over the table `m`, which nobody has changed since. -/
def Program.Renewed (m : Costs N) (s : Program N) (r : Fin N) : Prop :=
  ∃ taken distances es, Run Pass.step Alone (.start r m taken distances) es (s.passes r)

/-- In a calm state, a pass that has begun in one is left alone. -/
theorem Program.Renewed.step (hcalm : t.Calm m) {r : Fin N} (hlinked : s.Linked r)
    (hcosts : (s.system.routers r).costs = m) {a : ProgramAction N}
    (hstep : s.step rounds a = some t) (h : a = .again r ∨ s.Renewed m r) :
    t.Renewed m r := by
  cases Program.nextAt_of_step hstep r with
  | system b _ hb hpass =>
      obtain ⟨taken, distances, es, hrun⟩ := h.resolve_left (by simp)
      refine ⟨taken, distances, es, ?_⟩
      have hsame : (t.system.routers r).costs = (s.passes r).costs := by
        rw [hlinked.costs, hcosts]
        exact hcalm.costs r
      rwa [hpass, Pass.see_self hsame]
  | other _ _ ha _ hpass =>
      obtain ⟨taken, distances, es, hrun⟩ := h.resolve_left ha
      exact ⟨taken, distances, es, by rwa [hpass]⟩
  | pass _ _ hp =>
      obtain ⟨taken, distances, es, hrun⟩ := h.resolve_left (by simp)
      have hnext : (s.passes r).step .run = some (t.passes r) := hp
      have halone : Alone (s.passes r) .run := rfl
      exact ⟨taken, distances, es ++ [.run], hrun.snoc halone hnext⟩
  | again _ _ hpass =>
      have hnow : (s.passes r).costs = m := hlinked.costs.trans hcosts
      obtain ⟨_, _, _, _, _, hrun⟩ := hlinked
      refine ⟨(s.passes r).taken, (s.passes r).distances, [], ?_⟩
      rw [hpass, Pass.again, Pass.myid_of_run hrun, hnow]
      exact .nil

/-- As long as no edit is made, a calm state stays calm, and a router that begins a pass
begins it over the common table. -/
theorem Program.Calm.run (h : s.Calm m) (hlinked : ∀ r, s.Linked r)
    {ok : Program N → ProgramAction N → Prop} {fs : List (ProgramAction N)}
    (hrun : Run (Program.step rounds) ok s fs t) (hedits : t.system.edits = s.system.edits) :
    t.Calm m ∧ ∀ r, .again r ∈ fs → t.Renewed m r := by
  induction hrun with
  | nil => exact ⟨h, by simp⟩
  | @snoc fs t a u hpre _ hstep ih =>
      have hbefore : t.system.edits = s.system.edits := by
        have hsingle : Run (Program.step rounds) (fun _ _ => True) t [a] u :=
          .single trivial hstep
        have hlast := Program.edits_prefix hsingle
        rw [hedits] at hlast
        exact hlast.eq_of_length_le (Program.edits_prefix hpre).length_le
      obtain ⟨hcalm, hrenewed⟩ := ih hbefore
      have hcalm' := hcalm.step hstep (hedits.trans hbefore.symm)
      refine ⟨hcalm', fun r hr => ?_⟩
      refine Program.Renewed.step hcalm' (Program.linked_of_run hlinked hpre r)
        (hcalm.costs r) hstep ?_
      rcases List.mem_append.mp hr with hr | hr
      · exact .inr (hrenewed r hr)
      · exact .inl (List.mem_singleton.mp hr).symm

theorem Program.Renewed.isDist {r : Fin N} (h : s.Renewed m r)
    (hnonneg : ∀ u v, 0 ≤ m.weight u v) (hzero : ∀ u, m u u = 0)
    (hreach : ∀ v, ∃ c < INFINITE.toInt, Walk (arcs m.weight) r v c)
    (hfinished : (s.passes r).stage = .finished) :
    ∀ j, IsDist m.weight r j ((s.passes r).distances j).toInt := by
  have hcompleted : (s.passes r).Completed m r :=
    ⟨h, by simp [Pass.run, hfinished], by simp [hfinished]⟩
  exact hcompleted.isDist hnonneg hzero hreach

end NetLabs.LinkState
