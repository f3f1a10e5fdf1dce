import NetLabs.LinkState.Database

/-! # Agreement of the cost tables

Updates carry neither a time nor an owner, so the routers agree in the end on the links whose
last edit was not made while another router's update of the same link was on its way. -/

namespace NetLabs.LinkState

open Broadcast Machine

variable {N : ℕ} {s : System N}

/-- No packet is in flight, received but not stored, or still to be sent. -/
def System.Quiet (s : System N) : Prop :=
  ∀ sender receiver, s.stream sender receiver = []

instance (s : System N) : Decidable s.Quiet :=
  inferInstanceAs (Decidable (∀ _, _))

/-- The last edit of the link between `i` and `j`. -/
def lastEdit (edits : List (Edit N)) (i j : Fin N) : Option (Edit N) :=
  (edits.filter fun e => OnLink e.editor e.id i j).getLast?

theorem mem_of_lastEdit {edits : List (Edit N)} {i j : Fin N} {e : Edit N}
    (he : e ∈ lastEdit edits i j) : e ∈ edits :=
  (List.mem_filter.mp (List.mem_of_getLast? he)).1

/-- The table `initial`, overlaid link by link with the last cost entered for it. -/
def overlay (initial : Costs N) (edits : List (Edit N)) : Costs N :=
  fun i j => ((lastEdit edits i j).map Edit.cost).getD (initial i j)

theorem overlay_symm {initial : Costs N} (hsymm : ∀ i j, initial i j = initial j i)
    (edits : List (Edit N)) (i j : Fin N) :
    overlay initial edits i j = overlay initial edits j i := by
  have hon : ∀ e : Edit N, OnLink e.editor e.id i j ↔ OnLink e.editor e.id j i := by
    intro e
    rw [onLink_iff, onLink_iff, Sym2.eq_swap (a := i)]
  simp only [overlay, lastEdit, hon, hsymm i j]

/-! ## Runs of the routers as runs of the copies -/

theorem System.exists_database {rounds : ℕ} {initial : Costs N} {es : List (SystemAction N)}
    (hN : N ≤ 2 ^ 31) (hsymm : ∀ i j, initial i j = initial j i)
    (h : Run (System.step rounds) (fun _ _ => True) (.start initial) es s) :
    ∃ d : Database N, s.Refines d ∧ d.Logged ∧
      d.Settled fun k => k.lift ⟨initial, hsymm⟩ := by
  have hstart : (System.start initial).Refines
      (State.start fun k => k.lift ⟨initial, hsymm⟩) :=
    ⟨fun _ _ _ => rfl, fun _ _ => rfl, rfl⟩
  obtain ⟨fs, d, hrun, hrefines⟩ :=
    h.simulate (fun _ _ _ _ hr _ hstep => hr.step hN hstep) hstart
  exact ⟨d, hrefines, State.settled_of_run hrun⟩

theorem lastWrite_map (edits : List (Edit N)) (i j : Fin N) :
    lastWrite (edits.map Edit.write) s(i, j) = (lastEdit edits i j).map Edit.write := by
  have hfilter : ((fun w : Write (Fin N) (Sym2 (Fin N)) Int32 => decide (w.key = s(i, j))) ∘
      Edit.write) = fun e : Edit N => decide (OnLink e.editor e.id i j) := by
    funext e
    exact decide_eq_decide.mpr onLink_iff.symm
  rw [lastWrite, List.filter_map, hfilter, List.getLast?_map, lastEdit]

/-- The tables of a quiet state, where no link's last edit was contested. -/
theorem System.Refines.costs_eq {d : Database N} (h : s.Refines d) {initial : Costs N}
    {hsymm : ∀ i j, initial i j = initial j i}
    (hsettled : d.Settled fun k => k.lift ⟨initial, hsymm⟩) (hquiet : s.Quiet)
    (hfree : ∀ i j, ∀ e ∈ lastEdit s.edits i j, e.contested = false) (r : Fin N) :
    (s.routers r).costs = overlay initial s.edits := by
  have hquiet' : d.Quiet := by
    intro p q
    have hqueue := h.queue p q
    rw [hquiet p q] at hqueue
    exact List.map_eq_nil_iff.mp hqueue.symm
  funext i j
  have hlast : lastWrite d.log s(i, j) = (lastEdit s.edits i j).map Edit.write := by
    rw [← h.log, lastWrite_map]
  have hvalue := hsettled.value_eq hquiet' (k := s(i, j)) (fun w hw => ?_) r
  · rw [h.value, hvalue, hlast, Option.map_map]
    rfl
  · rw [hlast] at hw
    obtain ⟨e, he, rfl⟩ := Option.map_eq_some_iff.mp hw
    exact hfree i j e he

/-! ## Two editors of one link -/

/-- Routers 0 and 1 edit their common link at the same time. Each ends with the cost that
the other one entered. -/
theorem crossed_edits :
    ∃ (es : List (SystemAction 4)) (s : System 4),
      Run (System.step 3) (fun _ _ => True) (.start fun _ _ => 1) es s ∧ s.Quiet ∧
      (s.routers 0).costs 0 1 = 7 ∧ (s.routers 1).costs 0 1 = 5 := by
  let es : List (SystemAction 4) := List.flatten
    [[.enter 0 1 5, .enter 1 0 7], List.replicate 5 (.send 0), List.replicate 5 (.send 1),
      [.recv 0 1, .store 0, .recv 1 0, .store 1, .recv 2 0, .store 2, .recv 2 1, .store 2,
        .recv 3 0, .store 3, .recv 3 1, .store 3]]
  let s : System 4 := (exec (System.step 3) (.start fun _ _ => 1) es).get (by decide +kernel)
  have hrun : Run (System.step 3) (fun _ _ => True) (.start fun _ _ => 1) es s :=
    .of_get (fun _ _ _ => trivial) _
  exact ⟨es, s, hrun, by decide +kernel, by decide +kernel, by decide +kernel⟩

/-- When nothing is on its way any more, and no link's last edit was made while another
router's update of that link was on its way, all routers hold the same table: the one they
started with, overlaid with the last edits. -/
theorem agreement_of_uncontested (rounds : ℕ) (initial : Costs N) (hN : N ≤ 2 ^ 31)
    (hsymm : ∀ i j, initial i j = initial j i) (es : List (SystemAction N)) (s : System N)
    (h : Run (System.step rounds) (fun _ _ => True) (.start initial) es s) (hquiet : s.Quiet)
    (hfree : ∀ i j, ∀ e ∈ lastEdit s.edits i j, e.contested = false) :
    (∀ r r', (s.routers r).costs = (s.routers r').costs) ∧
      ∀ r, (s.routers r).costs = overlay initial s.edits := by
  obtain ⟨d, hrefines, _, hsettled⟩ := System.exists_database hN hsymm h
  have hcosts := hrefines.costs_eq hsettled hquiet hfree
  exact ⟨fun r r' => (hcosts r).trans (hcosts r').symm, hcosts⟩

/-- Both ends edit their link, the second after it has stored the update of the first. -/
theorem agreement_of_uncontested_inTurn :
    ∃ (es : List (SystemAction 2)) (s : System 2),
      Run (System.step 3) (fun _ _ => True) (.start fun _ _ => 1) es s ∧
      (s.routers 0).costs = (s.routers 1).costs ∧ (s.routers 0).costs 0 1 = 7 := by
  let es : List (SystemAction 2) := List.flatten
    [[.enter 0 1 5], List.replicate 3 (.send 0), [.recv 1 0, .store 1, .enter 1 0 7],
      List.replicate 3 (.send 1), [.recv 0 1, .store 0]]
  let s : System 2 := (exec (System.step 3) (.start fun _ _ => 1) es).get (by decide +kernel)
  have hrun : Run (System.step 3) (fun _ _ => True) (.start fun _ _ => 1) es s :=
    .of_get (fun _ _ _ => trivial) _
  have hfree : ∀ e ∈ s.edits, e.contested = false := by decide +kernel
  have hmain := agreement_of_uncontested 3 (fun _ _ => 1) (by decide) (fun _ _ => rfl) es s
    hrun (by decide +kernel) (fun _ _ e he => hfree e (mem_of_lastEdit he))
  exact ⟨es, s, hrun, hmain.1 0 1, by decide +kernel⟩

/-! ## One editor for each link -/

/-- Where no link is edited by both its ends, every table is symmetric at all times, and
once nothing is on its way it is the initial one overlaid with the last edits. -/
theorem no_lost_update (rounds : ℕ) (initial : Costs N) (hN : N ≤ 2 ^ 31)
    (hsymm : ∀ i j, initial i j = initial j i) (es : List (SystemAction N)) (s : System N)
    (h : Run (System.step rounds) (fun _ _ => True) (.start initial) es s)
    (hsingle : ∀ e ∈ s.edits, ∀ e' ∈ s.edits,
      OnLink e.editor e.id e'.editor e'.id → e'.editor = e.editor) :
    (∀ r i j, (s.routers r).costs i j = (s.routers r).costs j i) ∧
      (s.Quiet → ∀ r, (s.routers r).costs = overlay initial s.edits) := by
  obtain ⟨d, hrefines, hlogged, hsettled⟩ := System.exists_database hN hsymm h
  refine ⟨?_, ?_⟩
  · intro r i j
    rw [hrefines.value, hrefines.value, Sym2.eq_swap]
  · intro hquiet
    refine hrefines.costs_eq hsettled hquiet ?_
    intro i j e he
    have hwrite : e.write ∈ d.log := hrefines.log ▸ List.mem_map_of_mem (mem_of_lastEdit he)
    refine hlogged.uncontested ?_ hwrite
    rw [← hrefines.log]
    intro w hw w' hw' hkey
    obtain ⟨e, he, rfl⟩ := List.mem_map.mp hw
    obtain ⟨e', he', rfl⟩ := List.mem_map.mp hw'
    exact hsingle e he e' he' (onLink_iff.mpr hkey.symm)

/-- Router 0 edits its link to 1 twice, router 2 its link to 1 once in between. -/
theorem no_lost_update_threeEdits :
    ∃ (es : List (SystemAction 3)) (s : System 3),
      Run (System.step 3) (fun _ _ => True) (.start fun _ _ => 1) es s ∧
      ∀ r, (s.routers r).costs 1 0 = -6 ∧ (s.routers r).costs 1 2 = 8 := by
  let es : List (SystemAction 3) := List.flatten
    [[.enter 0 1 5, .enter 2 1 8], List.replicate 4 (.send 0), [.enter 0 1 (-6), .recv 1 0],
      List.replicate 4 (.send 2), List.replicate 4 (.send 0),
      [.store 1, .recv 1 2, .store 1, .recv 1 0, .store 1, .recv 0 2, .store 0,
        .recv 2 0, .store 2, .recv 2 0, .store 2]]
  let s : System 3 := (exec (System.step 3) (.start fun _ _ => 1) es).get (by decide +kernel)
  have hrun : Run (System.step 3) (fun _ _ => True) (.start fun _ _ => 1) es s :=
    .of_get (fun _ _ _ => trivial) _
  have hmain := no_lost_update 3 (fun _ _ => 1) (by decide) (fun _ _ => rfl) es s hrun
    (by decide +kernel)
  refine ⟨es, s, hrun, ?_⟩
  intro r
  rw [hmain.2 (by decide +kernel) r]
  exact ⟨by decide +kernel, by decide +kernel⟩

end NetLabs.LinkState
