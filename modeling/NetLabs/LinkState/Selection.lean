import NetLabs.Library.GreedyOrder
import NetLabs.LinkState.Mutual

/-! # Where the selection of nodes is safe

`run_link_state` sets `spot` to `-1`, searches for a node below `INFINITE`, and uses `spot` as
a subscript whether or not it has found one. It adds before it compares with anything. Here
the table is any table of `int`s, and no other thread changes it. -/

namespace NetLabs.LinkState

open ShortestPath Machine

variable {N : ℕ} {p q : Pass N} {costs : Costs N} {myid : Fin N}
  {order : List (Fin N × ℤ)}

/-! ## The first of the closest nodes -/

/-- Among nodes equally close the search keeps the one seen first. -/
theorem closest_first {taken : Fin N → Bool} {distances : Fin N → Int32} {spot j : Fin N}
    (h : closest taken distances = some spot) (hj : taken j = false)
    (heq : distances j = distances spot) : spot ≤ j := by
  have hfirst : ∀ seen : List (Fin N), seen.Pairwise (· < ·) →
      ∀ spot, (seen.foldl (closer taken distances) (INFINITE, none)).2 = some spot →
        spot ∈ seen ∧ ∀ j ∈ seen, taken j = false → distances j = distances spot → spot ≤ j := by
    intro seen
    induction seen using List.reverseRecOn with
    | nil => simp
    | append_singleton seen k ih =>
        intro hsorted spot hspot
        obtain ⟨hseen, _, hlt⟩ := List.pairwise_append.mp hsorted
        have hbest := Best.foldl taken distances seen
        rw [List.foldl_append, List.foldl_cons, List.foldl_nil] at hspot
        generalize seen.foldl (closer taken distances) (INFINITE, none) = best at hbest ih hspot
        unfold closer at hspot
        split at hspot
        case isTrue hk =>
            obtain rfl := Option.some.inj hspot
            refine ⟨by simp, fun j hj hfree heq => ?_⟩
            rcases List.mem_append.mp hj with hj | hj
            · -- the nodes before `k` are farther away
              have hle := hbest.le j hj hfree
              have hcloser := Int32.lt_iff_toInt_lt.mp hk.2
              rw [heq] at hle
              omega
            · exact (List.mem_singleton.mp hj).ge
        case isFalse hk =>
            obtain ⟨hmem, hle⟩ := ih hseen spot hspot
            refine ⟨List.mem_append_left _ hmem, fun j hj hfree heq => ?_⟩
            rcases List.mem_append.mp hj with hj | hj
            · exact hle j hj hfree heq
            · exact (hlt spot hmem j hj).le
  exact (hfirst (List.finRange N) (List.pairwise_lt_finRange N) spot h).2 j
    (List.mem_finRange j) hj heq

/-! ## The condition on the table -/

def FitsInt (n : ℤ) : Prop :=
  -2 ^ 31 ≤ n ∧ n < 2 ^ 31

theorem addInt_isSome {a b : Int32} : addInt a b ≠ none ↔ FitsInt (a.toInt + b.toInt) := by
  unfold addInt FitsInt
  split <;> simp_all

abbrev Costs.Greedy (costs : Costs N) (myid : Fin N) : List (Fin N × ℤ) → Prop :=
  ShortestPath.Greedy costs.weight myid INFINITE.toInt FitsInt

/-- A greedy search from `myid` takes all nodes: it never runs out of nodes nearer than
`INFINITE`, and no sum leaves the range of an `int`. -/
def Costs.Passable (costs : Costs N) (myid : Fin N) : Prop :=
  ∃ order, costs.Greedy myid order ∧ ∀ v, ¬ Left myid order v

/-- What the next step of the pass does is defined: the search finds a node, and the sum
that is compared is an `int`. -/
def Pass.Safe (p : Pass N) : Prop :=
  match p.stage with
  | .select i => i < N → closest p.taken p.distances ≠ none
  | .relax _ spot j => ∀ h : j < N, p.taken ⟨j, h⟩ = false →
      addInt (p.distances spot) (p.costs spot ⟨j, h⟩) ≠ none
  | _ => True

/-! ## What the pass has computed -/

/-- The pass has taken the nodes of `order`, and the distances of the others are the costs
over these. -/
structure Pass.Holds (p : Pass N) (costs : Costs N) (order : List (Fin N × ℤ)) : Prop where
  greedy : costs.Greedy p.myid order
  free : ∀ v, p.taken v = false ↔ Left p.myid order v
  distance : ∀ v, Left p.myid order v →
    (p.distances v).toInt = tentative costs.weight p.myid order v

/-- The pass has taken `spot` after `order`, and has recalculated the distances below `j`. -/
structure Pass.HoldsUpTo (p : Pass N) (costs : Costs N) (order : List (Fin N × ℤ))
    (spot : Fin N) (j : ℕ) : Prop where
  greedy : costs.Greedy p.myid order
  closest : Closest costs.weight p.myid order spot
  near : tentative costs.weight p.myid order spot < INFINITE.toInt
  free : ∀ v, p.taken v = false ↔ v ≠ spot ∧ Left p.myid order v
  chosen : (p.distances spot).toInt = tentative costs.weight p.myid order spot
  before : ∀ v : Fin N, (v : ℕ) < j → p.taken v = false →
    (p.distances v).toInt = min (tentative costs.weight p.myid order v)
      (tentative costs.weight p.myid order spot + costs.weight spot v) ∧
    FitsInt (tentative costs.weight p.myid order spot + costs.weight spot v)
  after : ∀ v : Fin N, j ≤ (v : ℕ) → p.taken v = false →
    (p.distances v).toInt = tentative costs.weight p.myid order v

/-- The invariant of a pass that is left alone. -/
def Pass.Ordered (costs : Costs N) (p : Pass N) : Prop :=
  p.costs = costs ∧
  match p.stage with
  | .init i => ∀ v : Fin N, (v : ℕ) < i → p.taken v = false ∧ p.distances v = costs p.myid v
  | .select i => ∃ order, i = order.length + 1 ∧ p.Holds costs order
  | .relax i spot j => ∃ order, i = order.length + 1 ∧ p.HoldsUpTo costs order spot j
  | .finished => costs.Passable p.myid
  | .undefined _ => True

theorem Pass.Holds.select (h : p.Holds costs order) {i : ℕ} {spot : Fin N}
    (hspot : LinkState.closest p.taken p.distances = some spot) :
    Pass.HoldsUpTo { p with
      taken := Function.update p.taken spot true
      stage := .relax i spot 0 } costs order spot 0 := by
  obtain ⟨hfree, hlt, hle⟩ := closest_eq_some hspot
  have hleft := (h.free spot).mp hfree
  have hchosen := h.distance spot hleft
  refine ⟨h.greedy, ⟨hleft, ?_, ?_⟩, ?_, ?_, hchosen, ?_, ?_⟩
  · intro x hx
    have hmin := hle x ((h.free x).mpr hx)
    rwa [hchosen, h.distance x hx] at hmin
  · intro x hx heq
    refine closest_first hspot ((h.free x).mpr hx) (Int32.toInt_inj.mp ?_)
    rw [h.distance x hx, hchosen, heq]
  · dsimp only
    rwa [← hchosen]
  · intro v
    by_cases hv : v = spot
    · simp [hv]
    · simp [hv, h.free]
  · intro v hv
    exact absurd hv (Nat.not_lt_zero _)
  · intro v _ hv
    by_cases heq : v = spot
    · simp [heq] at hv
    · exact h.distance v ((h.free v).mp (by simpa [heq] using hv))

theorem Pass.HoldsUpTo.relax {spot : Fin N} {i j : ℕ} (h : p.HoldsUpTo costs order spot j)
    (hcosts : p.costs = costs) (hj : j < N) (hfree : p.taken ⟨j, hj⟩ = false) {sum : Int32}
    (hsum : addInt (p.distances spot) (p.costs spot ⟨j, hj⟩) = some sum)
    (reads : List (Read N)) :
    Pass.HoldsUpTo { p with
      distances := Function.update p.distances ⟨j, hj⟩ (MIN (p.distances ⟨j, hj⟩) sum)
      stage := .relax i spot (j + 1)
      reads := reads } costs order spot (j + 1) := by
  have hfits := addInt_isSome.mp (Option.ne_none_iff_exists'.mpr ⟨sum, hsum⟩)
  have hvalue := addInt_eq_some hsum
  rw [hcosts, h.chosen] at hfits hvalue
  have hspot : spot ≠ ⟨j, hj⟩ := fun heq => ((h.free _).mp hfree).1 heq.symm
  refine ⟨h.greedy, h.closest, h.near, h.free, ?_, ?_, ?_⟩
  · dsimp only
    rw [Function.update_of_ne hspot]
    exact h.chosen
  · intro v hlt hv
    by_cases heq : v = ⟨j, hj⟩
    · subst heq
      dsimp only
      rw [Function.update_self, toInt_MIN, h.after _ le_rfl hv, hvalue]
      exact ⟨rfl, hfits⟩
    · dsimp only
      rw [Function.update_of_ne heq]
      have hne : (v : ℕ) ≠ j := fun hval => heq (Fin.ext hval)
      exact h.before v (by omega) hv
  · intro v hle hv
    have hne : v ≠ ⟨j, hj⟩ := by
      rintro rfl
      exact absurd hle (Nat.not_succ_le_self j)
    dsimp only
    rw [Function.update_of_ne hne]
    exact h.after v (by omega) hv

theorem Pass.HoldsUpTo.skip {spot : Fin N} {i j : ℕ} (h : p.HoldsUpTo costs order spot j)
    (hj : j < N) (htaken : p.taken ⟨j, hj⟩ ≠ false) :
    Pass.HoldsUpTo { p with stage := .relax i spot (j + 1) } costs order spot (j + 1) := by
  refine ⟨h.greedy, h.closest, h.near, h.free, h.chosen, ?_, ?_⟩
  · intro v hlt hv
    have hne : (v : ℕ) ≠ j := by
      rintro rfl
      exact htaken hv
    exact h.before v (by omega) hv
  · exact fun v hle hv => h.after v (by omega) hv

theorem Pass.HoldsUpTo.endRound {spot : Fin N} {i j : ℕ}
    (h : p.HoldsUpTo costs order spot j) (hj : ¬ j < N) :
    Pass.Holds { p with stage := .select i } costs
      ((spot, tentative costs.weight p.myid order spot) :: order) := by
  have hleft : ∀ v, p.taken v = false ↔
      Left p.myid ((spot, tentative costs.weight p.myid order spot) :: order) v := by
    intro v
    rw [h.free, left_cons]
  have hall : ∀ v : Fin N, (v : ℕ) < j := fun v => by have := v.isLt; omega
  refine ⟨.cons h.greedy h.closest h.near fun x hx => ?_, hleft, fun v hv => ?_⟩
  · exact (h.before x (hall x) ((hleft x).mpr hx)).2
  · exact (h.before v (hall v) ((hleft v).mpr hv)).1

theorem Pass.Ordered.run (h : p.Ordered costs) (hrun : p.run = some q) :
    q.Ordered costs := by
  obtain ⟨_, hsame, _⟩ := Pass.frame_of_run hrun
  obtain ⟨hcosts, hstage⟩ := h
  refine ⟨hsame.trans hcosts, ?_⟩
  cases Pass.next_of_run hrun with
  | copy i heq hi =>
      simp only [heq] at hstage
      intro v hv
      by_cases hself : v = ⟨i, hi⟩
      · subst hself
        simp [hcosts]
      · have hne : (v : ℕ) ≠ i := fun hval => hself (Fin.ext hval)
        have hlt : (v : ℕ) < i := by omega
        dsimp only
        rw [Function.update_of_ne hself, Function.update_of_ne hself]
        exact hstage v hlt
  | settleSource i heq hi =>
      simp only [heq] at hstage
      have hrow : ∀ v : Fin N, p.taken v = false ∧ p.distances v = costs p.myid v :=
        fun v => hstage v (by have := v.isLt; omega)
      refine ⟨[], rfl, .nil, fun v => ?_, fun v _ => ?_⟩
      · by_cases hv : v = p.myid <;> simp [hv, (hrow v).1]
      · simp [(hrow v).2, tentative, Costs.weight]
  | select i spot heq hi hspot =>
      simp only [heq] at hstage
      obtain ⟨order, hlength, hholds⟩ := hstage
      exact ⟨order, hlength, hholds.select hspot⟩
  | finish i heq hi =>
      simp only [heq] at hstage
      obtain ⟨order, hlength, hholds⟩ := hstage
      refine ⟨order, hholds.greedy, hholds.greedy.complete_iff.mpr ?_⟩
      rw [Fintype.card_fin]
      omega
  | relax i spot j sum heq hj hfree hsum =>
      simp only [heq] at hstage
      obtain ⟨order, hlength, hholds⟩ := hstage
      exact ⟨order, hlength, hholds.relax hcosts hj hfree hsum _⟩
  | skip i spot j heq hj htaken =>
      simp only [heq] at hstage
      obtain ⟨order, hlength, hholds⟩ := hstage
      exact ⟨order, hlength, hholds.skip hj htaken⟩
  | endRound i spot j heq hj =>
      simp only [heq] at hstage
      obtain ⟨order, hlength, hholds⟩ := hstage
      exact ⟨_, by simp [hlength], hholds.endRound hj⟩
  | noSpot => trivial
  | overflow => trivial

theorem Pass.ordered_of_run {taken : Fin N → Bool} {distances : Fin N → Int32}
    {es : List (PassAction N)}
    (h : Run Pass.step Alone (Pass.start myid costs taken distances) es p) :
    p.Ordered costs := by
  refine h.invariant (P := Pass.Ordered costs) ?_
    ⟨rfl, fun v hv => absurd hv (Nat.not_lt_zero _)⟩
  rintro p a q hp rfl hstep
  exact hp.run hstep

/-! ## Safe and passable -/

/-- Where a greedy search takes all nodes, so does the pass. -/
theorem Pass.Ordered.safe (h : p.Ordered costs) (hpass : costs.Passable p.myid) : p.Safe := by
  obtain ⟨hcosts, hstage⟩ := h
  obtain ⟨whole, hwhole, hall⟩ := hpass
  have hcard := hwhole.complete_iff.mp hall
  rw [Fintype.card_fin] at hcard
  unfold Pass.Safe
  cases heq : p.stage with
  | select i =>
      simp only [heq] at hstage ⊢
      obtain ⟨order, hlength, hholds⟩ := hstage
      intro hi hnone
      obtain ⟨v, hv, hnear, _⟩ := hholds.greedy.exists_next hwhole (by omega)
      have hfar := closest_eq_none hnone v ((hholds.free v).mpr hv.left)
      rw [hholds.distance v hv.left] at hfar
      omega
  | relax i spot j =>
      simp only [heq] at hstage ⊢
      obtain ⟨order, hlength, hholds⟩ := hstage
      intro hj hfree
      -- `spot` was still to be taken
      have hlt : order.length < whole.length := by
        by_contra hle
        refine hholds.greedy.complete_iff.mpr ?_ spot hholds.closest.left
        rw [Fintype.card_fin]
        omega
      obtain ⟨v, hv, _, hrange⟩ := hholds.greedy.exists_next hwhole hlt
      obtain rfl := hholds.closest.unique hv
      rw [addInt_isSome, hcosts, hholds.chosen]
      exact hrange _ (left_cons.mpr ((hholds.free _).mp hfree))
  | _ => trivial

theorem Pass.Safe.defined (h : p.Safe) (hrun : p.run = some q) :
    ∀ reason, q.stage ≠ .undefined reason := by
  unfold Pass.Safe at h
  unfold Pass.run at hrun
  intro reason
  cases heq : p.stage with
  | init i =>
      simp only [heq] at hrun
      split at hrun <;> obtain rfl := Option.some.inj hrun <;> simp
  | select i =>
      simp only [heq] at h hrun
      split at hrun
      case isTrue hi =>
          obtain ⟨spot, hspot⟩ := Option.ne_none_iff_exists'.mp (h hi)
          simp only [hspot] at hrun
          obtain rfl := Option.some.inj hrun
          simp
      case isFalse =>
          obtain rfl := Option.some.inj hrun
          simp
  | relax i spot j =>
      simp only [heq] at h hrun
      split at hrun
      case isTrue hj =>
          split at hrun <;> obtain rfl := Option.some.inj hrun
          case isTrue hfree =>
              obtain ⟨sum, hsum⟩ := Option.ne_none_iff_exists'.mp (h hj hfree)
              simp [Pass.relaxEntry, hsum]
          case isFalse => simp
      case isFalse =>
          obtain rfl := Option.some.inj hrun
          simp
  | finished => simp [heq] at hrun
  | undefined => simp [heq] at hrun

theorem Pass.safe_of_defined
    (h : ∀ q, p.run = some q → ∀ reason, q.stage ≠ .undefined reason) : p.Safe := by
  unfold Pass.Safe
  cases heq : p.stage with
  | select i =>
      intro hi hnone
      refine h { p with stage := .undefined .noSpot } ?_ .noSpot rfl
      simp only [Pass.run, heq, if_pos hi, hnone]
  | relax i spot j =>
      intro hj hfree hnone
      refine h { p with stage := .undefined .overflow } ?_ .overflow rfl
      simp only [Pass.run, heq, dif_pos hj, if_pos hfree, Pass.relaxEntry, hnone]
  | _ => trivial

/-- Where no cost is negative or near overflow, it is enough that all nodes are near. -/
theorem Pass.safe_of_near {taken : Fin N → Bool} {distances : Fin N → Int32}
    {es : List (PassAction N)} (hnonneg : ∀ u v, 0 ≤ costs.weight u v)
    (hbound : ∀ u v, costs.weight u v ≤ Int32.maxValue.toInt - INFINITE.toInt)
    (hnear : ∀ v, ∃ c < INFINITE.toInt, Walk (arcs costs.weight) myid v c)
    (h : Run Pass.step Alone (Pass.start myid costs taken distances) es p) : p.Safe := by
  refine Pass.safe_of_defined fun q hrun reason => ?_
  obtain ⟨rfl, hsound, hquiet, hheld, hread⟩ :=
    Pass.facts_of_run (h.snoc rfl hrun) hnonneg
  cases reason with
  | noSpot =>
      exact hsound.stage_ne_noSpot hheld hnonneg (fun r hr => (hread r hr).le) hnear
  | overflow =>
      refine hsound.stage_ne_overflow hheld fun m hm => ?_
      rw [hquiet.held, List.mem_singleton] at hm
      exact hm ▸ hbound

theorem Pass.exists_finished {taken : Fin N → Bool} {distances : Fin N → Int32}
    (hsafe : ∀ es p, Run Pass.step Alone (Pass.start myid costs taken distances) es p →
      p.Safe) :
    ∃ es p, Run Pass.step Alone (Pass.start myid costs taken distances) es p ∧
      p.stage = .finished := by
  have hbounded : ∀ es p, Run Pass.step Alone (Pass.start myid costs taken distances) es p →
      es.length ≤ (Pass.start myid costs taken distances).stage.left := by
    intro es p hrun
    refine hrun.length_le (P := fun _ => True) (μ := fun p => p.stage.left)
      (fun _ _ _ _ _ _ => trivial) ?_ trivial
    rintro p a q _ rfl hstep
    exact Pass.left_of_run hstep
  obtain ⟨es, p, hrun, hstuck⟩ := exists_stuck hbounded
  refine ⟨es, p, hrun, ?_⟩
  have hdefined : ∀ reason, p.stage ≠ .undefined reason := by
    cases hrun with
    | nil => simp [Pass.start]
    | snoc hbefore ha hstep =>
        obtain rfl := ha
        exact (hsafe _ _ hbefore).defined hstep
  by_contra hstage
  obtain ⟨q, hq⟩ := Pass.exists_run hdefined hstage
  rw [hstuck .run rfl] at hq
  simp at hq

/-- Two nodes without a link: the search finds none, and `taken[-1]` is written. -/
theorem cut_off :
    ∃ (es : List (PassAction 2)) (p : Pass 2),
      Run Pass.step Alone
        (.start 0 (fun _ _ => INFINITE) (fun _ => false) (fun _ => 0)) es p ∧
      p.stage = .select 1 ∧ closest p.taken p.distances = none ∧ ¬ p.Safe := by
  obtain ⟨p, hrun, hobs⟩ : ∃ p : Pass 2, Run Pass.step Alone
      (.start 0 (fun _ _ => INFINITE) (fun _ => false) fun _ => 0)
      (List.replicate 3 .run) p ∧ (p.stage, closest p.taken p.distances) = (.select 1, none) :=
    Run.exists_of_exec (by simp [Alone]) (by decide +kernel)
  obtain ⟨hstage, hnone⟩ := Prod.mk.inj hobs
  refine ⟨_, p, hrun, hstage, hnone, fun hsafe => ?_⟩
  simp only [Pass.Safe, hstage] at hsafe
  exact hsafe (by decide) hnone

/-- Left alone, the pass is safe throughout exactly when a greedy search takes all nodes.
Where no cost is negative or near overflow, that is when all nodes are nearer than
`INFINITE`. -/
theorem selection_safe_iff (costs : Costs N) (myid : Fin N) (taken : Fin N → Bool)
    (distances : Fin N → Int32) :
    ((∀ es p, Run Pass.step Alone (Pass.start myid costs taken distances) es p → p.Safe) ↔
      costs.Passable myid) ∧
    ((∀ u v, 0 ≤ costs.weight u v) →
      (∀ u v, costs.weight u v ≤ Int32.maxValue.toInt - INFINITE.toInt) →
      ((∀ es p, Run Pass.step Alone (Pass.start myid costs taken distances) es p → p.Safe) ↔
        ∀ v, ∃ c < INFINITE.toInt, Walk (arcs costs.weight) myid v c)) := by
  have hiff : (∀ es p, Run Pass.step Alone (Pass.start myid costs taken distances) es p →
      p.Safe) ↔ costs.Passable myid := by
    constructor
    · intro hsafe
      obtain ⟨es, p, hrun, hstage⟩ := Pass.exists_finished hsafe
      obtain ⟨_, hpass⟩ := Pass.ordered_of_run hrun
      simp only [hstage] at hpass
      exact Pass.myid_of_run hrun ▸ hpass
    · intro hpass es p hrun
      exact (Pass.ordered_of_run hrun).safe (Pass.myid_of_run hrun ▸ hpass)
  refine ⟨hiff, fun hnonneg hbound => ⟨?_, ?_⟩⟩
  · intro hsafe v
    obtain ⟨order, horder, hall⟩ := hiff.mp hsafe
    exact horder.exists_walk (hall v) (by decide)
  · exact fun hnear es p hrun => Pass.safe_of_near hnonneg hbound hnear hrun

/-- The sample table is passable from everywhere. -/
theorem selection_safe_iff_sample :
    ∀ myid, (∀ es p, Run Pass.step Alone
      (Pass.start myid (sampleCosts 1 10 4) (fun _ => true) fun _ => -1) es p → p.Safe) ∧
      (sampleCosts 1 10 4).Passable myid := by
  intro myid
  have hnear : ∀ v, 0 + (sampleCosts 1 10 4).weight myid v < INFINITE.toInt := by
    revert myid
    decide +kernel
  obtain ⟨hpass, hwalks⟩ :=
    selection_safe_iff (sampleCosts 1 10 4) myid (fun _ => true) fun _ => -1
  have hsafe := (hwalks (by decide +kernel) (by decide +kernel)).mpr
    fun v => ⟨_, hnear v, .snoc .nil rfl⟩
  exact ⟨hsafe, hpass.mp hsafe⟩

end NetLabs.LinkState
