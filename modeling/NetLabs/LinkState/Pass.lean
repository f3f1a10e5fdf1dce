import NetLabs.Library.Machine
import NetLabs.Library.ShortestPath
import NetLabs.LinkState.Costs

/-! # One pass of `run_link_state`

The pass takes the lock around each single read of `costs`, so the table may change between
any two reads. One step of the model is one critical section, together with the work on the
thread's own variables that follows it. -/

namespace NetLabs.LinkState

open ShortestPath Machine

variable {N : ℕ}

/-! ## The program -/

/-- Why the behaviour of the pass is no longer defined: `taken[-1]` is written, or the sum
of two `int`s does not fit. -/
inductive Undefined where
  | noSpot
  | overflow
  deriving DecidableEq, Repr

/-- Where the pass stands: at index `i` of the loop that copies the row of `myid`, at round
`i` of the selection loop, or in that round at index `j` of the loop that recalculates the
distances over `spot`. -/
inductive Stage (N : ℕ) where
  | init (i : ℕ)
  | select (i : ℕ)
  | relax (i : ℕ) (spot : Fin N) (j : ℕ)
  | finished
  | undefined (reason : Undefined)
  deriving DecidableEq, Repr

/-- A read of `costs[src][dst]`, with the whole table at that moment. -/
structure Read (N : ℕ) where
  src : Fin N
  dst : Fin N
  table : Costs N

def Read.cost (r : Read N) : Int32 :=
  r.table r.src r.dst

/-- The state of a pass. `reads` records the reads made and `held` the tables that `costs`
has been; neither is used by the program. -/
structure Pass (N : ℕ) where
  myid : Fin N
  costs : Costs N
  taken : Fin N → Bool
  distances : Fin N → Int32
  stage : Stage N
  reads : List (Read N)
  held : List (Costs N)

/-- The addition of two `int`s, where it is defined. -/
def addInt (a b : Int32) : Option Int32 :=
  if -2 ^ 31 ≤ a.toInt + b.toInt ∧ a.toInt + b.toInt < 2 ^ 31 then some (a + b) else none

/-- The macro `MIN`. -/
def MIN (a b : Int32) : Int32 :=
  if a < b then a else b

/-- One turn of the search for the closest node. A `spot` of `-1` is `none`. -/
def closer (taken : Fin N → Bool) (distances : Fin N → Int32)
    (best : Int32 × Option (Fin N)) (j : Fin N) : Int32 × Option (Fin N) :=
  if taken j = false ∧ distances j < best.1 then (distances j, some j) else best

def closest (taken : Fin N → Bool) (distances : Fin N → Int32) : Option (Fin N) :=
  ((List.finRange N).foldl (closer taken distances) (INFINITE, none)).2

/-- A new pass, with whatever `taken` and `distances` hold. -/
def Pass.start (myid : Fin N) (costs : Costs N) (taken : Fin N → Bool)
    (distances : Fin N → Int32) : Pass N :=
  { myid, costs, taken, distances, stage := .init 0, reads := [], held := [costs] }

/-- `distances[j] = MIN (distances[j], distances[spot] + costs[spot][j])`. -/
def Pass.relaxEntry (p : Pass N) (i : ℕ) (spot j : Fin N) : Pass N :=
  match addInt (p.distances spot) (p.costs spot j) with
  | some sum =>
      { p with
        distances := Function.update p.distances j (MIN (p.distances j) sum)
        stage := .relax i spot (j + 1)
        reads := p.reads ++ [⟨spot, j, p.costs⟩] }
  | none => { p with stage := .undefined .overflow }

/-- The next step of `run_link_state`. -/
def Pass.run (p : Pass N) : Option (Pass N) :=
  match p.stage with
  | .init i =>
      if h : i < N then
        some { p with
          taken := Function.update p.taken ⟨i, h⟩ false
          distances := Function.update p.distances ⟨i, h⟩ (p.costs p.myid ⟨i, h⟩)
          stage := .init (i + 1)
          reads := p.reads ++ [⟨p.myid, ⟨i, h⟩, p.costs⟩] }
      else some { p with taken := Function.update p.taken p.myid true, stage := .select 1 }
  | .select i =>
      if i < N then
        match closest p.taken p.distances with
        | some spot =>
            some { p with
              taken := Function.update p.taken spot true
              stage := .relax i spot 0 }
        | none => some { p with stage := .undefined .noSpot }
      else some { p with stage := .finished }
  | .relax i spot j =>
      if h : j < N then
        if p.taken ⟨j, h⟩ = false then some (p.relaxEntry i spot ⟨j, h⟩)
        else some { p with stage := .relax i spot (j + 1) }
      else some { p with stage := .select (i + 1) }
  | .finished => none
  | .undefined _ => none

inductive PassAction (N : ℕ) where
  | run
  | update (n0 n1 : Fin N) (n2 : Int32)

/-- The pass makes a step, or another thread changes a link. -/
def Pass.step (p : Pass N) : PassAction N → Option (Pass N)
  | .run => p.run
  | .update n0 n1 n2 =>
      let costs := p.costs.setLink n0 n1 n2
      some { p with costs := costs, held := p.held ++ [costs] }

/-! ## The steps of the pass -/

/-- What `Pass.run` can do, each step with its guard. -/
inductive Pass.Next (p : Pass N) : Pass N → Prop
  | copy (i : ℕ) (stage : p.stage = .init i) (hi : i < N) : p.Next { p with
      taken := Function.update p.taken ⟨i, hi⟩ false
      distances := Function.update p.distances ⟨i, hi⟩ (p.costs p.myid ⟨i, hi⟩)
      stage := .init (i + 1)
      reads := p.reads ++ [⟨p.myid, ⟨i, hi⟩, p.costs⟩] }
  | settleSource (i : ℕ) (stage : p.stage = .init i) (hi : ¬ i < N) : p.Next { p with
      taken := Function.update p.taken p.myid true
      stage := .select 1 }
  | select (i : ℕ) (spot : Fin N) (stage : p.stage = .select i) (hi : i < N)
      (closest : closest p.taken p.distances = some spot) : p.Next { p with
      taken := Function.update p.taken spot true
      stage := .relax i spot 0 }
  | noSpot (i : ℕ) (stage : p.stage = .select i) (hi : i < N)
      (closest : closest p.taken p.distances = none) :
      p.Next { p with stage := .undefined .noSpot }
  | finish (i : ℕ) (stage : p.stage = .select i) (hi : ¬ i < N) :
      p.Next { p with stage := .finished }
  | relax (i : ℕ) (spot : Fin N) (j : ℕ) (sum : Int32) (stage : p.stage = .relax i spot j)
      (hj : j < N) (free : p.taken ⟨j, hj⟩ = false)
      (hsum : addInt (p.distances spot) (p.costs spot ⟨j, hj⟩) = some sum) : p.Next { p with
      distances := Function.update p.distances ⟨j, hj⟩ (MIN (p.distances ⟨j, hj⟩) sum)
      stage := .relax i spot (j + 1)
      reads := p.reads ++ [⟨spot, ⟨j, hj⟩, p.costs⟩] }
  | overflow (i : ℕ) (spot : Fin N) (j : ℕ) (stage : p.stage = .relax i spot j) (hj : j < N)
      (hsum : addInt (p.distances spot) (p.costs spot ⟨j, hj⟩) = none) :
      p.Next { p with stage := .undefined .overflow }
  | skip (i : ℕ) (spot : Fin N) (j : ℕ) (stage : p.stage = .relax i spot j) (hj : j < N)
      (taken : p.taken ⟨j, hj⟩ ≠ false) : p.Next { p with stage := .relax i spot (j + 1) }
  | endRound (i : ℕ) (spot : Fin N) (j : ℕ) (stage : p.stage = .relax i spot j)
      (hj : ¬ j < N) : p.Next { p with stage := .select (i + 1) }

theorem Pass.next_of_run {p q : Pass N} (h : p.run = some q) : p.Next q := by
  unfold Pass.run at h
  split at h
  case h_1 i hstage =>
      split at h <;> obtain rfl := Option.some.inj h
      case isTrue hi => exact .copy i hstage hi
      case isFalse hi => exact .settleSource i hstage hi
  case h_2 i hstage =>
      split at h
      case isTrue hi =>
          split at h <;> obtain rfl := Option.some.inj h
          case h_1 hspot => exact .select i _ hstage hi hspot
          case h_2 hnone => exact .noSpot i hstage hi hnone
      case isFalse hi =>
          obtain rfl := Option.some.inj h
          exact .finish i hstage hi
  case h_3 i spot j hstage =>
      split at h
      case isTrue hj =>
          split at h <;> obtain rfl := Option.some.inj h
          case isTrue hfree =>
              unfold Pass.relaxEntry
              split
              case h_1 sum hsum => exact .relax i spot j sum hstage hj hfree hsum
              case h_2 hsum => exact .overflow i spot j hstage hj hsum
          case isFalse htaken => exact .skip i spot j hstage hj htaken
      case isFalse hj =>
          obtain rfl := Option.some.inj h
          exact .endRound i spot j hstage hj
  case h_4 => simp at h
  case h_5 => simp at h

/-! ## Integers and their values -/

theorem addInt_eq_some {a b c : Int32} (h : addInt a b = some c) :
    c.toInt = a.toInt + b.toInt := by
  unfold addInt at h
  split at h
  · rename_i hrange
    obtain rfl := Option.some.inj h
    rw [Int32.toInt_add]
    apply Int.bmod_eq_of_le <;> omega
  · simp at h

theorem addInt_eq_none {a b : Int32} (h : addInt a b = none) (ha : 0 ≤ a.toInt)
    (hb : 0 ≤ b.toInt) : 2 ^ 31 ≤ a.toInt + b.toInt := by
  unfold addInt at h
  split at h
  · simp at h
  · omega

theorem toInt_MIN (a b : Int32) : (MIN a b).toInt = min a.toInt b.toInt := by
  unfold MIN
  split
  · rename_i hlt
    rw [min_eq_left (Int32.lt_iff_toInt_lt.mp hlt).le]
  · rename_i hge
    have hle : b.toInt ≤ a.toInt := by
      rw [Int32.lt_iff_toInt_lt] at hge
      omega
    rw [min_eq_right hle]

end NetLabs.LinkState
