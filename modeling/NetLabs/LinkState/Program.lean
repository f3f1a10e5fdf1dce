import Mathlib.Data.Fintype.Pi
import NetLabs.Library.Channel
import NetLabs.LinkState.History
import NetLabs.LinkState.Shortest
import NetLabs.LinkState.Unreliable

/-! # The whole program at every router

Each router runs `main`, `receive_info` and `run_link_state` over the one table, and the
last of these makes one pass after the other. Here their steps are taken in any order. -/

namespace NetLabs.LinkState

open ShortestPath Machine

variable {N rounds : ℕ}

/-! ## The threads together -/

/-- Another thread may have left a new table behind. -/
def Pass.see (p : Pass N) (costs : Costs N) : Pass N :=
  if costs = p.costs then p else { p with costs := costs, held := p.held ++ [costs] }

def Stage.Defined : Stage N → Prop
  | .undefined _ => False
  | _ => True

instance : DecidablePred (Stage.Defined (N := N)) := fun stage =>
  match stage with
  | .init _ => isTrue trivial
  | .select _ => isTrue trivial
  | .relax _ _ _ => isTrue trivial
  | .finished => isTrue trivial
  | .undefined _ => isFalse id

theorem Stage.defined_iff {stage : Stage N} :
    stage.Defined ↔ ∀ reason, stage ≠ .undefined reason := by
  cases stage <;> simp [Stage.Defined]

/-- The routers and their packets, with the pass that each router is making. -/
structure Program (N : ℕ) where
  system : System N
  passes : Fin N → Pass N

/-- `system` is a step of `main`, of `receive_info` or of the network, `pass` a step of the
pass of router `myid`, and `again` the next turn of its loop. -/
inductive ProgramAction (N : ℕ) where
  | system (a : SystemAction N)
  | pass (myid : Fin N)
  | again (myid : Fin N)

/-- The routers have read their tables and have started their threads. The array `taken` is
not initialised, the array `distances` is global and holds zeros. -/
def Program.boot (tables : Fin N → Costs N) (taken : Fin N → Fin N → Bool) : Program N :=
  { system := .boot tables
    passes := fun r => .start r (tables r) (taken r) fun _ => 0 }

/-- The next turn of `while (1)` in `run_link_state`, after the distances are printed. -/
def Pass.again (p : Pass N) : Pass N :=
  .start p.myid p.costs p.taken p.distances

def Program.setPass (s : Program N) (myid : Fin N) (p : Pass N) : Program N :=
  { s with passes := Function.update s.passes myid p }

/-- One step of any thread. Once the behaviour of one router is undefined, no step is
modelled. -/
def Program.step (rounds : ℕ) (s : Program N) (a : ProgramAction N) : Option (Program N) :=
  if ∀ r, (s.passes r).stage.Defined then
    match a with
    | .system b => (s.system.step rounds b).map fun t =>
        { system := t, passes := fun r => (s.passes r).see (t.routers r).costs }
    | .pass myid => (s.passes myid).run.map (s.setPass myid)
    | .again myid =>
        if (s.passes myid).stage = .finished then
          some (s.setPass myid (s.passes myid).again)
        else none
  else none

/-! ## Steps -/

variable {s t : Program N}

@[simp] theorem Program.setPass_self (r : Fin N) (p : Pass N) :
    (s.setPass r p).passes r = p :=
  Function.update_self ..

theorem Program.setPass_of_ne {r r' : Fin N} (hr : r' ≠ r) (p : Pass N) :
    (s.setPass r p).passes r' = s.passes r' :=
  Function.update_of_ne hr ..

/-- What a step can do, with its guards. -/
inductive Program.Next (rounds : ℕ) (s : Program N) : ProgramAction N → Program N → Prop
  | system (b : SystemAction N) (u : System N) (hstep : s.system.step rounds b = some u) :
      s.Next rounds (.system b)
        { system := u, passes := fun r => (s.passes r).see (u.routers r).costs }
  | pass (r : Fin N) (p : Pass N) (hrun : (s.passes r).run = some p) :
      s.Next rounds (.pass r) (s.setPass r p)
  | again (r : Fin N) (hfinished : (s.passes r).stage = .finished) :
      s.Next rounds (.again r) (s.setPass r (s.passes r).again)

theorem Program.next_of_step {a : ProgramAction N} (h : s.step rounds a = some t) :
    s.Next rounds a t := by
  simp only [Program.step] at h
  split at h
  case isTrue =>
      cases a with
      | system b =>
          obtain ⟨u, hstep, rfl⟩ := Option.map_eq_some_iff.mp h
          exact .system b u hstep
      | pass r =>
          obtain ⟨p, hrun, rfl⟩ := Option.map_eq_some_iff.mp h
          exact .pass r p hrun
      | again r =>
          obtain ⟨hfinished, h⟩ := Option.ite_none_right_eq_some.mp h
          obtain rfl := Option.some.inj h
          exact .again r hfinished
  case isFalse => simp at h

/-- What a step can do to the pass of router `r`. -/
inductive Program.NextAt (rounds : ℕ) (s : Program N) (r : Fin N) :
    ProgramAction N → Program N → Prop
  | system (b : SystemAction N) (t : Program N)
      (hstep : s.system.step rounds b = some t.system)
      (hpass : t.passes r = (s.passes r).see (t.system.routers r).costs) :
      s.NextAt rounds r (.system b) t
  | other (a : ProgramAction N) (t : Program N) (ha : a ≠ .again r)
      (hsystem : t.system = s.system) (hpass : t.passes r = s.passes r) :
      s.NextAt rounds r a t
  | pass (t : Program N) (hsystem : t.system = s.system)
      (hrun : (s.passes r).run = some (t.passes r)) : s.NextAt rounds r (.pass r) t
  | again (t : Program N) (hsystem : t.system = s.system)
      (hpass : t.passes r = (s.passes r).again) : s.NextAt rounds r (.again r) t

theorem Program.nextAt_of_step {a : ProgramAction N} (h : s.step rounds a = some t) (r : Fin N) :
    s.NextAt rounds r a t := by
  cases Program.next_of_step h with
  | system b u hb => exact .system b _ hb rfl
  | pass r' p hrun =>
      by_cases hr : r = r'
      · subst hr
        exact .pass _ rfl (by rw [Program.setPass_self, hrun])
      · exact .other _ _ (by simp) rfl (Program.setPass_of_ne hr p)
  | again r' hfinished =>
      by_cases hr : r = r'
      · subst hr
        exact .again _ rfl (Program.setPass_self r _)
      · exact .other _ _ (by simpa using Ne.symm hr) rfl (Program.setPass_of_ne hr _)

theorem Pass.see_self {p : Pass N} {costs : Costs N} (h : costs = p.costs) :
    p.see costs = p :=
  if_pos h

theorem Pass.see_of_ne {p : Pass N} {costs : Costs N} (h : costs ≠ p.costs) :
    p.see costs = { p with costs := costs, held := p.held ++ [costs] } :=
  if_neg h

@[simp] theorem Pass.see_costs (p : Pass N) (costs : Costs N) : (p.see costs).costs = costs := by
  unfold Pass.see
  split
  case isTrue h => exact h.symm
  case isFalse => rfl

theorem Pass.mem_held_see {p : Pass N} {costs m : Costs N} (h : m ∈ (p.see costs).held) :
    m ∈ p.held ∨ m = costs := by
  unfold Pass.see at h
  split at h
  case isTrue => exact .inl h
  case isFalse => simpa using h

/-- The pass of router `r` looks at the table of router `r`, and has come to its state by
steps of its own and by updates. -/
structure Program.Linked (s : Program N) (r : Fin N) : Prop where
  costs : (s.passes r).costs = (s.system.routers r).costs
  run : ∃ costs taken distances fs,
    Run Pass.step (fun _ _ => True) (.start r costs taken distances) fs (s.passes r)

theorem Program.Linked.boot (tables : Fin N → Costs N) (taken : Fin N → Fin N → Bool)
    (r : Fin N) : (Program.boot tables taken).Linked r :=
  ⟨rfl, tables r, taken r, fun _ => 0, [], .nil⟩

theorem Program.Linked.step {r : Fin N} (h : s.Linked r) {a : ProgramAction N}
    (hstep : s.step rounds a = some t) : t.Linked r := by
  obtain ⟨hcosts, first, taken, distances, fs, hrun⟩ := h
  cases Program.nextAt_of_step hstep r with
  | system b _ hb hpass =>
      refine ⟨hpass ▸ Pass.see_costs _ _, first, taken, distances, ?_⟩
      by_cases hsame : (t.system.routers r).costs = (s.passes r).costs
      · rw [hpass, Pass.see_self hsame]
        exact ⟨fs, hrun⟩
      · rcases System.costs_cases hb r with heq | ⟨n0, n1, n2, heq⟩
        · exact (hsame (heq.trans hcosts.symm)).elim
        · refine ⟨fs ++ [.update n0 n1 n2], hrun.snoc trivial ?_⟩
          rw [hpass, Pass.see_of_ne hsame, heq, ← hcosts]
          rfl
  | other _ _ _ hsystem hpass =>
      refine ⟨?_, first, taken, distances, fs, ?_⟩
      · rw [hpass, hsystem]
        exact hcosts
      · rw [hpass]
        exact hrun
  | pass _ hsystem hp =>
      have hnext : (s.passes r).step .run = some (t.passes r) := hp
      refine ⟨?_, first, taken, distances, fs ++ [.run], hrun.snoc trivial hnext⟩
      rw [hsystem, (Pass.frame_of_run hp).2.1]
      exact hcosts
  | again _ hsystem hpass =>
      refine ⟨?_, (s.passes r).costs, (s.passes r).taken, (s.passes r).distances, [], ?_⟩
      · rw [hpass, hsystem]
        exact hcosts
      · rw [hpass, Pass.again, Pass.myid_of_run hrun]
        exact .nil

theorem Program.linked_of_run {ok : Program N → ProgramAction N → Prop}
    {es : List (ProgramAction N)} (hs : ∀ r, s.Linked r)
    (h : Run (Program.step rounds) ok s es t) (r : Fin N) : t.Linked r :=
  h.invariant (P := fun s => s.Linked r) (fun _ _ _ hl _ hstep => hl.step hstep) (hs r)

/-! ## Costs in range -/

/-- The cost of a direct link that is neither negative nor as far as `INFINITE`. -/
def InRange (cost : Int32) : Prop :=
  0 ≤ cost.toInt ∧ cost.toInt < INFINITE.toInt

instance (cost : Int32) : Decidable (InRange cost) :=
  inferInstanceAs (Decidable (_ ∧ _))

/-- What is entered is a node and a cost in range, or an answer that `main` refuses. -/
def ProgramAction.Sane : ProgramAction N → Prop
  | .system (.enter _ id cost) => 0 ≤ id.toInt ∧ InRange cost
  | _ => True

instance : DecidablePred (ProgramAction.Sane (N := N)) := fun a =>
  match a with
  | .system (.enter _ id cost) => inferInstanceAs (Decidable (0 ≤ id.toInt ∧ InRange cost))
  | .system (.send _) => isTrue trivial
  | .system (.recv _ _) => isTrue trivial
  | .system (.store _) => isTrue trivial
  | .pass _ => isTrue trivial
  | .again _ => isTrue trivial

theorem Costs.From.inRange {m table : Costs N} {edits : List (Edit N)}
    (h : m.From table edits) (htable : ∀ i j, InRange (table i j))
    (hedits : ∀ e ∈ edits, InRange e.cost) (i j : Fin N) : InRange (m i j) := by
  rcases h i j with heq | ⟨_, e, he, _, heq⟩
  · rw [heq]
    exact htable i j
  · rw [heq]
    exact hedits e he

theorem highest_lt {tables : List (Costs N)} {b : ℤ} (hb : 0 < b)
    (h : ∀ m ∈ tables, ∀ u v, m.weight u v < b) (u v : Fin N) : highest tables u v < b := by
  unfold highest
  cases hmax : (tables.map fun m => m.weight u v).max? with
  | none => exact hb
  | some x =>
      obtain ⟨m, hm, rfl⟩ := List.mem_map.mp (List.max?_eq_some_iff.mp hmax).1
      exact h m hm u v

/-! ## Networks that give no guarantee -/

/-- A step of any thread, or of a network that loses, repeats and reorders. -/
def Program.unreliableStep (rounds : ℕ) (s : Program N) :
    Unreliable (ProgramAction N) N → Option (Program N)
  | .step a => s.step rounds a
  | .network sender receiver packets =>
      (s.system.rearrange sender receiver packets).map fun t => { s with system := t }

/-- Nothing is asked of the network. -/
def Unreliable.Sane : Unreliable (ProgramAction N) N → Prop
  | .step a => a.Sane
  | .network _ _ _ => True

instance : DecidablePred (Unreliable.Sane (N := N)) := fun a =>
  match a with
  | .step a => inferInstanceAs (Decidable a.Sane)
  | .network _ _ _ => isTrue trivial

/-- The invariant. No pass holds a cost that was neither read at the start nor entered. -/
structure Program.Safe (tables : Fin N → Costs N) (s : Program N) : Prop where
  sourced : s.system.Sourced tables
  linked : ∀ r, s.Linked r
  held : ∀ r, ∀ m ∈ (s.passes r).held, m.From (tables r) s.system.edits
  entered : ∀ e ∈ s.system.edits, InRange e.cost

variable {tables : Fin N → Costs N}

theorem Program.boot_safe (tables : Fin N → Costs N) (taken : Fin N → Fin N → Bool) :
    (Program.boot tables taken).Safe tables where
  sourced := System.boot_sourced tables
  linked := Program.Linked.boot tables taken
  held := by
    intro r m hm
    obtain rfl : m = tables r := by simpa [Program.boot, Pass.start] using hm
    exact .refl _ _
  entered := by simp [Program.boot, System.boot]

theorem Program.Safe.sourced_step (hN : N ≤ 2 ^ 31) (h : s.Safe tables) {a : ProgramAction N}
    (hstep : s.step rounds a = some t) : t.system.Sourced tables := by
  cases Program.next_of_step hstep with
  | system b u hb => exact h.sourced.step hN hb
  | pass r p hp => exact h.sourced
  | again r hfinished => exact h.sourced

theorem Program.edits_step {a : ProgramAction N} (hstep : s.step rounds a = some t) :
    t.system.edits = s.system.edits ∨
      ∃ id e, a = .system (.enter e.editor id e.cost) ∧ t.system.edits = s.system.edits ++ [e] := by
  cases Program.next_of_step hstep with
  | system b u hb =>
      rcases System.edits_cases hb with hedits | ⟨id, e, rfl, hedits⟩
      · exact .inl hedits
      · exact .inr ⟨id, e, rfl, hedits⟩
  | pass r p hp => exact .inl rfl
  | again r hfinished => exact .inl rfl

theorem Program.Safe.step (hN : N ≤ 2 ^ 31) (h : s.Safe tables) {a : ProgramAction N}
    (ha : a.Sane) (hstep : s.step rounds a = some t) : t.Safe tables := by
  have hsourced := h.sourced_step hN hstep
  refine ⟨hsourced, fun r => (h.linked r).step hstep, fun r => ?_, ?_⟩
  · have hedits : ∀ e ∈ s.system.edits, e ∈ t.system.edits := by
      rcases Program.edits_step hstep with hedits | ⟨_, e, _, hedits⟩ <;> simp [hedits]
      exact fun e' he' => .inl he'
    cases Program.nextAt_of_step hstep r with
    | system b _ hb hpass =>
        intro m hm
        rcases Pass.mem_held_see (hpass ▸ hm) with hm | rfl
        · exact (h.held r m hm).mono hedits
        · exact hsourced.costs r
    | other _ _ _ hsystem hpass =>
        rw [hpass, hsystem]
        exact h.held r
    | pass _ hsystem hp =>
        rw [(Pass.frame_of_run hp).2.2.1, hsystem]
        exact h.held r
    | again _ hsystem hpass =>
        intro m hm
        obtain rfl : m = (s.passes r).costs := by
          simpa [hpass, Pass.again, Pass.start] using hm
        rw [(h.linked r).costs, hsystem]
        exact h.sourced.costs r
  · rcases Program.edits_step hstep with hedits | ⟨id, e, rfl, hedits⟩
    · exact hedits ▸ h.entered
    · rw [hedits]
      exact Channel.forall_mem_snoc h.entered ha.2

theorem Program.Safe.unreliableStep (hN : N ≤ 2 ^ 31) (h : s.Safe tables)
    {a : Unreliable (ProgramAction N) N} (ha : a.Sane)
    (hstep : s.unreliableStep rounds a = some t) : t.Safe tables := by
  cases a with
  | step a => exact h.step hN ha hstep
  | network sender receiver packets =>
      obtain ⟨u, hu, rfl⟩ := Option.map_eq_some_iff.mp hstep
      obtain ⟨hrouters, hedits, _⟩ := System.frame_of_rearrange hu
      refine ⟨h.sourced.rearrange hu, fun r => ⟨?_, (h.linked r).run⟩, ?_, ?_⟩
      · dsimp only
        rw [hrouters]
        exact (h.linked r).costs
      · exact fun r m hm => hedits ▸ h.held r m hm
      · exact hedits ▸ h.entered

/-- A pass over costs in range is sound and defined. -/
theorem Program.Safe.sound (h : s.Safe tables) (htables : ∀ r i j, InRange (tables r i j))
    (r : Fin N) :
    (s.passes r).myid = r ∧ (s.passes r).Sound ∧ Nonneg (s.passes r).held ∧
      ∀ reason, (s.passes r).stage ≠ .undefined reason := by
  obtain ⟨_, first, taken, distances, fs, hrun⟩ := h.linked r
  have hsound := Pass.sound_of_run hrun
  have hrange : ∀ m ∈ (s.passes r).held, ∀ u v, InRange (m u v) := fun m hm =>
    (h.held r m hm).inRange (htables r) h.entered
  have hnonneg : Nonneg (s.passes r).held := fun m hm u v => (hrange m hm u v).1
  have hlt : ∀ m ∈ (s.passes r).held, ∀ u v, m.weight u v < INFINITE.toInt :=
    fun m hm u v => (hrange m hm u v).2
  have hnear : ∀ u v, 0 + highest (s.passes r).held u v < INFINITE.toInt := by
    intro u v
    rw [zero_add]
    exact highest_lt (by decide) hlt u v
  have hbound : ∀ m ∈ (s.passes r).held, ∀ u v,
      m.weight u v ≤ Int32.maxValue.toInt - INFINITE.toInt := by
    intro m hm u v
    have hlt := hlt m hm u v
    have hmax : INFINITE.toInt ≤ Int32.maxValue.toInt - INFINITE.toInt := by decide
    omega
  exact ⟨Pass.myid_of_run hrun, hsound, hnonneg,
    hsound.defined hnonneg hbound (hsound.highest_nonneg hnonneg) hsound.cost_le_highest
      fun v => ⟨_, hnear _ v, .snoc .nil rfl⟩⟩

/-- The next step of a thread that is ready is defined, unless a negative number is
entered. -/
theorem System.Traced.exists_step {s : System N} (hN : N ≤ 2 ^ 31) (h : s.Traced)
    {a : SystemAction N} (hready : s.Ready rounds a) (hnonneg : a.NoNegative) :
    ∃ t, s.step rounds a = some t := by
  cases a with
  | enter myid id cost =>
      by_cases hrefused : Refused myid id
      · exact (System.guarded_of_refused hready hrefused).imp fun _ ht => ht.1
      · exact (System.guarded_of_accepted hN hready hrefused hnonneg).imp fun _ ht => ht.1
  | send myid => exact (System.guarded_send hready).imp fun _ ht => ht.1
  | recv myid sender => exact (System.guarded_recv hready).imp fun _ ht => ht.1
  | store myid => exact (h.guarded_store hN hready).imp fun _ ht => ht.1

/-- If the tables read and the costs entered are in range and no negative node is entered,
nothing undefined ever happens at any router, whatever the order of steps and whatever packets
the network loses, repeats and reorders: every thread that is ready can make its step, every
pass goes on, and each time it ends it has the distances of a table made of costs that were
read or entered. -/
theorem never_undefined (rounds : ℕ) (hN : N ≤ 2 ^ 31) (tables : Fin N → Costs N)
    (htables : ∀ r i j, InRange (tables r i j)) (taken : Fin N → Fin N → Bool)
    (es : List (Unreliable (ProgramAction N) N)) (s : Program N)
    (h : Run (Program.unreliableStep rounds) (fun _ a => a.Sane) (.boot tables taken) es s) :
    (∀ r reason, (s.passes r).stage ≠ .undefined reason) ∧
    (∀ a, s.system.Ready rounds a → a.NoNegative →
      ∃ t, s.step rounds (.system a) = some t) ∧
    (∀ r, ∃ t, s.step rounds (.pass r) = some t ∨ s.step rounds (.again r) = some t) ∧
    ∀ r, (s.passes r).stage = .finished →
      ∃ m : Costs N, m.From (tables r) s.system.edits ∧
        ∀ j, j ≠ r → IsDist m.weight r j ((s.passes r).distances j).toInt := by
  have hsafe : s.Safe tables :=
    h.invariant (fun _ _ _ hs ha hstep => hs.unreliableStep hN ha hstep)
      (Program.boot_safe tables taken)
  have hsound := hsafe.sound htables
  have hdefined : ∀ r, (s.passes r).stage.Defined :=
    fun r => Stage.defined_iff.mpr (hsound r).2.2.2
  refine ⟨fun r => (hsound r).2.2.2, ?_, ?_, ?_⟩
  · intro a hready hnonneg
    obtain ⟨u, hu⟩ := hsafe.sourced.traced.exists_step hN hready hnonneg
    exact ⟨_, by simp only [Program.step, if_pos hdefined, hu]; rfl⟩
  · intro r
    by_cases hfinished : (s.passes r).stage = .finished
    · exact ⟨s.setPass r (s.passes r).again,
        .inr (by simp only [Program.step, if_pos hdefined, if_pos hfinished])⟩
    · obtain ⟨q, hq⟩ := Pass.exists_run (hsound r).2.2.2 hfinished
      have hrun : (s.passes r).run = some q := hq
      exact ⟨_, .inl (by simp only [Program.step, if_pos hdefined, hrun]; rfl)⟩
  · intro r hfinished
    obtain ⟨hmyid, hpass, hnonneg, _⟩ := hsound r
    obtain ⟨m, hheld, hagree⟩ := hpass.exists_agreeing hnonneg
    refine ⟨m, ?_, ?_⟩
    · intro i j
      obtain ⟨m', hm', heq⟩ := hheld i j
      rw [heq]
      exact hsafe.held r m' hm' i j
    · intro j hj
      have hweight : ∀ u v, 0 ≤ m.weight u v := by
        intro u v
        obtain ⟨m', hm', heq⟩ := hheld u v
        rw [Costs.weight, heq]
        exact hnonneg m' hm' u v
      have hdist := hpass.isDist hnonneg hfinished hweight
        (fun read hread => congrArg Int32.toInt (hagree read hread)) (hmyid.symm ▸ hj)
      rwa [hmyid] at hdist

/-- The update of router 0 reaches router 1 twice, and router 1 makes its second pass after it
has stored the first copy. -/
theorem never_undefined_secondPass :
    ∃ (es : List (Unreliable (ProgramAction 2) 2)) (s : Program 2),
      Run (Program.unreliableStep 3) (fun _ a => a.Sane)
        (.boot (fun _ => fun _ _ => 900) fun _ _ => false) es s ∧
      (s.passes 1).distances 0 = 5 ∧
      ∃ m : Costs 2, m.From (fun _ _ => 900) s.system.edits ∧
        ∀ j, j ≠ 1 → IsDist m.weight 1 j ((s.passes 1).distances j).toInt := by
  let steps : List (ProgramAction 2) :=
    [.system (.recv 1 0), .again 1, .pass 0, .system (.store 1), .system (.recv 1 0)]
  let es : List (Unreliable (ProgramAction 2) 2) := List.flatten
    [List.replicate 8 (.step (.pass 1)), [.step (.system (.enter 0 1 5)),
      .step (.system (.send 0)), .step (.pass 0), .step (.system (.send 0)),
      .network 0 1 [packetOf 0 1 5, packetOf 0 1 5]], steps.map .step,
      List.replicate 8 (.step (.pass 1))]
  let start : Program 2 := .boot (fun _ => fun _ _ => 900) fun _ _ => false
  let s : Program 2 := (exec (Program.unreliableStep 3) start es).get (by decide +kernel)
  have hsane : ∀ a ∈ es, a.Sane := by decide +kernel
  have hrun : Run (Program.unreliableStep 3) (fun _ a => a.Sane) start es s :=
    .of_get (fun a ha _ => hsane a ha) _
  have hmain := never_undefined 3 (by decide) _ (fun _ _ _ => by decide) _ es s hrun
  exact ⟨es, s, hrun, by decide +kernel, hmain.2.2.2 1 (by decide +kernel)⟩

end NetLabs.LinkState
