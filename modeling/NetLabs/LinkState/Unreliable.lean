import NetLabs.LinkState.Guard

/-! # Networks that give no guarantee

Packets between two routers may be lost, repeated and reordered. The routers then need not
agree, but no table holds a cost that was neither read nor entered for its link, and what
arrives is stored inside the tables. -/

namespace NetLabs.LinkState

open Machine

variable {N rounds : ℕ} {s t : System N}

/-- The packets on their way from `sender` to `receiver` become others of the same. -/
def System.rearrange (s : System N) (sender receiver : Fin N) (packets : List Packet) :
    Option (System N) :=
  if packets ⊆ s.chan sender receiver then some (s.setChan sender receiver packets) else none

/-- A step of the program, or one of the network. -/
inductive Unreliable (α : Type*) (N : ℕ) where
  | step (a : α)
  | network (sender receiver : Fin N) (packets : List Packet)

def System.unreliableStep (rounds : ℕ) (s : System N) :
    Unreliable (SystemAction N) N → Option (System N)
  | .step a => s.step rounds a
  | .network sender receiver packets => s.rearrange sender receiver packets

/-! ## Steps of the network -/

theorem System.frame_of_rearrange {sender receiver : Fin N} {packets : List Packet}
    (h : s.rearrange sender receiver packets = some t) :
    t.routers = s.routers ∧ t.edits = s.edits ∧
      ∀ p q, ∀ packet ∈ t.stream p q, packet ∈ s.stream p q := by
  obtain ⟨hpackets, h⟩ := Option.ite_none_right_eq_some.mp h
  obtain rfl := Option.some.inj h
  refine ⟨rfl, rfl, fun p q packet hmem => ?_⟩
  have hchan : packet ∈ (s.setChan sender receiver packets).chan p q → packet ∈ s.chan p q := by
    intro hmem
    by_cases hpq : p = sender ∧ q = receiver
    · obtain ⟨rfl, rfl⟩ := hpq
      rw [System.setChan_self] at hmem
      exact hpackets hmem
    · rwa [System.setChan_of_ne hpq] at hmem
  simp only [System.stream, List.mem_append] at hmem ⊢
  exact hmem.imp_left (Or.imp_right hchan)

/-! ## Where costs come from -/

/-- Every entry of `m` is the one of `table` or was entered for its link, and none on the
diagonal was. -/
def Costs.From (m table : Costs N) (edits : List (Edit N)) : Prop :=
  ∀ i j, m i j = table i j ∨ i ≠ j ∧ ∃ e ∈ edits, OnLink e.editor e.id i j ∧ m i j = e.cost

theorem Costs.From.refl (table : Costs N) (edits : List (Edit N)) : table.From table edits :=
  fun _ _ => .inl rfl

theorem Costs.From.mono {m table : Costs N} {edits edits' : List (Edit N)}
    (h : m.From table edits) (hedits : ∀ e ∈ edits, e ∈ edits') : m.From table edits' := by
  intro i j
  refine (h i j).imp_right ?_
  rintro ⟨hne, e, he, hon⟩
  exact ⟨hne, e, hedits e he, hon⟩

/-- The cost of an edit at its link. -/
theorem Costs.From.setLink {m table : Costs N} {edits : List (Edit N)}
    (h : m.From table edits) {e : Edit N} (he : e ∈ edits) (hne : e.id ≠ e.editor) :
    (m.setLink e.editor e.id e.cost).From table edits := by
  intro i j
  by_cases hon : OnLink e.editor e.id i j
  · refine .inr ⟨?_, e, he, hon, by rw [Costs.setLink_apply, if_pos hon]⟩
    rcases hon with ⟨rfl, rfl⟩ | ⟨rfl, rfl⟩
    · exact hne.symm
    · exact hne
  · rw [Costs.setLink_of_not_onLink hon]
    exact h i j

theorem Costs.setLink_symm {m : Costs N} (h : ∀ i j, m i j = m j i) (a b : Fin N)
    (cost : Int32) (i j : Fin N) : m.setLink a b cost i j = m.setLink a b cost j i := by
  have hon : OnLink a b i j ↔ OnLink a b j i := by
    rw [OnLink, OnLink]
    tauto
  simp only [Costs.setLink_apply, hon, h i j]

/-- A step of the routers leaves a table alone or stores to one link of it. -/
theorem System.costs_cases {a : SystemAction N} (h : s.step rounds a = some t) (r : Fin N) :
    (t.routers r).costs = (s.routers r).costs ∨
      ∃ n0 n1 n2, (t.routers r).costs = (s.routers r).costs.setLink n0 n1 n2 := by
  cases a with
  | enter myid id cost =>
      rcases System.enter_cases h with ⟨hcosts, _⟩ | ⟨i, peer, _, _, _, rfl⟩
      · exact .inl (hcosts r)
      · by_cases hr : r = myid
        · subst hr
          exact .inr ⟨r, peer, cost, by simp [System.set, Router.edit]⟩
        · exact .inl (congrArg Router.costs (System.set_routers_of_ne hr _))
  | send myid => exact .inl ((System.frame_of_send h).1 r)
  | recv myid sender => exact .inl ((System.frame_of_recv h).1 r)
  | store myid =>
      obtain ⟨_, _, n0, n1, n2, _, _, _, hcosts, hcosts', _⟩ := System.store_cases h
      by_cases hr : r = myid
      · subst hr
        exact .inr ⟨n0, n1, n2, hcosts⟩
      · exact .inl (hcosts' r hr)

/-- Every packet on its way tells of an edit, and every cost was read or entered. -/
structure System.Sourced (tables : Fin N → Costs N) (s : System N) : Prop where
  traced : s.Traced
  costs : ∀ r, (s.routers r).costs.From (tables r) s.edits

variable {tables : Fin N → Costs N}

theorem System.boot_sourced (tables : Fin N → Costs N) : (System.boot tables).Sourced tables :=
  ⟨System.boot_traced tables, fun r => .refl (tables r) []⟩

theorem System.Sourced.step (hN : N ≤ 2 ^ 31) (h : s.Sourced tables) {a : SystemAction N}
    (hstep : s.step rounds a = some t) : t.Sourced tables := by
  refine ⟨h.traced.step hN hstep, fun r => ?_⟩
  cases a with
  | enter myid id cost =>
      rcases System.enter_cases hstep with ⟨hcosts, _, hedits⟩ | ⟨i, peer, _, _, hne, rfl⟩
      · rw [hcosts, hedits]
        exact h.costs r
      · have hold := (h.costs r).mono fun e he => List.mem_append_left
          [⟨myid, peer, cost, decide (s.Contested myid peer)⟩] he
        by_cases hr : r = myid
        · subst hr
          have hnew := hold.setLink (List.mem_append_right _ (List.mem_singleton_self _)) hne
          simpa [System.set, Router.edit] using hnew
        · dsimp only
          rwa [System.set_routers_of_ne hr]
  | send myid =>
      obtain ⟨hcosts, hedits⟩ := System.frame_of_send hstep
      rw [hcosts, hedits]
      exact h.costs r
  | recv myid sender =>
      obtain ⟨hcosts, hedits⟩ := System.frame_of_recv hstep
      rw [hcosts, hedits]
      exact h.costs r
  | store myid =>
      obtain ⟨sender, packet, n0, n1, n2, hdecode, hstream, _, hcosts, hcosts', hedits⟩ :=
        System.store_cases hstep
      rw [hedits]
      by_cases hr : r = myid
      · subst hr
        obtain ⟨_, e, he, heditor, hne, rfl⟩ := h.traced sender r packet (by simp [hstream])
        rw [← heditor] at hdecode hne
        rw [decode_packetOf (index_ofNat hN _) (index_ofNat hN _)] at hdecode
        obtain ⟨rfl, rfl, rfl⟩ : e.editor = n0 ∧ e.id = n1 ∧ e.cost = n2 := by
          simpa using hdecode
        rw [hcosts]
        exact (h.costs r).setLink he hne
      · rw [hcosts' r hr]
        exact h.costs r

theorem System.Sourced.rearrange (h : s.Sourced tables) {sender receiver : Fin N}
    {packets : List Packet} (hstep : s.rearrange sender receiver packets = some t) :
    t.Sourced tables := by
  obtain ⟨hrouters, hedits, hstream⟩ := System.frame_of_rearrange hstep
  refine ⟨h.traced.mono hedits hstream, fun r => ?_⟩
  rw [hrouters, hedits]
  exact h.costs r

theorem System.sourced_of_run (hN : N ≤ 2 ^ 31) {es : List (SystemAction N)}
    (h : Run (System.step rounds) (fun _ _ => True) (.boot tables) es s) : s.Sourced tables :=
  h.invariant (fun _ _ _ hs _ hstep => hs.step hN hstep) (System.boot_sourced tables)

/-- Nobody edits the diagonal. -/
theorem System.Sourced.costs_self (h : s.Sourced tables) (r i : Fin N) :
    (s.routers r).costs i i = tables r i i :=
  (h.costs r i i).resolve_right fun hedited => hedited.1 rfl

theorem System.sourced_of_unreliable (hN : N ≤ 2 ^ 31)
    {es : List (Unreliable (SystemAction N) N)}
    (h : Run (System.unreliableStep rounds) (fun _ _ => True) (.boot tables) es s) :
    s.Sourced tables := by
  refine h.invariant (P := fun s => s.Sourced tables) ?_ (System.boot_sourced tables)
  intro s a t hs _ hstep
  cases a with
  | step a => exact hs.step hN hstep
  | network sender receiver packets => exact hs.rearrange hstep

theorem System.symm_of_unreliable (hsymm : ∀ r i j, tables r i j = tables r j i)
    {es : List (Unreliable (SystemAction N) N)}
    (h : Run (System.unreliableStep rounds) (fun _ _ => True) (.boot tables) es s) :
    ∀ r i j, (s.routers r).costs i j = (s.routers r).costs j i := by
  refine h.invariant (P := fun s => ∀ r i j, (s.routers r).costs i j = (s.routers r).costs j i)
    ?_ hsymm
  intro s a t hs _ hstep r
  cases a with
  | step a =>
      rcases System.costs_cases hstep r with hcosts | ⟨n0, n1, n2, hcosts⟩
      · rw [hcosts]
        exact hs r
      · rw [hcosts]
        exact Costs.setLink_symm (hs r) n0 n1 n2
  | network sender receiver packets =>
      rw [(System.frame_of_rearrange hstep).1]
      exact hs r

/-- Whatever a network does that loses, repeats and reorders: a table holds what was read at
the start or entered for the link in question, it stays symmetric, and what arrives is stored
inside the table, at the link of an edit of the sender. -/
theorem unreliable_tables (rounds : ℕ) (hN : N ≤ 2 ^ 31) (tables : Fin N → Costs N)
    (es : List (Unreliable (SystemAction N) N)) (s : System N)
    (h : Run (System.unreliableStep rounds) (fun _ _ => True) (.boot tables) es s) :
    (∀ r, (s.routers r).costs.From (tables r) s.edits) ∧
    ((∀ r i j, tables r i j = tables r j i) →
      ∀ r i j, (s.routers r).costs i j = (s.routers r).costs j i) ∧
    ∀ r, s.Ready rounds (.store r) → s.Guarded rounds (.store r) := by
  have hsourced := System.sourced_of_unreliable hN h
  exact ⟨hsourced.costs, fun hsymm => System.symm_of_unreliable hsymm h,
    fun _ => hsourced.traced.guarded_store hN⟩

/-- The network repeats the first update of router 0 after the second one. -/
theorem unreliable_tables_exchanged :
    ∃ (es : List (Unreliable (SystemAction 2) 2)) (s : System 2),
      Run (System.unreliableStep 3) (fun _ _ => True) (.boot fun _ _ _ => 900) es s ∧
      (s.routers 0).costs 0 1 = 7 ∧ (s.routers 1).costs 0 1 = 5 ∧
      (s.routers 1).costs.From (fun _ _ => 900) s.edits := by
  let es : List (Unreliable (SystemAction 2) 2) :=
    [.step (.enter 0 1 5), .step (.send 0), .step (.send 0), .step (.send 0),
      .step (.enter 0 1 7), .step (.send 0), .step (.send 0),
      .network 0 1 [packetOf 0 1 7, packetOf 0 1 5, packetOf 0 1 5], .step (.recv 1 0),
      .step (.store 1), .step (.recv 1 0), .step (.store 1)]
  obtain ⟨s, hrun, hobs⟩ : ∃ s, Run (System.unreliableStep 3) (fun _ _ => True)
      (.boot fun _ _ _ => 900) es s ∧
        ((s.routers 0).costs 0 1, (s.routers 1).costs 0 1) = (7, 5) :=
    Run.exists_of_exec (by simp) (by decide +kernel)
  obtain ⟨hfirst, hsecond⟩ := Prod.mk.inj hobs
  exact ⟨es, s, hrun, hfirst, hsecond, (unreliable_tables 3 (by decide) _ es s hrun).1 1⟩

end NetLabs.LinkState
