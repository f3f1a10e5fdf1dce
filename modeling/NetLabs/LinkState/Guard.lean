import NetLabs.LinkState.Router
import NetLabs.Library.Machine

/-! # The check of `main` and the tables behind it

`receive_info` uses the subscripts it is sent as they are. That all stores stay inside the
tables rests on the check that `main` makes of the `id` entered, at another router. -/

namespace NetLabs.LinkState

open Machine

variable {N : ℕ}

/-! ## Subscripts -/

/-- Do the two subscripts lie inside `int costs[N][N]`? -/
def Inside (N : ℕ) (subscripts : Int32 × Int32) : Prop :=
  (0 ≤ subscripts.1.toInt ∧ subscripts.1.toInt < N) ∧
    (0 ≤ subscripts.2.toInt ∧ subscripts.2.toInt < N)

instance (subscripts : Int32 × Int32) : Decidable (Inside N subscripts) :=
  inferInstanceAs (Decidable (_ ∧ _))

/-- The entries that `main` stores to. -/
def editSubscripts (myid id : Int32) : List (Int32 × Int32) :=
  [(myid, id), (id, myid)]

/-- `id >= N || id == myid`. -/
def Refused (myid : Fin N) (id : Int32) : Prop :=
  N ≤ id.toInt ∨ id.toInt = myid

instance (myid : Fin N) (id : Int32) : Decidable (Refused myid id) :=
  inferInstanceAs (Decidable (_ ∨ _))

theorem toInt_ofNat (hN : N ≤ 2 ^ 31) (i : Fin N) : (Int32.ofNat i).toInt = i :=
  Int32.toInt_ofNat_of_lt (by have := i.isLt; omega)

theorem subscripts_packetOf (n0 n1 n2 : Int32) :
    (packetOf n0 n1 n2).subscripts = editSubscripts n0 n1 := by
  simp [Packet.subscripts, packetOf, editSubscripts, ntohl_htonl]

theorem inside_editSubscripts (hN : N ≤ 2 ^ 31) (myid : Fin N) (id : Int32) :
    (∀ sub ∈ editSubscripts (.ofNat myid) id, Inside N sub) ↔
      0 ≤ id.toInt ∧ id.toInt < N := by
  have hlt := myid.isLt
  simp only [editSubscripts, List.mem_cons, List.not_mem_nil, or_false, forall_eq_or_imp,
    forall_eq, Inside, toInt_ofNat hN]
  omega

/-! ## What is protected -/

/-- The table differs from the old one in the two entries of a link and in no others, and
these are off the diagonal. -/
structure Costs.ChangedAt (costs costs' : Costs N) (a b : Fin N) (cost : Int32) : Prop where
  offDiagonal : a ≠ b
  entry : ∀ i j, costs' i j = if OnLink a b i j then cost else costs i j

theorem Costs.setLink_changedAt (costs : Costs N) {a b : Fin N} (hne : a ≠ b)
    (cost : Int32) : costs.ChangedAt (costs.setLink a b cost) a b cost :=
  ⟨hne, fun i j => Costs.setLink_apply costs a b i j cost⟩

/-- The program is about to make this step, defined or not. -/
def System.Ready (rounds : ℕ) (s : System N) : SystemAction N → Prop
  | .enter myid _ _ => ∃ i < rounds, (s.routers myid).main = .prompt i
  | .send myid => ∃ i packet j, (s.routers myid).main = .sending i packet j
  | .recv myid sender => (s.routers myid).buf = none ∧ s.chan sender myid ≠ []
  | .store myid => (s.routers myid).buf ≠ none

/-- No table changes. -/
def System.SameCosts (s t : System N) : Prop :=
  ∀ r, (t.routers r).costs = (s.routers r).costs

/-- The table of `myid` changes at one link, and no other table changes. -/
structure System.LinkChanged (s t : System N) (myid a b : Fin N) (cost : Int32) :
    Prop where
  own : (s.routers myid).costs.ChangedAt (t.routers myid).costs a b cost
  others : ∀ r, r ≠ myid → (t.routers r).costs = (s.routers r).costs

/-- Whoever receives the packet stores its cost at the link and nowhere else. -/
def Packet.Updates (packet : Packet) (a b : Fin N) (cost : Int32) : Prop :=
  (∀ sub ∈ packet.subscripts, Inside N sub) ∧
    ∀ (router : Router N) sender, router.buf = some (sender, packet) →
      ∃ router', router.store = some router' ∧
        router.costs.ChangedAt router'.costs a b cost

/-- What the step does is what the check should ensure. -/
def System.Guarded (rounds : ℕ) (s : System N) : SystemAction N → Prop
  | .enter myid id cost => ∃ t, s.step rounds (.enter myid id cost) = some t ∧
      if Refused myid id then
        s.SameCosts t ∧ (∀ p q, t.stream p q = s.stream p q) ∧ t.edits = s.edits
      else
        (∀ sub ∈ editSubscripts (.ofNat myid) id, Inside N sub) ∧
        ∃ peer : Fin N, id.toInt = peer ∧ s.LinkChanged t myid myid peer cost ∧
          ∃ packet : Packet, packet.Updates myid peer cost ∧
            ∀ p q, t.stream p q =
              if p = myid ∧ q ≠ myid then s.stream p q ++ [packet] else s.stream p q
  | .store myid => ∃ t, s.step rounds (.store myid) = some t ∧
      ∃ sender packet, (s.routers myid).buf = some (sender, packet) ∧ sender ≠ myid ∧
        (∀ sub ∈ packet.subscripts, Inside N sub) ∧
        ∃ e ∈ s.edits, e.editor = sender ∧ s.LinkChanged t myid e.editor e.id e.cost
  | a => ∃ t, s.step rounds a = some t ∧ s.SameCosts t

/-- No negative number is entered. -/
def SystemAction.NoNegative : SystemAction N → Prop
  | .enter _ id _ => 0 ≤ id.toInt
  | _ => True

/-! ## Packets and edits -/

variable {rounds : ℕ} {s t : System N} {myid : Fin N}

theorem packetOf_updates (hN : N ≤ 2 ^ 31) {id : Int32} {peer : Fin N}
    (hpeer : id.toInt = peer) (hne : peer ≠ myid) (cost : Int32) :
    (packetOf (.ofNat myid) id cost).Updates myid peer cost := by
  have hlt := peer.isLt
  refine ⟨?_, ?_⟩
  · rw [subscripts_packetOf, inside_editSubscripts hN]
    omega
  · intro router sender hbuf
    have hdecode : (packetOf (.ofNat myid) id cost).decode = some (myid, peer, cost) :=
      decode_packetOf (index_ofNat hN myid) (index_eq_some.mpr hpeer)
    exact ⟨_, by simp only [Router.store, hbuf, hdecode]; rfl,
      Costs.setLink_changedAt _ hne.symm cost⟩

/-- Every packet on its way tells another router of an edit. -/
def System.Traced (s : System N) : Prop :=
  ∀ p q, ∀ packet ∈ s.stream p q, p ≠ q ∧
    ∃ e ∈ s.edits, e.editor = p ∧ e.id ≠ p ∧ packet = packetOf (.ofNat p) (.ofNat e.id) e.cost

theorem System.boot_traced (tables : Fin N → Costs N) : (System.boot tables).Traced := by
  intro p q packet hpacket
  simp [System.boot, System.stream, Router.received, Router.unsent] at hpacket

/-- Packets may move and vanish. -/
theorem System.Traced.mono (h : s.Traced) (hedits : t.edits = s.edits)
    (hstream : ∀ p q, ∀ packet ∈ t.stream p q, packet ∈ s.stream p q) : t.Traced := by
  intro p q packet hpacket
  rw [hedits]
  exact h p q packet (hstream p q packet hpacket)

theorem System.Traced.enter (hN : N ≤ 2 ^ 31) (h : s.Traced) {id cost : Int32}
    (hstep : s.step rounds (.enter myid id cost) = some t) : t.Traced := by
  rcases System.enter_cases hstep with
    ⟨_, hstream, hedits⟩ | ⟨i, peer, hmain, hpeer, hne, rfl⟩
  · exact h.mono hedits fun p q _ hmem => hstream p q ▸ hmem
  · intro p q packet hpacket
    change packet ∈ (s.set myid ((s.routers myid).edit i myid id peer cost)).stream p q
      at hpacket
    rw [System.stream_edit hmain] at hpacket
    have hold : packet ∈ s.stream p q → p ≠ q ∧ ∃ e ∈ s.edits ++
        [⟨myid, peer, cost, decide (s.Contested myid peer)⟩], e.editor = p ∧ e.id ≠ p ∧
        packet = packetOf (.ofNat p) (.ofNat e.id) e.cost := by
      intro hmem
      obtain ⟨hpq, e, he, hrest⟩ := h p q packet hmem
      exact ⟨hpq, e, List.mem_append_left _ he, hrest⟩
    split at hpacket
    case isTrue hnew =>
        rcases List.mem_append.mp hpacket with hmem | hmem
        · exact hold hmem
        · obtain rfl := List.mem_singleton.mp hmem
          obtain ⟨rfl, hq⟩ := hnew
          have hid : id = .ofNat peer :=
            Int32.toInt_inj.mp ((index_eq_some.mp hpeer).trans (toInt_ofNat hN peer).symm)
          exact ⟨hq.symm, _, List.mem_append_right _ (List.mem_singleton_self _), rfl, hne,
            by rw [hid]⟩
    case isFalse => exact hold hpacket

theorem System.Traced.step (hN : N ≤ 2 ^ 31) (h : s.Traced) {a : SystemAction N}
    (hstep : s.step rounds a = some t) : t.Traced := by
  cases a with
  | enter myid id cost => exact h.enter hN hstep
  | send myid =>
      exact h.mono (System.frame_of_send hstep).2
        fun p q _ hmem => System.stream_send hstep p q ▸ hmem
  | recv myid sender =>
      exact h.mono (System.frame_of_recv hstep).2
        fun p q _ hmem => System.stream_recv hstep p q ▸ hmem
  | store myid =>
      obtain ⟨sender, packet, _, _, _, _, hstream, hother, _, _, hedits⟩ :=
        System.store_cases hstep
      refine h.mono hedits fun p q old hmem => ?_
      by_cases hpq : p = sender ∧ q = myid
      · obtain ⟨rfl, rfl⟩ := hpq
        rw [hstream]
        exact List.mem_cons_of_mem packet hmem
      · exact hother p q hpq ▸ hmem

theorem System.traced_of_run (hN : N ≤ 2 ^ 31) {tables : Fin N → Costs N}
    {es : List (SystemAction N)}
    (h : Run (System.step rounds) (fun _ _ => True) (.boot tables) es s) : s.Traced :=
  h.invariant (fun _ _ _ ht _ hstep => ht.step hN hstep) (System.boot_traced tables)

/-! ## Guarded steps -/

theorem not_refused_of_neg {id : Int32} (hneg : id.toInt < 0) : ¬ Refused myid id := by
  unfold Refused
  omega

theorem System.guarded_of_refused {id cost : Int32} (h : s.Ready rounds (.enter myid id cost))
    (hrefused : Refused myid id) : s.Guarded rounds (.enter myid id cost) := by
  obtain ⟨i, hi, hmain⟩ := h
  refine ⟨s.set myid { s.routers myid with main := .past }, ?_, ?_⟩
  · simp only [System.step, hmain, if_pos hi, if_pos (show _ ∨ _ from hrefused)]
  · rw [if_pos hrefused]
    refine ⟨fun r => System.costs_set (by rfl) r, ?_, rfl⟩
    exact System.stream_set (by rfl) fun q => by simp [Router.unsent, hmain]

theorem System.guarded_of_accepted (hN : N ≤ 2 ^ 31) {id cost : Int32}
    (h : s.Ready rounds (.enter myid id cost)) (haccepted : ¬ Refused myid id)
    (hnonneg : 0 ≤ id.toInt) : s.Guarded rounds (.enter myid id cost) := by
  obtain ⟨i, hi, hmain⟩ := h
  have hsplit := not_or.mp haccepted
  have hlt : id.toInt < N := by omega
  let peer : Fin N := ⟨id.toInt.toNat, by omega⟩
  have hpeer : id.toInt = peer := by
    change id.toInt = (id.toInt.toNat : ℤ)
    omega
  have hne : peer ≠ myid := by
    intro heq
    exact hsplit.2 (heq ▸ hpeer)
  refine ⟨{ s.set myid ((s.routers myid).edit i myid id peer cost) with
    edits := s.edits ++ [⟨myid, peer, cost, decide (s.Contested myid peer)⟩] }, ?_, ?_⟩
  · simp only [System.step, hmain, if_pos hi, if_neg (show ¬ (_ ∨ _) from haccepted),
      index_eq_some.mpr hpeer, Option.map_some]
  · rw [if_neg haccepted]
    refine ⟨(inside_editSubscripts hN myid id).mpr ⟨hnonneg, hlt⟩, peer, hpeer, ?_, _,
      packetOf_updates hN hpeer hne cost, System.stream_edit hmain id peer cost⟩
    refine ⟨?_, fun r hr => ?_⟩
    · dsimp only
      rw [System.set_routers_self]
      exact Costs.setLink_changedAt _ hne.symm cost
    · dsimp only
      rw [System.set_routers_of_ne hr]

theorem System.not_guarded_of_neg (hN : N ≤ 2 ^ 31) {id cost : Int32} (hneg : id.toInt < 0) :
    ¬ s.Guarded rounds (.enter myid id cost) := by
  rintro ⟨t, _, heffect⟩
  rw [if_neg (not_refused_of_neg hneg), inside_editSubscripts hN] at heffect
  have := heffect.1.1
  omega

/-- What has been received is stored at the link that was edited. -/
theorem System.Traced.guarded_store (hN : N ≤ 2 ^ 31) (h : s.Traced)
    (hready : s.Ready rounds (.store myid)) : s.Guarded rounds (.store myid) := by
  obtain ⟨⟨sender, packet⟩, hbuf⟩ := Option.ne_none_iff_exists'.mp hready
  have hmem : packet ∈ s.stream sender myid := by
    simp [System.stream, Router.received, hbuf]
  obtain ⟨hne, e, he, rfl, hid, hpacket⟩ := h sender myid packet hmem
  obtain ⟨hinside, hupdates⟩ := packetOf_updates hN (toInt_ofNat hN e.id) hid e.cost
  rw [← hpacket] at hinside hupdates
  obtain ⟨router, hstore, hchanged⟩ := hupdates _ _ hbuf
  refine ⟨s.set myid router, by simp [System.step, hstore], e.editor, packet, hbuf, hne,
    hinside, e, he, rfl, ?_, fun r hr => ?_⟩
  · rwa [System.set_routers_self]
  · rw [System.set_routers_of_ne hr]

theorem System.guarded_send (h : s.Ready rounds (.send myid)) :
    s.Guarded rounds (.send myid) := by
  obtain ⟨i, packet, j, hmain⟩ := h
  have hdefined : ∃ t, s.step rounds (.send myid) = some t := by
    simp only [System.step, hmain]
    split
    · split <;> exact ⟨_, rfl⟩
    · exact ⟨_, rfl⟩
  obtain ⟨t, hstep⟩ := hdefined
  exact ⟨t, hstep, (System.frame_of_send hstep).1⟩

theorem System.guarded_recv {sender : Fin N} (h : s.Ready rounds (.recv myid sender)) :
    s.Guarded rounds (.recv myid sender) := by
  obtain ⟨hbuf, hchan⟩ := h
  obtain ⟨packet, rest, hcons⟩ := List.exists_cons_of_ne_nil hchan
  have hdefined : ∃ t, s.step rounds (.recv myid sender) = some t := by
    simp only [System.step, hbuf, hcons]
    exact ⟨_, rfl⟩
  obtain ⟨t, hstep⟩ := hdefined
  exact ⟨t, hstep, (System.frame_of_recv hstep).1⟩

/-- In a program of four nodes, router 0 lets -1 through. Its own store and the stores of
all who receive the packet then go outside the tables. -/
theorem negative_accepted :
    ∃ s : System 4, Run (System.step 3) (fun _ _ => True) (.boot fun _ _ _ => 1) [] s ∧
      s.Ready 3 (.enter 0 (-1) 5) ∧ ¬ Refused (0 : Fin 4) (-1) ∧
      (¬ ∀ sub ∈ editSubscripts 0 (-1), Inside 4 sub) ∧
      (¬ ∀ sub ∈ (packetOf 0 (-1) 5).subscripts, Inside 4 sub) ∧
      ¬ s.Guarded 3 (.enter 0 (-1) 5) := by
  have houtside : ¬ ∀ sub ∈ editSubscripts 0 (-1), Inside 4 sub := by
    intro hinside
    have hfirst := hinside (0, -1) List.mem_cons_self
    exact absurd hfirst (by decide)
  refine ⟨.boot fun _ _ _ => 1, .nil, ⟨0, by decide, rfl⟩, by decide, houtside, ?_,
    System.not_guarded_of_neg (by decide) (by decide)⟩
  rw [subscripts_packetOf]
  exact houtside

/-- Whatever has been entered, sent and stored before, the next step does to the tables what
the check should ensure, exactly when it is not the answer of a negative number. -/
theorem guarded_iff (rounds : ℕ) (hN : N ≤ 2 ^ 31) (tables : Fin N → Costs N)
    (es : List (SystemAction N)) (s : System N)
    (h : Run (System.step rounds) (fun _ _ => True) (.boot tables) es s)
    (a : SystemAction N) (hready : s.Ready rounds a) :
    s.Guarded rounds a ↔ a.NoNegative := by
  cases a with
  | enter myid id cost =>
      constructor
      · intro hguarded
        by_contra hneg
        exact System.not_guarded_of_neg hN (not_le.mp hneg) hguarded
      · intro hnonneg
        by_cases hrefused : Refused myid id
        · exact System.guarded_of_refused hready hrefused
        · exact System.guarded_of_accepted hN hready hrefused hnonneg
  | send myid => exact iff_of_true (System.guarded_send hready) trivial
  | recv myid sender => exact iff_of_true (System.guarded_recv hready) trivial
  | store myid =>
      exact iff_of_true ((System.traced_of_run hN h).guarded_store hN hready) trivial

/-- Router 1 has received what router 0 announced. -/
theorem guarded_iff_received :
    ∃ (es : List (SystemAction 2)) (s : System 2),
      Run (System.step 3) (fun _ _ => True) (.boot fun _ _ _ => 1) es s ∧
      s.Guarded 3 (.store 1) ∧ ¬ s.Guarded 3 (.enter 1 (-1) 7) := by
  let es : List (SystemAction 2) := [.enter 0 1 5, .send 0, .send 0, .recv 1 0]
  obtain ⟨s, hrun, hobs⟩ : ∃ s, Run (System.step 3) (fun _ _ => True)
      (.boot fun _ _ _ => 1) es s ∧
        ((s.routers 1).buf.isSome, (s.routers 1).main) = (true, .prompt 0) :=
    Run.exists_of_exec (by simp) (by decide +kernel)
  obtain ⟨hbuf, hmain⟩ := Prod.mk.inj hobs
  have hiff := guarded_iff 3 (by decide) _ es s hrun
  refine ⟨es, s, hrun, (hiff (.store 1) ?_).mpr trivial, fun hguarded => ?_⟩
  · exact Option.isSome_iff_ne_none.mp hbuf
  · have hnonneg : 0 ≤ (-1 : Int32).toInt :=
      (hiff (.enter 1 (-1) 7) ⟨0, by decide, hmain⟩).mp hguarded
    exact absurd hnonneg (by decide)

end NetLabs.LinkState
