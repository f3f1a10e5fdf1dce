import Mathlib.Data.Fintype.Basic
import Mathlib.Data.Vector.Basic
import NetLabs.LinkState.Costs

/-! # Routers that edit and announce costs

`main` of `lsTemplate (1).c` reads changes from the keyboard, stores them, and sends each to
the other routers; the thread `receive_info` stores what arrives. A step is a critical
section, a `sendto`, a `recvfrom`, or an answer at the keyboard. -/

namespace NetLabs.LinkState

variable {N : ℕ}

/-! ## Words on the network -/

/-- An `int` in network byte order, as it lies in memory. -/
abbrev Word := Vector UInt8 4

def htonl (n : Int32) : Word :=
  let value := n.toUInt32.toNat
  #v[.ofNat (value / 2 ^ 24), .ofNat (value / 2 ^ 16), .ofNat (value / 2 ^ 8), .ofNat value]

def ntohl (w : Word) : Int32 :=
  (UInt32.ofNat (2 ^ 24 * w[0].toNat + 2 ^ 16 * w[1].toNat + 2 ^ 8 * w[2].toNat +
    w[3].toNat)).toInt32

theorem ntohl_htonl (n : Int32) : ntohl (htonl n) = n := by
  have hlt := n.toUInt32.toNat_lt
  have hvalue : ∀ value : ℕ, value < 2 ^ 32 →
      2 ^ 24 * (value / 2 ^ 24 % 2 ^ 8) + 2 ^ 16 * (value / 2 ^ 16 % 2 ^ 8) +
        2 ^ 8 * (value / 2 ^ 8 % 2 ^ 8) + value % 2 ^ 8 = value := by
    intro value hvalue
    omega
  have hbytes := hvalue n.toUInt32.toNat hlt
  simp only [ntohl, htonl, Vector.getElem_mk, List.getElem_toArray, List.getElem_cons_zero,
    List.getElem_cons_succ, UInt8.toNat_ofNat']
  rw [hbytes, UInt32.ofNat_toNat, Int32.toInt32_toUInt32]

/-- `int packet[3]`: the two ends of a link and its cost. -/
abbrev Packet := Vector Word 3

def packetOf (n0 n1 n2 : Int32) : Packet :=
  #v[htonl n0, htonl n1, htonl n2]

/-- A subscript of `costs`, where it lies inside the table. -/
def index (n : Int32) : Option (Fin N) :=
  if h : 0 ≤ n.toInt ∧ n.toNatClampNeg < N then some ⟨n.toNatClampNeg, h.2⟩ else none

theorem index_eq_some {n : Int32} {i : Fin N} : index n = some i ↔ n.toInt = i := by
  unfold index
  have hclamp := n.toNat_toInt
  have hlt := i.isLt
  split
  · rw [Option.some.injEq, Fin.ext_iff]
    dsimp only
    omega
  · simp only [reduceCtorEq, false_iff]
    omega

theorem index_ofNat (hN : N ≤ 2 ^ 31) (i : Fin N) : index (.ofNat i) = some i :=
  index_eq_some.mpr (Int32.toInt_ofNat_of_lt (by have := i.isLt; omega))

/-- The link and the cost that `receive_info` takes from a packet. -/
def Packet.decode (buf : Packet) : Option (Fin N × Fin N × Int32) := do
  let n0 ← index (ntohl buf[0])
  let n1 ← index (ntohl buf[1])
  return (n0, n1, ntohl buf[2])

/-- The entries that `receive_info` stores to. -/
def Packet.subscripts (buf : Packet) : List (Int32 × Int32) :=
  let n0 := ntohl buf[0]
  let n1 := ntohl buf[1]
  [(n0, n1), (n1, n0)]

theorem decode_packetOf {n0 n1 n2 : Int32} {i j : Fin N} (hi : index n0 = some i)
    (hj : index n1 = some j) : (packetOf n0 n1 n2).decode = some (i, j, n2) := by
  simp [packetOf, Packet.decode, ntohl_htonl, hi, hj]

/-! ## One router -/

/-- Where `main` stands: at turn `i` of its loop, or in that turn at index `j` of the loop
that sends the packet, or past the loop. -/
inductive MainStage where
  | prompt (i : ℕ)
  | sending (i : ℕ) (packet : Packet) (j : ℕ)
  | past
  deriving DecidableEq, Repr

/-- The state of a router. `buf` holds a packet that `receive_info` has received and not yet
stored, with its sender, which the program does not look at. -/
structure Router (N : ℕ) where
  costs : Costs N
  main : MainStage
  buf : Option (Fin N × Packet)

/-- The critical section of `main`, and the packet made up afterwards. The node entered as
`id` is `peer`. -/
def Router.edit (router : Router N) (i : ℕ) (myid : Fin N) (id : Int32) (peer : Fin N)
    (cost : Int32) : Router N :=
  { router with
    costs := router.costs.setLink myid peer cost
    main := .sending i (packetOf (.ofNat myid) id cost) 0 }

/-- The critical section of `receive_info`. Without valid subscripts it is undefined. -/
def Router.store (router : Router N) : Option (Router N) :=
  match router.buf with
  | some (_, buf) =>
      buf.decode.map fun (n0, n1, n2) =>
        { router with costs := router.costs.setLink n0 n1 n2, buf := none }
  | none => none

/-- Has the packet of `sender` been received but not stored? -/
def Router.received (router : Router N) (sender : Fin N) : List Packet :=
  match router.buf with
  | some (s, buf) => if s = sender then [buf] else []
  | none => []

/-- Is a packet still to be sent from the router `myid` to the router `peer`? -/
def Router.unsent (router : Router N) (myid peer : Fin N) : List Packet :=
  match router.main with
  | .sending _ packet j => if peer ≠ myid ∧ j ≤ peer then [packet] else []
  | _ => []

/-! ## All routers -/

/-- An edit, and whether at that moment another router's update of the same link was still
on its way to somebody. -/
structure Edit (N : ℕ) where
  editor : Fin N
  id : Fin N
  cost : Int32
  contested : Bool
  deriving DecidableEq, Repr

/-- The routers and the packets between them. `edits` records the edits made; the program
does not use it. -/
structure System (N : ℕ) where
  routers : Fin N → Router N
  chan : Fin N → Fin N → List Packet
  edits : List (Edit N)

/-- All updates from `sender` that `receiver` has not stored yet, oldest first. -/
def System.stream (s : System N) (sender receiver : Fin N) : List Packet :=
  (s.routers receiver).received sender ++ s.chan sender receiver ++
    (s.routers sender).unsent sender receiver

/-- Does `receive_info` store this packet's cost at the link between `a` and `b`? -/
def Packet.about (a b : Fin N) (packet : Packet) : Bool :=
  packet.decode.any fun (n0, n1, _) => OnLink a b n0 n1

def System.Contested (s : System N) (myid peer : Fin N) : Prop :=
  ∃ sender, sender ≠ myid ∧
    ∃ receiver, ∃ packet ∈ s.stream sender receiver, packet.about myid peer = true

-- Decided by going through the streams, not through all packets there could be.
instance (s : System N) (myid peer : Fin N) : Decidable (s.Contested myid peer) :=
  decidable_of_iff
    (∃ sender, sender ≠ myid ∧
      ∃ receiver, (s.stream sender receiver).any (Packet.about myid peer) = true)
    (by simp only [System.Contested, List.any_eq_true])

/-- The routers, each with the table that it has read. -/
def System.boot (tables : Fin N → Costs N) : System N :=
  { routers := fun r => { costs := tables r, main := .prompt 0, buf := none }
    chan := fun _ _ => []
    edits := [] }

/-- The routers that have all read the same table. -/
def System.start (costs : Costs N) : System N :=
  .boot fun _ => costs

/-- `enter` is an answer at the keyboard, `send` one turn of the loop over the peers, `recv`
a `recvfrom` that gets a packet of `sender`, and `store` the critical section after it. -/
inductive SystemAction (N : ℕ) where
  | enter (myid : Fin N) (id cost : Int32)
  | send (myid : Fin N)
  | recv (myid sender : Fin N)
  | store (myid : Fin N)

def System.set (s : System N) (myid : Fin N) (router : Router N) : System N :=
  { s with routers := Function.update s.routers myid router }

def System.setChan (s : System N) (sender receiver : Fin N) (packets : List Packet) :
    System N :=
  { s with
    chan := Function.update s.chan sender
      (Function.update (s.chan sender) receiver packets) }

/-- One step, where `main` asks `rounds` times. The check of an `id` that was entered lets
negative numbers through; what follows is then undefined. -/
def System.step (rounds : ℕ) (s : System N) : SystemAction N → Option (System N)
  | .enter myid id cost =>
      match (s.routers myid).main with
      | .prompt i =>
          if i < rounds then
            if N ≤ id.toInt ∨ id.toInt = myid then
              some (s.set myid { s.routers myid with main := .past })
            else
              (index id).map fun peer =>
                { s.set myid ((s.routers myid).edit i myid id peer cost) with
                  edits := s.edits ++
                    [⟨myid, peer, cost, decide (s.Contested myid peer)⟩] }
          else none
      | _ => none
  | .send myid =>
      match (s.routers myid).main with
      | .sending i packet j =>
          if h : j < N then
            let after := s.set myid { s.routers myid with main := .sending i packet (j + 1) }
            if ⟨j, h⟩ ≠ myid then
              some (after.setChan myid ⟨j, h⟩ (s.chan myid ⟨j, h⟩ ++ [packet]))
            else some after
          else some (s.set myid { s.routers myid with main := .prompt (i + 1) })
      | _ => none
  | .recv myid sender =>
      match (s.routers myid).buf, s.chan sender myid with
      | none, packet :: rest =>
          some ((s.set myid { s.routers myid with buf := some (sender, packet) }).setChan
            sender myid rest)
      | _, _ => none
  | .store myid => (s.routers myid).store.map (s.set myid)

/-! ## Steps and streams -/

section Streams

variable {rounds : ℕ} {s t : System N} {myid sender : Fin N}

@[simp] theorem System.set_routers_self (router : Router N) :
    (s.set myid router).routers myid = router :=
  Function.update_self ..

theorem System.set_routers_of_ne {p : Fin N} (hp : p ≠ myid) (router : Router N) :
    (s.set myid router).routers p = s.routers p :=
  Function.update_of_ne hp ..

@[simp] theorem System.setChan_self (packets : List Packet) :
    (s.setChan sender myid packets).chan sender myid = packets := by
  simp [System.setChan]

theorem System.setChan_of_ne {p q : Fin N} (hne : ¬ (p = sender ∧ q = myid))
    (packets : List Packet) : (s.setChan sender myid packets).chan p q = s.chan p q := by
  by_cases hp : p = sender
  · subst hp
    have hq : q ≠ myid := fun heq => hne ⟨rfl, heq⟩
    simp [System.setChan, hq]
  · simp [System.setChan, hp]

/-- Only a change of `buf` changes what has been received. -/
theorem System.received_set {router : Router N} (hbuf : router.buf = (s.routers myid).buf)
    (p q : Fin N) :
    ((s.set myid router).routers q).received p = (s.routers q).received p := by
  by_cases hq : q = myid
  · subst hq
    simp [Router.received, hbuf]
  · rw [System.set_routers_of_ne hq]

theorem System.costs_set {router : Router N} (hcosts : router.costs = (s.routers myid).costs)
    (p : Fin N) : ((s.set myid router).routers p).costs = (s.routers p).costs := by
  by_cases hp : p = myid
  · subst hp
    simp [hcosts]
  · rw [System.set_routers_of_ne hp]

/-- Only a change of where `main` stands changes what is to be sent. -/
theorem System.unsent_set {router : Router N} (hmain : router.main = (s.routers myid).main)
    (p q : Fin N) : ((s.set myid router).routers p).unsent p q = (s.routers p).unsent p q := by
  by_cases hp : p = myid
  · subst hp
    simp [Router.unsent, hmain]
  · rw [System.set_routers_of_ne hp]

/-- A step of `main` that leaves the packets to be sent alone leaves all streams alone. -/
theorem System.stream_set {router : Router N} (hbuf : router.buf = (s.routers myid).buf)
    (hunsent : ∀ q, router.unsent myid q = (s.routers myid).unsent myid q) (p q : Fin N) :
    (s.set myid router).stream p q = s.stream p q := by
  unfold System.stream
  rw [System.received_set hbuf]
  by_cases hp : p = myid
  · subst hp
    rw [System.set_routers_self, hunsent]
    rfl
  · rw [System.set_routers_of_ne hp]
    rfl

/-- An edit appends its packet to every stream of the editor. -/
theorem System.stream_edit {i : ℕ} (h : (s.routers myid).main = .prompt i)
    (id : Int32) (peer : Fin N) (cost : Int32) (p q : Fin N) :
    (s.set myid ((s.routers myid).edit i myid id peer cost)).stream p q =
      if p = myid ∧ q ≠ myid then s.stream p q ++ [packetOf (.ofNat myid) id cost]
      else s.stream p q := by
  unfold System.stream
  rw [System.received_set (by rfl)]
  by_cases hp : p = myid
  · subst hp
    have hbefore : (s.routers p).unsent p q = [] := by simp [Router.unsent, h]
    rw [hbefore, System.set_routers_self]
    by_cases hq : q = p <;> simp [Router.edit, Router.unsent, System.set, hq]
  · rw [System.set_routers_of_ne hp]
    simp [System.set, hp]

theorem Router.unsent_succ {router : Router N} {i j : ℕ} {packet : Packet}
    (hmain : router.main = .sending i packet j) {q : Fin N} (hq : j ≠ q ∨ q = myid) :
    ({ router with main := .sending i packet (j + 1) } : Router N).unsent myid q =
      router.unsent myid q := by
  have hiff : (q ≠ myid ∧ j + 1 ≤ q) ↔ (q ≠ myid ∧ j ≤ (q : ℕ)) := by
    rcases hq with hq | rfl
    · exact and_congr_right fun _ => ⟨Nat.le_of_succ_le, fun h => Nat.lt_of_le_of_ne h hq⟩
    · simp
  simp only [Router.unsent, hmain, hiff]

/-- A packet that is sent moves along its stream. -/
theorem System.stream_sendto {router : Router N} {peer : Fin N} {packet : Packet}
    (hbuf : router.buf = (s.routers myid).buf)
    (hbefore : (s.routers myid).unsent myid peer = [packet])
    (hafter : router.unsent myid peer = [])
    (hunsent : ∀ q, q ≠ peer → router.unsent myid q = (s.routers myid).unsent myid q)
    (p q : Fin N) :
    ((s.set myid router).setChan myid peer (s.chan myid peer ++ [packet])).stream p q =
      s.stream p q := by
  change ((s.set myid router).routers q).received p ++ _ ++
    ((s.set myid router).routers p).unsent p q = _
  rw [System.received_set hbuf]
  by_cases hp : p = myid
  · subst hp
    rw [System.set_routers_self]
    by_cases hq : q = peer
    · subst hq
      rw [System.setChan_self, hafter]
      simp [System.stream, hbefore]
    · rw [System.setChan_of_ne fun heq => hq heq.2, hunsent q hq]
      rfl
  · rw [System.set_routers_of_ne hp, System.setChan_of_ne fun heq => hp heq.1]
    rfl

theorem System.stream_send (h : s.step rounds (.send myid) = some t) (p q : Fin N) :
    t.stream p q = s.stream p q := by
  simp only [System.step] at h
  split at h
  case h_1 i packet j hmain =>
      split at h
      case isTrue hj =>
          split at h <;> obtain rfl := Option.some.inj h
          case isTrue hpeer =>
              refine System.stream_sendto ?_ ?_ ?_ (fun q hq => ?_) p q
              · rfl
              · simp [Router.unsent, hmain, hpeer]
              · simp [Router.unsent]
              · exact Router.unsent_succ hmain (.inl fun heq => hq (Fin.ext heq.symm))
          case isFalse hpeer =>
              obtain rfl := not_not.mp hpeer
              refine System.stream_set (by rfl) (fun q => Router.unsent_succ hmain ?_) p q
              by_cases hq : q = ⟨j, hj⟩
              · exact .inr hq
              · exact .inl fun heq => hq (Fin.ext heq.symm)
      case isFalse hj =>
          obtain rfl := Option.some.inj h
          refine System.stream_set (by rfl) (fun q => ?_) p q
          have hq : ¬ (q ≠ myid ∧ j ≤ (q : ℕ)) := by omega
          simp [Router.unsent, hmain, hq]
  case h_2 => simp at h

theorem System.frame_of_send (h : s.step rounds (.send myid) = some t) :
    (∀ p, (t.routers p).costs = (s.routers p).costs) ∧ t.edits = s.edits := by
  simp only [System.step] at h
  split at h
  case h_1 =>
      split at h
      · split at h <;> obtain rfl := Option.some.inj h <;>
          exact ⟨fun p => System.costs_set (by rfl) p, rfl⟩
      · obtain rfl := Option.some.inj h
        exact ⟨fun p => System.costs_set (by rfl) p, rfl⟩
  case h_2 => simp at h

/-- Receiving moves a packet along its stream. -/
theorem System.stream_recv (h : s.step rounds (.recv myid sender) = some t) (p q : Fin N) :
    t.stream p q = s.stream p q := by
  simp only [System.step] at h
  split at h
  case h_1 packet rest hbuf hchan =>
      obtain rfl := Option.some.inj h
      unfold System.stream
      change ((s.set myid _).routers q).received p ++ _ ++
        ((s.set myid _).routers p).unsent p q = _
      rw [System.unsent_set (by rfl)]
      by_cases hq : q = myid
      · subst hq
        rw [System.set_routers_self]
        by_cases hp : p = sender
        · subst hp
          rw [System.setChan_self, hchan]
          simp [Router.received, hbuf]
        · rw [System.setChan_of_ne fun heq => hp heq.1]
          simp [Router.received, hbuf, Ne.symm hp, System.set]
      · rw [System.set_routers_of_ne hq, System.setChan_of_ne fun heq => hq heq.2]
        rfl
  case h_2 => simp at h

theorem System.frame_of_recv (h : s.step rounds (.recv myid sender) = some t) :
    (∀ p, (t.routers p).costs = (s.routers p).costs) ∧ t.edits = s.edits := by
  simp only [System.step] at h
  split at h
  case h_1 =>
      obtain rfl := Option.some.inj h
      exact ⟨fun p => System.costs_set (by rfl) p, rfl⟩
  case h_2 => simp at h

/-- Storing takes the oldest packet off a stream and does what it says. -/
theorem System.store_cases (h : s.step rounds (.store myid) = some t) :
    ∃ sender packet n0 n1 n2, packet.decode = some (n0, n1, n2) ∧
      s.stream sender myid = packet :: t.stream sender myid ∧
      (∀ p q, ¬ (p = sender ∧ q = myid) → t.stream p q = s.stream p q) ∧
      (t.routers myid).costs = (s.routers myid).costs.setLink n0 n1 n2 ∧
      (∀ p, p ≠ myid → (t.routers p).costs = (s.routers p).costs) ∧ t.edits = s.edits := by
  obtain ⟨router, hstore, rfl⟩ := Option.map_eq_some_iff.mp h
  unfold Router.store at hstore
  split at hstore
  case h_1 sender packet hbuf =>
      obtain ⟨⟨n0, n1, n2⟩, hdecode, rfl⟩ := Option.map_eq_some_iff.mp hstore
      refine ⟨sender, packet, n0, n1, n2, hdecode, ?_, ?_, ?_, ?_, rfl⟩
      · unfold System.stream
        rw [System.unsent_set (by rfl), System.set_routers_self]
        simp [Router.received, hbuf, System.set]
      · intro p q hne
        unfold System.stream
        rw [System.unsent_set (by rfl)]
        by_cases hq : q = myid
        · subst hq
          have hp : sender ≠ p := fun heq => hne ⟨heq.symm, rfl⟩
          rw [System.set_routers_self]
          simp [Router.received, hbuf, hp, System.set]
        · rw [System.set_routers_of_ne hq]
          rfl
      · rw [System.set_routers_self]
      · intro p hp
        rw [System.set_routers_of_ne hp]
  case h_2 => simp at hstore

/-- An answer at the keyboard ends the loop of `main` or is an edit of a link. -/
theorem System.enter_cases {id cost : Int32} (h : s.step rounds (.enter myid id cost) = some t) :
    ((∀ p, (t.routers p).costs = (s.routers p).costs) ∧
      (∀ p q, t.stream p q = s.stream p q) ∧ t.edits = s.edits) ∨
    ∃ i peer, (s.routers myid).main = .prompt i ∧ index id = some peer ∧ peer ≠ myid ∧
      t = { s.set myid ((s.routers myid).edit i myid id peer cost) with
        edits := s.edits ++ [⟨myid, peer, cost, decide (s.Contested myid peer)⟩] } := by
  simp only [System.step] at h
  split at h
  case h_1 i hmain =>
      split at h
      case isTrue =>
          split at h
          case isTrue =>
              obtain rfl := Option.some.inj h
              refine .inl ⟨fun p => System.costs_set (by rfl) p, ?_, rfl⟩
              exact System.stream_set (by rfl) fun q => by simp [Router.unsent, hmain]
          case isFalse hvalid =>
              obtain ⟨peer, hpeer, rfl⟩ := Option.map_eq_some_iff.mp h
              refine .inr ⟨i, peer, hmain, hpeer, ?_, rfl⟩
              rintro rfl
              exact hvalid (.inr (index_eq_some.mp hpeer))
      case isFalse => simp at h
  case h_2 => simp at h

end Streams

end NetLabs.LinkState
