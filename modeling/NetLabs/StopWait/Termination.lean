import Mathlib.Algebra.BigOperators.Intervals
import Mathlib.Algebra.BigOperators.Ring.Finset
import Mathlib.Algebra.Order.BigOperators.Group.Finset
import Mathlib.Tactic.Linarith
import NetLabs.StopWait.Network

/-! # The client always ends

Only a timeout moves `retries`, so the loop could go on as long as ACKs with the wrong bit
keep coming. They come from packets with the wrong bit, one each at most, and these were
sent by earlier calls: a call leaves no more messages behind than it had timeouts. -/

namespace NetLabs.StopWait

open Channel Machine

/-- Both channels lose, delay and reorder, but neither duplicate nor damage. -/
def UnorderedNet (_ : Net) : Action → Prop
  | .toServer f => f.Unordered
  | .toClient f => f.Unordered
  | _ => True

def IsBit (x : Int32) : Prop :=
  x = 0 ∨ x = 1

theorem isBit_bit (k : ℕ) : IsBit (bit k) := by
  unfold IsBit bit
  split <;> simp

/-- The timeouts of the running call so far, counting the `select` it waits in as one. -/
def Client.credit (c : Client) : ℕ :=
  match c.position with
  | .loop => c.retries
  | .select => c.retries + 1
  | .done => 3

/-- Does the message carry another bit than the client's packet? -/
def Client.isStale (c : Client) (m : Message Packet) : Bool :=
  m.body.header.seqAck != c.packet.header.seqAck

/-- The messages in flight, both ways. -/
def Net.inFlight (s : Net) : List (Message Packet) :=
  s.toServer ++ s.toClient

/-- The invariant: how much is in flight, and how often the running call has reached
`select`, are both bounded by what the calls before may have left behind. -/
structure Net.Bounded (chunks : List Chunk) (s : Net) : Prop where
  client : s.client.Consistent chunks
  servAddr : s.client.servAddr = s.serverAddr
  seqnum : IsBit s.server.seqnum
  intact : ∀ m ∈ s.inFlight, m.body.Undamaged ∧ IsBit m.body.header.seqAck
  credit : s.client.credit ≤ 3
  flight : s.inFlight.length ≤ 3 * s.client.index + s.client.credit
  current : s.client.selects.count s.client.index + s.inFlight.countP s.client.isStale ≤
    3 * s.client.index + s.client.credit
  earlier : ∀ k, k ≠ s.client.index → s.client.selects.count k ≤ 3 + 3 * k
  reached : ∀ k ∈ s.client.selects, k ≤ s.client.index

theorem Net.startWith_bounded {server : Server} (hserver : IsBit server.seqnum)
    (serverAddr : SockAddr) (chunks : List Chunk) (buffer finalData : Vector UInt8 10) :
    (Net.startWith server serverAddr chunks buffer finalData).Bounded chunks where
  client := Client.start_consistent serverAddr chunks buffer finalData
  servAddr := by simp [Net.startWith, Client.start]
  seqnum := hserver
  intact := by simp [Net.startWith, Net.inFlight]
  credit := by simp [Net.startWith, Client.start, Client.credit]
  flight := by simp [Net.startWith, Net.inFlight]
  current := by simp [Net.startWith, Client.start, Net.inFlight]
  earlier := by simp [Net.startWith, Client.start]
  reached := by simp [Net.startWith, Client.start]

/-! ## Steps within a call -/

/-- A step that reaches no `select` and stays at the packet pays for what it adds in flight
with credit. -/
theorem Net.Bounded.stay {chunks : List Chunk} {s s' : Net} (h : s.Bounded chunks)
    (hclient : s'.client.Consistent chunks) (haddr : s'.client.servAddr = s'.serverAddr)
    (hseqnum : IsBit s'.server.seqnum)
    (hintact : ∀ m ∈ s'.inFlight, m.body.Undamaged ∧ IsBit m.body.header.seqAck)
    (hindex : s'.client.index = s.client.index)
    (hselects : s'.client.selects = s.client.selects) (hcredit : s'.client.credit ≤ 3)
    (hflight : s'.inFlight.length + s.client.credit ≤ s.inFlight.length + s'.client.credit)
    (hstale : s'.inFlight.countP s'.client.isStale + s.client.credit ≤
      s.inFlight.countP s.client.isStale + s'.client.credit) : s'.Bounded chunks where
  client := hclient
  servAddr := haddr
  seqnum := hseqnum
  intact := hintact
  credit := hcredit
  flight := by
    have := h.flight
    rw [hindex]
    omega
  current := by
    have := h.current
    rw [hindex, hselects]
    omega
  earlier := by
    rw [hindex, hselects]
    exact h.earlier
  reached := by
    rw [hindex, hselects]
    exact h.reached

/-- The next call starts without credit: all that is in flight may be stale for it. -/
theorem Net.Bounded.advance {chunks : List Chunk} {s s' : Net} (h : s.Bounded chunks)
    (hclient : s'.client.Consistent chunks) (haddr : s'.client.servAddr = s'.serverAddr)
    (hseqnum : IsBit s'.server.seqnum)
    (hintact : ∀ m ∈ s'.inFlight, m.body.Undamaged ∧ IsBit m.body.header.seqAck)
    (hindex : s'.client.index = s.client.index + 1)
    (hselects : s'.client.selects = s.client.selects) (hcredit : s'.client.credit = 0)
    (hflight : s'.inFlight.length ≤ 3 * s.client.index + 3) : s'.Bounded chunks where
  client := hclient
  servAddr := haddr
  seqnum := hseqnum
  intact := hintact
  credit := by omega
  flight := by omega
  current := by
    have hnew : s.client.selects.count (s.client.index + 1) = 0 := by
      apply List.count_eq_zero_of_not_mem
      intro hmem
      have := h.reached _ hmem
      omega
    have hle := List.countP_le_length (p := s'.client.isStale) (l := s'.inFlight)
    rw [hindex, hselects, hnew]
    omega
  earlier := by
    intro k hk
    rw [hselects]
    by_cases heq : k = s.client.index
    · have hcurrent := h.current
      have hle := h.credit
      subst heq
      omega
    · exact h.earlier k heq
  reached := by
    intro k hk
    rw [hselects] at hk
    have := h.reached k hk
    omega

/-- What is in flight after the client has sent. -/
theorem Net.send_inFlight (s : Net) {c : Client} (haddr : c.servAddr = s.serverAddr)
    (packet : Option Packet) :
    (s.send c packet).inFlight.Perm
      ((packet.toList.map fun p => ⟨c.index, p⟩) ++ s.inFlight) := by
  cases packet with
  | none => exact List.Perm.refl _
  | some p =>
      simp only [Net.send, haddr, if_true, Net.inFlight, Option.toList_some, List.map_cons,
        List.map_nil, List.append_assoc, List.singleton_append]
      exact List.perm_middle

theorem Net.Bounded.transmit {chunks : List Chunk} {s s' : Net} (h : s.Bounded chunks)
    {drop : Bool} (hstep : s.step (.transmit drop) = some s') : s'.Bounded chunks := by
  obtain ⟨⟨c, packet⟩, htransmit, rfl⟩ := Option.map_eq_some_iff.mp hstep
  obtain ⟨hloop, hretries, hout⟩ := Client.transmit_eq_some htransmit
  have hbefore : s.client.credit = s.client.retries := by simp [Client.credit, hloop]
  have hcarries := h.client.carries.seal
  -- the packet sent, if any, carries the bit of the call and is not stale
  obtain ⟨hconsistent, haddr, hindex, hselects, hposition, hkept, hpacket, hone⟩ :
      c.Consistent chunks ∧ c.servAddr = s.serverAddr ∧ c.index = s.client.index ∧
        c.selects = s.client.selects ++ [s.client.index] ∧
        c.credit = s.client.retries + 1 ∧
        c.packet.header.seqAck = s.client.packet.header.seqAck ∧
        (∀ p ∈ packet.toList, p = s.client.packet.seal) ∧ packet.toList.length ≤ 1 := by
    rcases hout with ⟨rfl, rfl⟩ | ⟨rfl, rfl⟩
    · exact ⟨⟨h.client.carries, h.client.seq, h.client.todo, h.client.final⟩,
        h.servAddr, rfl, rfl, rfl, rfl, by simp, by simp⟩
    · exact ⟨⟨hcarries, h.client.seq, h.client.todo, h.client.final⟩,
        h.servAddr, rfl, rfl, rfl, rfl, by simp, by simp⟩
  have hperm := Net.send_inFlight s haddr packet
  have hclient := s.send_client c packet
  have hisStale : c.isStale = s.client.isStale := by
    funext m
    simp [Client.isStale, hkept]
  have hfresh : (packet.toList.map fun p => (⟨c.index, p⟩ : Message Packet)).countP
      s.client.isStale = 0 := by
    rw [List.countP_eq_zero]
    intro m hm
    obtain ⟨p, hp, rfl⟩ := List.mem_map.mp hm
    simp [Client.isStale, hpacket p hp]
  have hflight := h.flight
  have hcurrent := h.current
  refine
    { client := by rw [hclient]; exact hconsistent
      servAddr := by rw [hclient, s.send_serverAddr]; exact haddr
      seqnum := by rw [s.send_server]; exact h.seqnum
      intact := ?_, credit := ?_, flight := ?_, current := ?_, earlier := ?_, reached := ?_ }
  · intro m hm
    rcases List.mem_append.mp (hperm.mem_iff.mp hm) with hm | hm
    · obtain ⟨p, hp, rfl⟩ := List.mem_map.mp hm
      rw [hpacket p hp]
      exact ⟨hcarries.undamaged, hcarries.seqAck ▸ isBit_bit _⟩
    · exact h.intact m hm
  · rw [hclient, hposition]
    omega
  · rw [hperm.length_eq, List.length_append, List.length_map, hclient, hposition, hindex]
    omega
  · rw [hperm.countP_eq, List.countP_append, hclient, hposition, hisStale, hfresh, hindex,
      hselects, List.count_append, List.count_singleton_self]
    omega
  · intro k hk
    rw [hclient, hindex] at hk
    have hzero : [s.client.index].count k = 0 := by simp [hk.symm]
    rw [hclient, hselects, List.count_append, hzero]
    exact h.earlier k hk
  · rw [hclient, hselects, hindex]
    exact forall_mem_snoc h.reached le_rfl

theorem Net.Bounded.timeout {chunks : List Chunk} {s s' : Net} (h : s.Bounded chunks)
    (hstep : s.step .timeout = some s') : s'.Bounded chunks := by
  obtain ⟨c, hc, rfl⟩ := Option.map_eq_some_iff.mp hstep
  obtain ⟨hselect, rfl⟩ := Client.timeout_eq_some hc
  have hcredit : s.client.credit = s.client.retries + 1 := by simp [Client.credit, hselect]
  have hle := h.credit
  refine h.stay ⟨h.client.carries, h.client.seq, h.client.todo, h.client.final⟩ h.servAddr
    h.seqnum h.intact rfl rfl ?_ ?_ ?_
  · exact hcredit ▸ hle
  · exact (congrArg (s.inFlight.length + ·) hcredit).le
  · exact (congrArg (s.inFlight.countP s.client.isStale + ·) hcredit).le

/-- The call ends, well or not. -/
theorem Net.Bounded.return {chunks : List Chunk} {s s' : Net} (h : s.Bounded chunks)
    (hserver : s'.server = s.server) (hserverAddr : s'.serverAddr = s.serverAddr)
    {c : Client} (hc : c.Consistent chunks) (haddr : c.servAddr = s.serverAddr)
    (hindex : c.index = s.client.index) (hselects : c.selects = s.client.selects)
    (hpacket : c.packet = s.client.packet) (hclient : s'.client = c.return)
    (hsub : s'.inFlight.Sublist s.inFlight) : s'.Bounded chunks := by
  have hconsistent : s'.client.Consistent chunks := hclient ▸ Client.return_consistent hc
  have haddr' : s'.client.servAddr = s'.serverAddr := by simp [hclient, haddr, hserverAddr]
  have hselects' : s'.client.selects = s.client.selects := by simp [hclient, hselects]
  have hlength := hsub.length_le
  have hcredit := h.credit
  have hflight := h.flight
  cases hfinal : c.final with
  | true =>
      rw [Client.return_final hfinal] at hclient
      have hthree : s'.client.credit = 3 := by rw [hclient]; rfl
      have hisStale : s'.client.isStale = s.client.isStale := by
        funext m
        simp [Client.isStale, hclient, hpacket]
      have hstale := hsub.countP_le (p := s.client.isStale)
      refine h.stay hconsistent haddr' (hserver ▸ h.seqnum)
        (fun m hm => h.intact m (hsub.subset hm)) (by rw [hclient]; exact hindex) hselects'
        hthree.le (by omega) ?_
      rw [hisStale]
      omega
  | false =>
      obtain ⟨hnext, hretries, hloop⟩ := Client.return_chunk hfinal
      refine h.advance hconsistent haddr' (hserver ▸ h.seqnum)
        (fun m hm => h.intact m (hsub.subset hm)) (by rw [hclient, hnext, hindex]) hselects'
        ?_ (by omega)
      simp [hclient, Client.credit, hloop, hretries]

theorem Net.Bounded.giveUp {chunks : List Chunk} {s s' : Net} (h : s.Bounded chunks)
    (hstep : s.step .giveUp = some s') : s'.Bounded chunks := by
  obtain ⟨c, hc, rfl⟩ := Option.map_eq_some_iff.mp hstep
  obtain ⟨_, _, rfl⟩ := Client.giveUp_eq_some hc
  exact h.return rfl rfl h.client h.servAddr rfl rfl rfl rfl (List.Sublist.refl _)

theorem Net.Bounded.clientReceive {chunks : List Chunk} {s s' : Net} (h : s.Bounded chunks)
    {beyond : ℕ → UInt8} (hstep : s.step (.clientReceive beyond) = some s') :
    s'.Bounded chunks := by
  obtain ⟨hselect, m, rest, hqueue, rfl⟩ := Net.step_clientReceive hstep
  have hsub : (s.toServer ++ rest).Sublist s.inFlight := by
    rw [Net.inFlight, hqueue]
    exact List.Sublist.append_left (List.sublist_cons_self m rest) s.toServer
  have hm : m ∈ s.inFlight := by simp [Net.inFlight, hqueue]
  have hintact := h.intact m hm
  by_cases hgood : checkAck beyond s.client.packet m.body = .goodAck
  · refine h.return rfl rfl ?_ ?_ ?_ ?_ ?_ (Client.receive_good hgood) hsub
    · exact ⟨h.client.carries, h.client.seq, h.client.todo, h.client.final⟩
    all_goals rfl
  · -- an intact ACK is refused for its bit only, so it was stale
    have hstale : s.client.isStale m = true := by
      simp only [Client.isStale, bne_iff_ne, ne_eq]
      intro hseq
      exact hgood (checkAck_eq_goodAck.mpr ⟨hintact.1 beyond, hseq⟩)
    have hcredit : s.client.credit = s.client.retries + 1 := by
      simp [Client.credit, hselect]
    have hle := h.credit
    rw [Client.receive_bad hgood]
    refine h.stay ⟨h.client.carries, h.client.seq, h.client.todo, h.client.final⟩ rfl
      h.seqnum (fun x hx => h.intact x (hsub.subset hx)) rfl rfl ?_ ?_ ?_
    · simp only [Client.credit]
      omega
    · rw [hcredit]
      simp only [Net.inFlight, hqueue, Client.credit, List.length_append, List.length_cons]
      omega
    · rw [hcredit]
      change (s.toServer ++ rest).countP s.client.isStale + _ ≤ _ + s.client.retries
      simp only [Net.inFlight, hqueue, List.countP_append, List.countP_cons_of_pos hstale]
      omega

/-! ## Steps of the server and the network -/

/-- The server answers an intact packet with the packet's own bit. -/
theorem Server.receive_echo {m : Message Packet} {s : Server} (hundamaged : m.body.Undamaged)
    (hbit : IsBit m.body.header.seqAck) (hseqnum : IsBit s.seqnum)
    (callee caller : ℕ → UInt8) (data : Vector UInt8 10) (drop : Bool) :
    IsBit (s.receive callee caller data drop m).1.seqnum ∧
      (s.receive callee caller data drop m).2 =
        serverSend drop m.body.header.seqAck data := by
  by_cases hseq : m.body.header.seqAck = s.seqnum
  · rw [Server.receive_expected hundamaged hseq, hseq]
    refine ⟨?_, rfl⟩
    rcases hseqnum with hzero | hone
    · exact .inr (by simp [Server.store, hzero])
    · exact .inl (by simp [Server.store, hone])
  · rw [Server.receive_other hundamaged hseq]
    refine ⟨hseqnum, ?_⟩
    have hlnot : lnot s.seqnum = m.body.header.seqAck := by
      rcases hseqnum with hs | hs <;> rcases hbit with hm | hm <;> simp_all [lnot]
    rw [hlnot]

theorem Net.Bounded.serverReceive {chunks : List Chunk} {s s' : Net} (h : s.Bounded chunks)
    {callee caller : ℕ → UInt8} {data : Vector UInt8 10} {drop : Bool}
    (hstep : s.step (.serverReceive callee caller data drop) = some s') :
    s'.Bounded chunks := by
  obtain ⟨_, m, rest, hqueue, rfl⟩ := Net.step_serverReceive hstep
  have hm := h.intact m (by simp [Net.inFlight, hqueue])
  obtain ⟨hbit, hecho⟩ := Server.receive_echo hm.1 hm.2 h.seqnum callee caller data drop
  rw [Net.acknowledge_eq, hecho]
  have hacks : ∀ p ∈ (serverSend drop m.body.header.seqAck data).toList,
      p.header.seqAck = m.body.header.seqAck ∧ p.Undamaged := fun p hp =>
    serverSend_eq_some (Option.mem_toList.mp hp)
  generalize hlist : (serverSend drop m.body.header.seqAck data).toList = acks at hacks
  have hone : acks.length ≤ 1 := by
    rw [← hlist]
    cases serverSend drop m.body.header.seqAck data <;> simp
  refine h.stay h.client h.servAddr hbit ?_ rfl rfl h.credit ?_ ?_
  · intro x hx
    simp only [Net.inFlight, List.mem_append, List.mem_map] at hx
    rcases hx with hx | hx | ⟨p, hp, rfl⟩
    · exact h.intact x (by simp [Net.inFlight, hqueue, hx])
    · exact h.intact x (by simp [Net.inFlight, hx])
    · exact ⟨(hacks p hp).2, (hacks p hp).1 ▸ hm.2⟩
  · simp only [Net.inFlight, hqueue, List.length_append, List.length_map, List.length_cons]
    omega
  · -- the ACK is stale exactly when the packet it answers was
    have hstale : ∀ tag, (acks.map fun p => (⟨tag, p⟩ : Message Packet)).countP
        s.client.isStale ≤ [m].countP s.client.isStale := by
      intro tag
      cases hcase : s.client.isStale m with
      | true =>
          rw [List.countP_cons_of_pos hcase]
          refine List.countP_le_length.trans ?_
          simpa using hone
      | false =>
          refine (List.countP_eq_zero.mpr ?_).le.trans (Nat.zero_le _)
          intro x hx
          obtain ⟨p, hp, rfl⟩ := List.mem_map.mp hx
          simp only [Client.isStale] at hcase ⊢
          rw [(hacks p hp).1, hcase]
          simp
    have hle := hstale (s.server.receive callee caller data drop m).1.accepted.length
    simp only [Net.inFlight, hqueue, List.countP_append, List.countP_cons,
      List.countP_nil] at hle ⊢
    omega

/-- The network only takes away. -/
theorem Net.Bounded.fault {chunks : List Chunk} {s : Net} (h : s.Bounded chunks)
    {toServer toClient : List (Message Packet)}
    (hsub : (toServer ++ toClient).Subperm s.inFlight) :
    ({ s with toServer := toServer, toClient := toClient } : Net).Bounded chunks := by
  have hlength := hsub.length_le
  have hstale := hsub.countP_le s.client.isStale
  exact h.stay h.client h.servAddr h.seqnum (fun m hm => h.intact m (hsub.subset hm)) rfl rfl
    h.credit (by simpa [Net.inFlight] using hlength) (by simpa [Net.inFlight] using hstale)

theorem Net.Bounded.step {chunks : List Chunk} {s s' : Net} {a : Action}
    (h : s.Bounded chunks) (ha : UnorderedNet s a) (hstep : s.step a = some s') :
    s'.Bounded chunks := by
  cases a with
  | transmit drop => exact h.transmit hstep
  | giveUp => exact h.giveUp hstep
  | timeout => exact h.timeout hstep
  | clientReceive beyond => exact h.clientReceive hstep
  | serverReceive callee caller data drop => exact h.serverReceive hstep
  | toServer f =>
      obtain ⟨c, hc, rfl⟩ := Option.map_eq_some_iff.mp hstep
      exact h.fault ((Fault.apply_unordered ha hc).append (List.Subperm.refl _))
  | toClient f =>
      obtain ⟨c, hc, rfl⟩ := Option.map_eq_some_iff.mp hstep
      exact h.fault ((List.Subperm.refl _).append (Fault.apply_unordered ha hc))

/-! ## How long the client runs -/

def Action.isClient : Action → Bool
  | .transmit _ => true
  | .giveUp => true
  | .timeout => true
  | .clientReceive _ => true
  | _ => false

/-- How far the client has come: every action of its own moves this on. -/
def Client.progress (c : Client) : ℕ :=
  2 * c.selects.length + c.index +
    match c.position with
    | .loop => 1
    | .select => 0
    | .done => 2

theorem Client.progress_return (c : Client) :
    2 * c.selects.length + c.index + 2 ≤ c.return.progress := by
  cases hfinal : c.final with
  | true => simp [Client.return_final hfinal, Client.progress]
  | false =>
      obtain ⟨hindex, _, hloop⟩ := Client.return_chunk hfinal
      simp only [Client.progress, Client.return_selects, hindex, hloop]
      omega

theorem Net.step_progress {s s' : Net} {a : Action} (hstep : s.step a = some s') :
    s.client.progress + (if a.isClient then 1 else 0) ≤ s'.client.progress := by
  cases a with
  | transmit drop =>
      obtain ⟨⟨c, packet⟩, htransmit, rfl⟩ := Option.map_eq_some_iff.mp hstep
      obtain ⟨hloop, _, ⟨_, rfl⟩ | ⟨_, rfl⟩⟩ := Client.transmit_eq_some htransmit <;>
        · simp only [Net.send_client, Client.progress, hloop, Action.isClient, if_true,
            List.length_append, List.length_singleton]
          omega
  | giveUp =>
      obtain ⟨c, hc, rfl⟩ := Option.map_eq_some_iff.mp hstep
      obtain ⟨hloop, _, rfl⟩ := Client.giveUp_eq_some hc
      have hle := Client.progress_return s.client
      have hbefore : s.client.progress = 2 * s.client.selects.length + s.client.index + 1 := by
        simp [Client.progress, hloop]
      simp only [Action.isClient, if_true]
      omega
  | timeout =>
      obtain ⟨c, hc, rfl⟩ := Option.map_eq_some_iff.mp hstep
      obtain ⟨hselect, rfl⟩ := Client.timeout_eq_some hc
      simp [Client.progress, hselect, Action.isClient]
  | clientReceive beyond =>
      obtain ⟨hselect, m, rest, _, rfl⟩ := Net.step_clientReceive hstep
      by_cases hgood : checkAck beyond s.client.packet m.body = .goodAck
      · rw [Client.receive_good hgood]
        have hle := Client.progress_return
          { s.client with
            servAddr := s.serverAddr
            acked := s.client.acked ++ [s.client.index] }
        have hbefore : s.client.progress = 2 * s.client.selects.length + s.client.index := by
          simp [Client.progress, hselect]
        simp only [Action.isClient, if_true] at hle ⊢
        omega
      · simp [Client.receive_bad hgood, Client.progress, hselect, Action.isClient]
  | serverReceive callee caller data drop =>
      obtain ⟨_, m, rest, _, rfl⟩ := Net.step_serverReceive hstep
      simp [Net.acknowledge_eq, Action.isClient]
  | toServer f =>
      obtain ⟨c, _, rfl⟩ := Option.map_eq_some_iff.mp hstep
      simp [Action.isClient]
  | toClient f =>
      obtain ⟨c, _, rfl⟩ := Option.map_eq_some_iff.mp hstep
      simp [Action.isClient]

/-- Until the client is done it always has a step to make. -/
theorem Net.exists_client_step {s : Net} (h : s.client.position ≠ .done) :
    ∃ a, Action.isClient a = true ∧ UnorderedNet s a ∧ (s.step a).isSome = true := by
  cases hposition : s.client.position with
  | loop =>
      by_cases hretries : s.client.retries < 3
      · exact ⟨.transmit true, rfl, trivial, by
          simp [Net.step, Client.transmit, hposition, hretries]⟩
      · exact ⟨.giveUp, rfl, trivial, by
          simp [Net.step, Client.giveUp, hposition, Nat.le_of_not_lt hretries]⟩
  | select => exact ⟨.timeout, rfl, trivial, by simp [Net.step, Client.timeout, hposition]⟩
  | done => exact (h hposition).elim

/-- A list over `0, …, n` in which `k` occurs at most `3 + 3k` times. -/
theorem length_le_of_count_le {l : List ℕ} {n : ℕ} (hmem : ∀ k ∈ l, k ≤ n)
    (hcount : ∀ k, l.count k ≤ 3 + 3 * k) : 2 * l.length ≤ 3 * (n + 1) * (n + 2) := by
  have hsubset : l.toFinset ⊆ Finset.range (n + 1) := by
    intro k hk
    have := hmem k (List.mem_toFinset.mp hk)
    exact Finset.mem_range.mpr (by omega)
  have hsum : l.length ≤ ∑ k ∈ Finset.range (n + 1), (3 + 3 * k) := by
    rw [← List.sum_toFinset_count_eq_length l]
    exact (Finset.sum_le_sum fun k _ => hcount k).trans
      (Finset.sum_le_sum_of_subset hsubset)
  have hgauss := Finset.sum_range_id_mul_two (n + 1)
  rw [Finset.sum_add_distrib, ← Finset.mul_sum, Finset.sum_const, Finset.card_range,
    nsmul_eq_mul] at hsum
  simp only [Nat.add_sub_cancel] at hgauss
  nlinarith

theorem Net.Bounded.count_selects_le {chunks : List Chunk} {s : Net} (h : s.Bounded chunks)
    (k : ℕ) : s.client.selects.count k ≤ 3 + 3 * k := by
  by_cases hk : k = s.client.index
  · have hcurrent := h.current
    have hcredit := h.credit
    subst hk
    omega
  · exact h.earlier k hk

theorem Net.Bounded.length_selects_le {chunks : List Chunk} {s : Net} (h : s.Bounded chunks) :
    2 * s.client.selects.length ≤ 3 * (chunks.length + 1) * (chunks.length + 2) :=
  length_le_of_count_le (fun k hk => (h.reached k hk).trans h.client.index_le)
    h.count_selects_le

section Runs

variable {server : Server} {serverAddr : SockAddr} {chunks : List Chunk}
  {buffer finalData : Vector UInt8 10} {es : List Action} {t : Net}

theorem Net.bounded_of_run (hserver : IsBit server.seqnum)
    (h : Run Net.step UnorderedNet
      (.startWith server serverAddr chunks buffer finalData) es t) : t.Bounded chunks :=
  h.invariant (fun _ _ _ ht ha hstep => ht.step ha hstep)
    (Net.startWith_bounded hserver serverAddr chunks buffer finalData)

/-- The client makes a bounded number of steps: two for each `select`, and one more for each
packet. -/
theorem Net.countP_isClient_le (hserver : IsBit server.seqnum)
    (h : Run Net.step UnorderedNet
      (.startWith server serverAddr chunks buffer finalData) es t) :
    es.countP Action.isClient ≤
      3 * (chunks.length + 1) * (chunks.length + 2) + chunks.length + 1 := by
  have hinv := Net.bounded_of_run hserver h
  have hindex := hinv.client.index_le
  have hlength := hinv.length_selects_le
  have hprogress := h.weight_add_le (P := fun _ => True)
    (μ := fun s => s.client.progress) (w := fun a => if a.isClient then 1 else 0)
    (fun _ _ _ _ _ _ => trivial) (fun _ _ _ _ _ hstep => Net.step_progress hstep) trivial
  have hle : t.client.progress ≤ 2 * t.client.selects.length + t.client.index + 2 := by
    unfold Client.progress
    split <;> omega
  have hzero : 1 ≤
      (Net.startWith server serverAddr chunks buffer finalData).client.progress := by
    simp [Net.startWith, Client.start, Client.progress]
  rw [sum_map_indicator] at hprogress
  omega

end Runs

/-- Whatever server answers, and in whatever order messages arrive: the call for packet `k`
reaches `select` at most `3 + 3k` times, all calls together at most `3(n+1)(n+2)/2` times,
and the client, which is never blocked, makes a bounded number of steps. -/
theorem client_terminates (server : Server) (hserver : IsBit server.seqnum)
    (serverAddr : SockAddr) (chunks : List Chunk) (buffer finalData : Vector UInt8 10)
    (es : List Action) (t : Net)
    (h : Run Net.step UnorderedNet
      (.startWith server serverAddr chunks buffer finalData) es t) :
    (∀ k, t.client.selects.count k ≤ 3 + 3 * k) ∧
    t.client.selects.length ≤ 3 * (chunks.length + 1) * (chunks.length + 2) / 2 ∧
    es.countP Action.isClient ≤
      3 * (chunks.length + 1) * (chunks.length + 2) + chunks.length + 1 ∧
    (t.client.position ≠ .done →
      ∃ a, Action.isClient a = true ∧ UnorderedNet t a ∧ (t.step a).isSome = true) := by
  have hinv := Net.bounded_of_run hserver h
  have hlength := hinv.length_selects_le
  exact ⟨hinv.count_selects_le, by omega, Net.countP_isClient_le hserver h,
    Net.exists_client_step⟩

/-- A premature timeout leaves a second ACK behind, which costs the next packet one more
`select`. -/
theorem client_terminates_stale :
    ∃ (chunks : List Chunk) (es : List Action) (t : Net),
      Run Net.step UnorderedNet
        (.startWith (.start []) ⟨5000, 0⟩ chunks (.replicate 10 0) (.replicate 10 0)) es t ∧
      t.client.selects = [0, 0, 1, 1] ∧ t.client.selects.count 1 ≤ 3 + 3 * 1 := by
  let zero : ℕ → UInt8 := fun _ => 0
  let empty : Vector UInt8 10 := .replicate 10 0
  let chunks : List Chunk := [⟨[101], by decide, by decide⟩]
  let run : List Action :=
    [.transmit false, .timeout, .transmit false, .serverReceive zero zero empty false,
      .serverReceive zero zero empty false, .clientReceive zero, .transmit false,
      .clientReceive zero, .transmit false]
  obtain ⟨t, hrun, hselects⟩ : ∃ t, Run Net.step UnorderedNet
      (.startWith (.start []) ⟨5000, 0⟩ chunks empty empty) run t ∧
        t.client.selects = [0, 0, 1, 1] :=
    Run.exists_of_exec (by simp [run, UnorderedNet]) (by decide)
  exact ⟨chunks, run, t, hrun, hselects,
    (client_terminates (.start []) (.inl rfl) _ chunks _ _ run t hrun).1 1⟩

end NetLabs.StopWait
