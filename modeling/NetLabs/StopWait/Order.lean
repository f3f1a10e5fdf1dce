import NetLabs.StopWait.Network

/-! # What the server accepts, in every run

The server's bit says nothing about the client's current packet once a packet has been
given up. It does fix the parity of the next accepted packet, and the channel from the
client keeps the order of sending. -/

namespace NetLabs.StopWait

open Channel Machine

/-- The channel to the server keeps the order and damages detectably. Nothing is assumed
of what reaches the client. -/
def OrderedData (_ : Net) : Action → Prop
  | .toServer f => f.Fifo Packet.Damaged
  | _ => True

/-- The numbers of the accepted packets, first one first. -/
def Server.indices (s : Server) : List ℕ :=
  s.accepted.map Message.tag

/-- The bytes handed to `write` so far. -/
def Server.delivered (s : Server) : List UInt8 :=
  s.accepted.flatMap fun m => m.body.payload

/-- The invariant. A packet in transit is never older than an accepted one. -/
structure Net.InOrder (chunks : List Chunk) (old : List UInt8) (s : Net) : Prop where
  client : s.client.Consistent chunks
  servAddr : s.client.servAddr = s.serverAddr
  sent : ∀ m ∈ s.toServer, m.tag ≤ s.client.index
  carries : ∀ m ∈ s.toServer, Carries chunks m.tag m.body ∨ m.body.Damaged
  queue : Channel.Ordered s.toServer
  seqnum : s.server.seqnum = bit s.server.accepted.length
  carried : ∀ m ∈ s.server.accepted, Carries chunks m.tag m.body
  past : ∀ m ∈ s.server.accepted, m.tag ≤ s.client.index
  overtaken : ∀ a ∈ s.server.accepted, ∀ m ∈ s.toServer, a.tag ≤ m.tag
  increasing : s.server.indices.Pairwise (· < ·)
  parity : ∀ i tag, s.server.indices[i]? = some tag → tag % 2 = i % 2
  running : s.server.running = false ↔ chunks.length ∈ s.server.indices
  file : s.server.file = (OpenFile.reopen old).write s.server.delivered

theorem Net.start_inOrder (serverAddr : SockAddr) (chunks : List Chunk) (old : List UInt8)
    (buffer finalData : Vector UInt8 10) :
    (Net.start serverAddr chunks old buffer finalData).InOrder chunks old where
  client := Client.start_consistent serverAddr chunks buffer finalData
  servAddr := by simp [Net.start, Net.startWith, Client.start]
  sent := by simp [Net.start, Net.startWith]
  carries := by simp [Net.start, Net.startWith]
  queue := .nil
  seqnum := rfl
  carried := by simp [Net.start, Net.startWith, Server.start]
  past := by simp [Net.start, Net.startWith, Server.start]
  overtaken := by simp [Net.start, Net.startWith, Server.start]
  increasing := .nil
  parity := by simp [Net.start, Net.startWith, Server.start, Server.indices]
  running := by simp [Net.start, Net.startWith, Server.start, Server.indices]
  file := by simp [Net.start, Net.startWith, Server.start, Server.delivered]

/-! ## Steps of the client -/

/-- A client that moves on, or stays at its packet, leaves the invariant intact. -/
theorem Net.InOrder.client_step {chunks : List Chunk} {old : List UInt8} {s : Net}
    (h : s.InOrder chunks old) {c : Client} (hc : c.Consistent chunks)
    (haddr : c.servAddr = s.serverAddr) (hle : s.client.index ≤ c.index)
    (toClient : List (Message Packet)) :
    ({ s with client := c, toClient := toClient } : Net).InOrder chunks old :=
  { h with
    client := hc
    servAddr := haddr
    sent := fun m hm => (h.sent m hm).trans hle
    past := fun m hm => (h.past m hm).trans hle }

theorem Net.InOrder.send {chunks : List Chunk} {old : List UInt8} {s : Net}
    (h : s.InOrder chunks old) {c : Client} {packet : Option Packet}
    (hc : c.Consistent chunks) (haddr : c.servAddr = s.serverAddr)
    (hindex : c.index = s.client.index)
    (hpacket : ∀ p, packet = some p → Carries chunks c.index p) :
    (s.send c packet).InOrder chunks old := by
  have hclient := h.client_step hc haddr hindex.ge s.toClient
  cases packet with
  | none => exact hclient
  | some p =>
      simp only [Net.send, haddr, if_true]
      refine { hclient with
        sent := ?_, carries := ?_, queue := ?_, overtaken := ?_ }
      · exact forall_mem_snoc hclient.sent le_rfl
      · exact forall_mem_snoc h.carries (.inl (hpacket p rfl))
      · refine List.pairwise_append.mpr ⟨h.queue, List.pairwise_singleton _ _, ?_⟩
        intro a ha b hb
        obtain rfl := List.mem_singleton.mp hb
        exact hclient.sent a ha
      · intro a ha
        exact forall_mem_snoc (h.overtaken a ha) (hclient.past a ha)

theorem Net.InOrder.transmit {chunks : List Chunk} {old : List UInt8} {s s' : Net}
    (h : s.InOrder chunks old) {drop : Bool} (hstep : s.step (.transmit drop) = some s') :
    s'.InOrder chunks old := by
  obtain ⟨⟨c, packet⟩, htransmit, rfl⟩ := Option.map_eq_some_iff.mp hstep
  obtain ⟨_, _, ⟨rfl, rfl⟩ | ⟨rfl, rfl⟩⟩ := Client.transmit_eq_some htransmit
  · exact h.send ⟨h.client.carries, h.client.seq, h.client.todo, h.client.final⟩
      h.servAddr rfl (by simp)
  · refine h.send ⟨h.client.carries.seal, h.client.seq, h.client.todo, h.client.final⟩
      h.servAddr rfl ?_
    intro p hp
    obtain rfl := Option.some.inj hp
    exact h.client.carries.seal

/-! ## Steps of the server -/

/-- An accepted packet is younger than every packet accepted before it: it is no older, by
the order of the channel, and of the other parity than the last of them. -/
theorem Net.InOrder.accepted_lt {chunks : List Chunk} {old : List UInt8} {s : Net}
    (h : s.InOrder chunks old) {m : Message Packet} (hm : m ∈ s.toServer)
    (hcarries : Carries chunks m.tag m.body) (hseq : m.body.header.seqAck = s.server.seqnum) :
    m.tag % 2 = s.server.accepted.length % 2 ∧ ∀ tag ∈ s.server.indices, tag < m.tag := by
  have hparity : m.tag % 2 = s.server.accepted.length % 2 := by
    rw [hcarries.seqAck, h.seqnum] at hseq
    exact (bit_eq_iff _ _).mp hseq
  refine ⟨hparity, ?_⟩
  intro tag htag
  obtain ⟨i, hi⟩ := List.getElem?_of_mem htag
  have hlt : i < s.server.indices.length := (List.getElem?_eq_some_iff.mp hi).1
  have hlength : s.server.indices.length = s.server.accepted.length := by
    simp [Server.indices]
  have hle : ∀ t ∈ s.server.indices, t ≤ m.tag := by
    intro t ht
    obtain ⟨a, ha, rfl⟩ := List.mem_map.mp ht
    exact h.overtaken a ha m hm
  by_cases hlast : i + 1 = s.server.indices.length
  · have htagParity := h.parity i tag hi
    have hne : tag ≠ m.tag := by
      rintro rfl
      omega
    exact Nat.lt_of_le_of_ne (hle tag htag) hne
  · -- a younger accepted packet lies between the two
    have hnext : i + 1 < s.server.indices.length := by omega
    have hincreasing := List.pairwise_iff_getElem.mp h.increasing i (i + 1) hlt hnext
      (Nat.lt_succ_self i)
    rw [(List.getElem?_eq_some_iff.mp hi).2] at hincreasing
    exact hincreasing.trans_le (hle _ (List.getElem_mem hnext))

theorem parity_snoc {tags : List ℕ} {t : ℕ} (h : ∀ i tag, tags[i]? = some tag → tag % 2 = i % 2)
    (ht : t % 2 = tags.length % 2) (i tag : ℕ) (hi : (tags ++ [t])[i]? = some tag) :
    tag % 2 = i % 2 := by
  rcases Nat.lt_or_ge i tags.length with hlt | hge
  · rw [List.getElem?_append_left hlt] at hi
    exact h i tag hi
  · rw [List.getElem?_append_right hge] at hi
    obtain ⟨hzero, rfl⟩ := List.getElem?_eq_some_iff.mp hi
    simp only [List.length_singleton, Nat.lt_one_iff] at hzero
    have hi' : i = tags.length := by omega
    simp [ht, hi']

theorem Net.InOrder.store {chunks : List Chunk} {old : List UInt8} {s : Net}
    (h : s.InOrder chunks old) {m : Message Packet} {rest : List (Message Packet)}
    (hqueue : s.toServer = m :: rest) (hrunning : s.server.running = true)
    (hcarries : Carries chunks m.tag m.body) (hseq : m.body.header.seqAck = s.server.seqnum)
    (beyond : ℕ → UInt8) (toClient : List (Message Packet)) :
    ({ s with server := s.server.store beyond m, toServer := rest,
              toClient := toClient } : Net).InOrder chunks old := by
  have hm : m ∈ s.toServer := by simp [hqueue]
  have hrest : ∀ x ∈ rest, x ∈ s.toServer := fun x hx => by simp [hqueue, hx]
  obtain ⟨hparity, hlt⟩ := h.accepted_lt hm hcarries hseq
  have hordered : (∀ x ∈ rest, m.tag ≤ x.tag) ∧ Channel.Ordered rest := by
    have hq := h.queue
    rw [hqueue] at hq
    exact List.pairwise_cons.mp hq
  have hindices : (s.server.store beyond m).indices = s.server.indices ++ [m.tag] := by
    simp [Server.indices, Server.store]
  have hlength : s.server.indices.length = s.server.accepted.length := by
    simp [Server.indices]
  have hlen : m.body.header.len.toInt ≤ 10 := by
    rw [hcarries.len, toInt_ofNat_le (length_bytesAt_le chunks m.tag)]
    exact_mod_cast length_bytesAt_le chunks m.tag
  refine
    { client := h.client, servAddr := h.servAddr
      sent := fun x hx => h.sent x (hrest x hx)
      carries := fun x hx => h.carries x (hrest x hx)
      queue := hordered.2, seqnum := ?_, carried := ?_, past := ?_, overtaken := ?_
      increasing := ?_, parity := ?_, running := ?_, file := ?_ }
  · simp [Server.store, h.seqnum, bit_succ]
  · exact forall_mem_snoc h.carried hcarries
  · exact forall_mem_snoc h.past (h.sent m hm)
  · exact forall_mem_snoc (fun a ha x hx => h.overtaken a ha x (hrest x hx)) hordered.1
  · rw [hindices]
    refine List.pairwise_append.mpr ⟨h.increasing, List.pairwise_singleton _ _, ?_⟩
    intro a ha b hb
    obtain rfl := List.mem_singleton.mp hb
    exact hlt a ha
  · rw [hindices]
    exact parity_snoc h.parity (hlength ▸ hparity)
  · -- the loop of `main` ends with the first packet of length zero
    have hnot : chunks.length ∉ s.server.indices := by
      rw [← h.running, hrunning]
      simp
    simp only [hindices, List.mem_append, hnot, false_or, List.mem_singleton]
    simp only [Server.store, decide_eq_false_iff_not, not_not]
    rw [hcarries.len_eq_zero_iff, eq_comm]
  · have hdelivered : (s.server.store beyond m).delivered =
        s.server.delivered ++ m.body.payload := by
      simp [Server.delivered, Server.store]
    rw [hdelivered, ← OpenFile.write_write, ← h.file, Server.store,
      writtenBytes_eq_payload beyond hlen]

/-- A datagram that is not accepted only leaves the channel. -/
theorem Net.InOrder.discard {chunks : List Chunk} {old : List UInt8} {s : Net}
    (h : s.InOrder chunks old) {m : Message Packet} {rest : List (Message Packet)}
    (hqueue : s.toServer = m :: rest) (toClient : List (Message Packet)) :
    ({ s with toServer := rest, toClient := toClient } : Net).InOrder chunks old := by
  have hrest : ∀ x ∈ rest, x ∈ s.toServer := fun x hx => by simp [hqueue, hx]
  have hq := h.queue
  rw [hqueue] at hq
  exact { h with
    sent := fun x hx => h.sent x (hrest x hx)
    carries := fun x hx => h.carries x (hrest x hx)
    queue := (List.pairwise_cons.mp hq).2
    overtaken := fun a ha x hx => h.overtaken a ha x (hrest x hx) }

theorem Net.InOrder.serverReceive {chunks : List Chunk} {old : List UInt8} {s s' : Net}
    (h : s.InOrder chunks old) {callee caller : ℕ → UInt8} {data : Vector UInt8 10}
    {drop : Bool} (hstep : s.step (.serverReceive callee caller data drop) = some s') :
    s'.InOrder chunks old := by
  obtain ⟨hrunning, m, rest, hqueue, rfl⟩ := Net.step_serverReceive hstep
  rw [Net.acknowledge_eq]
  rcases h.carries m (by simp [hqueue]) with hcarries | hdamaged
  · by_cases hseq : m.body.header.seqAck = s.server.seqnum
    · rw [Server.receive_expected hcarries.undamaged hseq]
      exact h.store hqueue hrunning hcarries hseq caller _
    · rw [Server.receive_other hcarries.undamaged hseq]
      exact h.discard hqueue _
  · rw [Server.receive_damaged hdamaged]
    exact h.discard hqueue _

theorem Net.InOrder.fault {chunks : List Chunk} {old : List UInt8} {s : Net}
    (h : s.InOrder chunks old) {f : Fault Packet} (hf : f.Fifo Packet.Damaged)
    {c : List (Message Packet)} (hc : f.apply s.toServer = some c) :
    ({ s with toServer := c } : Net).InOrder chunks old := by
  refine { h with sent := ?_, carries := ?_, overtaken := ?_
                  queue := Fault.apply_ordered hf hc h.queue }
  · intro m hm
    rcases Fault.mem_of_apply_fifo hf hc hm with hm | ⟨_, b, hb, htag⟩
    · exact h.sent m hm
    · exact htag ▸ h.sent b hb
  · intro m hm
    rcases Fault.mem_of_apply_fifo hf hc hm with hm | ⟨hbad, _⟩
    · exact h.carries m hm
    · exact .inr hbad
  · intro a ha m hm
    rcases Fault.mem_of_apply_fifo hf hc hm with hm | ⟨_, b, hb, htag⟩
    · exact h.overtaken a ha m hm
    · exact htag ▸ h.overtaken a ha b hb

/-- Every step keeps the invariant. -/
theorem Net.InOrder.step {chunks : List Chunk} {old : List UInt8} {s s' : Net} {a : Action}
    (h : s.InOrder chunks old) (ha : OrderedData s a) (hstep : s.step a = some s') :
    s'.InOrder chunks old := by
  cases a with
  | transmit drop => exact h.transmit hstep
  | giveUp =>
      obtain ⟨c, hc, rfl⟩ := Option.map_eq_some_iff.mp hstep
      obtain ⟨_, _, rfl⟩ := Client.giveUp_eq_some hc
      exact h.client_step (Client.return_consistent h.client) (by simp [h.servAddr])
        (Client.index_le_return _) _
  | timeout =>
      obtain ⟨c, hc, rfl⟩ := Option.map_eq_some_iff.mp hstep
      obtain ⟨_, rfl⟩ := Client.timeout_eq_some hc
      exact h.client_step
        (c := { s.client with retries := s.client.retries + 1, position := .loop })
        ⟨h.client.carries, h.client.seq, h.client.todo, h.client.final⟩ h.servAddr le_rfl _
  | clientReceive beyond =>
      obtain ⟨_, m, rest, _, rfl⟩ := Net.step_clientReceive hstep
      exact h.client_step (Client.receive_consistent h.client _ _ _)
        (Client.receive_servAddr _ _ _ _) (Client.index_le_receive _ _ _ _) _
  | serverReceive callee caller data drop => exact h.serverReceive hstep
  | toServer f =>
      obtain ⟨c, hc, rfl⟩ := Option.map_eq_some_iff.mp hstep
      exact h.fault ha hc
  | toClient f =>
      obtain ⟨c, _, rfl⟩ := Option.map_eq_some_iff.mp hstep
      exact h.client_step h.client h.servAddr le_rfl c

theorem Net.inOrder_of_run {serverAddr : SockAddr} {chunks : List Chunk} {old : List UInt8}
    {buffer finalData : Vector UInt8 10} {es : List Action} {t : Net}
    (h : Run Net.step OrderedData (.start serverAddr chunks old buffer finalData) es t) :
    t.InOrder chunks old :=
  h.invariant (fun _ _ _ ht ha hstep => ht.step ha hstep)
    (Net.start_inOrder serverAddr chunks old buffer finalData)

/-! ## Holes of even size -/

/-- What is written is what the accepted packets carry. -/
theorem Net.InOrder.delivered_eq {chunks : List Chunk} {old : List UInt8} {s : Net}
    (h : s.InOrder chunks old) :
    s.server.delivered = s.server.indices.flatMap (bytesAt chunks) := by
  have hcarried := h.carried
  unfold Server.delivered Server.indices
  rw [List.flatMap_map]
  exact List.flatMap_congr fun m hm => (hcarried m hm).payload

theorem Net.InOrder.index_le {chunks : List Chunk} {old : List UInt8} {s : Net}
    (h : s.InOrder chunks old) : ∀ tag ∈ s.server.indices, tag ≤ chunks.length := by
  intro tag htag
  obtain ⟨m, hm, rfl⟩ := List.mem_map.mp htag
  exact (h.carried m hm).index_le

/-- The packet that ends the server's loop is the last one accepted. -/
theorem Net.InOrder.indices_of_stopped {chunks : List Chunk} {old : List UInt8} {s : Net}
    (h : s.InOrder chunks old) (hstopped : s.server.running = false) :
    ∃ before, s.server.indices = before ++ [chunks.length] ∧
      ∀ tag ∈ before, tag < chunks.length := by
  obtain ⟨before, after, hsplit⟩ := List.append_of_mem (h.running.mp hstopped)
  have hincreasing := h.increasing
  rw [hsplit] at hincreasing
  obtain ⟨_, hafter, hbefore⟩ := List.pairwise_append.mp hincreasing
  have hnil : after = [] := by
    apply List.eq_nil_iff_forall_not_mem.mpr
    intro tag htag
    have hlt := (List.pairwise_cons.mp hafter).1 tag htag
    have hle := h.index_le tag (by simp [hsplit, htag])
    omega
  exact ⟨before, by rw [hsplit, hnil], fun tag htag => hbefore tag htag _ (by simp)⟩

/-- In every run, however many packets are given up and whatever reaches the client, the
accepted packets are in order and alternate in parity, so the chunks missing between two of
them, or before the first, are even in number; so are those missing in a finished transfer
of `chunks.length` chunks. -/
theorem accepted_alternate (serverAddr : SockAddr) (chunks : List Chunk) (old : List UInt8)
    (buffer finalData : Vector UInt8 10) (es : List Action) (t : Net)
    (h : Run Net.step OrderedData (.start serverAddr chunks old buffer finalData) es t) :
    t.server.indices.Pairwise (· < ·) ∧
    (∀ i tag, t.server.indices[i]? = some tag → tag ≤ chunks.length ∧ tag % 2 = i % 2) ∧
    t.server.delivered = t.server.indices.flatMap (bytesAt chunks) ∧
    t.server.file = (OpenFile.reopen old).write t.server.delivered ∧
    (∀ tag, t.server.indices[0]? = some tag → Even tag) ∧
    (∀ i a b, t.server.indices[i]? = some a → t.server.indices[i + 1]? = some b →
      Even (b - a - 1)) ∧
    (t.server.running = false → ∃ before, t.server.indices = before ++ [chunks.length] ∧
      (∀ tag ∈ before, tag < chunks.length) ∧ before.length % 2 = chunks.length % 2) := by
  have hinv := Net.inOrder_of_run h
  refine ⟨hinv.increasing, ?_, hinv.delivered_eq, hinv.file, ?_, ?_, ?_⟩
  · intro i tag hi
    exact ⟨hinv.index_le tag (List.mem_of_getElem? hi), hinv.parity i tag hi⟩
  · intro tag htag
    exact Nat.even_iff.mpr (hinv.parity 0 tag htag)
  · intro i a b ha hb
    have hlt : a < b := by
      obtain ⟨hi, rfl⟩ := List.getElem?_eq_some_iff.mp ha
      obtain ⟨hi', rfl⟩ := List.getElem?_eq_some_iff.mp hb
      exact List.pairwise_iff_getElem.mp hinv.increasing i (i + 1) hi hi' (Nat.lt_succ_self i)
    have hpa := hinv.parity i a ha
    have hpb := hinv.parity (i + 1) b hb
    rw [Nat.even_iff]
    omega
  · intro hstopped
    obtain ⟨before, hindices, hbefore⟩ := hinv.indices_of_stopped hstopped
    refine ⟨before, hindices, hbefore, ?_⟩
    have hlast : t.server.indices[before.length]? = some chunks.length := by
      simp [hindices]
    exact (hinv.parity _ _ hlast).symm

/-- Two abandoned chunks leave a hole of two: the third one is accepted first. -/
theorem accepted_alternate_hole :
    ∃ (chunks : List Chunk) (es : List Action) (t : Net),
      Run Net.step OrderedData
        (.start ⟨5000, 0⟩ chunks [] (.replicate 10 0) (.replicate 10 0)) es t ∧
      t.server.indices = [2] ∧ ∀ tag, t.server.indices[0]? = some tag → Even tag := by
  let chunks : List Chunk :=
    [⟨[101], by decide, by decide⟩, ⟨[102], by decide, by decide⟩,
      ⟨[103], by decide, by decide⟩]
  let run := abandonedCall ++ abandonedCall ++
    [.transmit false, .serverReceive (fun _ => 0) (fun _ => 0) (.replicate 10 0) false]
  obtain ⟨t, hrun, hindices⟩ : ∃ t, Run Net.step OrderedData
      (.start ⟨5000, 0⟩ chunks [] (.replicate 10 0) (.replicate 10 0)) run t ∧
        t.server.indices = [2] :=
    Run.exists_of_exec (by simp [run, abandonedCall, OrderedData]) (by decide)
  exact ⟨chunks, run, t, hrun, hindices,
    (accepted_alternate _ chunks _ _ _ run t hrun).2.2.2.2.1⟩

end NetLabs.StopWait
