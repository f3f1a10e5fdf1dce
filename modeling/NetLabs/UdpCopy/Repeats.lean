import Mathlib.Data.List.Sort
import NetLabs.UdpCopy.Network

/-! # Repeated datagrams

The server writes every datagram that reaches it, so the chunk of a repeated packet is written
again. The client takes whatever reaches it for its ACK, and may be far ahead. -/

namespace NetLabs.UdpCopy

open Channel Machine

/-- The channel to the server keeps the order. It repeats datagrams and, if `lossy`, loses
some. Anything may happen to what is on its way to the client. -/
def Repeating (lossy : Prop) (_ : Net) : Action → Prop
  | .toServer f => f.Fifo (fun _ => False) ∧ (f.Lossy → lossy)
  | _ => True

/-- The numbers of the packets written, first one first. -/
def Server.tags (s : Server) : List ℕ :=
  s.accepted.map Message.tag

/-- Packet `k` has been sent. -/
def Client.Sent (c : Client) (k : ℕ) : Prop :=
  k < c.index ∨ k = c.index ∧ c.position ≠ .send

/-- The datagrams that the server has written and those that are still to reach it. -/
def Net.journey (s : Net) : List (Message Packet) :=
  s.server.accepted ++ s.toServer

/-- The invariant. -/
structure Net.Repeats (lossy : Prop) (chunks : List Chunk) (old : List UInt8) (s : Net) :
    Prop where
  client : s.client.Consistent chunks
  ordered : Channel.Ordered s.journey
  carries : ∀ m ∈ s.journey, Carries chunks m.tag m.body
  sent : ∀ m ∈ s.journey, s.client.Sent m.tag
  whole : ¬ lossy → ∀ k, s.client.Sent k → ∃ m ∈ s.journey, m.tag = k
  running : s.server.running = true → ∀ k ∈ s.server.tags, k < chunks.length
  stopped : s.server.running = false →
    ∃ before, s.server.tags = before ++ [chunks.length] ∧ ∀ k ∈ before, k < chunks.length
  file : s.server.file =
    (OpenFile.reopen old).write (s.server.tags.flatMap (bytesAt chunks))

theorem Net.start_repeats (lossy : Prop) (chunks : List Chunk) (old : List UInt8)
    (buffer finalData : Vector UInt8 10) :
    (Net.start chunks old buffer finalData).Repeats lossy chunks old where
  client := Client.start_consistent chunks buffer finalData
  ordered := .nil
  carries := by simp [Net.journey, Net.start, Server.start]
  sent := by simp [Net.journey, Net.start, Server.start]
  whole := by simp [Client.Sent, Net.start, Client.start]
  running := by simp [Net.start, Server.start, Server.tags]
  stopped := by simp [Net.start, Server.start]
  file := by simp [Net.start, Server.start, Server.tags]

/-! ## Steps -/

variable {lossy : Prop} {chunks : List Chunk} {old : List UInt8} {s t : Net}

theorem Client.Sent.le {c : Client} {k : ℕ} (h : c.Sent k) : k ≤ c.index := by
  rcases h with hlt | ⟨rfl, _⟩
  · exact hlt.le
  · exact le_rfl

theorem Client.Sent.of_le {c : Client} {k l : ℕ} (h : c.Sent k) (hle : l ≤ k) : c.Sent l := by
  rcases hle.lt_or_eq with hlt | rfl
  · exact .inl (hlt.trans_le h.le)
  · exact h

/-- The next packet has not been sent when an ACK arrives. -/
theorem Client.sent_receive {c : Client} (hposition : c.position = .recv) (k : ℕ) :
    c.receive.Sent k ↔ c.Sent k := by
  cases hfinal : c.final with
  | true => simp [Client.Sent, Client.receive_final hfinal, hposition]
  | false =>
      obtain ⟨hindex, hsend⟩ := Client.receive_chunk hfinal
      simp only [Client.Sent, hindex, hsend, hposition]
      simp
      omega

theorem Net.Repeats.send (h : s.Repeats lossy chunks old) (hstep : s.step .send = some t) :
    t.Repeats lossy chunks old := by
  obtain ⟨hposition, rfl⟩ := Net.step_send hstep
  have hsent : ∀ k, ({ s.client with position := .recv } : Client).Sent k ↔
      s.client.Sent k ∨ k = s.client.index := by
    intro k
    simp [Client.Sent, hposition]
  refine ⟨⟨h.client.carries, h.client.todo, h.client.final⟩, ?_, ?_, ?_, ?_,
    h.running, h.stopped, h.file⟩
  · rw [Net.journey, ← List.append_assoc]
    refine List.pairwise_append.mpr ⟨h.ordered, List.pairwise_singleton _ _, ?_⟩
    intro a ha b hb
    obtain rfl := List.mem_singleton.mp hb
    exact (h.sent a ha).le
  · rw [Net.journey, ← List.append_assoc]
    exact forall_mem_snoc h.carries h.client.carries
  · rw [Net.journey, ← List.append_assoc]
    exact forall_mem_snoc (fun m hm => (hsent _).mpr (.inl (h.sent m hm)))
      ((hsent _).mpr (.inr rfl))
  · intro hlossy k hk
    rw [Net.journey, ← List.append_assoc]
    rcases (hsent k).mp hk with hk | rfl
    · obtain ⟨m, hm, hkm⟩ := h.whole hlossy k hk
      exact ⟨m, List.mem_append_left _ hm, hkm⟩
    · exact ⟨_, List.mem_append_right _ (List.mem_singleton_self _), rfl⟩

theorem Net.Repeats.clientReceive (h : s.Repeats lossy chunks old)
    (hstep : s.step .clientReceive = some t) : t.Repeats lossy chunks old := by
  obtain ⟨hposition, m, rest, hqueue, rfl⟩ := Net.step_clientReceive hstep
  have hsent := Client.sent_receive hposition
  exact ⟨Client.receive_consistent h.client, h.ordered, h.carries,
    fun m hm => (hsent _).mpr (h.sent m hm),
    fun hlossy k hk => h.whole hlossy k ((hsent k).mp hk),
    h.running, h.stopped, h.file⟩

/-- Nothing is sent, lost or repeated. -/
theorem Net.Repeats.of_journey (h : s.Repeats lossy chunks old)
    (hclient : t.client = s.client) (hjourney : t.journey = s.journey)
    (hrunning : t.server.running = true → ∀ k ∈ t.server.tags, k < chunks.length)
    (hstopped : t.server.running = false → ∃ before,
      t.server.tags = before ++ [chunks.length] ∧ ∀ k ∈ before, k < chunks.length)
    (hfile : t.server.file =
      (OpenFile.reopen old).write (t.server.tags.flatMap (bytesAt chunks))) :
    t.Repeats lossy chunks old where
  client := hclient ▸ h.client
  ordered := hjourney ▸ h.ordered
  carries := hjourney ▸ h.carries
  sent := by rw [hclient, hjourney]; exact h.sent
  whole := by rw [hclient, hjourney]; exact h.whole
  running := hrunning
  stopped := hstopped
  file := hfile

/-- The datagram that the server writes only changes its place. -/
theorem Net.Repeats.serverReceive (h : s.Repeats lossy chunks old) {beyond : ℕ → UInt8}
    (hstep : s.step (.serverReceive beyond) = some t) : t.Repeats lossy chunks old := by
  obtain ⟨hrunning, m, rest, hqueue, rfl⟩ := Net.step_serverReceive hstep
  have hcarries : Carries chunks m.tag m.body :=
    h.carries m (by simp [Net.journey, hqueue])
  have htags : (s.server.receive beyond m).1.tags = s.server.tags ++ [m.tag] := by
    simp [Server.tags, Server.receive]
  refine h.of_journey rfl ?_ ?_ ?_ ?_
  · simp [Net.journey, Server.receive, hqueue]
  · intro hgoing
    have hne : m.tag ≠ chunks.length := by
      rw [ne_eq, ← hcarries.len_eq_zero_iff]
      simpa [Server.receive] using hgoing
    rw [htags]
    exact List.forall_mem_append.mpr ⟨h.running hrunning,
      List.forall_mem_singleton.mpr (Nat.lt_of_le_of_ne hcarries.index_le hne)⟩
  · intro hstopped
    have hlast : m.tag = chunks.length := by
      rw [← hcarries.len_eq_zero_iff]
      simpa [Server.receive] using hstopped
    exact ⟨s.server.tags, by rw [htags, hlast], h.running hrunning⟩
  · rw [htags, List.flatMap_append, ← OpenFile.write_write, ← h.file]
    simp [Server.receive, hcarries.writtenBytes_eq]

theorem Net.Repeats.toServer (h : s.Repeats lossy chunks old) {f : Fault Packet}
    (hf : f.Fifo fun _ => False) (hlossy : f.Lossy → lossy)
    (hstep : s.step (.toServer f) = some t) : t.Repeats lossy chunks old := by
  obtain ⟨c, hc, rfl⟩ := Option.map_eq_some_iff.mp hstep
  have hmem : ∀ m ∈ s.server.accepted ++ c, m ∈ s.journey := by
    intro m hm
    rcases List.mem_append.mp hm with hm | hm
    · exact List.mem_append_left _ hm
    · exact List.mem_append_right _ (Fault.mem_of_apply_intact hf hc hm)
  constructor
  case client => exact h.client
  case ordered =>
    obtain ⟨haccepted, hqueue, hcross⟩ := List.pairwise_append.mp h.ordered
    refine List.pairwise_append.mpr ⟨haccepted, Fault.apply_ordered hf hc hqueue, ?_⟩
    exact fun a ha b hb => hcross a ha b (Fault.mem_of_apply_intact hf hc hb)
  case carries => exact fun m hm => h.carries m (hmem m hm)
  case sent => exact fun m hm => h.sent m (hmem m hm)
  case whole =>
    intro hnot k hk
    obtain ⟨m, hm, hkm⟩ := h.whole hnot k hk
    refine ⟨m, ?_, hkm⟩
    rcases List.mem_append.mp hm with hm | hm
    · exact List.mem_append_left _ hm
    · cases f with
      | lose i => exact (hnot (hlossy trivial)).elim
      | duplicate i =>
          obtain ⟨⟨l, b, r⟩, hsplit, rfl⟩ := Option.map_eq_some_iff.mp hc
          rw [split?_eq_some hsplit] at hm
          exact List.mem_append_right _ (by simpa using hm)
      | damage i body => exact hf.elim
      | overtake i => exact hf.elim
      | forge i m => exact hf.elim
  case running => exact h.running
  case stopped => exact h.stopped
  case file => exact h.file

theorem Net.Repeats.step (h : s.Repeats lossy chunks old) {a : Action}
    (ha : Repeating lossy s a) (hstep : s.step a = some t) : t.Repeats lossy chunks old := by
  cases a with
  | send => exact h.send hstep
  | clientReceive => exact h.clientReceive hstep
  | serverReceive beyond => exact h.serverReceive hstep
  | toServer f => exact h.toServer ha.1 ha.2 hstep
  | toClient f =>
      obtain ⟨c, _, rfl⟩ := Option.map_eq_some_iff.mp hstep
      exact h.of_journey rfl rfl h.running h.stopped h.file

theorem Net.repeats_of_run {buffer finalData : Vector UInt8 10} {es : List Action}
    (h : Run Net.step (Repeating lossy) (.start chunks old buffer finalData) es t) :
    t.Repeats lossy chunks old :=
  h.invariant (fun _ _ _ hs ha hstep => hs.step ha hstep)
    (Net.start_repeats lossy chunks old buffer finalData)

/-! ## What the server has written -/

theorem Net.Repeats.tags_ordered (h : s.Repeats lossy chunks old) :
    s.server.tags.Pairwise (· ≤ ·) :=
  List.pairwise_map.mpr (List.pairwise_append.mp h.ordered).1

/-- Where nothing is lost, a packet is not written before those sent earlier. -/
theorem Net.Repeats.mem_tags_of_le (h : s.Repeats lossy chunks old) (hlossy : ¬ lossy) {k l : ℕ}
    (hk : k ∈ s.server.tags) (hle : l ≤ k) : l ∈ s.server.tags := by
  obtain ⟨a, ha, rfl⟩ := List.mem_map.mp hk
  have hsent := h.sent a (List.mem_append_left _ ha)
  obtain ⟨m, hm, rfl⟩ := h.whole hlossy l (hsent.of_le hle)
  rcases List.mem_append.mp hm with hm | hm
  · exact List.mem_map_of_mem hm
  · have hge : a.tag ≤ m.tag := (List.pairwise_append.mp h.ordered).2.2 a ha m hm
    rwa [Nat.le_antisymm hle hge]

/-- A longer list of chunks is a longer text. -/
theorem length_flatMap_add_le {α β : Type*} {f : α → List β} {xs ys : List α}
    (h : xs.Sublist ys) (hf : ∀ a ∈ ys, f a ≠ []) :
    (xs.flatMap f).length + ys.length ≤ (ys.flatMap f).length + xs.length := by
  induction h with
  | slnil => simp
  | @cons xs ys a _ ih =>
      have hpos := List.length_pos_iff.mpr (hf a List.mem_cons_self)
      have hle := ih fun b hb => hf b (List.mem_cons_of_mem a hb)
      simp only [List.flatMap_cons, List.length_append, List.length_cons]
      omega
  | @cons_cons xs ys a _ ih =>
      have hle := ih fun b hb => hf b (List.mem_cons_of_mem a hb)
      simp only [List.flatMap_cons, List.length_append, List.length_cons]
      omega

theorem bytesAt_ne_nil {chunks : List Chunk} {k : ℕ} (hk : k < chunks.length) :
    bytesAt chunks k ≠ [] := by
  rw [bytesAt, List.getElem?_eq_getElem hk]
  exact List.length_pos_iff.mp (chunks[k]).length_pos

/-- Packets written in order, with all up to the last chunk among them, make up the source
when none of them is written twice. -/
theorem length_flatMap_le_iff {chunks : List Chunk} {before : List ℕ}
    (hordered : before.Pairwise (· ≤ ·)) (hlt : ∀ k ∈ before, k < chunks.length)
    (hall : ∀ k < chunks.length, k ∈ before) :
    (before.flatMap (bytesAt chunks)).length ≤ (contents chunks).length ↔
      before = List.range chunks.length := by
  have hcontents : contents chunks = (List.range chunks.length).flatMap (bytesAt chunks) := by
    rw [flatMap_bytesAt_range, List.take_length]
  have hrange : (List.range chunks.length).Pairwise (· ≤ ·) :=
    List.pairwise_lt_range.imp Nat.le_of_lt
  have hsub : (List.range chunks.length).Sublist before :=
    List.sublist_of_subperm_of_pairwise
      (List.subperm_of_subset List.nodup_range fun k hk => hall k (List.mem_range.mp hk))
      hrange hordered
  constructor
  · intro hle
    have hlonger := length_flatMap_add_le (f := bytesAt chunks) hsub
      fun k hk => bytesAt_ne_nil (hlt k hk)
    rw [hcontents] at hle
    exact (hsub.eq_of_length_le (by omega)).symm
  · rintro rfl
    rw [hcontents]

/-- Over a channel that keeps the order, loses and repeats, and whatever reaches the client:
the server writes intact packets, none before an older one, and stops with the only one that
is empty. Where nothing is lost it has written all packets before any that it has written. -/
theorem repeats_in_order (lossy : Prop) (chunks : List Chunk) (old : List UInt8)
    (buffer finalData : Vector UInt8 10) (es : List Action) (t : Net)
    (h : Run Net.step (Repeating lossy) (.start chunks old buffer finalData) es t) :
    t.server.tags.Pairwise (· ≤ ·) ∧
    (∀ m ∈ t.server.accepted, Carries chunks m.tag m.body) ∧
    t.server.file =
      (OpenFile.reopen old).write (t.server.tags.flatMap (bytesAt chunks)) ∧
    (t.server.running = false → ∃ before, t.server.tags = before ++ [chunks.length] ∧
      ∀ k ∈ before, k < chunks.length) ∧
    (¬ lossy → ∀ k ∈ t.server.tags, ∀ l ≤ k, l ∈ t.server.tags) := by
  have hinv := Net.repeats_of_run h
  refine ⟨hinv.tags_ordered, ?_, hinv.file, hinv.stopped, ?_⟩
  · exact fun m hm => hinv.carries m (List.mem_append_left _ hm)
  · exact fun hlossy k hk l hle => hinv.mem_tags_of_le hlossy hk hle

/-- The first of two chunks is repeated, and the second one lost. -/
theorem repeats_in_order_lossy :
    ∃ (chunks : List Chunk) (es : List Action) (t : Net),
      Run Net.step (Repeating True) (.start chunks [] (.replicate 10 0) (.replicate 10 0)) es t ∧
      t.server.tags = [0, 0, 2] ∧ t.server.tags.Pairwise (· ≤ ·) := by
  let chunks : List Chunk := [⟨[101], by decide, by decide⟩, ⟨[102], by decide, by decide⟩]
  let run : List Action :=
    [.send, .toServer (.duplicate 0), .serverReceive fun _ => 0, .clientReceive, .send,
      .serverReceive fun _ => 0, .toServer (.lose 0), .clientReceive, .send,
      .serverReceive fun _ => 0]
  obtain ⟨t, hrun, htags⟩ : ∃ t, Run Net.step (Repeating True)
      (.start chunks [] (.replicate 10 0) (.replicate 10 0)) run t ∧
        t.server.tags = [0, 0, 2] :=
    Run.exists_of_exec (by simp [run, Repeating, Fault.Fifo]) (by decide)
  exact ⟨chunks, run, t, hrun, htags, (repeats_in_order True chunks _ _ _ run t hrun).1⟩

/-- Where nothing is lost, the destination holds the source after the server has stopped when
the old one was no longer and no datagram had been repeated before it was written. -/
theorem holds_source_iff_nodup (chunks : List Chunk) (old : List UInt8)
    (buffer finalData : Vector UInt8 10) (es : List Action) (t : Net)
    (h : Run Net.step (Repeating False) (.start chunks old buffer finalData) es t)
    (hstopped : t.server.running = false) :
    t.server.file.content = contents chunks ↔
      t.server.tags.Nodup ∧ old.length ≤ (contents chunks).length := by
  have hinv := Net.repeats_of_run h
  obtain ⟨before, htags, hlt⟩ := hinv.stopped hstopped
  have hall : ∀ k < chunks.length, k ∈ before := by
    intro k hk
    have hmem : k ∈ t.server.tags :=
      hinv.mem_tags_of_le not_false (k := chunks.length) (by simp [htags]) hk.le
    simpa [htags, hk.ne] using hmem
  have hordered : before.Pairwise (· ≤ ·) := by
    have hordered := hinv.tags_ordered
    rw [htags] at hordered
    exact (List.pairwise_append.mp hordered).1
  have hwritten : t.server.tags.flatMap (bytesAt chunks) = before.flatMap (bytesAt chunks) := by
    simp [htags, bytesAt]
  have hnodup : t.server.tags.Nodup ↔ before = List.range chunks.length := by
    rw [htags]
    constructor
    · intro hnodup
      have hperm : before.Perm (List.range chunks.length) :=
        (List.perm_ext_iff_of_nodup (List.nodup_append.mp hnodup).1 List.nodup_range).mpr
          fun k => ⟨fun hk => List.mem_range.mpr (hlt k hk),
            fun hk => hall k (List.mem_range.mp hk)⟩
      exact hperm.eq_of_pairwise' hordered (List.pairwise_lt_range.imp Nat.le_of_lt)
    · rintro rfl
      rw [← List.range_succ]
      exact List.nodup_range
  rw [hinv.file, hwritten, OpenFile.content_reopen_write, hnodup]
  have hiff := length_flatMap_le_iff hordered hlt hall
  constructor
  · intro hcontent
    have hlength := congrArg List.length hcontent
    rw [List.length_append] at hlength
    have hbefore := hiff.mp (by omega)
    refine ⟨hbefore, ?_⟩
    rw [hbefore, flatMap_bytesAt_range, List.take_length] at hcontent
    exact List.drop_eq_nil_iff.mp (List.append_right_eq_self.mp hcontent)
  · rintro ⟨hbefore, hle⟩
    rw [hbefore, flatMap_bytesAt_range, List.take_length, List.drop_eq_nil_of_le hle,
      List.append_nil]

/-- A repeated chunk is in the destination twice. -/
theorem holds_source_iff_nodup_repeated :
    ∃ (chunks : List Chunk) (es : List Action) (t : Net),
      Run Net.step (Repeating False) (.start chunks [] (.replicate 10 0) (.replicate 10 0)) es t ∧
      t.server.running = false ∧ t.server.file.content ≠ contents chunks := by
  let chunks : List Chunk := [⟨[101], by decide, by decide⟩]
  let run : List Action :=
    [.send, .toServer (.duplicate 0), .serverReceive fun _ => 0, .clientReceive, .send,
      .serverReceive fun _ => 0, .serverReceive fun _ => 0]
  obtain ⟨t, hrun, hobs⟩ : ∃ t, Run Net.step (Repeating False)
      (.start chunks [] (.replicate 10 0) (.replicate 10 0)) run t ∧
        (t.server.running, t.server.tags) = (false, [0, 0, 1]) :=
    Run.exists_of_exec (by simp [run, Repeating, Fault.Fifo, Fault.Lossy]) (by decide)
  obtain ⟨hstopped, htags⟩ := Prod.mk.inj hobs
  refine ⟨chunks, run, t, hrun, hstopped, fun hcontent => ?_⟩
  have hnodup := ((holds_source_iff_nodup chunks _ _ _ run t hrun hstopped).mp hcontent).1
  rw [htags] at hnodup
  exact absurd hnodup (by decide)

end NetLabs.UdpCopy
