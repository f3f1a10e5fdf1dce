import NetLabs.Library.Channel
import NetLabs.LinkState.Guard

/-! # What a router has stored

No packet is lost, repeated or overtaken by a later one of the same sender. A table is
therefore the table that was read at the start with the edits replayed that have reached the
router, each once, and those of one editor in the order in which they were made. -/

namespace NetLabs.LinkState

open Machine

variable {N : ℕ} {rounds : ℕ} {s t : System N} {myid : Fin N}

/-! ## Replaying edits -/

/-- What `main` sends to the other routers after an edit. -/
def Edit.packet (e : Edit N) : Packet :=
  packetOf (.ofNat e.editor) (.ofNat e.id) e.cost

def Costs.apply (costs : Costs N) (e : Edit N) : Costs N :=
  costs.setLink e.editor e.id e.cost

def Costs.replay (costs : Costs N) (log : List (Edit N)) : Costs N :=
  log.foldl Costs.apply costs

/-- The edits made at router `p`. -/
def editsOf (p : Fin N) (edits : List (Edit N)) : List (Edit N) :=
  edits.filter fun e => e.editor = p

theorem Costs.replay_append_singleton (costs : Costs N) (log : List (Edit N)) (e : Edit N) :
    costs.replay (log ++ [e]) = (costs.replay log).setLink e.editor e.id e.cost := by
  simp [Costs.replay, Costs.apply]

@[simp] theorem editsOf_append_self (edits : List (Edit N)) (e : Edit N) :
    editsOf e.editor (edits ++ [e]) = editsOf e.editor edits ++ [e] := by
  simp [editsOf]

theorem editsOf_append_of_ne {p : Fin N} {e : Edit N} (hp : e.editor ≠ p)
    (edits : List (Edit N)) : editsOf p (edits ++ [e]) = editsOf p edits := by
  simp [editsOf, hp]

theorem editor_of_mem_editsOf {p : Fin N} {e : Edit N} {edits : List (Edit N)}
    (h : e ∈ editsOf p edits) : e.editor = p :=
  of_decide_eq_true (List.mem_filter.mp h).2

theorem Edit.decode_packet (hN : N ≤ 2 ^ 31) (e : Edit N) :
    e.packet.decode = some (e.editor, e.id, e.cost) :=
  decode_packetOf (index_ofNat hN e.editor) (index_ofNat hN e.id)

/-- Lists with the same edits of every editor are permutations of each other. -/
theorem perm_of_editsOf {log edits : List (Edit N)}
    (h : ∀ p, editsOf p edits = editsOf p log) : log.Perm edits := by
  refine List.perm_iff_count.mpr fun e => ?_
  have hcount : ∀ l : List (Edit N), l.count e = (editsOf e.editor l).count e := by
    intro l
    exact (List.count_filter (by simp)).symm
  rw [hcount log, hcount edits, h]

/-! ## The history of a table -/

/-- The table of router `r` is its first one after `log`, and of the edits of each router
those that are not in `log` are the ones on their way to `r`. -/
structure System.History (table : Costs N) (s : System N) (r : Fin N)
    (log : List (Edit N)) : Prop where
  costs : (s.routers r).costs = table.replay log
  order : ∀ p, ∃ rest, editsOf p s.edits = editsOf p log ++ rest ∧
    s.stream p r = rest.map Edit.packet

/-- A step that is neither an edit nor a store adds nothing to a history. -/
theorem System.History.congr {table : Costs N} {r : Fin N} {log : List (Edit N)}
    (h : s.History table r log) (hcosts : (t.routers r).costs = (s.routers r).costs)
    (hstream : ∀ p, t.stream p r = s.stream p r) (hedits : t.edits = s.edits) :
    t.History table r log where
  costs := hcosts.trans h.costs
  order := by
    intro p
    rw [hstream p, hedits]
    exact h.order p

theorem System.stream_self (h : s.Traced) (r : Fin N) : s.stream r r = [] := by
  refine List.eq_nil_iff_forall_not_mem.mpr fun packet hpacket => ?_
  exact (h r r packet hpacket).1 rfl

/-- The editor has its edit in its history at once, the others have it on its way. -/
theorem System.History.edit (hN : N ≤ 2 ^ 31) {tables : Fin N → Costs N} (htraced : s.Traced)
    {i : ℕ} {id cost : Int32} {peer : Fin N} (hmain : (s.routers myid).main = .prompt i)
    (hpeer : index id = some peer) (contested : Bool) (r : Fin N)
    (h : ∃ log, s.History (tables r) r log) :
    ∃ log, System.History (tables r) { s.set myid ((s.routers myid).edit i myid id peer cost)
      with edits := s.edits ++ [⟨myid, peer, cost, contested⟩] } r log := by
  obtain ⟨log, hcosts, horder⟩ := h
  let e : Edit N := ⟨myid, peer, cost, contested⟩
  have hpacket : packetOf (.ofNat myid) id cost = e.packet := by
    have hid : id = .ofNat peer :=
      Int32.toInt_inj.mp ((index_eq_some.mp hpeer).trans (toInt_ofNat hN peer).symm)
    rw [hid]
    rfl
  have hstream := System.stream_edit hmain id peer cost
  by_cases hr : r = myid
  · subst hr
    refine ⟨log ++ [e], ?_, ?_⟩
    · rw [Costs.replay_append_singleton, ← hcosts]
      simp [System.set, Router.edit, e]
    · intro p
      obtain ⟨rest, hedits, hrest⟩ := horder p
      have hsame := hstream p r
      rw [if_neg (by simp)] at hsame
      by_cases hp : p = r
      · subst hp
        -- nothing is on its way from the editor to itself
        have hnil : rest = [] := by
          rw [System.stream_self htraced] at hrest
          exact List.map_eq_nil_iff.mp hrest.symm
        subst hnil
        refine ⟨[], ?_, hsame.trans hrest⟩
        rw [editsOf_append_self s.edits e, editsOf_append_self log e, hedits]
        simp [e]
      · have hne : e.editor ≠ p := fun heq => hp heq.symm
        refine ⟨rest, ?_, hsame.trans hrest⟩
        rw [editsOf_append_of_ne hne, editsOf_append_of_ne hne, hedits]
  · refine ⟨log, ?_, ?_⟩
    · dsimp only
      rw [System.set_routers_of_ne hr, hcosts]
    · intro p
      obtain ⟨rest, hedits, hrest⟩ := horder p
      by_cases hp : p = myid
      · subst hp
        refine ⟨rest ++ [e], ?_, ?_⟩
        · rw [editsOf_append_self s.edits e, hedits, List.append_assoc]
        · have hmore := hstream p r
          rw [if_pos ⟨rfl, hr⟩, hrest, hpacket] at hmore
          exact hmore.trans (by simp)
      · have hne : e.editor ≠ p := fun heq => hp heq.symm
        have hsame := hstream p r
        rw [if_neg fun hboth => hp hboth.1] at hsame
        exact ⟨rest, by rw [editsOf_append_of_ne hne, hedits], hsame.trans hrest⟩

/-- Storing moves the oldest edit on its way from the sender into the history. -/
theorem System.History.store (hN : N ≤ 2 ^ 31) {tables : Fin N → Costs N}
    (hstep : s.step rounds (.store myid) = some t) (r : Fin N)
    (h : ∃ log, s.History (tables r) r log) : ∃ log, t.History (tables r) r log := by
  obtain ⟨sender, packet, n0, n1, n2, hdecode, hstream, hother, hcosts, hcosts', hedits⟩ :=
    System.store_cases hstep
  obtain ⟨log, hlog⟩ := h
  by_cases hr : r = myid
  · subst hr
    obtain ⟨rest, hrest, hqueue⟩ := hlog.order sender
    rw [hstream] at hqueue
    cases rest with
    | nil => simp at hqueue
    | cons e rest =>
        rw [List.map_cons] at hqueue
        obtain ⟨rfl, htail⟩ := List.cons.inj hqueue
        rw [e.decode_packet hN] at hdecode
        obtain ⟨rfl, rfl, rfl⟩ := hdecode
        have hmem : e ∈ editsOf sender s.edits := by simp [hrest]
        have heditor := editor_of_mem_editsOf hmem
        refine ⟨log ++ [e], ?_, ?_⟩
        · rw [hcosts, hlog.costs, Costs.replay_append_singleton]
        · intro p
          by_cases hp : p = sender
          · subst hp
            refine ⟨rest, ?_, htail⟩
            rw [hedits, hrest, ← heditor, editsOf_append_self, List.append_assoc]
            rfl
          · have hne : e.editor ≠ p := fun heq => hp (heq.symm.trans heditor)
            rw [hedits, editsOf_append_of_ne hne, hother p r fun hboth => hp hboth.1]
            exact hlog.order p
  · exact ⟨log, hlog.congr (hcosts' r hr) (fun p => hother p r fun hboth => hr hboth.2) hedits⟩

theorem System.History.step (hN : N ≤ 2 ^ 31) {tables : Fin N → Costs N} (htraced : s.Traced)
    {a : SystemAction N} (hstep : s.step rounds a = some t) (r : Fin N)
    (h : ∃ log, s.History (tables r) r log) : ∃ log, t.History (tables r) r log := by
  cases a with
  | enter myid id cost =>
      rcases System.enter_cases hstep with
        ⟨hcosts, hstream, hedits⟩ | ⟨i, peer, hmain, hpeer, _, rfl⟩
      · obtain ⟨log, hlog⟩ := h
        exact ⟨log, hlog.congr (hcosts r) (fun p => hstream p r) hedits⟩
      · exact History.edit hN htraced hmain hpeer _ r h
  | send myid =>
      obtain ⟨log, hlog⟩ := h
      obtain ⟨hcosts, hedits⟩ := System.frame_of_send hstep
      exact ⟨log, hlog.congr (hcosts r) (fun p => System.stream_send hstep p r) hedits⟩
  | recv myid sender =>
      obtain ⟨log, hlog⟩ := h
      obtain ⟨hcosts, hedits⟩ := System.frame_of_recv hstep
      exact ⟨log, hlog.congr (hcosts r) (fun p => System.stream_recv hstep p r) hedits⟩
  | store myid => exact History.store hN hstep r h

theorem System.history_of_run (hN : N ≤ 2 ^ 31) {tables : Fin N → Costs N}
    {es : List (SystemAction N)}
    (h : Run (System.step rounds) (fun _ _ => True) (.boot tables) es s) (r : Fin N) :
    ∃ log, s.History (tables r) r log := by
  have hboth : s.Traced ∧ ∃ log, s.History (tables r) r log := by
    refine h.invariant (P := fun s => s.Traced ∧ ∃ log, s.History (tables r) r log) ?_ ?_
    · rintro s a t ⟨htraced, hlog⟩ _ hstep
      exact ⟨htraced.step hN hstep, History.step hN htraced hstep r hlog⟩
    · refine ⟨System.boot_traced tables, [], rfl, fun p => ⟨[], rfl, ?_⟩⟩
      simp [System.boot, System.stream, Router.received, Router.unsent]
  exact hboth.2

/-- A history is complete when nothing is on its way to the router any more. -/
theorem System.History.perm_iff {table : Costs N} {r : Fin N} {log : List (Edit N)}
    (h : s.History table r log) : s.edits.Perm log ↔ ∀ p, s.stream p r = [] := by
  constructor
  · intro hperm p
    obtain ⟨rest, hrest, hqueue⟩ := h.order p
    have hlength := (hperm.filter fun e => e.editor = p).length_eq
    change (editsOf p s.edits).length = (editsOf p log).length at hlength
    rw [hrest, List.length_append] at hlength
    obtain rfl : rest = [] := List.length_eq_zero_iff.mp (by omega)
    exact hqueue
  · intro hquiet
    refine (perm_of_editsOf fun p => ?_).symm
    obtain ⟨rest, hrest, hqueue⟩ := h.order p
    rw [hquiet p] at hqueue
    rw [hrest, List.map_eq_nil_iff.mp hqueue.symm, List.append_nil]

/-- In any run, the table of a router is the one it started with after a replay of edits.
Those of one editor are replayed in the order in which they were made, each once, and the
ones that are missing are on their way to the router. -/
theorem replayed_in_order (rounds : ℕ) (hN : N ≤ 2 ^ 31) (tables : Fin N → Costs N)
    (es : List (SystemAction N)) (s : System N)
    (h : Run (System.step rounds) (fun _ _ => True) (.boot tables) es s) (r : Fin N) :
    ∃ log : List (Edit N),
      (s.routers r).costs = (tables r).replay log ∧
      (∀ p, ∃ rest, editsOf p s.edits = editsOf p log ++ rest ∧
        s.stream p r = rest.map Edit.packet) ∧
      (s.edits.Perm log ↔ ∀ p, s.stream p r = []) := by
  obtain ⟨log, hlog⟩ := System.history_of_run hN h r
  exact ⟨log, hlog.costs, hlog.order, hlog.perm_iff⟩

/-- Two routers edit the same link at once, and both edits have reached a third. -/
theorem replayed_in_order_crossed :
    ∃ (es : List (SystemAction 3)) (s : System 3) (log : List (Edit 3)),
      Run (System.step 3) (fun _ _ => True) (.boot fun _ _ _ => 1) es s ∧
      (s.routers 2).costs = Costs.replay (fun _ _ => 1) log ∧ s.edits.Perm log ∧
      s.edits.length = 2 := by
  let es : List (SystemAction 3) := List.flatten
    [[.enter 0 1 5, .enter 1 0 7], List.replicate 4 (.send 0), List.replicate 4 (.send 1),
      [.recv 2 1, .store 2, .recv 2 0, .store 2]]
  obtain ⟨s, hrun, hobs⟩ : ∃ s, Run (System.step 3) (fun _ _ => True)
      (.boot fun _ _ _ => 1) es s ∧ (s.edits.length = 2 ∧ ∀ p, s.stream p 2 = []) := by
    let s : System 3 := (exec (System.step 3) (.boot fun _ _ _ => 1) es).get (by decide +kernel)
    exact ⟨s, .of_get (fun _ _ _ => trivial) _, by decide +kernel, by decide +kernel⟩
  obtain ⟨log, hcosts, _, hperm⟩ := replayed_in_order 3 (by decide) _ es s hrun 2
  exact ⟨es, s, log, hrun, hcosts, hperm.mpr hobs.2, hobs.1⟩

/-! ## Edits -/

/-- A step records the edit that it makes. -/
theorem System.edits_cases {a : SystemAction N} (h : s.step rounds a = some t) :
    t.edits = s.edits ∨
      ∃ id e, a = .enter e.editor id e.cost ∧ t.edits = s.edits ++ [e] := by
  cases a with
  | enter myid id cost =>
      rcases System.enter_cases h with ⟨_, _, hedits⟩ | ⟨i, peer, _, _, _, rfl⟩
      · exact .inl hedits
      · exact .inr ⟨id, ⟨myid, peer, cost, decide (s.Contested myid peer)⟩, rfl, rfl⟩
  | send myid => exact .inl (System.frame_of_send h).2
  | recv myid sender => exact .inl (System.frame_of_recv h).2
  | store myid =>
      obtain ⟨_, _, _, _, _, _, _, _, _, _, hedits⟩ := System.store_cases h
      exact .inl hedits

end NetLabs.LinkState
