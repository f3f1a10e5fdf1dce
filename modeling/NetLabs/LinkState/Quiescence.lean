import NetLabs.LinkState.Agreement
import NetLabs.LinkState.History

/-! # The routers come to rest

Every edit is announced once and nothing that arrives is passed on. The steps that are left
are counted: those of every `main`, and two for each packet that is sent. -/

namespace NetLabs.LinkState

open Machine

variable {N rounds : ℕ} {s t : System N} {myid : Fin N}

/-! ## The steps that are left -/

/-- The steps of `main`, and of those who receive what it sends. -/
def MainStage.left (rounds N : ℕ) : MainStage → ℕ
  | .prompt i => (rounds - i) * (3 * N + 2)
  | .sending i _ j => (rounds - (i + 1)) * (3 * N + 2) + 3 * (N - j) + 1
  | .past => 0

def Router.left (rounds : ℕ) (router : Router N) : ℕ :=
  router.main.left rounds N + router.buf.toList.length

def System.left (rounds : ℕ) (s : System N) : ℕ :=
  ∑ r, (s.routers r).left rounds + 2 * ∑ p, ∑ q, (s.chan p q).length

theorem left_of_turn {i : ℕ} (hi : i < rounds) :
    (rounds - i) * (3 * N + 2) = (rounds - (i + 1)) * (3 * N + 2) + (3 * N + 2) := by
  rw [← Nat.succ_mul]
  congr 1
  omega

theorem System.left_set (rounds : ℕ) (s : System N) (myid : Fin N) (router : Router N) :
    (s.set myid router).left rounds + (s.routers myid).left rounds =
      s.left rounds + router.left rounds := by
  have hsum := sum_apply_update (Router.left rounds) s.routers myid router
  simp only [System.left, System.set]
  omega

theorem System.left_setChan (rounds : ℕ) (s : System N) (sender receiver : Fin N)
    (packets : List Packet) :
    (s.setChan sender receiver packets).left rounds + 2 * (s.chan sender receiver).length =
      s.left rounds + 2 * packets.length := by
  have houter := sum_apply_update (fun row : Fin N → List Packet => ∑ q, (row q).length)
    s.chan sender (Function.update (s.chan sender) receiver packets)
  have hinner := sum_apply_update List.length (s.chan sender) receiver packets
  simp only [System.left, System.setChan] at *
  omega

/-- A step of a router that keeps its channels is one step less. -/
theorem System.left_set_lt {router : Router N}
    (h : router.left rounds < (s.routers myid).left rounds) :
    (s.set myid router).left rounds < s.left rounds := by
  have := System.left_set rounds s myid router
  omega

theorem System.left_of_enter {id cost : Int32}
    (h : s.step rounds (.enter myid id cost) = some t) : t.left rounds < s.left rounds := by
  simp only [System.step] at h
  split at h
  case h_1 i hmain =>
      split at h
      case isTrue hi =>
          have hleft : (rounds - i) * (3 * N + 2) = _ := left_of_turn hi
          split at h
          case isTrue =>
              obtain rfl := Option.some.inj h
              apply System.left_set_lt
              simp only [Router.left, hmain, MainStage.left]
              omega
          case isFalse =>
              obtain ⟨peer, _, rfl⟩ := Option.map_eq_some_iff.mp h
              apply System.left_set_lt (s := s)
              simp only [Router.left, Router.edit, hmain, MainStage.left]
              omega
      case isFalse => simp at h
  case h_2 => simp at h

theorem System.left_of_send (h : s.step rounds (.send myid) = some t) :
    t.left rounds < s.left rounds := by
  simp only [System.step] at h
  split at h
  case h_1 i packet j hmain =>
      split at h
      case isTrue hj =>
          have hset := System.left_set rounds s myid
            { s.routers myid with main := .sending i packet (j + 1) }
          simp only [Router.left, hmain, MainStage.left] at hset
          split at h <;> obtain rfl := Option.some.inj h
          case isTrue hpeer =>
              have hchan := System.left_setChan rounds
                (s.set myid { s.routers myid with main := .sending i packet (j + 1) }) myid
                ⟨j, hj⟩ (s.chan myid ⟨j, hj⟩ ++ [packet])
              simp only [System.set, List.length_append, List.length_singleton] at hchan hset ⊢
              omega
          case isFalse => omega
      case isFalse hj =>
          obtain rfl := Option.some.inj h
          apply System.left_set_lt
          simp only [Router.left, hmain, MainStage.left]
          omega
  case h_2 => simp at h

theorem System.left_of_recv {sender : Fin N} (h : s.step rounds (.recv myid sender) = some t) :
    t.left rounds < s.left rounds := by
  simp only [System.step] at h
  split at h
  case h_1 packet rest hbuf hchan =>
      obtain rfl := Option.some.inj h
      have hset := System.left_set rounds s myid
        { s.routers myid with buf := some (sender, packet) }
      have htake := System.left_setChan rounds
        (s.set myid { s.routers myid with buf := some (sender, packet) }) sender myid rest
      simp only [Router.left, hbuf, System.set, hchan, Option.toList_some, Option.toList_none,
        List.length_cons, List.length_nil] at hset htake ⊢
      omega
  case h_2 => simp at h

theorem System.left_of_store (h : s.step rounds (.store myid) = some t) :
    t.left rounds < s.left rounds := by
  obtain ⟨router, hstore, rfl⟩ := Option.map_eq_some_iff.mp h
  apply System.left_set_lt
  unfold Router.store at hstore
  split at hstore
  case h_1 sender packet hbuf =>
      obtain ⟨_, _, rfl⟩ := Option.map_eq_some_iff.mp hstore
      simp [Router.left, hbuf]
  case h_2 => simp at hstore

theorem System.left_of_step {a : SystemAction N} (h : s.step rounds a = some t) :
    t.left rounds < s.left rounds := by
  cases a with
  | enter myid id cost => exact System.left_of_enter h
  | send myid => exact System.left_of_send h
  | recv myid sender => exact System.left_of_recv h
  | store myid => exact System.left_of_store h

theorem System.left_boot (tables : Fin N → Costs N) :
    (System.boot tables).left rounds = N * (rounds * (3 * N + 2)) := by
  simp [System.left, System.boot, Router.left, MainStage.left]

/-! ## Where no step is left -/

/-- Nobody answers at a keyboard. -/
def SystemAction.Unattended : SystemAction N → Prop
  | .enter _ _ _ => False
  | _ => True

/-- As long as something is on its way, somebody can move it on. -/
theorem System.quiet_of_stuck (hN : N ≤ 2 ^ 31) (htraced : s.Traced)
    (hstuck : Stuck (System.step rounds) (fun _ a => a.Unattended) s) : s.Quiet := by
  have hbuf : ∀ q, (s.routers q).buf = none := by
    intro q
    by_contra hbuf
    have hready : s.Ready rounds (.store q) := hbuf
    obtain ⟨t, hstep, _⟩ := htraced.guarded_store hN hready
    have hnone := hstuck (.store q) trivial
    simp [hnone] at hstep
  have hchan : ∀ p q, s.chan p q = [] := by
    intro p q
    by_contra hmore
    have hready : s.Ready rounds (.recv q p) := ⟨hbuf q, hmore⟩
    obtain ⟨t, hstep, _⟩ := System.guarded_recv hready
    have hnone := hstuck (.recv q p) trivial
    simp [hnone] at hstep
  have hmain : ∀ p i packet j, (s.routers p).main ≠ .sending i packet j := by
    intro p i packet j hsending
    have hready : s.Ready rounds (.send p) := ⟨i, packet, j, hsending⟩
    obtain ⟨t, hstep, _⟩ := System.guarded_send hready
    have hnone := hstuck (.send p) trivial
    simp [hnone] at hstep
  intro p q
  have hunsent : (s.routers p).unsent p q = [] := by
    unfold Router.unsent
    split
    case h_1 i packet j hsending => exact (hmain p i packet j hsending).elim
    case h_2 => rfl
  simp [System.stream, Router.received, hbuf q, hchan p q, hunsent]

/-- Without an answer at a keyboard no edit is made. -/
theorem System.edits_of_unattended {es : List (SystemAction N)}
    (h : Run (System.step rounds) (fun _ a => a.Unattended) s es t) : t.edits = s.edits := by
  refine h.invariant (P := fun t => t.edits = s.edits) ?_ rfl
  intro t a u ht hattended hstep
  rcases System.edits_cases hstep with hedits | ⟨id, e, rfl, _⟩
  · exact hedits.trans ht
  · exact hattended.elim

/-- The routers together make at most `N * (rounds * (3 * N + 2))` steps. At any moment, if
nothing more is entered, they come to rest in whatever order they go on, and then nothing is
on its way. Each table is a replay of all edits, and all are equal if they started symmetric
and no link's last edit was contested. -/
theorem comes_to_rest (rounds : ℕ) (initial : Costs N) (hN : N ≤ 2 ^ 31)
    (es : List (SystemAction N)) (s : System N)
    (h : Run (System.step rounds) (fun _ _ => True) (.start initial) es s) :
    es.length ≤ N * (rounds * (3 * N + 2)) ∧
    Ends (System.step rounds) (fun _ a => a.Unattended) s fun t =>
      t.Quiet ∧ t.edits = s.edits ∧
      (∀ r, ∃ log, s.edits.Perm log ∧ (t.routers r).costs = initial.replay log) ∧
      ((∀ i j, initial i j = initial j i) →
        (∀ i j, ∀ e ∈ lastEdit s.edits i j, e.contested = false) →
        ∀ r, (t.routers r).costs = overlay initial s.edits) := by
  have hstart : (System.start initial).left rounds = N * (rounds * (3 * N + 2)) :=
    System.left_boot fun _ => initial
  refine ⟨?_, ⟨s.left rounds, ?_⟩, ?_⟩
  · rw [← hstart]
    exact h.length_le (P := fun _ => True) (fun _ _ _ _ _ _ => trivial)
      (fun _ _ _ _ _ hstep => System.left_of_step hstep) trivial
  · intro fs t hrun
    exact hrun.length_le (P := fun _ => True) (fun _ _ _ _ _ _ => trivial)
      (fun _ _ _ _ _ hstep => System.left_of_step hstep) trivial
  · intro fs t hrun hstuck
    have hall : Run (System.step rounds) (fun _ _ => True) (.start initial) (es ++ fs) t :=
      h.trans (hrun.mono fun _ _ _ => trivial)
    have hboot : Run (System.step rounds) (fun _ _ => True) (.boot fun _ => initial)
      (es ++ fs) t := hall
    have hedits := System.edits_of_unattended hrun
    have hquiet := System.quiet_of_stuck hN (System.traced_of_run hN hboot) hstuck
    refine ⟨hquiet, hedits, ?_, ?_⟩
    · intro r
      obtain ⟨log, hlog⟩ := System.history_of_run hN hboot r
      exact ⟨log, hedits ▸ hlog.perm_iff.mpr fun p => hquiet p r, hlog.costs⟩
    · intro hsymm hfree r
      rw [← hedits] at hfree ⊢
      obtain ⟨d, hrefines, _, hsettled⟩ := System.exists_database hN hsymm hall
      exact hrefines.costs_eq hsettled hquiet hfree r

/-- Router 0 has entered an edit and has sent nothing yet. -/
theorem comes_to_rest_unsent :
    ∃ s : System 3, Run (System.step 2) (fun _ _ => True) (.start fun _ _ => 1)
        [.enter 0 1 5] s ∧
      Ends (System.step 2) (fun _ a => a.Unattended) s fun t =>
        ∀ r, (t.routers r).costs 1 0 = 5 := by
  let s : System 3 := (exec (System.step 2) (.start fun _ _ => 1) [.enter 0 1 5]).get
    (by decide +kernel)
  have hrun : Run (System.step 2) (fun _ _ => True) (.start fun _ _ => 1) [.enter 0 1 5] s :=
    .of_get (fun _ _ _ => trivial) _
  have hfree : ∀ e ∈ s.edits, e.contested = false := by decide +kernel
  obtain ⟨_, hbound, hends⟩ := comes_to_rest 2 (fun _ _ => 1) (by decide) _ s hrun
  refine ⟨s, hrun, hbound, fun fs t hfs hstuck r => ?_⟩
  obtain ⟨_, _, _, hequal⟩ := hends fs t hfs hstuck
  rw [hequal (fun _ _ => rfl) (fun _ _ e he => hfree e (mem_of_lastEdit he)) r]
  decide +kernel

end NetLabs.LinkState
