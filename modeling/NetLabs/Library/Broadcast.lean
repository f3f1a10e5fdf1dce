import Mathlib.Data.Fintype.Basic
import NetLabs.Library.Machine

/-! # Writes broadcast over queues

Every process holds a copy of the same registers. A write changes the writer's own copy at
once and travels to each other process over a queue of its own; nothing orders the writes of
different processes. -/

namespace NetLabs.Broadcast

open Machine

variable {P K V : Type*}

/-- A write is contested when, at that moment, another process's write to the same register
is still on its way. -/
structure Write (P K V : Type*) where
  writer : P
  key : K
  value : V
  contested : Bool

/-- `queue p q` holds the writes of `p` that `q` has not applied yet. -/
structure State (P K V : Type*) where
  value : P → K → V
  queue : P → P → List (K × V)
  log : List (Write P K V)

inductive Action (P K V : Type*) where
  | write (p : P) (k : K) (v : V)
  | apply (p q : P)

def State.start (initial : K → V) : State P K V :=
  { value := fun _ => initial, queue := fun _ _ => [], log := [] }

def State.Contested (s : State P K V) (p : P) (k : K) : Prop :=
  ∃ q, q ≠ p ∧ ∃ t, k ∈ (s.queue q t).map Prod.fst

def State.Quiet (s : State P K V) : Prop :=
  ∀ p q, s.queue p q = []

variable {s t : State P K V}

/-- Whatever is on its way was written, and a contested write has a rival. -/
structure State.Logged (s : State P K V) : Prop where
  own : ∀ p, s.queue p p = []
  queued : ∀ p q, ∀ u ∈ s.queue p q, ∃ w ∈ s.log, w.writer = p ∧ w.key = u.1
  rival : ∀ w ∈ s.log, w.contested = true →
    ∃ w' ∈ s.log, w'.key = w.key ∧ w'.writer ≠ w.writer

/-- Where no register has two writers, no write is contested. -/
theorem State.Logged.uncontested (h : s.Logged)
    (hsingle : ∀ w ∈ s.log, ∀ w' ∈ s.log, w'.key = w.key → w'.writer = w.writer)
    {w : Write P K V} (hw : w ∈ s.log) : w.contested = false := by
  by_contra hcontested
  obtain ⟨w', hw', hkey, hne⟩ := h.rival w hw (by simpa using hcontested)
  exact hne (hsingle w hw w' hw' hkey)

section Register

variable [DecidableEq K]

def lastWrite (log : List (Write P K V)) (k : K) : Option (Write P K V) :=
  (log.filter fun w => w.key = k).getLast?

/-- The value of register `k` once `writes` have been applied to a copy where it is `v`. -/
def latest (k : K) (writes : List (K × V)) (v : V) : V :=
  writes.foldl (fun v u => if u.1 = k then u.2 else v) v

theorem latest_append_self (k : K) (writes : List (K × V)) (v v' : V) :
    latest k (writes ++ [(k, v')]) v = v' := by
  simp [latest]

theorem latest_append_of_ne {k k' : K} (hne : k' ≠ k) (writes : List (K × V)) (v v' : V) :
    latest k (writes ++ [(k', v')]) v = latest k writes v := by
  simp [latest, hne]

theorem latest_cons (k k' : K) (writes : List (K × V)) (v v' : V) :
    latest k ((k', v') :: writes) v = latest k writes (if k' = k then v' else v) :=
  rfl

theorem latest_of_not_mem {k : K} {writes : List (K × V)} (h : k ∉ writes.map Prod.fst) (v : V) :
    latest k writes v = v := by
  induction writes generalizing v with
  | nil => rfl
  | cons u writes ih =>
      simp only [List.map_cons, List.mem_cons, not_or] at h
      rw [← Prod.mk.eta (p := u), latest_cons, if_neg (Ne.symm h.1)]
      exact ih h.2 v

theorem lastWrite_append_self (log : List (Write P K V)) (w : Write P K V) :
    lastWrite (log ++ [w]) w.key = some w := by
  simp [lastWrite, List.filter_append]

theorem lastWrite_append_of_ne {k : K} {w : Write P K V} (hne : w.key ≠ k)
    (log : List (Write P K V)) : lastWrite (log ++ [w]) k = lastWrite log k := by
  simp [lastWrite, List.filter_append, hne]

theorem mem_of_lastWrite {log : List (Write P K V)} {k : K} {w : Write P K V}
    (h : lastWrite log k = some w) : w ∈ log ∧ w.key = k := by
  have hmem := List.mem_filter.mp (List.mem_of_getLast? h)
  exact ⟨hmem.1, of_decide_eq_true hmem.2⟩

theorem lastWrite_ne_none {log : List (Write P K V)} {w : Write P K V} (h : w ∈ log) :
    lastWrite log w.key ≠ none := by
  intro hnone
  have hnil := List.getLast?_eq_none_iff.mp hnone
  have hmem : w ∈ log.filter fun w' => w'.key = w.key := List.mem_filter.mpr ⟨h, by simp⟩
  simp [hnil] at hmem

/-- Every copy will hold the value of `w`, and no other write to its register is on its
way. -/
structure State.Leads (s : State P K V) (w : Write P K V) : Prop where
  latest : ∀ q, latest w.key (s.queue w.writer q) (s.value q w.key) = w.value
  uncontested : ¬ s.Contested w.writer w.key

/-- A copy has the value of a write that leads once no write of the same writer to the register
is on its way there. -/
theorem State.Leads.value_eq {w : Write P K V} (h : s.Leads w) {p : P}
    (hnone : w.key ∉ (s.queue w.writer p).map Prod.fst) : s.value p w.key = w.value := by
  rw [← h.latest p, latest_of_not_mem hnone]

def State.Settled (initial : K → V) (s : State P K V) : Prop :=
  ∀ k, match lastWrite s.log k with
    | none => ∀ p, s.value p k = initial k
    | some w => w.contested = false → s.Leads w

/-- A copy may hold another value than the last one written to a register only as long as a
write to it is on its way there, if the last one was not contested. -/
theorem State.Settled.value_eq_or {initial : K → V} (h : s.Settled initial) {k : K}
    (hfree : ∀ w, lastWrite s.log k = some w → w.contested = false) (p : P) :
    s.value p k = ((lastWrite s.log k).map Write.value).getD (initial k) ∨
      ∃ q, k ∈ (s.queue q p).map Prod.fst := by
  have hk := h k
  cases hcase : lastWrite s.log k with
  | none =>
      simp only [hcase] at hk
      exact .inl (hk p)
  | some w =>
      simp only [hcase] at hk
      obtain ⟨_, rfl⟩ := mem_of_lastWrite hcase
      by_cases hmem : w.key ∈ (s.queue w.writer p).map Prod.fst
      · exact .inr ⟨w.writer, hmem⟩
      · exact .inl ((hk (hfree w hcase)).value_eq hmem)

/-- Of the writes that came after the first `n`, those that are the last ones to their register
lead, if they were not contested. What the copies held before does not matter. -/
def State.LedSince (n : ℕ) (s : State P K V) : Prop :=
  n ≤ s.log.length ∧
    ∀ k w, lastWrite (s.log.drop n) k = some w → w.contested = false → s.Leads w

theorem State.ledSince_length (s : State P K V) : s.LedSince s.log.length :=
  ⟨le_rfl, by simp [lastWrite]⟩

/-- When nothing is on its way, every copy holds the last value written to a register, if
that write was not contested. -/
theorem State.Settled.value_eq {initial : K → V} (h : s.Settled initial) (hquiet : s.Quiet)
    {k : K} (hfree : ∀ w, lastWrite s.log k = some w → w.contested = false) (p : P) :
    s.value p k = ((lastWrite s.log k).map Write.value).getD (initial k) := by
  have hk := h k
  cases hcase : lastWrite s.log k with
  | none =>
      simp only [hcase] at hk
      exact hk p
  | some w =>
      simp only [hcase] at hk
      obtain ⟨_, rfl⟩ := mem_of_lastWrite hcase
      have hlatest := (hk (hfree w hcase)).latest p
      rwa [hquiet] at hlatest

end Register

/-! ## Steps -/

variable [DecidableEq K] [DecidableEq P] [Fintype P]

instance (s : State P K V) (p : P) (k : K) : Decidable (s.Contested p k) :=
  inferInstanceAs (Decidable (∃ _, _))

def State.write (s : State P K V) (p : P) (k : K) (v : V) : State P K V where
  value := Function.update s.value p (Function.update (s.value p) k v)
  queue := fun q t => if q = p ∧ t ≠ p then s.queue q t ++ [(k, v)] else s.queue q t
  log := s.log ++ [⟨p, k, v, decide (s.Contested p k)⟩]

def State.step (s : State P K V) : Action P K V → Option (State P K V)
  | .write p k v => some (s.write p k v)
  | .apply p q =>
      match s.queue p q with
      | [] => none
      | (k, v) :: rest =>
          some { s with
            value := Function.update s.value q (Function.update (s.value q) k v)
            queue := Function.update s.queue p (Function.update (s.queue p) q rest) }

/-! ## What the queues hold -/

theorem State.Logged.write (h : s.Logged) (p : P) (k : K) (v : V) : (s.write p k v).Logged := by
  have hmono : ∀ w ∈ s.log, w ∈ (s.write p k v).log := fun w hw => List.mem_append_left _ hw
  refine ⟨?_, ?_, ?_⟩
  · intro q
    by_cases hq : q = p <;> simp [State.write, hq, h.own]
  · intro q r u hu
    have hold : u ∈ s.queue q r → ∃ w ∈ (s.write p k v).log, w.writer = q ∧ w.key = u.1 := by
      intro hu
      obtain ⟨w, hw, hwriter, hkey⟩ := h.queued q r u hu
      exact ⟨w, hmono w hw, hwriter, hkey⟩
    by_cases hq : q = p ∧ r ≠ p
    · simp only [State.write, if_pos hq, List.mem_append, List.mem_singleton] at hu
      rcases hu with hu | rfl
      · exact hold hu
      · exact ⟨_, List.mem_append_right _ (List.mem_singleton.mpr rfl), hq.1.symm, rfl⟩
    · simp only [State.write, if_neg hq] at hu
      exact hold hu
  · intro w hw hcontested
    rcases List.mem_append.mp hw with hw | hw
    · obtain ⟨w', hw', hrival⟩ := h.rival w hw hcontested
      exact ⟨w', hmono w' hw', hrival⟩
    · obtain rfl := List.mem_singleton.mp hw
      obtain ⟨q, hq, r, hmem⟩ := of_decide_eq_true hcontested
      obtain ⟨u, hu, hkey⟩ := List.mem_map.mp hmem
      obtain ⟨w', hw', hwriter, hkey'⟩ := h.queued q r u hu
      exact ⟨w', hmono w' hw', hkey'.trans hkey, hwriter ▸ hq⟩

/-- The step that applies a write, in terms of the queues. -/
theorem State.apply_cases {p q : P} (h : s.step (.apply p q) = some t) :
    ∃ k v rest, s.queue p q = (k, v) :: rest ∧ t.log = s.log ∧
      t.value = Function.update s.value q (Function.update (s.value q) k v) ∧
      t.queue = Function.update s.queue p (Function.update (s.queue p) q rest) := by
  simp only [State.step] at h
  split at h
  · simp at h
  · rename_i k v rest hqueue
    obtain rfl := Option.some.inj h
    exact ⟨k, v, rest, hqueue, rfl, rfl, rfl⟩

/-- Applying a write only shortens queues. -/
theorem State.mem_of_apply {p q : P} (h : s.step (.apply p q) = some t) {a b : P}
    {u : K × V} (hu : u ∈ t.queue a b) : u ∈ s.queue a b := by
  obtain ⟨k, v, rest, hqueue, _, _, hafter⟩ := State.apply_cases h
  rw [hafter] at hu
  by_cases ha : a = p
  · subst ha
    rw [Function.update_self] at hu
    by_cases hb : b = q
    · subst hb
      rw [Function.update_self] at hu
      rw [hqueue]
      exact List.mem_cons_of_mem _ hu
    · rwa [Function.update_of_ne hb] at hu
  · rwa [Function.update_of_ne ha] at hu

theorem State.Logged.apply (h : s.Logged) {p q : P} (hstep : s.step (.apply p q) = some t) :
    t.Logged := by
  obtain ⟨_, _, _, _, hlog, _, _⟩ := State.apply_cases hstep
  refine ⟨?_, ?_, hlog ▸ h.rival⟩
  · intro a
    refine List.eq_nil_iff_forall_not_mem.mpr fun u hu => ?_
    have hmem := State.mem_of_apply hstep hu
    simp [h.own] at hmem
  · intro a b u hu
    rw [hlog]
    exact h.queued a b u (State.mem_of_apply hstep hu)

/-! ## The last write wins unless it is contested -/

theorem State.Leads.write_self (hown : ∀ q, s.queue q q = []) {p : P} {k : K} (v : V)
    (h : ¬ s.Contested p k) (contested : Bool) :
    (s.write p k v).Leads ⟨p, k, v, contested⟩ := by
  refine ⟨?_, ?_⟩
  · intro q
    by_cases hq : q = p
    · subst hq
      simp [State.write, hown, Broadcast.latest]
    · simp only [State.write, hq, ne_eq, not_false_eq_true, and_self, if_true]
      exact latest_append_self k _ _ v
  · rintro ⟨q, hq, r, hmem⟩
    have hne : ¬ (q = p ∧ r ≠ p) := fun heq => hq heq.1
    simp only [State.write, if_neg hne] at hmem
    exact h ⟨q, hq, r, hmem⟩

theorem State.Leads.write_of_ne {w : Write P K V} (h : s.Leads w) {k : K} (hne : k ≠ w.key)
    (p : P) (v : V) : (s.write p k v).Leads w := by
  refine ⟨?_, ?_⟩
  · intro q
    have hvalue : (s.write p k v).value q w.key = s.value q w.key := by
      by_cases hq : q = p
      · subst hq
        simp [State.write, hne.symm]
      · simp [State.write, hq]
    rw [hvalue, ← h.latest q]
    by_cases hq : w.writer = p ∧ q ≠ p
    · simp only [State.write, if_pos hq]
      exact latest_append_of_ne hne _ _ v
    · simp only [State.write, if_neg hq]
  · rintro ⟨q, hq, r, hmem⟩
    refine h.uncontested ⟨q, hq, r, ?_⟩
    by_cases hqr : q = p ∧ r ≠ p
    · simp only [State.write, if_pos hqr, List.map_append, List.mem_append, List.map_cons,
        List.map_nil, List.mem_singleton, hne.symm, or_false] at hmem
      exact hmem
    · simpa only [State.write, if_neg hqr] using hmem

theorem State.Leads.apply {w : Write P K V} (h : s.Leads w) {p q : P}
    (hstep : s.step (.apply p q) = some t) : t.Leads w := by
  refine ⟨?_, ?_⟩
  · intro r
    obtain ⟨k, v, rest, hqueue, _, hvalue, hafter⟩ := State.apply_cases hstep
    have hlatest := h.latest r
    rw [hvalue, hafter]
    by_cases hr : r = q
    · subst hr
      rw [Function.update_self]
      by_cases hp : w.writer = p
      · subst hp
        rw [hqueue, latest_cons] at hlatest
        rw [Function.update_self, Function.update_self, ← hlatest]
        by_cases hk : k = w.key
        · simp [hk]
        · simp [hk, Function.update_of_ne (Ne.symm hk)]
      · have hk : w.key ≠ k := by
          rintro heq
          exact h.uncontested ⟨p, Ne.symm hp, r, by simp [hqueue, heq]⟩
        rw [Function.update_of_ne hp, Function.update_of_ne hk, hlatest]
    · rw [Function.update_of_ne hr]
      by_cases hp : w.writer = p
      · subst hp
        rw [Function.update_self, Function.update_of_ne hr, hlatest]
      · rw [Function.update_of_ne hp, hlatest]
  · rintro ⟨a, ha, b, hmem⟩
    obtain ⟨u, hu, hkey⟩ := List.mem_map.mp hmem
    exact h.uncontested
      ⟨a, ha, b, List.mem_map.mpr ⟨u, State.mem_of_apply hstep hu, hkey⟩⟩

theorem State.Settled.write {initial : K → V} (h : s.Settled initial) (hlogged : s.Logged)
    (p : P) (k : K) (v : V) : (s.write p k v).Settled initial := by
  intro k'
  have hk' := h k'
  by_cases hk : k = k'
  · subst hk
    have hlast : lastWrite (s.write p k v).log k =
        some ⟨p, k, v, decide (s.Contested p k)⟩ := lastWrite_append_self s.log _
    rw [hlast]
    exact fun hfree => .write_self hlogged.own v (of_decide_eq_false hfree) _
  · have hlast : lastWrite (s.write p k v).log k' = lastWrite s.log k' :=
      lastWrite_append_of_ne hk s.log
    rw [hlast]
    cases hcase : lastWrite s.log k' with
    | none =>
        simp only [hcase] at hk'
        intro q
        rw [← hk' q]
        by_cases hq : q = p
        · subst hq
          simp [State.write, Ne.symm hk]
        · simp [State.write, hq]
    | some w =>
        simp only [hcase] at hk'
        obtain ⟨_, rfl⟩ := mem_of_lastWrite hcase
        exact fun hfree => (hk' hfree).write_of_ne hk p v

theorem State.Settled.apply {initial : K → V} (h : s.Settled initial) (hlogged : s.Logged)
    {p q : P} (hstep : s.step (.apply p q) = some t) : t.Settled initial := by
  intro k'
  have hk' := h k'
  obtain ⟨k, v, rest, hqueue, hlog, hvalue, _⟩ := State.apply_cases hstep
  rw [hlog]
  cases hcase : lastWrite s.log k' with
  | none =>
      simp only [hcase] at hk'
      have hk : k' ≠ k := by
        rintro rfl
        obtain ⟨w, hw, _, hkey⟩ := hlogged.queued p q (k', v) (by simp [hqueue])
        exact lastWrite_ne_none hw (hkey ▸ hcase)
      intro r
      rw [hvalue, ← hk' r]
      by_cases hr : r = q
      · subst hr
        rw [Function.update_self, Function.update_of_ne hk]
      · rw [Function.update_of_ne hr]
  | some w =>
      simp only [hcase] at hk'
      exact fun hfree => (hk' hfree).apply hstep

theorem State.LedSince.step {n : ℕ} (h : s.LedSince n) (hown : ∀ p, s.queue p p = [])
    {a : Action P K V} (hstep : s.step a = some t) : t.LedSince n := by
  obtain ⟨hn, hleads⟩ := h
  cases a with
  | write p k v =>
      obtain rfl := Option.some.inj hstep
      have hdrop : (s.write p k v).log.drop n =
          s.log.drop n ++ [⟨p, k, v, decide (s.Contested p k)⟩] :=
        List.drop_append_of_le_length hn
      refine ⟨hn.trans (by simp [State.write]), fun k' w hlast hfree => ?_⟩
      rw [hdrop] at hlast
      by_cases hk : k = k'
      · subst hk
        rw [lastWrite_append_self (s.log.drop n) ⟨p, k, v, _⟩] at hlast
        obtain rfl := Option.some.inj hlast
        exact .write_self hown v (of_decide_eq_false hfree) _
      · rw [lastWrite_append_of_ne (w := ⟨p, k, v, _⟩) hk] at hlast
        obtain ⟨_, rfl⟩ := mem_of_lastWrite hlast
        exact (hleads _ w hlast hfree).write_of_ne hk p v
  | apply p q =>
      obtain ⟨_, _, _, _, hlog, _, _⟩ := State.apply_cases hstep
      refine ⟨hlog ▸ hn, fun k w hlast hfree => ?_⟩
      rw [hlog] at hlast
      exact (hleads k w hlast hfree).apply hstep

theorem State.settled_of_run {ok : State P K V → Action P K V → Prop} {initial : K → V}
    {es : List (Action P K V)} (h : Run State.step ok (State.start initial) es s) :
    s.Logged ∧ s.Settled initial := by
  have hstart : (State.start (P := P) initial).Logged ∧
      (State.start (P := P) initial).Settled initial :=
    ⟨⟨fun _ => rfl, by simp [State.start], by simp [State.start]⟩, fun _ _ => rfl⟩
  refine h.invariant (P := fun s => s.Logged ∧ s.Settled initial) ?_ hstart
  rintro s a t ⟨hlogged, hsettled⟩ _ hstep
  cases a with
  | write p k v =>
      obtain rfl := Option.some.inj hstep
      exact ⟨hlogged.write p k v, hsettled.write hlogged p k v⟩
  | apply p q => exact ⟨hlogged.apply hstep, hsettled.apply hlogged hstep⟩

end NetLabs.Broadcast
