import Mathlib.Data.List.Basic
import Mathlib.Data.List.Perm.Subperm

/-! # Faulty datagram channels

A channel is the list of the messages in transit, oldest first. A message stays in
transit until some step takes it, so delay needs no operation of its own; what a network
does besides is a `Fault`. -/

namespace NetLabs.Channel

/-- A message in transit. No program reads the tag, which records where in the sender's
history the message was sent. -/
structure Message (π : Type*) where
  tag : ℕ
  body : π
  deriving DecidableEq, Repr

/-- What the network may do to a channel. The position counts from the oldest message. -/
inductive Fault (π : Type*) where
  | lose (i : ℕ)
  | duplicate (i : ℕ)
  | damage (i : ℕ) (body : π)
  | overtake (i : ℕ)
  | forge (i : ℕ) (m : Message π)

variable {α π : Type*}

/-- The list before position `i`, the element there, and the list after it. -/
def split? (i : ℕ) (c : List α) : Option (List α × α × List α) :=
  match c.drop i with
  | [] => none
  | m :: r => some (c.take i, m, r)

theorem split?_eq_some {i : ℕ} {c l r : List α} {m : α} (h : split? i c = some (l, m, r)) :
    c = l ++ m :: r := by
  unfold split? at h
  split at h
  · simp at h
  · rename_i m' r' hdrop
    simp only [Option.some.injEq, Prod.mk.injEq] at h
    obtain ⟨rfl, rfl, rfl⟩ := h
    rw [← hdrop, List.take_append_drop]

theorem getElem?_of_split? {i : ℕ} {xs l r : List α} {m : α}
    (h : split? i xs = some (l, m, r)) : xs[i]? = some m := by
  unfold split? at h
  split at h
  · simp at h
  · rename_i m' r' hdrop
    simp only [Option.some.injEq, Prod.mk.injEq] at h
    obtain ⟨_, rfl, _⟩ := h
    rw [← List.head?_drop, hdrop, List.head?_cons]

/-- The channel after a fault, where the position it names exists. Damage replaces the
body and leaves the tag; a duplicate stands next to its original. -/
def Fault.apply : Fault π → List (Message π) → Option (List (Message π))
  | .lose i, c => (split? i c).map fun (l, _, r) => l ++ r
  | .duplicate i, c => (split? i c).map fun (l, m, r) => l ++ m :: m :: r
  | .damage i body, c => (split? i c).map fun (l, m, r) => l ++ ⟨m.tag, body⟩ :: r
  | .overtake i, c => (split? i c).map fun (l, m, r) => m :: (l ++ r)
  | .forge i m, c => some (c.take i ++ m :: c.drop i)

/-- What holds of all messages so far and of the one appended. -/
theorem forall_mem_snoc {P : α → Prop} {c : List α} {m : α} (h : ∀ a ∈ c, P a) (hm : P m) :
    ∀ a ∈ c ++ [m], P a :=
  List.forall_mem_append.mpr ⟨h, List.forall_mem_singleton.mpr hm⟩

/-! ## Kinds of channels -/

/-- The channel only loses messages. -/
def Fault.Lossy : Fault π → Prop
  | .lose _ => True
  | _ => False

/-- The channel keeps the order: it loses, duplicates in place, and damages messages so
that the result is `bad`. -/
def Fault.Fifo (bad : π → Prop) : Fault π → Prop
  | .lose _ => True
  | .duplicate _ => True
  | .damage _ body => bad body
  | _ => False

/-- The channel loses and reorders messages. -/
def Fault.Unordered : Fault π → Prop
  | .lose _ => True
  | .overtake _ => True
  | _ => False

theorem Fault.Lossy.fifo {f : Fault π} (h : f.Lossy) (bad : π → Prop) : f.Fifo bad := by
  cases f <;> simp_all [Fault.Lossy, Fault.Fifo]

/-- The oldest message comes from the earliest send. -/
def Ordered (c : List (Message π)) : Prop :=
  c.Pairwise fun a b => a.tag ≤ b.tag

/-- What a fault of an order-keeping channel leaves in the place of one message. -/
theorem Fault.apply_fifo {bad : π → Prop} {f : Fault π} {c c' : List (Message π)}
    (hf : f.Fifo bad) (h : f.apply c = some c') :
    ∃ l m r, c = l ++ m :: r ∧
      (c' = l ++ r ∨ c' = l ++ m :: m :: r ∨
        ∃ body, bad body ∧ c' = l ++ ⟨m.tag, body⟩ :: r) := by
  cases f with
  | lose i =>
      obtain ⟨⟨l, m, r⟩, hs, rfl⟩ := Option.map_eq_some_iff.mp h
      exact ⟨l, m, r, split?_eq_some hs, .inl rfl⟩
  | duplicate i =>
      obtain ⟨⟨l, m, r⟩, hs, rfl⟩ := Option.map_eq_some_iff.mp h
      exact ⟨l, m, r, split?_eq_some hs, .inr (.inl rfl)⟩
  | damage i body =>
      obtain ⟨⟨l, m, r⟩, hs, rfl⟩ := Option.map_eq_some_iff.mp h
      exact ⟨l, m, r, split?_eq_some hs, .inr (.inr ⟨body, hf, rfl⟩)⟩
  | overtake i => exact hf.elim
  | forge i m => exact hf.elim

theorem Fault.apply_ordered {bad : π → Prop} {f : Fault π} {c c' : List (Message π)}
    (hf : f.Fifo bad) (h : f.apply c = some c') (hc : Ordered c) : Ordered c' := by
  obtain ⟨l, m, r, rfl, hc'⟩ := Fault.apply_fifo hf h
  unfold Ordered at *
  obtain ⟨hl, hmr, hcross⟩ := List.pairwise_append.mp hc
  obtain ⟨hm, hr⟩ := List.pairwise_cons.mp hmr
  rcases hc' with rfl | rfl | ⟨body, _, rfl⟩
  · exact List.pairwise_append.mpr
      ⟨hl, hr, fun a ha b hb => hcross a ha b (List.mem_cons_of_mem _ hb)⟩
  · refine List.pairwise_append.mpr ⟨hl, List.pairwise_cons.mpr ⟨?_, hmr⟩, ?_⟩
    · intro b hb
      rcases List.mem_cons.mp hb with rfl | hb
      · exact Nat.le_refl _
      · exact hm b hb
    · intro a ha b hb
      exact hcross a ha b (by simpa using hb)
  · refine List.pairwise_append.mpr ⟨hl, List.pairwise_cons.mpr ⟨hm, hr⟩, ?_⟩
    intro a ha b hb
    rcases List.mem_cons.mp hb with rfl | hb
    · exact hcross a ha m (by simp)
    · exact hcross a ha b (by simp [hb])

/-- After a fault of an order-keeping channel every message was there before, or is the
damaged form of one that was. -/
theorem Fault.mem_of_apply_fifo {bad : π → Prop} {f : Fault π} {c c' : List (Message π)}
    (hf : f.Fifo bad) (h : f.apply c = some c') {a : Message π} (ha : a ∈ c') :
    a ∈ c ∨ bad a.body ∧ ∃ b ∈ c, b.tag = a.tag := by
  obtain ⟨l, m, r, rfl, hc'⟩ := Fault.apply_fifo hf h
  rcases hc' with rfl | rfl | ⟨body, hbad, rfl⟩
  · left
    rcases List.mem_append.mp ha with ha | ha <;> simp [ha]
  · left
    simpa using ha
  · rcases List.mem_append.mp ha with ha | ha
    · left; simp [ha]
    · rcases List.mem_cons.mp ha with rfl | ha
      · exact .inr ⟨hbad, m, by simp, rfl⟩
      · left; simp [ha]

/-- Where nothing is damaged, no message is new. -/
theorem Fault.mem_of_apply_intact {f : Fault π} {c c' : List (Message π)}
    (hf : f.Fifo fun _ => False) (h : f.apply c = some c') {a : Message π} (ha : a ∈ c') :
    a ∈ c :=
  (Fault.mem_of_apply_fifo hf h ha).resolve_right fun hdamaged => hdamaged.1

/-- The channel keeps the order: it loses, duplicates in place, and turns the message at a
position of `chan` only into one that is `R`-related to it. -/
def Fault.Alters (R : π → π → Prop) (chan : List (Message π)) : Fault π → Prop
  | .lose _ => True
  | .duplicate _ => True
  | .damage i body => ∀ m, chan[i]? = some m → R m.body body
  | _ => False

theorem Fault.Alters.fifo {R : π → π → Prop} {f : Fault π} {c : List (Message π)}
    (h : f.Alters R c) : f.Fifo fun _ => True := by
  cases f <;> simp_all [Fault.Alters, Fault.Fifo]

theorem Fault.mem_of_alters {R : π → π → Prop} {f : Fault π} {c c' : List (Message π)}
    (hf : f.Alters R c) (h : f.apply c = some c') {a : Message π} (ha : a ∈ c') :
    a ∈ c ∨ ∃ b ∈ c, b.tag = a.tag ∧ R b.body a.body := by
  cases f with
  | lose i => exact .inl (Fault.mem_of_apply_intact (f := .lose i) trivial h ha)
  | duplicate i => exact .inl (Fault.mem_of_apply_intact (f := .duplicate i) trivial h ha)
  | damage i body =>
      obtain ⟨⟨l, m, r⟩, hs, rfl⟩ := Option.map_eq_some_iff.mp h
      have hrelated := hf m (getElem?_of_split? hs)
      rw [split?_eq_some hs]
      rcases List.mem_append.mp ha with ha | ha
      · left; simp [ha]
      · rcases List.mem_cons.mp ha with rfl | ha
        · exact .inr ⟨m, by simp, rfl, hrelated⟩
        · left; simp [ha]
  | overtake i => exact hf.elim
  | forge i m => exact hf.elim

/-- What the relation keeps holds of the messages in the channel afterwards. -/
theorem Fault.forall_mem_of_alters {R : π → π → Prop} {f : Fault π} {c c' : List (Message π)}
    (hf : f.Alters R c) (h : f.apply c = some c') {P : ℕ → π → Prop}
    (hP : ∀ k p q, P k p → R p q → P k q) (hc : ∀ m ∈ c, P m.tag m.body) :
    ∀ m ∈ c', P m.tag m.body := by
  intro a ha
  rcases Fault.mem_of_alters hf h ha with ha | ⟨b, hb, htag, hrelated⟩
  · exact hc a ha
  · exact htag ▸ hP b.tag b.body a.body (hc b hb) hrelated

theorem Fault.Lossy.length_succ {f : Fault π} (hf : f.Lossy) {c c' : List (Message π)}
    (h : f.apply c = some c') : c'.length + 1 = c.length := by
  cases f with
  | lose i =>
      obtain ⟨⟨l, m, r⟩, hs, rfl⟩ := Option.map_eq_some_iff.mp h
      simp [split?_eq_some hs, Nat.add_assoc]
  | _ => exact hf.elim

/-- Losing and reordering leaves a part of what was in transit. -/
theorem Fault.apply_unordered {f : Fault π} {c c' : List (Message π)}
    (hf : f.Unordered) (h : f.apply c = some c') : c'.Subperm c := by
  cases f with
  | lose i =>
      obtain ⟨⟨l, m, r⟩, hs, rfl⟩ := Option.map_eq_some_iff.mp h
      rw [split?_eq_some hs]
      exact (List.Sublist.append_left (List.sublist_cons_self m r) l).subperm
  | overtake i =>
      obtain ⟨⟨l, m, r⟩, hs, rfl⟩ := Option.map_eq_some_iff.mp h
      rw [split?_eq_some hs]
      exact List.perm_middle.symm.subperm
  | duplicate i => exact hf.elim
  | damage i body => exact hf.elim
  | forge i m => exact hf.elim

end NetLabs.Channel
