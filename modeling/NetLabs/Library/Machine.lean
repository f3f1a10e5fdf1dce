import Mathlib.Algebra.BigOperators.Group.Finset.Piecewise
import Mathlib.Algebra.BigOperators.Group.List.Basic
import Mathlib.Algebra.Order.Ring.Nat

/-! # Runs of a labelled machine

A machine is a partial step function. The label fixes every choice the outside world
makes, so a run is a list of labels, and an assumption about the world is a condition
on the state and the label of each step. -/

namespace NetLabs.Machine

variable {σ ε : Type*} {step : σ → ε → Option σ} {ok ok' : σ → ε → Prop}

/-- `Run step ok s es t`: the labels `es` lead from `s` to `t`, and each of the steps
meets `ok` in the state before it. -/
inductive Run (step : σ → ε → Option σ) (ok : σ → ε → Prop) (s : σ) : List ε → σ → Prop
  | nil : Run step ok s [] s
  | snoc {es t a u} : Run step ok s es t → ok t a → step t a = some u →
      Run step ok s (es ++ [a]) u

/-! ## Building runs -/

theorem Run.single {s u : σ} {a : ε} (ha : ok s a) (h : step s a = some u) :
    Run step ok s [a] u :=
  .snoc .nil ha h

theorem Run.trans {s t u : σ} {es fs : List ε} (h : Run step ok s es t)
    (h' : Run step ok t fs u) : Run step ok s (es ++ fs) u := by
  induction h' with
  | nil => simpa using h
  | snoc _ ha hstep ih =>
      rw [← List.append_assoc]
      exact .snoc ih ha hstep

theorem Run.cons {s t u : σ} {a : ε} {es : List ε} (ha : ok s a) (h : step s a = some t)
    (h' : Run step ok t es u) : Run step ok s (a :: es) u :=
  (Run.single ha h).trans h'

theorem Run.mono {s t : σ} {es : List ε} (himp : ∀ t a, ok t a → ok' t a)
    (h : Run step ok s es t) : Run step ok' s es t := by
  induction h with
  | nil => exact .nil
  | snoc _ ha hstep ih => exact .snoc ih (himp _ _ ha) hstep

theorem Run.congr {s t : σ} {es : List ε} (hiff : ∀ t a, ok t a ↔ ok' t a) :
    Run step ok s es t ↔ Run step ok' s es t :=
  ⟨Run.mono fun t a => (hiff t a).mp, Run.mono fun t a => (hiff t a).mpr⟩

/-- The state a list of labels leads to, computed. -/
def exec (step : σ → ε → Option σ) : σ → List ε → Option σ
  | s, [] => some s
  | s, a :: es => (step s a).bind fun t => exec step t es

/-- A computed run is a run, once its labels are admissible in every state. -/
theorem Run.of_exec {s t : σ} {es : List ε} (hok : ∀ a ∈ es, ∀ t, ok t a)
    (h : exec step s es = some t) : Run step ok s es t := by
  induction es generalizing s with
  | nil =>
      obtain rfl : s = t := by simpa [exec] using h
      exact .nil
  | cons a es ih =>
      obtain ⟨u, hu, ht⟩ := Option.bind_eq_some_iff.mp h
      exact .cons (hok a (by simp) s) hu (ih (fun b hb => hok b (by simp [hb])) ht)

theorem Run.of_get {s : σ} {es : List ε} (hok : ∀ a ∈ es, ∀ t, ok t a)
    (h : (exec step s es).isSome) : Run step ok s es ((exec step s es).get h) :=
  .of_exec hok (Option.some_get h).symm

/-- A run with a computed observation of the state it ends in. -/
theorem Run.exists_of_exec {α : Type*} {f : σ → α} {x : α} {s : σ} {es : List ε}
    (hok : ∀ a ∈ es, ∀ t, ok t a) (h : (exec step s es).map f = some x) :
    ∃ t, Run step ok s es t ∧ f t = x := by
  obtain ⟨t, ht, hx⟩ := Option.map_eq_some_iff.mp h
  exact ⟨t, .of_exec hok ht, hx⟩

/-- A computed run whose steps are tested as they are made. -/
theorem Run.exists_of_guarded {α : Type*} {f : σ → α} {x : α} {s : σ} {es : List ε}
    [∀ s a, Decidable (ok s a)]
    (h : (exec (fun s a => if ok s a then step s a else none) s es).map f = some x) :
    ∃ t, Run step ok s es t ∧ f t = x := by
  induction es generalizing s with
  | nil =>
      obtain ⟨t, ht, hx⟩ := Option.map_eq_some_iff.mp h
      obtain rfl : s = t := by simpa [exec] using ht
      exact ⟨s, .nil, hx⟩
  | cons a es ih =>
      obtain ⟨t, ht, hx⟩ := Option.map_eq_some_iff.mp h
      obtain ⟨u, hu, ht⟩ := Option.bind_eq_some_iff.mp ht
      obtain ⟨hok, hstep⟩ := Option.ite_none_right_eq_some.mp hu
      obtain ⟨v, hrun, hv⟩ := ih (Option.map_eq_some_iff.mpr ⟨t, ht, hx⟩)
      exact ⟨v, .cons hok hstep hrun, hv⟩

theorem exec_append (s : σ) (es fs : List ε) :
    exec step s (es ++ fs) = (exec step s es).bind fun t => exec step t fs := by
  induction es generalizing s with
  | nil => rfl
  | cons a es ih =>
      rw [List.cons_append, exec, exec, Option.bind_assoc]
      exact congrArg _ (funext ih)

theorem Run.exec_eq {s t : σ} {es : List ε} (h : Run step ok s es t) :
    exec step s es = some t := by
  induction h with
  | nil => rfl
  | snoc _ _ hstep ih => simp [exec_append, ih, exec, hstep]

/-! ## Steps within a run -/

/-- Every step of a run is a step, from the state that the run has reached before it. -/
theorem Run.at {s t : σ} {pre post : List ε} {a : ε}
    (h : Run step ok s (pre ++ a :: post) t) :
    ∃ u v, Run step ok s pre u ∧ ok u a ∧ step u a = some v := by
  generalize hes : pre ++ a :: post = es at h
  induction h generalizing post with
  | nil => simp at hes
  | @snoc es t b u hrun hb hstep ih =>
      rcases List.eq_nil_or_concat post with rfl | ⟨rest, c, rfl⟩
      · obtain ⟨rfl, hab⟩ := List.append_inj' hes rfl
        obtain rfl : a = b := by simpa using hab
        exact ⟨t, u, hrun, hb, hstep⟩
      · rw [List.concat_eq_append, ← List.cons_append, ← List.append_assoc] at hes
        exact ih (List.append_inj' hes rfl).1

/-- A run meets a further condition when each of its steps does. -/
theorem Run.iff_forall {s t : σ} {es : List ε} (h : Run step ok s es t) :
    Run step ok' s es t ↔
      ∀ pre a post u, es = pre ++ a :: post → Run step ok s pre u → ok' u a := by
  constructor
  · rintro h' pre a post u rfl hpre
    obtain ⟨v, _, hv, ha, _⟩ := Run.at h'
    obtain rfl : u = v := Option.some.inj (hpre.exec_eq.symm.trans hv.exec_eq)
    exact ha
  · intro hall
    induction h with
    | nil => exact .nil
    | @snoc es t a u hrun _ hstep ih =>
        refine .snoc (ih fun pre b post u hes => ?_) (hall es a [] t rfl hrun) hstep
        exact hall pre b (post ++ [a]) u (by simp [hes])

/-! ## The invariant rule -/

/-- What holds at the start and is preserved by every admissible step holds throughout. -/
theorem Run.invariant {P : σ → Prop} {s t : σ} {es : List ε}
    (hstep : ∀ t a u, P t → ok t a → step t a = some u → P u) (hs : P s)
    (h : Run step ok s es t) : P t := by
  induction h with
  | nil => exact hs
  | snoc _ ha hu ih => exact hstep _ _ _ ih ha hu

/-! ## The simulation rule -/

/-- If each step either keeps `R` to the same state of another machine or is matched by a
step of it, runs are matched by runs. -/
theorem Run.simulate {σ' ε' : Type*} {step' : σ' → ε' → Option σ'} {R : σ → σ' → Prop}
    (hstep : ∀ s a t s', R s s' → ok s a → step s a = some t →
      R t s' ∨ ∃ b t', step' s' b = some t' ∧ R t t')
    {s t : σ} {s' : σ'} {es : List ε} (hs : R s s') (h : Run step ok s es t) :
    ∃ fs t', Run step' (fun _ _ => True) s' fs t' ∧ R t t' := by
  induction h with
  | nil => exact ⟨[], s', .nil, hs⟩
  | @snoc es t a u _ ha hu ih =>
      obtain ⟨fs, t', hrun, ht⟩ := ih
      rcases hstep t a u t' ht ha hu with hkeep | ⟨b, u', hb, hu'⟩
      · exact ⟨fs, t', hrun, hkeep⟩
      · exact ⟨fs ++ [b], u', hrun.snoc trivial hb, hu'⟩

/-! ## The measure rule -/

/-- What each step preserves of the state and the weight spent so far holds of the whole
weight of a run. -/
theorem Run.weigh {w : ε → ℕ} {I : σ → ℕ → Prop} {s t : σ} {es : List ε}
    (hI : ∀ t a u n, I t n → ok t a → step t a = some u → I u (n + w a)) (hs : I s 0)
    (h : Run step ok s es t) : I t (es.map w).sum := by
  induction h with
  | nil => exact hs
  | @snoc es t a u _ ha hu ih =>
      rw [List.map_append, List.map_singleton, List.sum_append, List.sum_singleton]
      exact hI t a u _ ih ha hu

/-- If the labels carry weights and no step raises the measure plus the weight spent,
the total weight of a run is bounded by the measure at its start. -/
theorem Run.weight_le {P : σ → Prop} {w : ε → ℕ} {μ : σ → ℕ} {s t : σ} {es : List ε}
    (hP : ∀ t a u, P t → ok t a → step t a = some u → P u)
    (hμ : ∀ t a u, P t → ok t a → step t a = some u → μ u + w a ≤ μ t) (hs : P s)
    (h : Run step ok s es t) : μ t + (es.map w).sum ≤ μ s := by
  refine (h.weigh (w := w) (I := fun u n => P u ∧ μ u + n ≤ μ s) ?_ ⟨hs, le_rfl⟩).2
  rintro t a u n ⟨ht, hn⟩ ha hu
  have hle := hμ t a u ht ha hu
  exact ⟨hP t a u ht ha hu, by omega⟩

/-- If every step raises the measure by at least the weight it spends, the total weight of
a run is bounded by the rise of the measure. -/
theorem Run.weight_add_le {P : σ → Prop} {w : ε → ℕ} {μ : σ → ℕ} {s t : σ} {es : List ε}
    (hP : ∀ t a u, P t → ok t a → step t a = some u → P u)
    (hμ : ∀ t a u, P t → ok t a → step t a = some u → μ t + w a ≤ μ u) (hs : P s)
    (h : Run step ok s es t) : μ s + (es.map w).sum ≤ μ t := by
  refine (h.weigh (w := w) (I := fun u n => P u ∧ μ s + n ≤ μ u) ?_ ⟨hs, le_rfl⟩).2
  rintro t a u n ⟨ht, hn⟩ ha hu
  have hle := hμ t a u ht ha hu
  exact ⟨hP t a u ht ha hu, by omega⟩

/-- A weight of one on some labels counts them. -/
theorem sum_map_indicator (p : ε → Bool) (es : List ε) :
    (es.map fun a => if p a then 1 else 0).sum = es.countP p := by
  induction es with
  | nil => rfl
  | cons a es ih =>
      rw [List.map_cons, List.sum_cons, ih, List.countP_cons, Nat.add_comm]

/-- If every step lowers the measure, runs are no longer than the measure they start with. -/
theorem Run.length_le {P : σ → Prop} {μ : σ → ℕ} {s t : σ} {es : List ε}
    (hP : ∀ t a u, P t → ok t a → step t a = some u → P u)
    (hμ : ∀ t a u, P t → ok t a → step t a = some u → μ u < μ t) (hs : P s)
    (h : Run step ok s es t) : es.length ≤ μ s := by
  have hle := h.weight_le (w := fun _ => 1) hP (fun t a u ht ha hu => hμ t a u ht ha hu) hs
  have hsum : (es.map fun _ => 1).sum = es.length := by simp
  omega

/-- The measure of a family of parts, one of which changes. -/
theorem sum_apply_update {ι α : Type*} [Fintype ι] [DecidableEq ι] (μ : α → ℕ) (f : ι → α)
    (i : ι) (x : α) : ∑ j, μ (Function.update f i x j) + μ (f i) = ∑ j, μ (f j) + μ x := by
  have hupdate : ∀ j, μ (Function.update f i x j) =
      Function.update (fun j => μ (f j)) i (μ x) j := Function.apply_update (fun _ => μ) f i x
  simp only [hupdate]
  have hsplit := Finset.sum_eq_add_sum_sdiff_singleton_of_mem (Finset.mem_univ i)
    fun j => μ (f j)
  rw [Finset.sum_update_of_mem (Finset.mem_univ i), hsplit]
  omega

/-- No admissible step is left. -/
def Stuck (step : σ → ε → Option σ) (ok : σ → ε → Prop) (s : σ) : Prop :=
  ∀ a, ok s a → step s a = none

/-- Where runs are bounded, some run goes on until it is stuck. -/
theorem exists_stuck {s : σ} {bound : ℕ}
    (hbound : ∀ es t, Run step ok s es t → es.length ≤ bound) :
    ∃ es t, Run step ok s es t ∧ Stuck step ok t := by
  by_contra hnone
  have hlong : ∀ n, ∃ es t, Run step ok s es t ∧ es.length = n := by
    intro n
    induction n with
    | zero => exact ⟨[], s, .nil, rfl⟩
    | succ n ih =>
        obtain ⟨es, t, hrun, hlength⟩ := ih
        have hstuck : ¬ Stuck step ok t := fun hst => hnone ⟨es, t, hrun, hst⟩
        simp only [Stuck, not_forall] at hstuck
        obtain ⟨a, ha, hsome⟩ := hstuck
        obtain ⟨u, hu⟩ := Option.ne_none_iff_exists'.mp hsome
        exact ⟨es ++ [a], u, hrun.snoc ha hu, by simp [hlength]⟩
  obtain ⟨es, t, hrun, hlength⟩ := hlong (bound + 1)
  have := hbound es t hrun
  omega

/-- Every run comes to an end, and `Q` holds there. -/
def Ends (step : σ → ε → Option σ) (ok : σ → ε → Prop) (s : σ) (Q : σ → Prop) : Prop :=
  (∃ bound, ∀ es t, Run step ok s es t → es.length ≤ bound) ∧
    ∀ es t, Run step ok s es t → Stuck step ok t → Q t

/-- If runs are bounded and what holds at their end depends on `c` only, `c` decides. -/
theorem ends_iff {s : σ} {Q : σ → Prop} {c : Prop} {bound : ℕ}
    (hbound : ∀ es t, Run step ok s es t → es.length ≤ bound)
    (hQ : ∀ es t, Run step ok s es t → Stuck step ok t → (Q t ↔ c)) :
    Ends step ok s Q ↔ c := by
  constructor
  · rintro ⟨_, hends⟩
    obtain ⟨es, t, hrun, hstuck⟩ := exists_stuck hbound
    exact (hQ es t hrun hstuck).mp (hends es t hrun hstuck)
  · intro hc
    exact ⟨⟨bound, hbound⟩, fun es t hrun hstuck => (hQ es t hrun hstuck).mpr hc⟩

end NetLabs.Machine
