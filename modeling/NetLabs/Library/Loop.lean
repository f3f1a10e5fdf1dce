import Mathlib.Data.Int.Order.Basic

/-! # Counting loops

A loop over a counter that has a largest value. -/

namespace NetLabs.Loop

variable {α : Type*} {top i : ℤ} {cond : ℤ → Bool} {body : ℤ → α → Option α}

/-- `for (; cond; ++i) body`. To step the counter past `top` is undefined. -/
def countUp (top : ℤ) (cond : ℤ → Bool) (body : ℤ → α → Option α) (i : ℤ) (a : α) :
    Option α :=
  if cond i then
    (body i a).bind fun a' => if i < top then countUp top cond body (i + 1) a' else none
  else some a
termination_by (top - i).toNat
decreasing_by omega

/-- If `f j` is the value after `j` turns, and the condition holds for `k` turns and then
fails, the loop ends with `f k`. -/
theorem countUp_eq_some (f : ℕ → α) (k : ℕ) (htop : i + k ≤ top)
    (hcond : ∀ j < k, cond (i + j) = true) (hend : cond (i + k) = false)
    (hbody : ∀ j < k, body (i + j) (f j) = some (f (j + 1))) :
    countUp top cond body i (f 0) = some (f k) := by
  induction k generalizing i f with
  | zero =>
      have hi : cond i = false := by simpa using hend
      rw [countUp, if_neg (by simp [hi])]
  | succ k ih =>
      have hi : cond i = true := by simpa using hcond 0 (Nat.succ_pos k)
      have hfirst : body i (f 0) = some (f 1) := by simpa using hbody 0 (Nat.succ_pos k)
      have hshift : ∀ j : ℕ, i + 1 + j = i + (j + 1 : ℕ) := fun j => by omega
      rw [countUp, if_pos hi, hfirst, Option.bind_some, if_pos (by omega)]
      refine ih (fun j => f (j + 1)) (by omega) (fun j hj => ?_) ?_ fun j hj => ?_
      · rw [hshift]
        exact hcond (j + 1) (by omega)
      · rw [hshift]
        exact hend
      · rw [hshift]
        exact hbody (j + 1) (by omega)

/-- If the condition holds up to the largest value, the loop does not end well. -/
theorem countUp_eq_none (hi : i ≤ top) (hcond : ∀ j, i ≤ j → j ≤ top → cond j = true)
    (a : α) : countUp top cond body i a = none := by
  induction hk : (top - i).toNat generalizing i a with
  | zero =>
      rw [countUp, if_pos (hcond i le_rfl hi), Option.bind_eq_none_iff]
      intro a' _
      rw [if_neg (by omega)]
  | succ k ih =>
      rw [countUp, if_pos (hcond i le_rfl hi), Option.bind_eq_none_iff]
      intro a' _
      rw [if_pos (by omega)]
      exact ih (by omega) (fun j hj => hcond j (by omega)) a' (by omega)

end NetLabs.Loop
