import Mathlib.Algebra.Order.Field.Rat
import Mathlib.Data.Nat.Choose.Cast
import NetLabs.Library.Binomial
import NetLabs.Library.Loop

/-! # How likely more than ten users are busy

`templateSwitching (1).c` adds up the masses from 11 on, each with three calls of
`factorial`. A `double` is read as the rational it stands for, without rounding. The loop
counters are `int`s, and what happens when one overflows is undefined. -/

namespace NetLabs.Switching

open Binomial Loop

def INT_MAX : ℤ := 2147483647

/-! ## The program -/

/-- The default is -1, meaning error. -/
def factorial (n : ℚ) : Option ℚ :=
  if n < 0 then some (-1)
  else countUp INT_MAX (fun i => i ≤ n) (fun i fact => some (fact * i)) 1 1

/-- `pow` with an integral exponent. At a pole it has no rational value. -/
def pow (x : ℚ) (y : ℤ) : Option ℚ :=
  if x = 0 ∧ y < 0 then none else some (x ^ y)

/-- One turn of the loop for 3h. -/
def addMass (nPSusers : ℤ) (pPSusers : ℚ) (i : ℤ) (pTenMoreBusy : ℚ) : Option ℚ := do
  let pPSusersNotBusy := 1 - pPSusers
  let users ← factorial nPSusers
  let busy ← factorial i
  let notBusy ← factorial ((nPSusers - i : ℤ) : ℚ)
  let pBusy ← pow pPSusers i
  let pNotBusy ← pow pPSusersNotBusy (nPSusers - i)
  return pTenMoreBusy + users / (busy * notBusy) * pBusy * pNotBusy

/-- The value that `main` prints for 3h. -/
def pTenMoreBusy (nPSusers : ℤ) (pPSusers : ℚ) : Option ℚ :=
  countUp INT_MAX (fun i => i ≤ nPSusers) (addMass nPSusers pPSusers) 11 0

/-! ## Its parts -/

/-- The loop computes the factorial as long as its counter does not overflow. -/
theorem factorial_natCast {n : ℕ} (hn : n < INT_MAX) :
    factorial n = some (n.factorial : ℚ) := by
  have hnonneg : ¬ (n : ℚ) < 0 := not_lt.mpr (Nat.cast_nonneg n)
  have hzero : ((Nat.factorial 0 : ℕ) : ℚ) = 1 := by simp
  rw [factorial, if_neg hnonneg, ← hzero]
  refine countUp_eq_some (fun j => (j.factorial : ℚ)) n (by omega) (fun j hj => ?_) ?_
    fun j _ => ?_
  · have hle : (1 : ℤ) + j ≤ n := by omega
    exact decide_eq_true (by exact_mod_cast hle)
  · have hlt : ¬ (1 : ℤ) + n ≤ n := by omega
    exact decide_eq_false (by exact_mod_cast hlt)
  · rw [Nat.factorial_succ]
    push_cast
    ring_nf

theorem factorial_overflow {n : ℚ} (hn : INT_MAX ≤ n) : factorial n = none := by
  have hone : (1 : ℚ) ≤ INT_MAX := by decide
  have hnonneg : ¬ n < 0 := by linarith
  rw [factorial, if_neg hnonneg]
  refine countUp_eq_none (by decide) (fun j _ hj => ?_) 1
  have hle : (j : ℚ) ≤ INT_MAX := by exact_mod_cast hj
  simpa using hle.trans hn

theorem factorial_neg {n : ℚ} (hn : n < 0) : factorial n = some (-1) :=
  if_pos hn

theorem pow_natCast (x : ℚ) (k : ℕ) : pow x k = some (x ^ k) := by
  rw [pow, if_neg (by omega), zpow_natCast]

theorem pow_of_ne_zero {x : ℚ} (hx : x ≠ 0) (y : ℤ) : pow x y = some (x ^ y) :=
  if_neg fun hpole => hx hpole.1

/-- A turn of the loop adds the mass of `i` busy users. -/
theorem addMass_eq {n i : ℕ} (hi : i ≤ n) (hn : n < INT_MAX) (p sum : ℚ) :
    addMass n p i sum = some (sum + mass n p i) := by
  have hsub : (n : ℤ) - i = (n - i : ℕ) := by omega
  have hbusy : factorial ((i : ℤ) : ℚ) = some (i.factorial : ℚ) := factorial_natCast (by omega)
  have husers : factorial ((n : ℤ) : ℚ) = some (n.factorial : ℚ) := factorial_natCast hn
  have hnotBusy : factorial (((n - i : ℕ) : ℤ) : ℚ) = some ((n - i).factorial : ℚ) :=
    factorial_natCast (by omega)
  simp only [addMass, hsub, hbusy, husers, hnotBusy, pow_natCast, Option.bind_eq_bind,
    Option.bind_some, mass, Nat.cast_choose ℚ hi]
  rfl

/-! ## The whole sum -/

theorem pTenMoreBusy_eq {n : ℕ} (hn : n < INT_MAX) (p : ℚ) :
    pTenMoreBusy n p = some (∑ i ∈ Finset.Ico 11 (n + 1), mass n p i) := by
  have htop : 11 ≤ INT_MAX := by decide
  have hloop : pTenMoreBusy n p = some (∑ i ∈ Finset.Ico 11 (11 + (n - 10)), mass n p i) := by
    rw [pTenMoreBusy]
    refine countUp_eq_some (fun j => ∑ i ∈ Finset.Ico 11 (11 + j), mass n p i) (n - 10)
      (by omega) (fun j hj => ?_) ?_ fun j hj => ?_
    · exact decide_eq_true (by omega)
    · exact decide_eq_false (by omega)
    · have hterm := addMass_eq (i := 11 + j) (by omega) hn p
        (∑ i ∈ Finset.Ico 11 (11 + j), mass n p i)
      rw [← Nat.add_assoc, Finset.sum_Ico_succ_top (by omega)]
      exact_mod_cast hterm
  have hempty : Finset.Ico 11 (11 + (n - 10)) = Finset.Ico 11 (n + 1) := by
    ext i
    simp only [Finset.mem_Ico]
    omega
  rw [hloop, hempty]

/-- At the largest `int` the counter of the loop overflows as well. -/
theorem pTenMoreBusy_overflow {n : ℤ} (hn : INT_MAX ≤ n) (p : ℚ) : pTenMoreBusy n p = none := by
  refine countUp_eq_none (by decide) (fun j _ hj => decide_eq_true (hj.trans hn)) 0

/-- With as many users as an `int` can count, 3h has no value. -/
theorem overflow_at_INT_MAX : pTenMoreBusy 2147483647 (1 / 2) = none :=
  pTenMoreBusy_overflow (by decide) _

/-- The value for 3h is one minus the masses up to ten, and a probability, exactly when the
number of users is less than the largest `int`. -/
theorem pTenMoreBusy_iff (nPSusers : ℤ) (pPSusers : ℚ) (hn : 0 ≤ nPSusers)
    (hmax : nPSusers ≤ INT_MAX) (hp : 0 ≤ pPSusers) (hp' : pPSusers ≤ 1) :
    (∃ v, pTenMoreBusy nPSusers pPSusers = some v ∧
      v = 1 - ∑ i ∈ Finset.range (min 10 nPSusers.toNat + 1),
        (nPSusers.toNat.choose i : ℚ) * pPSusers ^ i *
          (1 - pPSusers) ^ (nPSusers.toNat - i) ∧
      0 ≤ v ∧ v ≤ 1) ↔ nPSusers < INT_MAX := by
  obtain ⟨n, rfl⟩ := Int.eq_ofNat_of_zero_le hn
  constructor
  · rintro ⟨v, hv, _⟩
    by_contra hlt
    rw [pTenMoreBusy_overflow (not_lt.mp hlt)] at hv
    simp at hv
  · intro hlt
    have hmin : min 11 (n + 1) = min 10 n + 1 := by omega
    refine ⟨_, pTenMoreBusy_eq hlt pPSusers, ?_, sum_Ico_mass_mem hp hp' n 11⟩
    rw [sum_Ico_mass, hmin]
    rfl

/-- Thirty-five users, each busy a tenth of the time. -/
theorem pTenMoreBusy_iff_thirtyFive :
    ∃ v, pTenMoreBusy 35 (1 / 10) = some v ∧ 0 ≤ v ∧ v ≤ 1 := by
  obtain ⟨v, hv, _, hmem⟩ := (pTenMoreBusy_iff 35 (1 / 10) (by decide) (by decide)
    (by norm_num) (by norm_num)).mpr (by decide)
  exact ⟨v, hv, hmem⟩

end NetLabs.Switching
