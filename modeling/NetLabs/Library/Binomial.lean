import Mathlib.Algebra.BigOperators.Intervals
import Mathlib.Algebra.Order.BigOperators.Ring.Finset
import Mathlib.Data.Nat.Choose.Sum

/-! # Binomial masses

How likely it is that `i` of `n` independent trials succeed, each with probability `p`. -/

namespace NetLabs.Binomial

open Finset

variable {R : Type*} [CommRing R]

def mass (n : ℕ) (p : R) (i : ℕ) : R :=
  n.choose i * p ^ i * (1 - p) ^ (n - i)

theorem mass_one (n : ℕ) (p : R) : mass n p 1 = n * (p ^ 1 * (1 - p) ^ (n - 1)) := by
  rw [mass, Nat.choose_one_right, mul_assoc]

theorem mass_eq_zero {n i : ℕ} (h : n < i) (p : R) : mass n p i = 0 := by
  rw [mass, Nat.choose_eq_zero_of_lt h, Nat.cast_zero, zero_mul, zero_mul]

theorem sum_mass (n : ℕ) (p : R) : ∑ i ∈ range (n + 1), mass n p i = 1 := by
  have hpow := add_pow p (1 - p) n
  rw [add_sub_cancel, one_pow] at hpow
  rw [hpow]
  exact sum_congr rfl fun i _ => by rw [mass]; ring

/-- The tail from `k` on is what the masses below leave of one. -/
theorem sum_Ico_mass (n k : ℕ) (p : R) :
    ∑ i ∈ Ico k (n + 1), mass n p i = 1 - ∑ i ∈ range (min k (n + 1)), mass n p i := by
  rw [eq_sub_iff_add_eq, add_comm, ← sum_mass n p]
  rcases le_total k (n + 1) with hle | hle
  · rw [min_eq_left hle, sum_range_add_sum_Ico _ hle]
  · rw [min_eq_right hle, Ico_eq_empty_of_le hle, sum_empty, add_zero]

/-! ## One trial more -/

/-- How likely it is that at least `k` of `n` trials succeed. -/
def tail (n k : ℕ) (p : R) : R :=
  ∑ i ∈ Ico k (n + 1), mass n p i

theorem tail_zero (n : ℕ) (p : R) : tail n 0 p = 1 := by
  rw [tail, ← range_eq_Ico, sum_mass]

theorem tail_of_lt {n k : ℕ} (h : n < k) (p : R) : tail n k p = 0 := by
  rw [tail, Ico_eq_empty_of_le h, sum_empty]

/-- The last trial succeeds after `i` successes or fails after `i + 1`. -/
theorem mass_succ (n i : ℕ) (p : R) :
    mass (n + 1) p (i + 1) = p * mass n p i + (1 - p) * mass n p (i + 1) := by
  rcases Nat.lt_or_ge i n with hlt | hle
  · have hsub : n + 1 - (i + 1) = n - (i + 1) + 1 := by omega
    have hsub' : n - i = n - (i + 1) + 1 := by omega
    simp only [mass, Nat.choose_succ_succ, hsub, hsub']
    push_cast
    ring
  · have hsub : n + 1 - (i + 1) = n - i := by omega
    rw [mass_eq_zero (by omega : n < i + 1), mass, mass, Nat.choose_succ_succ,
      Nat.choose_eq_zero_of_lt (by omega : n < i + 1), hsub]
    push_cast
    ring

theorem tail_succ (n k : ℕ) (p : R) :
    tail (n + 1) (k + 1) p = p * tail n k p + (1 - p) * tail n (k + 1) p := by
  rcases Nat.lt_or_ge n k with hlt | hle
  · rw [tail_of_lt hlt, tail_of_lt (by omega), tail_of_lt (by omega)]
    ring
  have hshift : ∑ i ∈ Ico k (n + 1), mass n p (i + 1) = tail n (k + 1) p := by
    rw [sum_Ico_add' (mass n p) k (n + 1) 1, sum_Ico_succ_top (by omega),
      mass_eq_zero (by omega : n < n + 1), add_zero, tail]
  calc tail (n + 1) (k + 1) p
      = ∑ i ∈ Ico k (n + 1), mass (n + 1) p (i + 1) :=
        (sum_Ico_add' (mass (n + 1) p) k (n + 1) 1).symm
    _ = ∑ i ∈ Ico k (n + 1), (p * mass n p i + (1 - p) * mass n p (i + 1)) :=
        sum_congr rfl fun i _ => mass_succ n i p
    _ = p * tail n k p + (1 - p) * tail n (k + 1) p := by
        rw [sum_add_distrib, ← mul_sum, ← mul_sum, hshift]
        rfl

/-! ## Probabilities -/

variable [LinearOrder R] [IsStrictOrderedRing R] {p : R}

theorem mass_nonneg (hp : 0 ≤ p) (hp' : p ≤ 1) (n i : ℕ) : 0 ≤ mass n p i :=
  mul_nonneg (mul_nonneg (Nat.cast_nonneg _) (pow_nonneg hp i))
    (pow_nonneg (sub_nonneg.mpr hp') _)

theorem mass_le_one (hp : 0 ≤ p) (hp' : p ≤ 1) (n i : ℕ) : mass n p i ≤ 1 := by
  rcases Nat.lt_or_ge n i with hlt | hle
  · rw [mass_eq_zero hlt]
    exact zero_le_one
  · rw [← sum_mass n p]
    exact single_le_sum (fun j _ => mass_nonneg hp hp' n j) (mem_range.mpr (by omega))

/-- That `i` given trials succeed and `j` others fail is a probability. -/
theorem pow_mul_pow_mem (hp : 0 ≤ p) (hp' : p ≤ 1) (i j : ℕ) :
    0 ≤ p ^ i * (1 - p) ^ j ∧ p ^ i * (1 - p) ^ j ≤ 1 := by
  have hq : 0 ≤ 1 - p := sub_nonneg.mpr hp'
  have hq' : 1 - p ≤ 1 := sub_le_self 1 hp
  exact ⟨mul_nonneg (pow_nonneg hp i) (pow_nonneg hq j),
    mul_le_one₀ (pow_le_one₀ hp hp') (pow_nonneg hq j) (pow_le_one₀ hq hq')⟩

/-- A tail is a probability. -/
theorem sum_Ico_mass_mem (hp : 0 ≤ p) (hp' : p ≤ 1) (n k : ℕ) :
    0 ≤ ∑ i ∈ Ico k (n + 1), mass n p i ∧ ∑ i ∈ Ico k (n + 1), mass n p i ≤ 1 := by
  have hnonneg := fun i => mass_nonneg hp hp' n i
  refine ⟨sum_nonneg fun i _ => hnonneg i, ?_⟩
  rw [sum_Ico_mass]
  exact sub_le_self 1 (sum_nonneg fun i _ => hnonneg i)

/-! ## More trials, and likelier ones -/

variable {q : R}

theorem tail_succ_le (hp : 0 ≤ p) (hp' : p ≤ 1) (n k : ℕ) : tail n (k + 1) p ≤ tail n k p :=
  sum_le_sum_of_subset_of_nonneg (Ico_subset_Ico_left (by omega))
    fun i _ _ => mass_nonneg hp hp' n i

theorem tail_le_succ (hp : 0 ≤ p) (hp' : p ≤ 1) (n k : ℕ) : tail n k p ≤ tail (n + 1) k p := by
  cases k with
  | zero => rw [tail_zero, tail_zero]
  | succ k =>
      have hle := tail_succ_le hp hp' n k
      calc tail n (k + 1) p
          = p * tail n (k + 1) p + (1 - p) * tail n (k + 1) p := by ring
        _ ≤ p * tail n k p + (1 - p) * tail n (k + 1) p := by gcongr
        _ = tail (n + 1) (k + 1) p := (tail_succ n k p).symm

/-- Further trials make it no less likely that so many succeed. -/
theorem tail_le_of_le (hp : 0 ≤ p) (hp' : p ≤ 1) {n m : ℕ} (h : n ≤ m) (k : ℕ) :
    tail n k p ≤ tail m k p := by
  induction h with
  | refl => exact le_rfl
  | step _ ih => exact ih.trans (tail_le_succ hp hp' _ k)

/-- Likelier trials make it no less likely that so many succeed. -/
theorem tail_mono (hp : 0 ≤ p) (hpq : p ≤ q) (hq : q ≤ 1) (n k : ℕ) :
    tail n k p ≤ tail n k q := by
  induction n generalizing k with
  | zero =>
      cases k with
      | zero => rw [tail_zero, tail_zero]
      | succ k => rw [tail_of_lt (by omega), tail_of_lt (by omega)]
  | succ n ih =>
      cases k with
      | zero => rw [tail_zero, tail_zero]
      | succ k =>
          have hle := tail_succ_le hp (hpq.trans hq) n k
          have hfail : 0 ≤ 1 - q := sub_nonneg.mpr hq
          have hsucceed : 0 ≤ q := hp.trans hpq
          rw [tail_succ, tail_succ]
          calc p * tail n k p + (1 - p) * tail n (k + 1) p
              = tail n (k + 1) p + p * (tail n k p - tail n (k + 1) p) := by ring
            _ ≤ tail n (k + 1) p + q * (tail n k p - tail n (k + 1) p) := by
                have hgain := mul_le_mul_of_nonneg_right hpq (sub_nonneg.mpr hle)
                linarith
            _ = q * tail n k p + (1 - q) * tail n (k + 1) p := by ring
            _ ≤ q * tail n k q + (1 - q) * tail n (k + 1) q :=
                add_le_add (mul_le_mul_of_nonneg_left (ih k) hsucceed)
                  (mul_le_mul_of_nonneg_left (ih (k + 1)) hfail)

end NetLabs.Binomial
