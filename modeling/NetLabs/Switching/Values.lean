import NetLabs.Switching.Tail

/-! # What is printed for 3c to 3g

The values of `main` before the loop for 3h. Those for ten busy users subtract ten from the
number of users, whether or not there are so many: `pow` then gets a negative exponent, and
`factorial` returns its error value, which is used as a factor. -/

namespace NetLabs.Switching

open Binomial

/-! ## The program -/

/-- `k` specific users are busy and all others are not: what 3d, 3e and 3f multiply. -/
def specificBusy (k nPSusers : ℤ) (pPSusers : ℚ) : Option ℚ := do
  let pPSusersNotBusy := 1 - pPSusers
  let pBusy ← pow pPSusers k
  let pNotBusy ← pow pPSusersNotBusy (nPSusers - k)
  return pBusy * pNotBusy

/-- The value for 3c: all other users are not busy. -/
def pAllNotBusy (nPSusers : ℤ) (pPSusers : ℚ) : Option ℚ :=
  pow (1 - pPSusers) (nPSusers - 1)

/-- The value for 3d: one specific user is busy and the others are not. -/
def pOneBusy (nPSusers : ℤ) (pPSusers : ℚ) : Option ℚ :=
  specificBusy 1 nPSusers pPSusers

/-- The value for 3e: any one of the users is busy and the others are not. -/
def pExactlyOne (nPSusers : ℤ) (pPSusers : ℚ) : Option ℚ := do
  let pOne ← specificBusy 1 nPSusers pPSusers
  return nPSusers * pOne

/-- The value for 3f: ten specific users are busy and the others are not. -/
def pTenBusy (nPSusers : ℤ) (pPSusers : ℚ) : Option ℚ :=
  specificBusy 10 nPSusers pPSusers

/-- The value for 3g: any ten users are busy and the others are not. -/
def pAnyTenBusy (nPSusers : ℤ) (pPSusers : ℚ) : Option ℚ := do
  let pPSusersNotBusy := 1 - pPSusers
  let users ← factorial nPSusers
  let busy ← factorial 10
  let notBusy ← factorial ((nPSusers - 10 : ℤ) : ℚ)
  let pBusy ← pow pPSusers 10
  let pNotBusy ← pow pPSusersNotBusy (nPSusers - 10)
  return users / (busy * notBusy) * pBusy * pNotBusy

/-- There is a value, and it lies in [0, 1]. -/
def IsProbability (value : Option ℚ) : Prop :=
  ∃ v, value = some v ∧ 0 ≤ v ∧ v ≤ 1

/-! ## Enough users -/

variable {n k : ℕ} {p : ℚ}

theorem specificBusy_eq (hk : k ≤ n) (p : ℚ) :
    specificBusy k n p = some (p ^ k * (1 - p) ^ (n - k)) := by
  have hsub : (n : ℤ) - k = (n - k : ℕ) := by omega
  simp only [specificBusy, hsub, pow_natCast, Option.bind_eq_bind, Option.bind_some]
  rfl

theorem specificBusy_isProbability (hk : k ≤ n) (hp : 0 ≤ p) (hp' : p ≤ 1) :
    IsProbability (specificBusy k n p) :=
  ⟨_, specificBusy_eq hk p, pow_mul_pow_mem hp hp' k (n - k)⟩

theorem pAllNotBusy_isProbability (hn : 1 ≤ n) (hp : 0 ≤ p) (hp' : p ≤ 1) :
    IsProbability (pAllNotBusy n p) := by
  have hsub : (n : ℤ) - 1 = (n - 1 : ℕ) := by omega
  have hmem := pow_mul_pow_mem hp hp' 0 (n - 1)
  rw [pow_zero, one_mul] at hmem
  exact ⟨_, by rw [pAllNotBusy, hsub, pow_natCast], hmem⟩

/-- 3e is the mass of one busy user. -/
theorem pExactlyOne_eq (hn : 1 ≤ n) (p : ℚ) : pExactlyOne n p = some (mass n p 1) := by
  have hone : specificBusy 1 n p = _ := specificBusy_eq hn p
  rw [pExactlyOne, hone, mass_one]
  rfl

theorem isProbability_mass (hp : 0 ≤ p) (hp' : p ≤ 1) (n i : ℕ) :
    IsProbability (some (mass n p i)) :=
  ⟨_, rfl, mass_nonneg hp hp' n i, mass_le_one hp hp' n i⟩

theorem pExactlyOne_isProbability (hn : 1 ≤ n) (hp : 0 ≤ p) (hp' : p ≤ 1) :
    IsProbability (pExactlyOne n p) := by
  rw [pExactlyOne_eq hn]
  exact isProbability_mass hp hp' n 1

/-- A turn of the loop for 3h at ten would add the value of 3g. -/
theorem addMass_ten (nPSusers : ℤ) (p sum : ℚ) :
    addMass nPSusers p 10 sum = (pAnyTenBusy nPSusers p).map (sum + ·) := by
  simp [addMass, pAnyTenBusy, Option.map_bind]

/-- 3g is the mass of ten busy users. -/
theorem pAnyTenBusy_eq (hten : 10 ≤ n) (hn : n < INT_MAX) (p : ℚ) :
    pAnyTenBusy n p = some (mass n p 10) := by
  have hturn := addMass_eq hten hn p 0
  have hmap : (pAnyTenBusy n p).map (0 + ·) = pAnyTenBusy n p := by simp
  rw [← hmap, ← addMass_ten]
  simpa using hturn

/-! ## Too few users -/

/-- With fewer than ten users the error value makes 3g negative, or zero. -/
theorem pAnyTenBusy_few (hn : n < 10) (hp : p < 1) : pAnyTenBusy n p =
    some (-(n.factorial / Nat.factorial 10 * p ^ 10 * (1 - p) ^ ((n : ℤ) - 10))) := by
  have husers : factorial ((n : ℤ) : ℚ) = some (n.factorial : ℚ) :=
    factorial_natCast (by unfold INT_MAX; omega)
  have hbusy : factorial 10 = some (Nat.factorial 10 : ℚ) :=
    factorial_natCast (n := 10) (by decide)
  have hnotBusy : factorial (((n : ℤ) - 10 : ℤ) : ℚ) = some (-1) :=
    factorial_neg (by exact_mod_cast (by omega : (n : ℤ) - 10 < 0))
  have hpow : pow p 10 = some (p ^ 10) := pow_natCast p 10
  have hrest : pow (1 - p) ((n : ℤ) - 10) = some ((1 - p) ^ ((n : ℤ) - 10)) :=
    pow_of_ne_zero (sub_pos.mpr hp).ne' _
  simp only [pAnyTenBusy, husers, hbusy, hnotBusy, hpow, hrest, Option.bind_eq_bind,
    Option.bind_some]
  rw [mul_neg_one, div_neg, neg_mul, neg_mul]
  rfl

theorem pAnyTenBusy_overflow {nPSusers : ℤ} (hn : INT_MAX ≤ nPSusers) (p : ℚ) :
    pAnyTenBusy nPSusers p = none := by
  rw [pAnyTenBusy, factorial_overflow (by exact_mod_cast hn)]
  rfl

/-- Where nobody is ever busy, too few users do no harm. -/
theorem specificBusy_zero {nPSusers : ℤ} (hk : 0 < k) :
    specificBusy k nPSusers 0 = some 0 := by
  have hpow : pow (1 - 0) (nPSusers - k) = some ((1 - 0) ^ (nPSusers - k)) :=
    pow_of_ne_zero (by norm_num) _
  simp only [specificBusy, hpow, pow_natCast, zero_pow hk.ne', Option.bind_eq_bind,
    Option.bind_some, zero_mul]
  rfl

theorem pAnyTenBusy_few_zero (hn : n < 10) : pAnyTenBusy n 0 = some 0 := by
  rw [pAnyTenBusy_few hn zero_lt_one]
  simp

/-- Otherwise the value of 3g is below zero. -/
theorem pAnyTenBusy_few_not_isProbability (hn : n < 10) (hp : 0 < p) (hp' : p < 1) :
    ¬ IsProbability (pAnyTenBusy n p) := by
  rintro ⟨v, hv, hnonneg, _⟩
  obtain rfl := Option.some.inj ((pAnyTenBusy_few hn hp').symm.trans hv)
  have hfactorial : ∀ m : ℕ, (0 : ℚ) < m.factorial := fun m => Nat.cast_pos.mpr m.factorial_pos
  have hpos : 0 < n.factorial / Nat.factorial 10 * p ^ 10 * (1 - p) ^ ((n : ℤ) - 10) :=
    mul_pos (mul_pos (div_pos (hfactorial n) (hfactorial 10)) (pow_pos hp 10))
      (zpow_pos (sub_pos.mpr hp') _)
  linarith

/-! ## All five values -/

/-- A single user who is busy nine tenths of the time: 3f is far above one, and 3g is
negative. -/
theorem one_user :
    pTenBusy 1 (9 / 10) = some (3486784401 / 10) ∧ ¬ IsProbability (pTenBusy 1 (9 / 10)) ∧
      pAnyTenBusy 1 (9 / 10) = some (-(3486784401 / 36288000)) ∧
      ¬ IsProbability (pAnyTenBusy 1 (9 / 10)) := by
  have hten : pTenBusy 1 (9 / 10) = some (3486784401 / 10) := by
    norm_num [pTenBusy, specificBusy, pow]
  have hany : pAnyTenBusy 1 (9 / 10) = some (-(3486784401 / 36288000)) := by
    have hfew : pAnyTenBusy 1 (9 / 10) = _ := pAnyTenBusy_few (n := 1) (by decide) (by norm_num)
    have hbusy : Nat.factorial 10 = 3628800 := rfl
    rw [hfew, hbusy, Nat.factorial_one]
    norm_num
  refine ⟨hten, ?_, hany, pAnyTenBusy_few_not_isProbability (n := 1) (by decide)
    (by norm_num) (by norm_num)⟩
  rintro ⟨v, hv, _, hle⟩
  obtain rfl := Option.some.inj (hten.symm.trans hv)
  norm_num at hle

/-- The values for 3c to 3g are probabilities, and the last one the mass of ten busy users,
exactly when there are at least ten users, or nobody is ever busy, and the loop of
`factorial` does not overflow. -/
theorem printed_iff (nPSusers : ℤ) (pPSusers : ℚ) (hn : 1 ≤ nPSusers)
    (hmax : nPSusers ≤ INT_MAX) (hp : 0 ≤ pPSusers) (hp' : pPSusers < 1) :
    (IsProbability (pAllNotBusy nPSusers pPSusers) ∧
      IsProbability (pOneBusy nPSusers pPSusers) ∧
      IsProbability (pExactlyOne nPSusers pPSusers) ∧
      IsProbability (pTenBusy nPSusers pPSusers) ∧
      IsProbability (pAnyTenBusy nPSusers pPSusers) ∧
      pAnyTenBusy nPSusers pPSusers = some ((nPSusers.toNat.choose 10 : ℚ) * pPSusers ^ 10 *
        (1 - pPSusers) ^ (nPSusers.toNat - 10)) ∧
      (nPSusers < 10 → pAnyTenBusy nPSusers pPSusers = some 0)) ↔
    nPSusers < INT_MAX ∧ (10 ≤ nPSusers ∨ pPSusers = 0) := by
  obtain ⟨n, rfl⟩ := Int.eq_ofNat_of_zero_le (by omega : 0 ≤ nPSusers)
  constructor
  · rintro ⟨_, _, _, _, hany, _, _⟩
    constructor
    · by_contra hlt
      obtain ⟨v, hv, _⟩ := hany
      rw [pAnyTenBusy_overflow (not_lt.mp hlt)] at hv
      simp at hv
    · by_contra hneither
      obtain ⟨hfew, hbusy⟩ := not_or.mp hneither
      exact pAnyTenBusy_few_not_isProbability (by omega) (lt_of_le_of_ne hp (Ne.symm hbusy))
        hp' hany
  · rintro ⟨hlt, hten⟩
    have hone : 1 ≤ n := by omega
    refine ⟨pAllNotBusy_isProbability hone hp hp'.le,
      specificBusy_isProbability hone hp hp'.le, pExactlyOne_isProbability hone hp hp'.le, ?_⟩
    rcases Nat.lt_or_ge n 10 with hfew | henough
    · obtain rfl : pPSusers = 0 := hten.resolve_left (by omega)
      have hzero : IsProbability (some 0) := ⟨0, rfl, le_rfl, zero_le_one⟩
      have hspecific : pTenBusy n 0 = some 0 := specificBusy_zero (k := 10) (by decide)
      have hany := pAnyTenBusy_few_zero hfew
      refine ⟨hspecific ▸ hzero, hany ▸ hzero, ?_, fun _ => hany⟩
      rw [hany]
      simp
    · have hany := pAnyTenBusy_eq henough hlt pPSusers
      refine ⟨specificBusy_isProbability henough hp hp'.le, ?_, hany, ?_⟩
      · rw [hany]
        exact isProbability_mass hp hp'.le n 10
      · intro hfew
        omega

/-- Thirty-five users, each busy a tenth of the time. -/
theorem printed_iff_thirtyFive :
    IsProbability (pTenBusy 35 (1 / 10)) ∧ pAnyTenBusy 35 (1 / 10) =
      some ((Nat.choose 35 10 : ℚ) * (1 / 10) ^ 10 * (1 - 1 / 10) ^ 25) := by
  obtain ⟨_, _, _, hten, _, hmass, _⟩ := (printed_iff 35 (1 / 10) (by decide) (by decide)
    (by norm_num) (by norm_num)).mpr ⟨by decide, .inl (by decide)⟩
  exact ⟨hten, hmass⟩

end NetLabs.Switching
