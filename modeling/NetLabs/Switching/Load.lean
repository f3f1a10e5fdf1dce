import NetLabs.Switching.Values

/-! # More load

How the value for 3h changes with the number of users and with how often each is busy. -/

namespace NetLabs.Switching

open Binomial

theorem pTenMoreBusy_tail {n : ℕ} (hn : n < INT_MAX) (p : ℚ) :
    pTenMoreBusy n p = some (tail n 11 p) :=
  pTenMoreBusy_eq hn p

/-- Neither more users nor busier ones make the value for 3h smaller. -/
theorem pTenMoreBusy_mono (nPSusers mPSusers : ℤ) (pPSusers qPSusers : ℚ) (hn : 0 ≤ nPSusers)
    (hle : nPSusers ≤ mPSusers) (hmax : mPSusers < INT_MAX) (hp : 0 ≤ pPSusers)
    (hpq : pPSusers ≤ qPSusers) (hq : qPSusers ≤ 1) :
    ∃ few many, pTenMoreBusy nPSusers pPSusers = some few ∧
      pTenMoreBusy mPSusers qPSusers = some many ∧ few ≤ many := by
  obtain ⟨n, rfl⟩ := Int.eq_ofNat_of_zero_le hn
  obtain ⟨m, rfl⟩ := Int.eq_ofNat_of_zero_le (hn.trans hle)
  refine ⟨_, _, pTenMoreBusy_tail (by omega) pPSusers, pTenMoreBusy_tail hmax qPSusers, ?_⟩
  calc tail n 11 pPSusers
      ≤ tail m 11 pPSusers := tail_le_of_le hp (hpq.trans hq) (by omega) 11
    _ ≤ tail m 11 qPSusers := tail_mono hp hpq hq m 11

/-- From twenty users to thirty-five, and from a tenth of the time to a fifth. -/
theorem pTenMoreBusy_mono_thirtyFive :
    ∃ few many, pTenMoreBusy 20 (1 / 10) = some few ∧
      pTenMoreBusy 35 (1 / 5) = some many ∧ few ≤ many :=
  pTenMoreBusy_mono 20 35 (1 / 10) (1 / 5) (by decide) (by decide) (by decide) (by norm_num)
    (by norm_num) (by norm_num)

end NetLabs.Switching
