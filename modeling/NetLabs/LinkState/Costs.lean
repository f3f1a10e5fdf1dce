import Mathlib.Data.UInt
import Mathlib.Logic.Function.Basic

/-! # The cost table of a router

`lsTemplate (1).c` keeps the table as `int costs[N][N]`. `N` is a macro, here a parameter.
Both threads that write to it store one cost at two mirrored places under the lock. -/

namespace NetLabs.LinkState

abbrev Costs (N : ℕ) := Fin N → Fin N → Int32

def INFINITE : Int32 := 1000

variable {N : ℕ}

-- There are finitely many tables, but too many to go through all of them.
instance (tables : List (Costs N)) (p : Costs N → Prop) [DecidablePred p] :
    Decidable (∀ m ∈ tables, p m) :=
  List.decidableBAll p tables

/-- `costs[i][j] = cost`. -/
def Costs.store (costs : Costs N) (i j : Fin N) (cost : Int32) : Costs N :=
  Function.update costs i (Function.update (costs i) j cost)

/-- The critical section of `receive_info`, and that of `main`. -/
def Costs.setLink (costs : Costs N) (n0 n1 : Fin N) (n2 : Int32) : Costs N :=
  (costs.store n0 n1 n2).store n1 n0 n2

/-- Do `i`, `j` name the two ends of the link between `a` and `b`? -/
def OnLink (a b i j : Fin N) : Prop :=
  i = a ∧ j = b ∨ i = b ∧ j = a

instance (a b i j : Fin N) : Decidable (OnLink a b i j) :=
  inferInstanceAs (Decidable (_ ∨ _))

theorem OnLink.symm {a b i j : Fin N} (h : OnLink a b i j) : OnLink i j a b := by
  rcases h with ⟨rfl, rfl⟩ | ⟨rfl, rfl⟩
  · exact .inl ⟨rfl, rfl⟩
  · exact .inr ⟨rfl, rfl⟩

theorem Costs.store_apply (costs : Costs N) (i j k l : Fin N) (cost : Int32) :
    costs.store i j cost k l = if k = i ∧ l = j then cost else costs k l := by
  unfold Costs.store
  by_cases hk : k = i
  · subst hk
    by_cases hl : l = j
    · subst hl
      simp
    · simp [hl]
  · simp [hk]

/-- An update changes the entries of its link and no others. -/
theorem Costs.setLink_apply (costs : Costs N) (n0 n1 i j : Fin N) (n2 : Int32) :
    costs.setLink n0 n1 n2 i j = if OnLink n0 n1 i j then n2 else costs i j := by
  unfold Costs.setLink
  rw [Costs.store_apply, Costs.store_apply]
  by_cases h : i = n1 ∧ j = n0
  · simp [OnLink, h]
  · by_cases h' : i = n0 ∧ j = n1 <;> simp [OnLink, h, h']

theorem Costs.setLink_of_not_onLink {costs : Costs N} {n0 n1 i j : Fin N} {n2 : Int32}
    (h : ¬ OnLink n0 n1 i j) : costs.setLink n0 n1 n2 i j = costs i j := by
  rw [Costs.setLink_apply, if_neg h]

/-- The entries of a table as integers. -/
def Costs.weight (costs : Costs N) (i j : Fin N) : ℤ :=
  (costs i j).toInt

end NetLabs.LinkState
