import Mathlib.Algebra.Ring.Parity
import Mathlib.Data.List.Perm.Basic

/-! # Longitudinal parity

The exclusive or of a list of words is eight, or however many, parities side by side: bit
`i` of it says whether bit `i` is set in an odd number of the words. -/

namespace NetLabs.Parity

variable {w : ℕ} {l l' : List (BitVec w)}

def xorSum (l : List (BitVec w)) : BitVec w :=
  l.foldr (· ^^^ ·) 0#w

@[simp] theorem xorSum_nil : xorSum ([] : List (BitVec w)) = 0#w := rfl

@[simp] theorem xorSum_cons (a : BitVec w) (l : List (BitVec w)) :
    xorSum (a :: l) = a ^^^ xorSum l := rfl

@[simp] theorem xorSum_append (l l' : List (BitVec w)) :
    xorSum (l ++ l') = xorSum l ^^^ xorSum l' := by
  induction l with
  | nil => simp
  | cons a l ih => rw [List.cons_append, xorSum_cons, xorSum_cons, ih, BitVec.xor_assoc]

theorem xorSum_perm (h : l.Perm l') : xorSum l = xorSum l' :=
  have : LeftCommutative fun a b : BitVec w => a ^^^ b :=
    ⟨fun a b c => by rw [← BitVec.xor_assoc, BitVec.xor_comm a b, BitVec.xor_assoc]⟩
  h.foldr_eq 0#w

theorem eq_xor_iff {a b : BitVec w} : a = a ^^^ b ↔ b = 0#w := by
  rw [← BitVec.xor_right_inj (x := b) a, BitVec.xor_zero]
  exact eq_comm

/-- One term of a sum changed. -/
theorem xorSum_map_change {ι : Type*} [DecidableEq ι] {is : List ι} {i : ι}
    (hnodup : is.Nodup) (hi : i ∈ is) (f : ι → BitVec w) (c : BitVec w) :
    xorSum (is.map fun j => if j = i then f j ^^^ c else f j) = xorSum (is.map f) ^^^ c := by
  induction is with
  | nil => simp at hi
  | cons j is ih =>
      obtain ⟨hj, hnodup⟩ := List.nodup_cons.mp hnodup
      simp only [List.map_cons, xorSum_cons]
      by_cases heq : j = i
      · subst heq
        have hrest : (is.map fun k => if k = j then f k ^^^ c else f k) = is.map f :=
          List.map_congr_left fun k hk => if_neg (by rintro rfl; exact hj hk)
        rw [if_pos rfl, hrest, BitVec.xor_assoc, BitVec.xor_comm c, BitVec.xor_assoc]
      · have hmem : i ∈ is := (List.mem_cons.mp hi).resolve_left (Ne.symm heq)
        rw [if_neg heq, ih hnodup hmem, BitVec.xor_assoc]

/-! ## Columns -/

/-- In how many places do the lists differ in bit `i`? -/
def flips (i : ℕ) (l l' : List (BitVec w)) : ℕ :=
  (l.zip l').countP fun (a, b) => a.getLsbD i != b.getLsbD i

@[simp] theorem flips_cons (i : ℕ) (a b : BitVec w) :
    flips i (a :: l) (b :: l') =
      flips i l l' + if (a.getLsbD i != b.getLsbD i) = true then 1 else 0 := by
  simp only [flips, List.zip_cons_cons, List.countP_cons]

/-- A bit of the two sums differs when an odd number of flips separates the lists there. -/
theorem getLsbD_xor_xorSum (h : l.length = l'.length) (i : ℕ) :
    (xorSum l ^^^ xorSum l').getLsbD i = decide (Odd (flips i l l')) := by
  induction l generalizing l' with
  | nil =>
      obtain rfl := List.length_eq_zero_iff.mp h.symm
      simp [flips]
  | cons a l ih =>
      obtain ⟨b, rest, rfl⟩ := List.exists_cons_of_length_eq_add_one h.symm
      have hrest := ih (Nat.succ_inj.mp h)
      rw [BitVec.getLsbD_xor] at hrest
      simp only [xorSum_cons, flips_cons, BitVec.getLsbD_xor]
      by_cases hab : a.getLsbD i = b.getLsbD i
      · rw [hab, if_neg (by simp), Nat.add_zero, ← hrest]
        cases b.getLsbD i <;> simp
      · have hodd : decide (Odd (flips i l rest + 1)) = !decide (Odd (flips i l rest)) := by
          simp only [Nat.odd_add_one, decide_not]
        rw [if_pos (by simpa using hab), hodd, ← hrest, Bool.eq_not_of_ne hab]
        cases b.getLsbD i <;> simp

/-- Lists of one length have the same sum when the flips in each column are even. -/
theorem xorSum_eq_iff (h : l.length = l'.length) :
    xorSum l = xorSum l' ↔ ∀ i < w, Even (flips i l l') := by
  rw [← BitVec.xor_eq_zero_iff]
  constructor
  · intro hzero i _
    have hbit := getLsbD_xor_xorSum h i
    rw [hzero] at hbit
    simpa using hbit
  · intro heven
    refine BitVec.eq_of_getLsbD_eq fun i hi => ?_
    rw [getLsbD_xor_xorSum h]
    simpa using heven i hi

end NetLabs.Parity
