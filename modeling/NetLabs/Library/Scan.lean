import Mathlib.Data.List.Basic
import Mathlib.Data.List.TakeWhile
import Mathlib.Data.Nat.Notation

/-! # Formatted input and output of C

The conversions `%d` and `%s` of `fscanf`, and `%d` of `printf`. A conversion takes the
longest input item it can and leaves the rest, also where it fails. -/

namespace NetLabs.Scan

/-! ## The conversions -/

/-- `isspace` in the locale a program starts in. -/
def isSpace (c : Char) : Bool :=
  c = ' ' ∨ 9 ≤ c.toNat ∧ c.toNat ≤ 13

def skipSpace (text : List Char) : List Char :=
  text.dropWhile isSpace

/-- An optional sign, and whether it is a minus. -/
def scanSign : List Char → Bool × List Char
  | '-' :: rest => (true, rest)
  | '+' :: rest => (false, rest)
  | text => (false, text)

def signed (minus : Bool) (digits : List Char) : ℤ :=
  if minus then -(Nat.ofDigitChars 10 digits 0 : ℤ) else Nat.ofDigitChars 10 digits 0

/-- `%d`, with the input that it leaves. Without a digit it has no value, and the white space
and a sign are gone all the same. -/
def scanInt (text : List Char) : Option ℤ × List Char :=
  let (minus, body) := scanSign (skipSpace text)
  match body.takeWhile Char.isDigit with
  | [] => (none, body)
  | d :: ds => (some (signed minus (d :: ds)), body.dropWhile Char.isDigit)

/-- `%s`, with the input that it leaves. It only fails at the end of the input. -/
def scanWord (text : List Char) : Option (List Char) × List Char :=
  match skipSpace text with
  | [] => (none, [])
  | c :: cs => (some ((c :: cs).takeWhile (!isSpace ·)), (c :: cs).dropWhile (!isSpace ·))

/-- `printf` of one `%d`. -/
def printInt (n : ℤ) : List Char :=
  if n < 0 then '-' :: Nat.toDigits 10 n.natAbs else Nat.toDigits 10 n.natAbs

/-! ## Numerals and tokens -/

def Spaces (ws : List Char) : Prop :=
  ∀ c ∈ ws, isSpace c = true

theorem Spaces.nil : Spaces [] := by
  simp [Spaces]

/-- The text starts with no character of this kind. -/
def StartsWithout (p : Char → Bool) (text : List Char) : Prop :=
  ∀ c ∈ text.head?, p c = false

instance (p : Char → Bool) (text : List Char) : Decidable (StartsWithout p text) :=
  inferInstanceAs (Decidable (∀ c ∈ text.head?, p c = false))

/-- What `%d` takes for `n`: a sign or none, and digits. -/
inductive Numeral : ℤ → List Char → Prop
  | plain {d : Char} {ds : List Char} (hdigits : ∀ c ∈ d :: ds, c.isDigit = true) :
      Numeral (signed false (d :: ds)) (d :: ds)
  | plus {d : Char} {ds : List Char} (hdigits : ∀ c ∈ d :: ds, c.isDigit = true) :
      Numeral (signed false (d :: ds)) ('+' :: d :: ds)
  | minus {d : Char} {ds : List Char} (hdigits : ∀ c ∈ d :: ds, c.isDigit = true) :
      Numeral (signed true (d :: ds)) ('-' :: d :: ds)

/-- What `%s` takes. -/
structure Token (w : List Char) : Prop where
  ne_nil : w ≠ []
  solid : ∀ c ∈ w, isSpace c = false

theorem isSpace_of_isDigit {c : Char} (h : c.isDigit = true) : isSpace c = false := by
  have hrange : 48 ≤ c.toNat ∧ c.toNat ≤ 57 := by
    simpa [Char.isDigit, UInt32.le_iff_toNat_le] using h
  have hne : c ≠ ' ' := by
    rintro rfl
    simp at hrange
  simp only [isSpace, hne, false_or, decide_eq_false_iff_not]
  omega

theorem skipSpace_append {ws text : List Char} (hws : Spaces ws)
    (htext : StartsWithout isSpace text) : skipSpace (ws ++ text) = text := by
  rw [skipSpace, List.dropWhile_append_of_pos hws]
  cases text with
  | nil => rfl
  | cons c cs => exact List.dropWhile_cons_of_neg (by simpa using htext c rfl)

/-- A run of characters of one kind is taken whole. -/
theorem span_append {p : Char → Bool} {xs rest : List Char} (hxs : ∀ c ∈ xs, p c = true)
    (hrest : StartsWithout p rest) :
    (xs ++ rest).takeWhile p = xs ∧ (xs ++ rest).dropWhile p = rest := by
  rw [List.takeWhile_append_of_pos hxs, List.dropWhile_append_of_pos hxs]
  cases rest with
  | nil => simp
  | cons c cs =>
      have hc : p c = false := hrest c rfl
      simp [hc]

theorem scanSign_digit {d : Char} (hd : d.isDigit = true) (rest : List Char) :
    scanSign (d :: rest) = (false, d :: rest) := by
  unfold scanSign
  split
  case h_1 heq =>
      obtain ⟨rfl, _⟩ := List.cons.inj heq
      simp at hd
  case h_2 heq =>
      obtain ⟨rfl, _⟩ := List.cons.inj heq
      simp at hd
  case h_3 => rfl

/-- A numeral is a sign, or none, in front of digits. -/
theorem Numeral.scanSign {n : ℤ} {cs : List Char} (h : Numeral n cs) :
    ∃ minus d ds, n = signed minus (d :: ds) ∧ (∀ c ∈ d :: ds, c.isDigit = true) ∧
      ∀ rest, StartsWithout isSpace (cs ++ rest) ∧
        Scan.scanSign (cs ++ rest) = (minus, d :: ds ++ rest) := by
  cases h with
  | @plain d ds hdigits =>
      have hd := hdigits d List.mem_cons_self
      refine ⟨false, d, ds, rfl, hdigits, fun rest => ⟨?_, scanSign_digit hd _⟩⟩
      simp [StartsWithout, isSpace_of_isDigit hd]
  | @plus d ds hdigits =>
      refine ⟨false, d, ds, rfl, hdigits, fun rest => ⟨?_, rfl⟩⟩
      simp [StartsWithout, isSpace]
  | @minus d ds hdigits =>
      refine ⟨true, d, ds, rfl, hdigits, fun rest => ⟨?_, rfl⟩⟩
      simp [StartsWithout, isSpace]

/-- `%d` reads every numeral up to its last digit. -/
theorem scanInt_numeral {n : ℤ} {ws cs rest : List Char} (hws : Spaces ws)
    (hcs : Numeral n cs) (hrest : StartsWithout Char.isDigit rest) :
    scanInt (ws ++ cs ++ rest) = (some n, rest) := by
  obtain ⟨minus, d, ds, rfl, hdigits, hsign⟩ := hcs.scanSign
  obtain ⟨hstart, hsign⟩ := hsign rest
  obtain ⟨htake, hdrop⟩ := span_append hdigits hrest
  have hskip : skipSpace (ws ++ cs ++ rest) = cs ++ rest := by
    rw [List.append_assoc]
    exact skipSpace_append hws hstart
  simp only [scanInt, hskip, hsign, htake, hdrop]

/-- Where neither a digit nor a sign follows the white space, `%d` fails and stays there. -/
theorem scanInt_of_stop {text : List Char}
    (h : StartsWithout (fun c => c.isDigit || c == '-' || c == '+') (skipSpace text)) :
    scanInt text = (none, skipSpace text) := by
  cases hskip : skipSpace text with
  | nil => simp [scanInt, hskip, scanSign]
  | cons c cs =>
      have hc := h c (by simp [hskip])
      simp only [Bool.or_eq_false_iff, beq_eq_false_iff_ne, ne_eq] at hc
      obtain ⟨⟨hdigit, hminus⟩, hplus⟩ := hc
      have hsign : scanSign (c :: cs) = (false, c :: cs) := by
        unfold scanSign
        split
        case h_1 heq => exact absurd (List.cons.inj heq).1 hminus
        case h_2 heq => exact absurd (List.cons.inj heq).1 hplus
        case h_3 => rfl
      simp [scanInt, hskip, hsign, hdigit]

theorem scanWord_token {ws w rest : List Char} (hws : Spaces ws) (hw : Token w)
    (hrest : rest = [] ∨ ∃ c cs, rest = c :: cs ∧ isSpace c = true) :
    scanWord (ws ++ w ++ rest) = (some w, rest) := by
  obtain ⟨c, cs, rfl⟩ := List.exists_cons_of_ne_nil hw.ne_nil
  have hskip : skipSpace (ws ++ (c :: cs ++ rest)) = c :: cs ++ rest := by
    refine skipSpace_append hws ?_
    intro c' hc
    obtain rfl : c = c' := by simpa using hc
    exact hw.solid c List.mem_cons_self
  have hsolid : ∀ c' ∈ c :: cs, (!isSpace c') = true := by
    intro c' hc'
    simp [hw.solid c' hc']
  have hstop : StartsWithout (!isSpace ·) rest := by
    rcases hrest with rfl | ⟨c', cs', rfl, hc'⟩
    · simp [StartsWithout]
    · simp [StartsWithout, hc']
  obtain ⟨htake, hdrop⟩ := span_append hsolid hstop
  rw [List.append_assoc, scanWord, hskip]
  exact Prod.ext (congrArg some htake) hdrop

/-! ## Printed numbers -/

theorem printInt_numeral (n : ℤ) : Numeral n (printInt n) := by
  have hdigits : ∀ c ∈ Nat.toDigits 10 n.natAbs, c.isDigit = true := fun c hc =>
    Nat.isDigit_of_mem_toDigits (by decide) (by decide) hc
  have hvalue := Nat.ofDigitChars_ten_toDigits (n := n.natAbs)
  obtain ⟨d, ds, hcons⟩ :=
    List.exists_cons_of_ne_nil (Nat.toDigits_ne_nil (n := n.natAbs) (b := 10))
  rw [hcons] at hdigits hvalue
  unfold printInt
  rw [hcons]
  split
  case isTrue hneg =>
      have hn : n = signed true (d :: ds) := by
        simp only [signed, hvalue, if_true]
        omega
      rw [hn]
      exact .minus hdigits
  case isFalse hneg =>
      have hn : n = signed false (d :: ds) := by
        simp only [signed, hvalue, Bool.false_eq_true, if_false]
        omega
      rw [hn]
      exact .plain hdigits

end NetLabs.Scan
