import Mathlib.Data.Vector.Basic
import NetLabs.Model.File

/-! # Integers and buffers in memory

An `int` has four bytes, least significant first. -/

namespace NetLabs

/-- Byte `i` of an `int` in memory. -/
def intByte (x : Int32) (i : ℕ) : UInt8 :=
  (x.toUInt32 >>> (8 * UInt32.ofNat i)).toUInt8

theorem toNat_intByte (x : Int32) {i : ℕ} (hi : i < 4) :
    (intByte x i).toNat = x.toUInt32.toNat / 2 ^ (8 * i) % 2 ^ 8 := by
  have hshift : (8 * UInt32.ofNat i).toNat = 8 * i := by
    rw [UInt32.toNat_mul, UInt32.toNat_ofNat_of_lt' (by simp [UInt32.size]; omega)]
    simp
    omega
  have hmod : 8 * i % 32 = 8 * i := by omega
  rw [intByte, UInt32.toNat_toUInt8, UInt32.toNat_shiftRight, hshift, hmod,
    Nat.shiftRight_eq_div_pow]

/-- An `int` is made of its four bytes. -/
theorem toNat_eq_sum_intByte (x : Int32) : x.toUInt32.toNat = (intByte x 0).toNat +
    2 ^ 8 * (intByte x 1).toNat + 2 ^ 16 * (intByte x 2).toNat +
    2 ^ 24 * (intByte x 3).toNat := by
  have hlt := x.toUInt32.toNat_lt
  rw [toNat_intByte x (by omega), toNat_intByte x (by omega), toNat_intByte x (by omega),
    toNat_intByte x (by omega)]
  omega

theorem eq_of_intByte_eq {x y : Int32} (h : ∀ i < 4, intByte x i = intByte y i) : x = y := by
  have hnat : x.toUInt32.toNat = y.toUInt32.toNat := by
    rw [toNat_eq_sum_intByte x, toNat_eq_sum_intByte y, h 0 (by omega), h 1 (by omega),
      h 2 (by omega), h 3 (by omega)]
  rw [← Int32.toInt32_toUInt32 x, UInt32.toNat_inj.mp hnat, Int32.toInt32_toUInt32]

theorem toInt_ofNat_le {n : ℕ} (hn : n ≤ 10) : (Int32.ofNat n).toInt = n := by
  apply Int32.toInt_ofNat_of_lt
  omega

theorem toNatClampNeg_ofNat_le {n : ℕ} (hn : n ≤ 10) : (Int32.ofNat n).toNatClampNeg = n := by
  rw [Int32.toNatClampNeg, toInt_ofNat_le hn, Int.toNat_natCast]

/-- The conversion of an `int` to a `size_t` of 64 bits. -/
def sizeT (n : Int32) : ℕ :=
  (n.toInt % 2 ^ 64).toNat

/-- The offsets a call reads that is handed the address `start` and the size `len`. -/
def spanReads (start : ℕ) (len : Int32) : List ℕ :=
  (List.range (sizeT len)).map (start + ·)

theorem mem_spanReads {start k : ℕ} {len : Int32} :
    k ∈ spanReads start len ↔ start ≤ k ∧ k < start + sizeT len := by
  simp only [spanReads, List.mem_map, List.mem_range]
  constructor
  · rintro ⟨i, hi, rfl⟩
    omega
  · intro hk
    exact ⟨k - start, by omega, by omega⟩

/-- A read stays within `count` bytes when `len` is not negative, which would make it a huge
size, and not larger. -/
theorem spanReads_lt_iff (start count : ℕ) (len : Int32) (hcount : start + count < 2 ^ 31) :
    (∀ k ∈ spanReads start len, k < start + count) ↔ 0 ≤ len.toInt ∧ len.toInt ≤ count := by
  have hlow := len.le_toInt
  have hhigh := len.toInt_lt
  simp only [mem_spanReads]
  constructor
  · intro h
    have hlt : ¬ start + count < start + sizeT len := fun hlt => by
      have := h (start + count) ⟨by omega, hlt⟩
      omega
    simp only [sizeT] at hlt
    omega
  · intro hlen k hk
    simp only [sizeT] at hk
    omega

theorem spanReads_within_iff (start count : ℕ) (len : Int32)
    (hcount : start + count < 2 ^ 31) :
    (∀ k ∈ spanReads start len, start ≤ k ∧ k < start + count) ↔
      0 ≤ len.toInt ∧ len.toInt ≤ count := by
  rw [← spanReads_lt_iff start count len hcount]
  exact ⟨fun h k hk => (h k hk).2, fun h k hk => ⟨(mem_spanReads.mp hk).1, h k hk⟩⟩

/-- Only the packet after the last chunk has length zero. -/
theorem ofNat_length_bytesAt_eq_zero_iff {chunks : List Chunk} {k : ℕ}
    (hk : k ≤ chunks.length) :
    Int32.ofNat (bytesAt chunks k).length = 0 ↔ k = chunks.length := by
  have hzero : (0 : Int32).toInt = 0 := rfl
  rw [← Int32.toInt_inj, toInt_ofNat_le (length_bytesAt_le chunks k), hzero,
    Int.natCast_eq_zero]
  constructor
  · intro hlen
    by_contra hne
    have hlt : k < chunks.length := Nat.lt_of_le_of_ne hk hne
    simp only [bytesAt, List.getElem?_eq_getElem hlt] at hlen
    have := (chunks[k]).length_pos
    omega
  · rintro rfl
    simp [bytesAt]

/-- `read` stores what it brings at the start of the buffer and leaves the rest of it. -/
def readInto (buffer : Vector UInt8 10) (chunk : Chunk) : Vector UInt8 10 :=
  Vector.ofFn fun i => if h : i.val < chunk.bytes.length then chunk.bytes[i.val] else buffer[i]

theorem take_readInto (buffer : Vector UInt8 10) (chunk : Chunk) :
    (readInto buffer chunk).toList.take chunk.bytes.length = chunk.bytes := by
  have hle := chunk.length_le
  apply List.ext_getElem
  · simp [hle]
  · intro i hi hi'
    simp [readInto, hi']

end NetLabs
