import NetLabs.StopWait.Checksum

/-! # One bit flipped in transit

The checksum notices a single flipped bit anywhere but in `len`, which says how many bytes
are covered. There it depends on the bytes that enter or leave the range. -/

namespace NetLabs.StopWait

open Parity

def flipBit (b : UInt8) (k : ℕ) : UInt8 :=
  .ofBitVec (b.toBitVec ^^^ BitVec.twoPow 8 k)

/-- In the header and the first `len` data bytes, `q` is `p` with bit `k` of the byte at `pos`
flipped. -/
def Flipped (p q : Packet) (pos k : ℕ) : Prop :=
  ∀ i < sizeofHeader + p.header.len.toNatClampNeg, q.byteAt (fun _ => 0) i =
    if i = pos then flipBit (p.byteAt (fun _ => 0) i) k else p.byteAt (fun _ => 0) i

/-- The bytes that a changed `len` adds to those covered, or takes from them. -/
def exchanged (beyond : ℕ → UInt8) (p q : Packet) : List UInt8 :=
  let n := p.header.len.toNatClampNeg
  let m := q.header.len.toNatClampNeg
  if n ≤ m then (List.range (m - n)).map fun j => q.byteAt beyond (sizeofHeader + n + j)
  else (List.range (n - m)).map fun j => p.byteAt beyond (sizeofHeader + m + j)

theorem flipBit_ne (b : UInt8) {k : ℕ} (hk : k < 8) : flipBit b k ≠ b := by
  intro h
  have hbits := congrArg UInt8.toBitVec h
  have hbit := congrArg (BitVec.getLsbD · k) hbits
  simp [flipBit, hk] at hbit

theorem zeroed_byteAt (beyond : ℕ → UInt8) (packet : Packet) (i : ℕ) :
    packet.zeroed.byteAt beyond i =
      if 8 ≤ i ∧ i < 12 then 0 else packet.byteAt beyond i := by
  have hzero : ∀ j < 4, intByte 0 j = 0 := by decide
  by_cases h : 8 ≤ i ∧ i < 12
  · obtain ⟨j, rfl⟩ := Nat.exists_eq_add_of_le h.1
    rw [if_pos h, byteAt_cksum beyond _ (by omega)]
    exact hzero j (by omega)
  · rw [if_neg h]
    simp only [Packet.byteAt, Packet.zeroed]
    split
    · rfl
    · split
      · rfl
      · rw [if_neg (by omega), if_neg (by omega)]

section

variable {p q : Packet} {pos k : ℕ}

/-- Where no flip is, the fields are the same. -/
theorem Flipped.len_eq (h : Flipped p q pos k) (hpos : pos < 4 ∨ 8 ≤ pos) :
    q.header.len = p.header.len := by
  refine eq_of_intByte_eq fun i hi => ?_
  have hbyte := h (4 + i) (by rw [sizeofHeader]; omega)
  rwa [if_neg (by omega), byteAt_len _ _ hi, byteAt_len _ _ hi] at hbyte

theorem Flipped.cksum_eq (h : Flipped p q pos k) (hpos : pos < 8 ∨ 12 ≤ pos) :
    q.header.cksum = p.header.cksum := by
  refine eq_of_intByte_eq fun i hi => ?_
  have hbyte := h (8 + i) (by rw [sizeofHeader]; omega)
  rwa [if_neg (by omega), byteAt_cksum _ _ hi, byteAt_cksum _ _ hi] at hbyte

theorem Flipped.cksum_ne (h : Flipped p q pos k) (hk : k < 8) (hpos : 8 ≤ pos ∧ pos < 12) :
    q.header.cksum ≠ p.header.cksum := by
  intro heq
  obtain ⟨i, rfl⟩ := Nat.exists_eq_add_of_le hpos.1
  have hi : i < 4 := by omega
  have hbyte := h (8 + i) (by rw [sizeofHeader]; omega)
  rw [if_pos rfl, byteAt_cksum _ _ hi, byteAt_cksum _ _ hi, heq] at hbyte
  exact flipBit_ne _ hk hbyte.symm

/-- A flip never makes `len` slightly negative. -/
theorem Flipped.len_le (h : Flipped p q pos k) (hlen : p.header.len.toInt ≤ 10)
    (hnonneg : 0 ≤ p.header.len.toInt) (hneg : q.header.len.toInt < 0) :
    q.header.len.toInt ≤ -12 := by
  have hp := toNat_eq_sum_intByte p.header.len
  have hq := toNat_eq_sum_intByte q.header.len
  have hpint : p.header.len.toInt = _ := BitVec.toInt_eq_toNat_cond p.header.len.toBitVec
  have hqint : q.header.len.toInt = _ := BitVec.toInt_eq_toNat_cond q.header.len.toBitVec
  have hpnat : p.header.len.toBitVec.toNat = p.header.len.toUInt32.toNat := rfl
  have hqnat : q.header.len.toBitVec.toNat = q.header.len.toUInt32.toNat := rfl
  have hsame : ∀ i < 4, 4 + i ≠ pos → intByte q.header.len i = intByte p.header.len i := by
    intro i hi hne
    have hbyte := h (4 + i) (by rw [sizeofHeader]; omega)
    rwa [if_neg hne, byteAt_len _ _ hi, byteAt_len _ _ hi] at hbyte
  have htop : ∀ i, (intByte q.header.len i).toNat < 2 ^ 8 := fun i => UInt8.toNat_lt _
  -- the top byte of `p` is zero, so if it is not the one flipped, `q` is not negative
  by_cases hpos : pos = 7
  · rw [hsame 0 (by omega) (by omega), hsame 1 (by omega) (by omega),
      hsame 2 (by omega) (by omega)] at hq
    have := htop 3
    split at hpint <;> split at hqint <;> omega
  · rw [hsame 3 (by omega) (by omega)] at hq
    have := htop 0
    have := htop 1
    have := htop 2
    split at hpint <;> split at hqint <;> omega

/-! ## The bytes covered -/

/-- The flip as the two sides see it, whatever lies after their packets in memory. -/
theorem Flipped.byteAt (h : Flipped p q pos k) (hlen : p.header.len.toInt ≤ 10)
    (beyond beyond' : ℕ → UInt8) {i : ℕ}
    (hi : i < sizeofHeader + p.header.len.toNatClampNeg) :
    q.byteAt beyond' i =
      if i = pos then flipBit (p.byteAt beyond i) k else p.byteAt beyond i := by
  have hclamp := p.header.len.toNat_toInt
  have hlt : i < 22 := by
    rw [sizeofHeader] at hi
    omega
  have hbyte := h i hi
  rwa [byteAt_congr q hlt _ beyond', byteAt_congr p hlt _ beyond] at hbyte

/-- Within what `p` covers, the bytes added up are the same but for the flip. -/
theorem Flipped.zeroed_byteAt (h : Flipped p q pos k) (hpos : pos < 8 ∨ 12 ≤ pos)
    (hlen : p.header.len.toInt ≤ 10) (beyond beyond' : ℕ → UInt8) {i : ℕ}
    (hi : i < sizeofHeader + p.header.len.toNatClampNeg) :
    q.zeroed.byteAt beyond' i = if i = pos then flipBit (p.zeroed.byteAt beyond i) k
      else p.zeroed.byteAt beyond i := by
  have hbyte := h.byteAt hlen beyond beyond' hi
  rw [StopWait.zeroed_byteAt, StopWait.zeroed_byteAt]
  by_cases hzero : 8 ≤ i ∧ i < 12
  · rw [if_pos hzero, if_pos hzero, if_neg (by omega)]
  · rw [if_neg hzero, if_neg hzero, hbyte]

/-- The flip changes the parity of whatever part of the bytes contains it. -/
theorem Flipped.parity_range (h : Flipped p q pos k) (hpos : pos < 8 ∨ 12 ≤ pos)
    (hlen : p.header.len.toInt ≤ 10) (beyond beyond' : ℕ → UInt8) {n : ℕ}
    (hlt : pos < sizeofHeader + n) (hn : n ≤ p.header.len.toNatClampNeg) :
    parity ((List.range (sizeofHeader + n)).map (q.zeroed.byteAt beyond')) =
      parity ((List.range (sizeofHeader + n)).map (p.zeroed.byteAt beyond)) ^^^
        BitVec.twoPow 8 k := by
  have hbytes : (List.range (sizeofHeader + n)).map (q.zeroed.byteAt beyond') =
      (List.range (sizeofHeader + n)).map fun i =>
        if i = pos then flipBit (p.zeroed.byteAt beyond i) k else p.zeroed.byteAt beyond i :=
    List.map_congr_left fun i hi =>
      h.zeroed_byteAt hpos hlen beyond beyond' (by have := List.mem_range.mp hi; omega)
  have hsum := xorSum_map_change List.nodup_range (List.mem_range.mpr hlt)
    (fun i => (p.zeroed.byteAt beyond i).toBitVec) (BitVec.twoPow 8 k)
  rw [hbytes]
  simp only [parity, List.map_map, Function.comp_def, apply_ite UInt8.toBitVec]
  exact hsum

theorem covered_eq {packet : Packet} (hnonneg : 0 ≤ packet.header.len.toInt)
    (beyond : ℕ → UInt8) : packet.covered beyond =
      (List.range (sizeofHeader + packet.header.len.toNatClampNeg)).map
        (packet.zeroed.byteAt beyond) := by
  have hclamp := packet.header.len.toNat_toInt
  rw [Packet.covered, checksumReads]
  congr 2
  omega

/-- The bytes covered, split where the shorter of two lengths ends. -/
theorem parity_covered_add {packet : Packet} {n m : ℕ} (hnonneg : 0 ≤ packet.header.len.toInt)
    (hlen : packet.header.len.toNatClampNeg = n + m) (beyond : ℕ → UInt8) :
    parity (packet.covered beyond) =
      parity ((List.range (sizeofHeader + n)).map (packet.zeroed.byteAt beyond)) ^^^
      parity ((List.range m).map fun j => packet.byteAt beyond (sizeofHeader + n + j)) := by
  have hbeyond : (List.range m).map (fun j => packet.zeroed.byteAt beyond
      (sizeofHeader + n + j)) =
      (List.range m).map fun j => packet.byteAt beyond (sizeofHeader + n + j) := by
    refine List.map_congr_left fun j _ => ?_
    rw [zeroed_byteAt, if_neg (by rw [sizeofHeader]; omega)]
  rw [covered_eq hnonneg, hlen, ← Nat.add_assoc, List.range_add, List.map_append,
    parity_append, List.map_map]
  exact congrArg (_ ^^^ parity ·) hbeyond

theorem ne_xor_twoPow (a : BitVec 8) (hk : k < 8) : a ≠ a ^^^ BitVec.twoPow 8 k := by
  rw [Ne, eq_xor_iff]
  intro h
  have hbit := congrArg (BitVec.getLsbD · k) h
  simp [hk] at hbit

/-! ## What becomes of a flip -/

theorem Flipped.damaged_of_covered (h : Flipped p q pos k) (hk : k < 8) {beyond : ℕ → UInt8}
    (hnonneg : 0 ≤ p.header.len.toInt) (hlen : p.header.len.toInt ≤ 10)
    (hp : p.header.cksum = getChecksum beyond p) (hpos : pos < 4 ∨ 12 ≤ pos)
    (hlt : pos < sizeofHeader + p.header.len.toNatClampNeg) : q.Damaged := by
  intro beyond' haccepted
  have hsame := h.len_eq (by omega)
  rw [h.cksum_eq (by omega), hp, getChecksum_eq_iff, covered_eq hnonneg,
    covered_eq (hsame ▸ hnonneg), hsame] at haccepted
  rw [h.parity_range (by omega) hlen beyond beyond' hlt le_rfl] at haccepted
  exact ne_xor_twoPow _ hk haccepted

theorem Flipped.damaged_of_cksum (h : Flipped p q pos k) (hk : k < 8) {beyond : ℕ → UInt8}
    (hnonneg : 0 ≤ p.header.len.toInt) (hlen : p.header.len.toInt ≤ 10)
    (hp : p.header.cksum = getChecksum beyond p) (hpos : 8 ≤ pos ∧ pos < 12) :
    q.Damaged := by
  intro beyond' haccepted
  have hsame := h.len_eq (by omega)
  refine h.cksum_ne hk hpos (haccepted.trans (Eq.trans ?_ hp.symm))
  rw [getChecksum_eq_iff, covered_eq hnonneg, covered_eq (hsame ▸ hnonneg), hsame]
  refine congrArg parity (List.map_congr_left fun i hi => ?_)
  have hbyte := h.byteAt hlen beyond beyond' (List.mem_range.mp hi)
  rw [StopWait.zeroed_byteAt, StopWait.zeroed_byteAt]
  by_cases hzero : 8 ≤ i ∧ i < 12
  · rw [if_pos hzero, if_pos hzero]
  · rw [if_neg hzero, if_neg hzero, hbyte, if_neg (by rintro rfl; exact hzero hpos)]

/-- A flip in `len` goes unnoticed when the bytes exchanged make up for it. -/
theorem Flipped.unnoticed_iff_exchanged (h : Flipped p q pos k) {beyond : ℕ → UInt8}
    (hnonneg : 0 ≤ p.header.len.toInt) (hlen : p.header.len.toInt ≤ 10)
    (hp : p.header.cksum = getChecksum beyond p) (hpos : pos < 8)
    (hq : 0 ≤ q.header.len.toInt) (beyond' : ℕ → UInt8) :
    q.header.cksum = getChecksum beyond' q ↔
      parity (exchanged beyond' p q) = BitVec.twoPow 8 k := by
  have hrange := fun {n : ℕ} => h.parity_range (n := n) (.inl hpos) hlen beyond' beyond'
    (by rw [sizeofHeader]; omega)
  rw [h.cksum_eq (.inl hpos), hp.trans (getChecksum_congr p hlen beyond beyond'),
    getChecksum_eq_iff, exchanged]
  split
  case isTrue hle =>
      obtain ⟨d, hd⟩ := Nat.exists_eq_add_of_le hle
      rw [parity_covered_add hq hd, hrange le_rfl, ← covered_eq hnonneg, hd,
        Nat.add_sub_cancel_left, BitVec.xor_assoc, eq_xor_iff, BitVec.xor_eq_zero_iff]
      exact eq_comm
  case isFalse hlt =>
      obtain ⟨d, hd⟩ := Nat.exists_eq_add_of_le (Nat.le_of_not_le hlt)
      rw [parity_covered_add hnonneg hd, covered_eq hq, hrange (by omega), hd,
        Nat.add_sub_cancel_left, BitVec.xor_right_inj]

theorem Flipped.unnoticed_iff_zero (h : Flipped p q pos k)
    (hnonneg : 0 ≤ p.header.len.toInt) (hlen : p.header.len.toInt ≤ 10)
    (hpos : pos < 8) (hq : q.header.len.toInt < 0) (beyond' : ℕ → UInt8) :
    q.header.cksum = getChecksum beyond' q ↔ p.header.cksum = 0 := by
  have hreads : checksumReads q = [] := by
    have hle := h.len_le hlen hnonneg hq
    rw [checksumReads, sizeofHeader, List.range_eq_nil]
    omega
  have hzero : getChecksum beyond' q = 0 := by
    rw [← Int32.toBitVec_inj, getChecksum_toBitVec, Packet.covered, hreads]
    rfl
  rw [h.cksum_eq (.inl hpos), hzero]

end

/-- A packet with one data byte, 1, and the checksum 0. With `len` flipped to zero it is
accepted, and ends the transfer. -/
theorem len_flip_accepted :
    ∃ p q : Packet, p.header.len = 1 ∧ p.header.cksum = getChecksum (fun _ => 0) p ∧
      Flipped p q 4 0 ∧ q.header.len = 0 ∧ q.Undamaged := by
  let p : Packet := ⟨⟨0, 1, 0⟩, #v[1, 0, 0, 0, 0, 0, 0, 0, 0, 0]⟩
  let q : Packet := ⟨⟨0, 0, 0⟩, #v[1, 0, 0, 0, 0, 0, 0, 0, 0, 0]⟩
  have hflip : ∀ i < 13, q.byteAt (fun _ => 0) i =
      if i = 4 then flipBit (p.byteAt (fun _ => 0) i) 0 else p.byteAt (fun _ => 0) i := by
    decide
  exact ⟨p, q, rfl, by decide, hflip, rfl, fun beyond =>
    (show q.header.cksum = getChecksum (fun _ => 0) q by decide).trans
      (getChecksum_congr q (by decide) _ beyond)⟩

/-- One bit flipped in the header or the data is noticed, whatever follows the data, unless
it lies in `len`. There it is noticed unless the bytes that enter or leave the range covered
have the flipped bit for their parity, or `len` becomes negative and the checksum is 0. -/
theorem single_flip (p q : Packet) (pos k : ℕ) (beyond : ℕ → UInt8)
    (hnonneg : 0 ≤ p.header.len.toInt) (hlen : p.header.len.toInt ≤ 10)
    (hp : p.header.cksum = getChecksum beyond p) (hk : k < 8)
    (hpos : pos < sizeofHeader + p.header.len.toNatClampNeg) (hflip : Flipped p q pos k) :
    (pos < 4 ∨ 8 ≤ pos → q.Damaged) ∧
    (4 ≤ pos ∧ pos < 8 → ∀ beyond', q.header.cksum = getChecksum beyond' q ↔
      if 0 ≤ q.header.len.toInt then parity (exchanged beyond' p q) = BitVec.twoPow 8 k
      else p.header.cksum = 0) := by
  constructor
  · intro houtside
    by_cases hcksum : 8 ≤ pos ∧ pos < 12
    · exact hflip.damaged_of_cksum hk hnonneg hlen hp hcksum
    · exact hflip.damaged_of_covered hk hnonneg hlen hp (by omega) hpos
  · intro hinside beyond'
    split
    case isTrue hq => exact hflip.unnoticed_iff_exchanged hnonneg hlen hp hinside.2 hq beyond'
    case isFalse hq =>
        exact hflip.unnoticed_iff_zero hnonneg hlen hinside.2 (not_le.mp hq) beyond'

/-- A data byte flipped, and bytes after the data that have come from elsewhere. -/
theorem single_flip_data :
    ∃ p q : Packet, p = Packet.seal ⟨⟨1, 3, 0⟩, #v[97, 98, 99, 0, 0, 0, 0, 0, 0, 0]⟩ ∧
      q = { p with data := #v[97, 98, 115, 255, 0, 1, 0, 0, 0, 0] } ∧ q.Damaged := by
  let p : Packet := Packet.seal ⟨⟨1, 3, 0⟩, #v[97, 98, 99, 0, 0, 0, 0, 0, 0, 0]⟩
  let q : Packet := { p with data := #v[97, 98, 115, 255, 0, 1, 0, 0, 0, 0] }
  have hflip : ∀ i < 15, q.byteAt (fun _ => 0) i =
      if i = 14 then flipBit (p.byteAt (fun _ => 0) i) 4 else p.byteAt (fun _ => 0) i := by
    decide
  exact ⟨p, q, rfl, rfl, (single_flip p q 14 4 (fun _ => 0) (by decide) (by decide) rfl
    (by decide) (by decide) hflip).1 (by decide)⟩

end NetLabs.StopWait
