import NetLabs.Library.Parity
import NetLabs.StopWait.Packet

/-! # What the checksum detects

`getChecksum` adds up sign-extended bytes with `^=`, so it is the sign extension of the
longitudinal parity of the bytes it covers. How many these are it takes from the packet. -/

namespace NetLabs.StopWait

open Parity

/-! ## The bytes of a packet -/

section Bytes

variable (beyond : ℕ → UInt8) (packet : Packet) {i : ℕ}

theorem byteAt_seqAck (hi : i < 4) : packet.byteAt beyond i = intByte packet.header.seqAck i := by
  simp [Packet.byteAt, hi]

theorem byteAt_len (hi : i < 4) :
    packet.byteAt beyond (4 + i) = intByte packet.header.len i := by
  have hlt : 4 + i < 8 := by omega
  simp [Packet.byteAt, hlt]

theorem byteAt_cksum (hi : i < 4) :
    packet.byteAt beyond (8 + i) = intByte packet.header.cksum i := by
  have h4 : ¬ 8 + i < 4 := by omega
  have hlt : 8 + i < 12 := by omega
  simp [Packet.byteAt, h4, hlt]

theorem byteAt_data (hi : i < 10) : packet.byteAt beyond (12 + i) = packet.data[i] := by
  have h4 : ¬ 12 + i < 4 := by omega
  have h8 : ¬ 12 + i < 8 := by omega
  simp [Packet.byteAt, h4, h8, hi]

end Bytes

/-! ## The checksum as a parity -/

def Packet.zeroed (packet : Packet) : Packet :=
  { packet with header := { packet.header with cksum := 0 } }

/-- The bytes that `getChecksum` adds up. -/
def Packet.covered (beyond : ℕ → UInt8) (packet : Packet) : List UInt8 :=
  (checksumReads packet).map (packet.zeroed.byteAt beyond)

def parity (bytes : List UInt8) : BitVec 8 :=
  xorSum (bytes.map UInt8.toBitVec)

@[simp] theorem parity_append (bytes bytes' : List UInt8) :
    parity (bytes ++ bytes') = parity bytes ^^^ parity bytes' := by
  simp [parity]

theorem signExtend_inj {a b : BitVec 8} (h : a.signExtend 32 = b.signExtend 32) : a = b := by
  refine BitVec.eq_of_getLsbD_eq fun i hi => ?_
  have hbit : (a.signExtend 32).getLsbD i = (b.signExtend 32).getLsbD i := by rw [h]
  have hi' : i < 32 := by omega
  rwa [BitVec.getLsbD_signExtend, BitVec.getLsbD_signExtend, if_pos hi, if_pos hi,
    decide_eq_true hi', Bool.true_and, Bool.true_and] at hbit

theorem foldl_xor_toBitVec (bytes : List UInt8) (checksum : Int32) :
    (bytes.foldl (fun checksum b => checksum ^^^ b.toInt8.toInt32) checksum).toBitVec =
      checksum.toBitVec ^^^ (parity bytes).signExtend 32 := by
  induction bytes generalizing checksum with
  | nil => simp [parity]
  | cons b bytes ih =>
      have hb : (b.toInt8.toInt32).toBitVec = b.toBitVec.signExtend 32 := rfl
      rw [List.foldl_cons, ih, Int32.toBitVec_xor, hb, parity, parity, List.map_cons,
        xorSum_cons, BitVec.signExtend_xor, BitVec.xor_assoc]

theorem getChecksum_toBitVec (beyond : ℕ → UInt8) (packet : Packet) :
    (getChecksum beyond packet).toBitVec = (parity (packet.covered beyond)).signExtend 32 := by
  have hfold : getChecksum beyond packet = (packet.covered beyond).foldl
      (fun checksum b => checksum ^^^ b.toInt8.toInt32) 0 := by
    rw [Packet.covered, List.foldl_map]
    rfl
  rw [hfold, foldl_xor_toBitVec]
  exact BitVec.zero_xor

theorem getChecksum_eq_iff (beyond beyond' : ℕ → UInt8) (p q : Packet) :
    getChecksum beyond p = getChecksum beyond' q ↔
      parity (p.covered beyond) = parity (q.covered beyond') := by
  rw [← Int32.toBitVec_inj, getChecksum_toBitVec, getChecksum_toBitVec]
  exact ⟨signExtend_inj, fun h => by rw [h]⟩

/-- The bytes of `seq_ack` and the data bytes that `len` counts. -/
def Packet.checked (packet : Packet) : List UInt8 :=
  (List.range 4).map (intByte packet.header.seqAck) ++ packet.payload

theorem Packet.length_checked {packet : Packet} (hlen : packet.header.len.toInt ≤ 10) :
    packet.checked.length = 4 + packet.header.len.toNatClampNeg := by
  have hclamp := packet.header.len.toNat_toInt
  simp only [Packet.checked, Packet.payload, List.length_append, List.length_map,
    List.length_range, List.length_take, Vector.length_toList]
  omega

theorem payload_eq_map (packet : Packet) (hlen : packet.header.len.toInt ≤ 10)
    (beyond : ℕ → UInt8) : packet.payload =
      (List.range packet.header.len.toNatClampNeg).map fun i => packet.byteAt beyond (12 + i) := by
  have hclamp := packet.header.len.toNat_toInt
  refine List.ext_getElem ?_ fun i hi hi' => ?_
  · simp only [Packet.payload, List.length_take, Vector.length_toList, List.length_map,
      List.length_range]
    omega
  · have hlt : i < 10 := by
      rw [List.length_map, List.length_range] at hi'
      omega
    rw [List.getElem_map, List.getElem_range, byteAt_data beyond packet hlt]
    simp [Packet.payload]

/-- What is covered are the bytes of `seq_ack` and `len`, four zeros, and the data. -/
theorem Packet.parity_covered {packet : Packet} (hnonneg : 0 ≤ packet.header.len.toInt)
    (hlen : packet.header.len.toInt ≤ 10) (beyond : ℕ → UInt8) :
    parity (packet.covered beyond) =
      parity packet.checked ^^^ parity ((List.range 4).map (intByte packet.header.len)) := by
  have hclamp := packet.header.len.toNat_toInt
  have hreads : checksumReads packet = (List.range 4 ++ (List.range 4).map (4 + ·) ++
      (List.range 4).map (8 + ·)) ++
      (List.range packet.header.len.toNatClampNeg).map (12 + ·) := by
    have htwelve : List.range 4 ++ (List.range 4).map (4 + ·) ++ (List.range 4).map (8 + ·) =
        List.range 12 := by decide
    rw [htwelve, ← List.range_add, checksumReads, sizeofHeader]
    congr 1
    omega
  have hseq : (List.range 4).map (packet.zeroed.byteAt beyond) =
      (List.range 4).map (intByte packet.header.seqAck) :=
    List.map_congr_left fun i hi => byteAt_seqAck beyond _ (List.mem_range.mp hi)
  have hlens : (List.range 4).map (fun i => packet.zeroed.byteAt beyond (4 + i)) =
      (List.range 4).map (intByte packet.header.len) :=
    List.map_congr_left fun i hi => byteAt_len beyond _ (List.mem_range.mp hi)
  have hcksum : (List.range 4).map (fun i => packet.zeroed.byteAt beyond (8 + i)) =
      List.replicate 4 0 :=
    (List.map_congr_left fun i hi => byteAt_cksum beyond _ (List.mem_range.mp hi)).trans
      (show (List.range 4).map (intByte 0) = List.replicate 4 0 by decide)
  have hdata : (List.range packet.header.len.toNatClampNeg).map
      (fun i => packet.zeroed.byteAt beyond (12 + i)) = packet.payload :=
    (payload_eq_map packet.zeroed hlen beyond).symm
  have hzero : parity (List.replicate 4 0) = 0#8 := by decide
  rw [Packet.covered, hreads]
  simp only [List.map_append, List.map_map, Function.comp_def, hseq, hlens, hcksum, hdata,
    parity_append, hzero, Packet.checked]
  rw [BitVec.xor_zero, BitVec.xor_assoc, BitVec.xor_comm (parity (List.map _ _)) (parity _),
    ← BitVec.xor_assoc]

/-! ## Packets of one length -/

/-- In how many checked bytes do the packets differ in bit `column`? -/
def flips (column : ℕ) (p q : Packet) : ℕ :=
  Parity.flips column (p.checked.map UInt8.toBitVec) (q.checked.map UInt8.toBitVec)

/-- Between packets with the same `len` and the same `cksum`, where the test succeeds for
one, it succeeds for the other when both have the same parity. -/
theorem accepted_iff_parity {p q : Packet} {beyond : ℕ → UInt8}
    (hnonneg : 0 ≤ p.header.len.toInt) (hlen : p.header.len.toInt ≤ 10)
    (hp : p.header.cksum = getChecksum beyond p) (hq : q.header.len = p.header.len)
    (hcksum : q.header.cksum = p.header.cksum) (beyond' : ℕ → UInt8) :
    q.header.cksum = getChecksum beyond' q ↔ parity p.checked = parity q.checked := by
  rw [hcksum, hp, getChecksum_eq_iff, Packet.parity_covered hnonneg hlen,
    Packet.parity_covered (hq ▸ hnonneg) (hq ▸ hlen), hq, BitVec.xor_left_inj]

/-- The checksum detects exactly the damage with an odd number of flips in some column: not
what lies beyond the data, and no rearrangement. -/
theorem accepted_iff (p q : Packet) (beyond : ℕ → UInt8) (hnonneg : 0 ≤ p.header.len.toInt)
    (hlen : p.header.len.toInt ≤ 10) (hp : p.header.cksum = getChecksum beyond p)
    (hq : q.header.len = p.header.len) (hcksum : q.header.cksum = p.header.cksum) :
    (∀ beyond', q.header.cksum = getChecksum beyond' q ↔
      ∀ column < 8, Even (flips column p q)) ∧
    (q.checked = p.checked → q.Undamaged) ∧
    ((∃ column < 8, Odd (flips column p q)) → q.Damaged) ∧
    (q.checked.Perm p.checked → q.Undamaged) := by
  have hparity := accepted_iff_parity hnonneg hlen hp hq hcksum
  have hlength : (p.checked.map UInt8.toBitVec).length =
      (q.checked.map UInt8.toBitVec).length := by
    rw [List.length_map, List.length_map, Packet.length_checked hlen,
      Packet.length_checked (hq ▸ hlen), hq]
  have hiff : ∀ beyond', q.header.cksum = getChecksum beyond' q ↔
      ∀ column < 8, Even (flips column p q) :=
    fun beyond' => (hparity beyond').trans (xorSum_eq_iff hlength)
  have hperm : q.checked.Perm p.checked → q.Undamaged := fun h beyond' =>
    (hparity beyond').mpr (xorSum_perm (h.map UInt8.toBitVec)).symm
  refine ⟨hiff, fun h => hperm (h ▸ .refl _), ?_, hperm⟩
  rintro ⟨column, hcolumn, hodd⟩ beyond' haccepted
  exact Nat.not_even_iff_odd.mpr hodd ((hiff beyond').mp haccepted column hcolumn)

/-- Two bytes exchanged pass, one bit flipped does not. -/
theorem accepted_iff_exchanged :
    ∃ p q r : Packet, p = Packet.seal ⟨⟨0, 2, 0⟩, #v[1, 2, 0, 0, 0, 0, 0, 0, 0, 0]⟩ ∧
      q = { p with data := #v[2, 1, 7, 0, 0, 0, 0, 0, 0, 0] } ∧ q.Undamaged ∧
      r = { p with data := #v[1, 6, 0, 0, 0, 0, 0, 0, 0, 0] } ∧ r.Damaged := by
  let p : Packet := Packet.seal ⟨⟨0, 2, 0⟩, #v[1, 2, 0, 0, 0, 0, 0, 0, 0, 0]⟩
  let q : Packet := { p with data := #v[2, 1, 7, 0, 0, 0, 0, 0, 0, 0] }
  let r : Packet := { p with data := #v[1, 6, 0, 0, 0, 0, 0, 0, 0, 0] }
  have hq := accepted_iff p q (fun _ => 0) (by decide) (by decide) rfl rfl rfl
  have hr := accepted_iff p r (fun _ => 0) (by decide) (by decide) rfl rfl rfl
  exact ⟨p, q, r, rfl, rfl, hq.2.2.2 (by decide), rfl, hr.2.2.1 ⟨2, by decide, by decide⟩⟩

end NetLabs.StopWait
