import Mathlib.Data.Nat.Bitwise
import Mathlib.Data.UInt

/-!
# Flag words

A 32-bit word of flags and the masks that read and write parts of it. The two
laws reduce a read through a written mask to reads of closed masks.
-/

namespace Flags

theorem or_and (flags written mask : UInt32) :
    (flags ||| written) &&& mask = flags &&& mask ||| written &&& mask :=
  UInt32.toBitVec_inj.1 BitVec.and_or_distrib_right

theorem and_and (flags kept mask : UInt32) : flags &&& kept &&& mask = flags &&& (kept &&& mask) :=
  UInt32.and_assoc flags kept mask

theorem or_and_of_disjoint {flags written mask : UInt32} (h : written &&& mask = 0) :
    (flags ||| written) &&& mask = flags &&& mask := by
  rw [or_and, h, UInt32.or_zero]

theorem and_and_of_subset {flags kept mask : UInt32} (h : kept &&& mask = mask) :
    flags &&& kept &&& mask = flags &&& mask := by
  rw [and_and, h]

theorem or_and_self (flags mask : UInt32) : (flags ||| mask) &&& mask = mask := by
  apply UInt32.toBitVec_inj.1
  ext i
  simp only [UInt32.toBitVec_or, UInt32.toBitVec_and, BitVec.getElem_or, BitVec.getElem_and]
  cases mask.toBitVec[i] <;> simp

theorem and_or_congr {flags flags' mask mask' : UInt32} (h : flags &&& mask = flags' &&& mask)
    (h' : flags &&& mask' = flags' &&& mask') :
    flags &&& (mask ||| mask') = flags' &&& (mask ||| mask') := by
  rw [UInt32.and_comm, or_and, UInt32.and_comm mask, UInt32.and_comm mask', h, h',
    UInt32.and_comm _ (mask ||| mask'), or_and, UInt32.and_comm mask, UInt32.and_comm mask']

theorem and_eq_zero_or (flags : UInt32) {mask : UInt32} (h : mask.toNat = 2 ^ k) :
    flags &&& mask = 0 ∨ flags &&& mask = mask := by
  have hbit : (flags &&& mask).toNat = (flags.toNat.testBit k).toNat * mask.toNat := by
    rw [UInt32.toNat_and, h, Nat.and_two_pow]
  cases hset : flags.toNat.testBit k with
  | false =>
    rw [hset, Bool.toNat_false, Nat.zero_mul] at hbit
    exact .inl (UInt32.toNat_inj.mp hbit)
  | true =>
    rw [hset, Bool.toNat_true, Nat.one_mul] at hbit
    exact .inr (UInt32.toNat_inj.mp hbit)

theorem and_not_or_and (flags mask : UInt32) : flags &&& ~~~mask ||| flags &&& mask = flags := by
  apply UInt32.toBitVec_inj.1
  ext i
  simp only [UInt32.toBitVec_or, UInt32.toBitVec_and, UInt32.toBitVec_not, BitVec.getElem_or,
    BitVec.getElem_and, BitVec.getElem_not]
  cases mask.toBitVec[i] <;> simp

theorem xor_of_subset {flags mask : UInt32} (h : flags &&& mask = mask) :
    flags ^^^ mask = flags &&& ~~~mask := by
  have hbits := congrArg UInt32.toBitVec h
  apply UInt32.toBitVec_inj.1
  ext i hi
  have hbit := congrArg (fun b : BitVec 32 => b[i]) hbits
  simp only [UInt32.toBitVec_xor, UInt32.toBitVec_and, UInt32.toBitVec_not, BitVec.getElem_xor,
    BitVec.getElem_and, BitVec.getElem_not] at hbit ⊢
  cases hmask : mask.toBitVec[i] <;> simp_all

theorem and_not_of_disjoint {flags mask : UInt32} (h : flags &&& mask = 0) :
    flags &&& ~~~mask = flags := by
  have hwhole := and_not_or_and flags mask
  rwa [h, UInt32.or_zero] at hwhole

end Flags
