import Mathlib.Data.Int.Bitwise

/-!
# Bits of integers

The functions of `MathTools` that count the bits an integer takes and that
extend the low bits of one.
-/

namespace Tce.MathTools

inductive MathFault where
  | outOfRange
  deriving DecidableEq, Repr

def requiredBits (number : Nat) : Nat := if number = 0 then 1 else number.log2 + 1

/-- The number is shifted right until it is 0 or -1. -/
def requiredBitsSigned (number : Int) : Nat :=
  let magnitude := if number < 0 then (-number - 1).toNat else number.toNat
  if magnitude = 0 then 1 else magnitude.log2 + 2

/-- The value is shifted up to the sign bit and back. -/
def fastSignExtendTo (value : BitVec 32) (width : Nat) : BitVec 32 :=
  (value <<< (32 - width)).sshiftRight (32 - width)

def fastZeroExtendTo (value : BitVec 32) (width : Nat) : BitVec 32 :=
  value &&& BitVec.allOnes 32 >>> (32 - width)

def signExtendTo (value : BitVec 32) (width : Nat) : Except MathFault (BitVec 32) :=
  if 32 < width then .error .outOfRange else .ok (fastSignExtendTo value width)

def zeroExtendTo (value : BitVec 32) (width : Nat) : Except MathFault (BitVec 32) :=
  if 32 < width then .error .outOfRange else .ok (fastZeroExtendTo value width)

theorem requiredBits_le_iff {number bits : Nat} (h : 0 < bits) : requiredBits number ≤ bits ↔ number < 2 ^ bits := by
  rw [requiredBits]
  split
  next hzero =>
    have hpow := Nat.two_pow_pos bits
    omega
  next hne => exact Nat.log2_lt hne

theorem requiredBitsSigned_le_iff {number : Int} {bits : Nat} (h : 0 < bits) :
    requiredBitsSigned number ≤ bits ↔ -2 ^ (bits - 1) ≤ number ∧ number < 2 ^ (bits - 1) := by
  have hpow : ((2 ^ (bits - 1) : Nat) : Int) = 2 ^ (bits - 1) := by push_cast; rfl
  have hmagnitude : -2 ^ (bits - 1) ≤ number ∧ number < 2 ^ (bits - 1) ↔
      (if number < 0 then (-number - 1).toNat else number.toNat) < 2 ^ (bits - 1) := by
    rw [← hpow]
    split <;> omega
  rw [hmagnitude, requiredBitsSigned]
  generalize (if number < 0 then (-number - 1).toNat else number.toNat) = magnitude
  by_cases hzero : magnitude = 0
  · have hpos := Nat.two_pow_pos (bits - 1)
    simp only [if_pos hzero]
    omega
  · rw [← Nat.log2_lt hzero]
    simp only [if_neg hzero]
    omega

/-- A mask of the low bits. -/
theorem toNat_allOnes_ushiftRight {size width : Nat} (h : width ≤ size) :
    (BitVec.allOnes size >>> (size - width)).toNat = 2 ^ width - 1 := by
  have hsplit : 2 ^ size = 2 ^ width * 2 ^ (size - width) := by rw [← Nat.pow_add, Nat.add_sub_cancel' h]
  have hpos := Nat.two_pow_pos (size - width)
  have hwidth := Nat.two_pow_pos width
  rw [BitVec.toNat_ushiftRight, BitVec.toNat_allOnes, Nat.shiftRight_eq_div_pow]
  apply Nat.div_eq_of_lt_le
  · rw [Nat.sub_mul, ← hsplit]
    omega
  · rw [Nat.succ_mul, Nat.sub_mul, ← hsplit, Nat.one_mul]
    have hle : 2 ^ (size - width) ≤ 2 ^ size := Nat.pow_le_pow_right (by decide) (Nat.sub_le size width)
    omega

/-- The mask that is left of all ones. -/
theorem toNat_lowMask {w k : Nat} (h : k ≤ w) : (~~~((~~~(0 : BitVec w)) <<< k)).toNat = 2 ^ k - 1 := by
  have hones : (~~~(0 : BitVec w)) = BitVec.allOnes w := BitVec.not_zero
  have hsplit : 2 ^ w = 2 ^ k * 2 ^ (w - k) := by rw [← Nat.pow_add, Nat.add_sub_cancel' h]
  have hmod : (2 ^ w - 1) * 2 ^ k % 2 ^ w = 2 ^ w - 2 ^ k := by
    have hpos := Nat.two_pow_pos k
    have hle : 2 ^ k ≤ 2 ^ w := Nat.pow_le_pow_right (by decide) h
    have hproduct : (2 ^ w - 1) * 2 ^ k = 2 ^ w - 2 ^ k + 2 ^ w * (2 ^ k - 1) := by
      have hswap : 2 ^ w * 2 ^ k = 2 ^ w * (2 ^ k - 1) + 2 ^ w := by
        rw [← Nat.mul_succ, Nat.succ_eq_add_one, Nat.sub_add_cancel hpos]
      rw [Nat.sub_mul, hswap, Nat.one_mul]
      omega
    rw [hproduct, Nat.add_mul_mod_self_left, Nat.mod_eq_of_lt (by omega)]
  rw [BitVec.toNat_not, BitVec.toNat_shiftLeft, hones, BitVec.toNat_allOnes, Nat.shiftLeft_eq, hmod]
  have hle : 2 ^ k ≤ 2 ^ w := Nat.pow_le_pow_right (by decide) h
  omega

theorem toNat_fastZeroExtendTo {value : BitVec 32} {width : Nat} (h : width ≤ 32) :
    (fastZeroExtendTo value width).toNat = value.toNat % 2 ^ width := by
  rw [fastZeroExtendTo, BitVec.toNat_and, toNat_allOnes_ushiftRight h, Nat.and_two_pow_sub_one_eq_mod]

theorem fastSignExtendTo_eq {value : BitVec 32} {width : Nat} (h : width ≤ 32) :
    fastSignExtendTo value width = (value.setWidth width).signExtend 32 := by
  apply BitVec.eq_of_getLsbD_eq
  intro i hi
  have hmsb : (value <<< (32 - width)).msb = (value.setWidth width).msb := by
    rw [BitVec.msb_shiftLeft, BitVec.msb_setWidth, BitVec.getMsbD]
    rcases Nat.eq_zero_or_pos width with rfl | hpos
    · simp
    · have hindex : 32 - 1 - (32 - width) = width - 1 := by omega
      have hshift : 32 - width < 32 := by omega
      simp [hpos, hindex, hshift]
  rw [fastSignExtendTo, BitVec.getLsbD_sshiftRight, BitVec.getLsbD_signExtend, BitVec.getLsbD_shiftLeft,
    BitVec.getLsbD_setWidth, hmsb]
  have hin : ¬ 32 ≤ i := by omega
  by_cases hlow : i < width
  · have hindex : 32 - width + i - (32 - width) = i := by omega
    have hshift : 32 - width + i < 32 := by omega
    have hback : ¬ 32 - width + i < 32 - width := by omega
    simp [hi, hlow, hindex, hin, hshift]
  · have hshift : ¬ 32 - width + i < 32 := by omega
    simp [hi, hlow, hin, hshift]

/-- The low bits are read as a signed number. -/
theorem toInt_fastSignExtendTo {value : BitVec 32} {width : Nat} (h : width ≤ 32) :
    (fastSignExtendTo value width).toInt = (value.setWidth width).toInt := by
  rw [fastSignExtendTo_eq h, BitVec.toInt_signExtend_of_le h]

end Tce.MathTools
