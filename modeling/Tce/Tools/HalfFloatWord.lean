import Mathlib.Data.Nat.Bitwise
import Tce.Base.BinaryFormat

/-!
# Half precision words

Floats are 32-bit patterns. A half is made from the bits of a float; a float is computed from
the fields of a half with float arithmetic.
-/

namespace Tce.HalfFloatWord
open Base

def half : BinaryFormat := ⟨10, 5⟩

def single : BinaryFormat := ⟨23, 8⟩

def convertFloatToHalfWordRep (value : BitVec 32) : BitVec 16 :=
  let binary16 : BitVec 32 := (value &&& 0x80000000#32) >>> 16
  let expon : Int := ((value &&& 0x7f800000#32) >>> 23).toNat
  if expon = 255 then (binary16 ||| 0x7e00#32).setWidth 16
  else
    let expon := expon + (15 - 127)
    if expon ≤ 0 then binary16.setWidth 16
    else if 31 ≤ expon then (binary16 ||| 0x7c00#32).setWidth 16
    else
      let binary16 := binary16 ||| (BitVec.ofInt 32 expon <<< 10)
      let binary16 := binary16 ||| ((value &&& 0x007FFFFF#32) >>> 13)
      let l := value.sshiftRight 13 &&& 1#32
      let g := value.sshiftRight 12 &&& 1#32
      let r := value.sshiftRight 11 &&& 1#32
      let s := value &&& ((1#32 <<< 11) - 1#32)
      if g ≠ 0#32 ∧ (l ≠ 0#32 ∨ r ≠ 0#32 ∨ s ≠ 0#32) then (binary16 + 1#32).setWidth 16
      else binary16.setWidth 16

/-- Two to a power, as a float. -/
def exp2 (n : Int) : BinaryNumber := single.ofRat (2 ^ n)

def toFloat (binaryRep : BitVec 16) : BinaryNumber :=
  if binaryRep = 0xFC00#16 then ⟨true, single.infinity⟩
  else if binaryRep = 0x7C00#16 then ⟨false, single.infinity⟩
  else
    let sgn := (binaryRep &&& 0x8000#16) >>> 15
    let exp := ((binaryRep &&& 0x7C00#16) >>> 10).toNat
    let mant := binaryRep &&& 0x03FF#16
    if exp = 0x1F ∧ mant ≠ 0#16 then single.nan
    else
      let value := single.ofRat (if exp = 0 then mant else mant ||| 0x0400#16).toNat
      let value := single.div value (single.ofRat 0x400)
      let mul := exp2 ((exp : Int) - 15)
      let value := single.mul value mul
      if sgn ≠ 0#16 then single.mul value (single.ofRat (-1)) else value

/-- The number of a float pattern. -/
def ofFloat (value : BitVec 32) : BinaryNumber := single.ofBits value.toNat

/-- The number of a half pattern. -/
def ofHalf (binaryRep : BitVec 16) : BinaryNumber := half.ofBits binaryRep.toNat

/-- A float is converted to the nearest half, and stays infinite or not a number. -/
structure FloatRight (value : BitVec 32) : Prop where
  nearest : single.IsFinite (ofFloat value) → 1 / 2 ^ 14 ≤ |single.rat (ofFloat value)| →
    (ofHalf (convertFloatToHalfWordRep value)).negative = (ofFloat value).negative ∧
      ∃ m, IsNearestEven half.value |single.rat (ofFloat value)| m ∧
        (ofHalf (convertFloatToHalfWordRep value)).magnitude = min m half.infinity
  infinite : single.IsInfinite (ofFloat value) →
    ofHalf (convertFloatToHalfWordRep value) = ⟨(ofFloat value).negative, half.infinity⟩
  nan : single.IsNaN (ofFloat value) → half.IsNaN (ofHalf (convertFloatToHalfWordRep value))

/-- A half is converted to the float of the same value, and a normal one comes back. -/
structure HalfRight (binaryRep : BitVec 16) : Prop where
  exact : half.IsFinite (ofHalf binaryRep) →
    single.IsFinite (toFloat binaryRep) ∧ single.rat (toFloat binaryRep) = half.rat (ofHalf binaryRep)
  back : half.IsFinite (ofHalf binaryRep) → 2 ^ 10 ≤ (ofHalf binaryRep).magnitude →
    convertFloatToHalfWordRep (BitVec.ofNat 32 (single.toBits (toFloat binaryRep))) = binaryRep

end Tce.HalfFloatWord

/-!
## The bits of a converted float

The fields that the conversion masks out are quotients and remainders, and the words it puts
together are sums.
-/

namespace Tce.HalfFloatWord
open Base

/-- The magnitude that a float magnitude is converted to. -/
def halfMagnitude (m : ℕ) : ℕ :=
  if m / 2 ^ 23 = 255 then 0x7e00
  else if m / 2 ^ 23 ≤ 112 then 0
  else if 143 ≤ m / 2 ^ 23 then 0x7c00
  else
    let k := m / 2 ^ 13 - 112 * 2 ^ 10
    if 2 ^ 12 < m % 2 ^ 13 ∨ (m % 2 ^ 13 = 2 ^ 12 ∧ k % 2 = 1) then k + 1 else k

section Fields
variable (u : BitVec 32)

theorem sign_toNat : ((u &&& 0x80000000#32) >>> 16).toNat = u.toNat / 2 ^ 31 * 2 ^ 15 := by
  have hlt := u.isLt
  rw [BitVec.toNat_ushiftRight, BitVec.toNat_and, Nat.shiftRight_and_distrib]
  have hmask : (0x80000000#32).toNat >>> 16 = 2 ^ 15 := rfl
  rw [hmask, Nat.and_two_pow, Nat.testBit_shiftRight, Nat.testBit_eq_decide_div_mod_eq]
  have hsmall : u.toNat / 2 ^ 31 < 2 := Nat.div_lt_of_lt_mul (by simpa using hlt)
  have hbit : ∀ q < 2, (decide (q % 2 = 1)).toNat = q := by decide
  simp only [Nat.reduceAdd]
  rw [hbit _ hsmall]

theorem expon_toNat : ((u &&& 0x7f800000#32) >>> 23).toNat = u.toNat % 2 ^ 31 / 2 ^ 23 := by
  rw [BitVec.toNat_ushiftRight, BitVec.toNat_and, Nat.shiftRight_and_distrib]
  have hmask : (0x7f800000#32).toNat >>> 23 = 2 ^ 8 - 1 := rfl
  rw [hmask, Nat.and_two_pow_sub_one_eq_mod, Nat.shiftRight_eq_div_pow]
  omega

theorem mantissa_toNat : ((u &&& 0x007FFFFF#32) >>> 13).toNat = u.toNat % 2 ^ 23 / 2 ^ 13 := by
  rw [BitVec.toNat_ushiftRight, BitVec.toNat_and]
  have hmask : (0x007FFFFF#32).toNat = 2 ^ 23 - 1 := rfl
  rw [hmask, Nat.and_two_pow_sub_one_eq_mod, Nat.shiftRight_eq_div_pow]

theorem bit_ne_zero {i : ℕ} (hi : i < 32) : u.sshiftRight i &&& 1#32 ≠ 0#32 ↔ u.toNat / 2 ^ i % 2 = 1 := by
  have hbit : (u.sshiftRight i).toNat % 2 = u.toNat / 2 ^ i % 2 := by
    have hget : (u.sshiftRight i).getLsbD 0 = u.getLsbD i := by
      rw [BitVec.getLsbD_sshiftRight]
      simp [hi]
    simp only [BitVec.getLsbD, Nat.testBit_eq_decide_div_mod_eq, Nat.pow_zero, Nat.div_one] at hget
    have := decide_eq_decide.mp hget
    omega
  rw [ne_eq, ← BitVec.toNat_inj, BitVec.toNat_and]
  have hone : (1#32).toNat = 1 := rfl
  rw [hone, Nat.and_one_is_mod, hbit]
  simp

theorem sticky_ne_zero : u &&& ((1#32 <<< 11) - 1#32) ≠ 0#32 ↔ u.toNat % 2 ^ 11 ≠ 0 := by
  rw [ne_eq, ← BitVec.toNat_inj, BitVec.toNat_and]
  have hmask : ((1#32 <<< 11) - 1#32).toNat = 2 ^ 11 - 1 := rfl
  rw [hmask, Nat.and_two_pow_sub_one_eq_mod]
  rfl

/-- The guard, last, round and sticky bits say on which side of the middle the float is. -/
theorem rounds_iff :
    (u.sshiftRight 12 &&& 1#32 ≠ 0#32 ∧ (u.sshiftRight 13 &&& 1#32 ≠ 0#32 ∨ u.sshiftRight 11 &&& 1#32 ≠ 0#32 ∨
      u &&& ((1#32 <<< 11) - 1#32) ≠ 0#32)) ↔
    2 ^ 12 < u.toNat % 2 ^ 13 ∨ (u.toNat % 2 ^ 13 = 2 ^ 12 ∧ u.toNat / 2 ^ 13 % 2 = 1) := by
  rw [bit_ne_zero u (by decide), bit_ne_zero u (by decide), bit_ne_zero u (by decide), sticky_ne_zero]
  omega

end Fields

/-- Words that share no bit are put together. -/
theorem or_toNat {x y : BitVec 32} {i c : ℕ} (hx : x.toNat = c * 2 ^ i) (hy : y.toNat < 2 ^ i) :
    (x ||| y).toNat = x.toNat + y.toNat := by
  rw [BitVec.toNat_or, hx, Nat.mul_comm, Nat.two_pow_add_eq_or_of_lt hy]

/-- The conversion keeps the sign, and converts the magnitude. -/
theorem convert_toNat (u : BitVec 32) :
    (convertFloatToHalfWordRep u).toNat = u.toNat / 2 ^ 31 * 2 ^ 15 + halfMagnitude (u.toNat % 2 ^ 31) := by
  have hlt := u.isLt
  have hsign := sign_toNat u
  have hexpon := expon_toNat u
  have hmantissa := mantissa_toNat u
  have hsmall : u.toNat / 2 ^ 31 < 2 := by omega
  rw [convertFloatToHalfWordRep, halfMagnitude]
  simp only [hexpon]
  by_cases hspecial : u.toNat % 2 ^ 31 / 2 ^ 23 = 255
  · rw [if_pos (by omega), if_pos hspecial, BitVec.toNat_setWidth, or_toNat (i := 15) hsign (by decide), hsign]
    exact Nat.mod_eq_of_lt (by simp; omega)
  rw [if_neg (by omega), if_neg hspecial]
  by_cases hunder : u.toNat % 2 ^ 31 / 2 ^ 23 ≤ 112
  · rw [if_pos (by omega), if_pos hunder, BitVec.toNat_setWidth, hsign, Nat.add_zero]
    exact Nat.mod_eq_of_lt (by omega)
  rw [if_neg (by omega), if_neg hunder]
  by_cases hover : 143 ≤ u.toNat % 2 ^ 31 / 2 ^ 23
  · rw [if_pos (by omega), if_pos hover, BitVec.toNat_setWidth, or_toNat (i := 15) hsign (by decide), hsign]
    exact Nat.mod_eq_of_lt (by simp; omega)
  rw [if_neg (by omega), if_neg hover]
  -- The fields that are put together, and where they end.
  have hexp : (BitVec.ofInt 32 (((u.toNat % 2 ^ 31 / 2 ^ 23 : ℕ) : ℤ) + (15 - 127)) <<< 10).toNat =
      (u.toNat % 2 ^ 31 / 2 ^ 23 - 112) * 2 ^ 10 := by
    rw [BitVec.toNat_shiftLeft, BitVec.toNat_ofInt, Nat.shiftLeft_eq]
    omega
  have hfields : ((u &&& 0x80000000#32) >>> 16 |||
      (BitVec.ofInt 32 (((u.toNat % 2 ^ 31 / 2 ^ 23 : ℕ) : ℤ) + (15 - 127)) <<< 10)).toNat =
      (u.toNat / 2 ^ 31 * 2 ^ 5 + (u.toNat % 2 ^ 31 / 2 ^ 23 - 112)) * 2 ^ 10 := by
    rw [or_toNat (i := 15) hsign (by omega), hsign, hexp]
    omega
  have hword : ((u &&& 0x80000000#32) >>> 16 |||
      (BitVec.ofInt 32 (((u.toNat % 2 ^ 31 / 2 ^ 23 : ℕ) : ℤ) + (15 - 127)) <<< 10) |||
      ((u &&& 0x007FFFFF#32) >>> 13)).toNat =
      u.toNat / 2 ^ 31 * 2 ^ 15 + (u.toNat % 2 ^ 31 / 2 ^ 13 - 112 * 2 ^ 10) := by
    rw [or_toNat (i := 10) hfields (by omega), hfields, hmantissa]
    omega
  have hround := rounds_iff u
  by_cases hup : 2 ^ 12 < u.toNat % 2 ^ 31 % 2 ^ 13 ∨ (u.toNat % 2 ^ 31 % 2 ^ 13 = 2 ^ 12 ∧
      (u.toNat % 2 ^ 31 / 2 ^ 13 - 112 * 2 ^ 10) % 2 = 1)
  · rw [if_pos (hround.mpr (by omega)), if_pos hup, BitVec.toNat_setWidth, BitVec.toNat_add, hword]
    have hone : (1#32).toNat = 1 := rfl
    omega
  · rw [if_neg (fun h => hup (by have := hround.mp h; omega)), if_neg hup, BitVec.toNat_setWidth, hword]
    omega

end Tce.HalfFloatWord

/-!
## Floats are rounded to halves

Between two halves the floats are evenly spaced, so that the bits that are cut off say how far
a float is above the lower one.
-/

namespace Tce.HalfFloatWord
open Base

theorem half_least : half.least = -24 := rfl

theorem single_least : single.least = -149 := rfl

theorem half_infinity : half.infinity = 31 * 2 ^ 10 := rfl

theorem single_infinity : single.infinity = 255 * 2 ^ 23 := rfl

section Grid
variable {m k j : ℕ}

theorem half_gap (k : ℕ) : half.value (k + 1) = half.value k + (2 ^ (k / 2 ^ 10 - 1) : ℕ) * 2 ^ (-24 : ℤ) := by
  rw [BinaryFormat.value, BinaryFormat.value, half_least, ← add_mul, ← Nat.cast_add]
  exact congrArg (fun n : ℕ => (n : ℚ) * 2 ^ (-24 : ℤ)) (scaled_succ 10 k)

theorem scaled_single (hk : 2 ^ 10 ≤ k) (hj : j < 2 ^ 13) :
    scaled 23 (2 ^ 13 * (k + 112 * 2 ^ 10) + j) = (scaled 10 k * 2 ^ 13 + j * 2 ^ (k / 2 ^ 10 - 1)) * 2 ^ 112 := by
  obtain ⟨hquot, hrem⟩ : (2 ^ 13 * (k + 112 * 2 ^ 10) + j) / 2 ^ 23 = k / 2 ^ 10 - 1 + 113 ∧
      (2 ^ 13 * (k + 112 * 2 ^ 10) + j) % 2 ^ 23 = k % 2 ^ 10 * 2 ^ 13 + j := by omega
  have hexp : k / 2 ^ 10 ≠ 0 := by omega
  rw [scaled, scaled, hquot, hrem, if_neg (by omega), if_neg hexp, Nat.add_sub_assoc (by decide), Nat.pow_add]
  generalize k / 2 ^ 10 - 1 = e
  generalize k % 2 ^ 10 = f
  ring

/-- Where a float is between two halves. -/
theorem single_value (hk : 2 ^ 10 ≤ k) (hj : j < 2 ^ 13) :
    single.value (2 ^ 13 * (k + 112 * 2 ^ 10) + j) =
      half.value k + j / 2 ^ 13 * (half.value (k + 1) - half.value k) := by
  rw [half_gap, add_sub_cancel_left]
  have hscaled := scaled_single hk hj
  rw [BinaryFormat.value, BinaryFormat.value, half_least, single_least]
  have h : scaled single.fractionBits = scaled 23 := rfl
  rw [h, hscaled]
  have h' : scaled half.fractionBits = scaled 10 := rfl
  rw [h']
  push_cast
  norm_num
  ring

theorem half_pos (k : ℕ) : half.value k < half.value (k + 1) := half.value_strictMono (Nat.lt_succ_self k)

theorem roundsUp_iff (hk : 2 ^ 10 ≤ k) (hj : j < 2 ^ 13) :
    RoundsUp half.value (single.value (2 ^ 13 * (k + 112 * 2 ^ 10) + j)) k ↔ 2 ^ 12 < j ∨ (j = 2 ^ 12 ∧ k % 2 = 1) := by
  have hgap := half_pos k
  rw [RoundsUp, single_value hk hj]
  generalize half.value k = x at hgap ⊢
  generalize half.value (k + 1) = y at hgap ⊢
  have hmiddle : 2 * (x + j / 2 ^ 13 * (y - x)) - (x + y) = ((j : ℚ) - 2 ^ 12) / 2 ^ 12 * (y - x) := by ring
  have hpos : 0 < y - x := sub_pos.mpr hgap
  have hlt : x + y < 2 * (x + j / 2 ^ 13 * (y - x)) ↔ 2 ^ 12 < j := by
    rw [← sub_pos, hmiddle, mul_pos_iff_of_pos_right hpos, div_pos_iff_of_pos_right (by norm_num), sub_pos]
    exact_mod_cast Iff.rfl
  have heq : x + y = 2 * (x + j / 2 ^ 13 * (y - x)) ↔ j = 2 ^ 12 := by
    rw [eq_comm, ← sub_eq_zero, hmiddle, mul_eq_zero, or_iff_left hpos.ne', div_eq_zero_iff,
      or_iff_left (by norm_num), sub_eq_zero]
    exact_mod_cast Iff.rfl
  rw [hlt, heq]

theorem halfMagnitude_of_normal (hk : 2 ^ 10 ≤ k) (hlt : k < 31 * 2 ^ 10) (hj : j < 2 ^ 13) :
    halfMagnitude (2 ^ 13 * (k + 112 * 2 ^ 10) + j) =
      nearestEven half.value (single.value (2 ^ 13 * (k + 112 * 2 ^ 10) + j)) k := by
  have hsub : (2 ^ 13 * (k + 112 * 2 ^ 10) + j) / 2 ^ 13 - 112 * 2 ^ 10 = k := by omega
  have hmod : (2 ^ 13 * (k + 112 * 2 ^ 10) + j) % 2 ^ 13 = j := by omega
  rw [halfMagnitude, if_neg (by omega), if_neg (by omega), if_neg (by omega), hsub, hmod, nearestEven]
  simp only [roundsUp_iff hk hj]

theorem isNearestEven_of_normal (hk : 2 ^ 10 ≤ k) (hlt : k < 31 * 2 ^ 10) (hj : j < 2 ^ 13) :
    IsNearestEven half.value (single.value (2 ^ 13 * (k + 112 * 2 ^ 10) + j))
      (halfMagnitude (2 ^ 13 * (k + 112 * 2 ^ 10) + j)) := by
  have hgap := half_pos k
  have hfraction : (j : ℚ) / 2 ^ 13 ≤ 1 := by
    rw [div_le_one (by norm_num)]
    exact_mod_cast hj.le
  rw [halfMagnitude_of_normal hk hlt hj]
  refine isNearestEven_nearestEven half.value_strictMono ?_ ?_
  · rw [single_value hk hj]
    have := mul_nonneg (div_nonneg (Nat.cast_nonneg j) (by norm_num : (0 : ℚ) ≤ 2 ^ 13)) (sub_pos.mpr hgap).le
    linarith
  · rw [single_value hk hj]
    have := mul_le_mul_of_nonneg_right hfraction (sub_pos.mpr hgap).le
    linarith

theorem single_value_min : single.value (113 * 2 ^ 23) = 1 / 2 ^ 14 := by
  rw [BinaryFormat.value, single_least]
  have hscaled : scaled single.fractionBits (113 * 2 ^ 23) = 2 ^ 135 := rfl
  rw [hscaled]
  norm_num

theorem single_value_max : single.value (143 * 2 ^ 23) = half.value half.infinity := by
  rw [BinaryFormat.value, BinaryFormat.value, single_least, half_least]
  have hsingle : scaled single.fractionBits (143 * 2 ^ 23) = 2 ^ 165 := rfl
  have hhalf : scaled half.fractionBits half.infinity = 2 ^ 40 := rfl
  rw [hsingle, hhalf]
  norm_num

/-- Every float magnitude from the least normal half on is rounded to the nearest half. -/
theorem exists_isNearestEven (hlow : 113 * 2 ^ 23 ≤ m) (hhigh : m < single.infinity) :
    ∃ n, IsNearestEven half.value (single.value m) n ∧ halfMagnitude m = min n half.infinity := by
  rw [single_infinity] at hhigh
  by_cases hover : 143 * 2 ^ 23 ≤ m
  · obtain ⟨n, hn, -⟩ := half.exists_isNearestEven_round (single.value_nonneg m)
    refine ⟨n, hn, ?_⟩
    have hle : half.infinity ≤ n := by
      by_contra hlt
      have hx : half.value half.infinity ≤ single.value m := by
        rw [← single_value_max]
        exact single.value_strictMono.monotone hover
      have hnearest := hn.nearest half.infinity
      rw [abs_of_nonneg (sub_nonneg.mpr hx)] at hnearest
      exact absurd hnearest (not_le.mpr (lt_abs_of_lt half.value_strictMono (not_le.mp hlt)))
    rw [Nat.min_eq_right hle, halfMagnitude, if_neg (by omega), if_neg (by omega), if_pos (by omega)]
    rfl
  · obtain ⟨k, j, hk, hkhigh, hj, rfl⟩ : ∃ k j, 2 ^ 10 ≤ k ∧ k < 31 * 2 ^ 10 ∧ j < 2 ^ 13 ∧
        m = 2 ^ 13 * (k + 112 * 2 ^ 10) + j :=
      ⟨m / 2 ^ 13 - 112 * 2 ^ 10, m % 2 ^ 13, by omega, by omega, by omega, by omega⟩
    refine ⟨_, isNearestEven_of_normal hk hkhigh hj, ?_⟩
    rw [half_infinity, Nat.min_eq_left]
    rw [halfMagnitude, if_neg (by omega), if_neg (by omega), if_neg (by omega)]
    simp only
    split <;> omega

end Grid

end Tce.HalfFloatWord
