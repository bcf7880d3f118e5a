import Tce.Tools.HalfFloatWord

/-!
# Conversions between floats and halves

Infinite floats become NaN, and denormal halves get half their value; all other conversions are
right.
-/

namespace Tce.HalfFloatWord
open Base

section ToHalf
variable {u v : BitVec 32} {m n : ℕ}

theorem halfMagnitude_lt (m : ℕ) (hm : m < 2 ^ 31) : halfMagnitude m < 2 ^ 15 := by
  simp only [halfMagnitude]
  split_ifs <;> omega

theorem ofFloat_magnitude (u : BitVec 32) : (ofFloat u).magnitude = u.toNat % 2 ^ 31 := rfl

theorem ofHalf_convert (u : BitVec 32) :
    ofHalf (convertFloatToHalfWordRep u) = ⟨(ofFloat u).negative, halfMagnitude (ofFloat u).magnitude⟩ := by
  have hlt := halfMagnitude_lt (u.toNat % 2 ^ 31) (Nat.mod_lt _ (by decide))
  have hu := u.isLt
  rw [ofHalf, BinaryFormat.ofBits, convert_toNat, BinaryNumber.mk.injEq]
  constructor
  · have hbit : (ofFloat u).negative = u.toNat.testBit 31 := rfl
    rw [hbit, Nat.testBit_eq_decide_div_mod_eq, Nat.testBit_eq_decide_div_mod_eq, decide_eq_decide]
    have h : half.fractionBits + half.exponentBits = 15 := rfl
    rw [h]
    omega
  · have h : half.fractionBits + half.exponentBits = 15 := rfl
    rw [h, ofFloat_magnitude]
    omega

theorem abs_rat (F : BinaryFormat) (a : BinaryNumber) : |F.rat a| = F.value a.magnitude := by
  rw [BinaryFormat.rat]
  split
  · rw [abs_neg, abs_of_nonneg (F.value_nonneg _)]
  · rw [abs_of_nonneg (F.value_nonneg _)]

theorem halfMagnitude_special (hm : single.infinity ≤ m) (hlt : m < 2 ^ 31) : halfMagnitude m = 0x7e00 := by
  rw [single_infinity] at hm
  exact if_pos (by omega)

theorem floatRight_iff (u : BitVec 32) : FloatRight u ↔ ¬single.IsInfinite (ofFloat u) := by
  have hlt : (ofFloat u).magnitude < 2 ^ 31 := Nat.mod_lt _ (by decide)
  constructor
  · intro h hinf
    have hconvert := h.infinite hinf
    rw [ofHalf_convert, halfMagnitude_special hinf.ge hlt, BinaryNumber.mk.injEq] at hconvert
    exact absurd hconvert.2 (by decide)
  · intro hnot
    constructor
    case nearest =>
      intro hfinite hlow
      rw [abs_rat, ← single_value_min, single.value_strictMono.le_iff_le] at hlow
      obtain ⟨n, hnearest, hn⟩ := exists_isNearestEven hlow hfinite
      rw [abs_rat, ofHalf_convert]
      exact ⟨rfl, n, hnearest, hn⟩
    case infinite => exact fun hinf => absurd hinf hnot
    case nan =>
      intro hnan
      rw [ofHalf_convert, BinaryFormat.IsNaN, halfMagnitude_special (le_of_lt hnan) hlt, half_infinity]
      exact (by decide : 31 * 2 ^ 10 < 0x7e00)

/-- What is cut off is more than a half of the last bit, or a half of it and the last bit is one. -/
def CutUp (m : ℕ) : Prop :=
  2 ^ 12 < m % 2 ^ 13 ∨ (m % 2 ^ 13 = 2 ^ 12 ∧ (m / 2 ^ 13 - 112 * 2 ^ 10) % 2 = 1)

theorem halfMagnitude_cases (hm : m < single.infinity) :
    (m < 113 * 2 ^ 23 ∧ halfMagnitude m = 0) ∨ (143 * 2 ^ 23 ≤ m ∧ halfMagnitude m = 31 * 2 ^ 10) ∨
      (113 * 2 ^ 23 ≤ m ∧ m < 143 * 2 ^ 23 ∧
        ((CutUp m ∧ halfMagnitude m = m / 2 ^ 13 - 112 * 2 ^ 10 + 1) ∨
          (¬CutUp m ∧ halfMagnitude m = m / 2 ^ 13 - 112 * 2 ^ 10))) := by
  rw [single_infinity] at hm
  rw [halfMagnitude, if_neg (by omega)]
  by_cases hunder : m / 2 ^ 23 ≤ 112
  · exact .inl ⟨by omega, if_pos hunder⟩
  rw [if_neg hunder]
  by_cases hover : 143 ≤ m / 2 ^ 23
  · exact .inr (.inl ⟨by omega, if_pos hover⟩)
  rw [if_neg hover]
  refine .inr (.inr ⟨by omega, by omega, ?_⟩)
  by_cases hup : CutUp m
  · exact .inl ⟨hup, if_pos hup⟩
  · exact .inr ⟨hup, if_neg hup⟩

theorem halfMagnitude_mono (hle : m ≤ n) (hn : n < single.infinity) : halfMagnitude m ≤ halfMagnitude n := by
  have hm := halfMagnitude_cases (lt_of_le_of_lt hle hn)
  have hn := halfMagnitude_cases hn
  simp only [CutUp] at hm hn
  omega

theorem halfMagnitude_le (hn : n < single.infinity) : halfMagnitude n ≤ half.infinity := by
  have hn := halfMagnitude_cases hn
  rw [half_infinity]
  omega

/-- The order of two numbers, by their signs and magnitudes. -/
theorem rat_le_iff (F : BinaryFormat) (a b : BinaryNumber) : F.rat a ≤ F.rat b ↔
    (a.negative = true ∧ b.negative = true ∧ b.magnitude ≤ a.magnitude) ∨
    (a.negative = true ∧ b.negative = false) ∨
    (a.negative = false ∧ b.negative = false ∧ a.magnitude ≤ b.magnitude) ∨
    (a.magnitude = 0 ∧ b.magnitude = 0) := by
  have ha := F.value_nonneg a.magnitude
  have hb := F.value_nonneg b.magnitude
  have hzero : F.value 0 = 0 := by simp [BinaryFormat.value, scaled]
  have hle : F.value a.magnitude ≤ -F.value b.magnitude ↔ a.magnitude = 0 ∧ b.magnitude = 0 := by
    constructor
    · intro h
      exact ⟨F.value_strictMono.injective (by linarith), F.value_strictMono.injective (by linarith)⟩
    · rintro ⟨h, h'⟩
      rw [h, h', hzero, neg_zero]
  rw [BinaryFormat.rat, BinaryFormat.rat]
  cases hna : a.negative <;> cases hnb : b.negative <;>
    simp only [Bool.false_eq_true, if_true, if_false, neg_le_neg_iff, F.value_strictMono.le_iff_le, hle, true_and,
      false_and, and_false, false_or, reduceCtorEq]
  case false.false => omega
  case true.false => exact iff_of_true (by linarith) (.inl trivial)
  case true.true => omega

/-- The conversion keeps the order of finite floats. -/
theorem convert_mono (hu : single.IsFinite (ofFloat u)) (hv : single.IsFinite (ofFloat v))
    (hle : single.rat (ofFloat u) ≤ single.rat (ofFloat v)) :
    half.AtMost (ofHalf (convertFloatToHalfWordRep u)) (ofHalf (convertFloatToHalfWordRep v)) := by
  have hmu := halfMagnitude_le hu
  have hmv := halfMagnitude_le hv
  have horder : ∀ b : BinaryNumber, ¬half.IsInfinite b → b.magnitude ≤ half.infinity → half.IsFinite b :=
    fun b hne hb => lt_of_le_of_ne hb hne
  rw [ofHalf_convert, ofHalf_convert, BinaryFormat.AtMost, rat_le_iff]
  rcases (rat_le_iff ..).mp hle with ⟨hnu, hnv, hmag⟩ | ⟨hnu, hnv⟩ | ⟨hnu, hnv, hmag⟩ | ⟨hzu, hzv⟩
  · have hmono := halfMagnitude_mono hmag hu
    by_cases hinf : halfMagnitude (ofFloat u).magnitude = half.infinity
    · exact .inl ⟨hinf, hnu⟩
    · have hfinite := lt_of_le_of_ne hmu hinf
      exact .inr (.inr ⟨hfinite, lt_of_le_of_lt hmono hfinite, .inl ⟨hnu, hnv, hmono⟩⟩)
  · by_cases hinf : halfMagnitude (ofFloat u).magnitude = half.infinity
    · exact .inl ⟨hinf, hnu⟩
    by_cases hinf' : halfMagnitude (ofFloat v).magnitude = half.infinity
    · exact .inr (.inl ⟨hinf', hnv⟩)
    exact .inr (.inr ⟨lt_of_le_of_ne hmu hinf, lt_of_le_of_ne hmv hinf', .inr (.inl ⟨hnu, hnv⟩)⟩)
  · have hmono := halfMagnitude_mono hmag hv
    by_cases hinf : halfMagnitude (ofFloat v).magnitude = half.infinity
    · exact .inr (.inl ⟨hinf, hnv⟩)
    · have hfinite := lt_of_le_of_ne hmv hinf
      exact .inr (.inr ⟨lt_of_le_of_lt hmono hfinite, hfinite, .inr (.inr (.inl ⟨hnu, hnv, hmono⟩))⟩)
  · have hzero : halfMagnitude 0 = 0 := rfl
    rw [hzu, hzv, hzero]
    exact .inr (.inr ⟨(by decide : 0 < half.infinity), (by decide : 0 < half.infinity),
      .inr (.inr (.inr ⟨rfl, rfl⟩))⟩)

end ToHalf

section ToFloat
variable {h : BitVec 16} {n s : ℕ} {q : ℚ}

theorem single_has (hn : n < 2 ^ 24) (hs : s ≤ 200) (hq : q = n * 2 ^ ((s : ℤ) - 149)) : single.Has q := by
  have hdyadic : q = (n * 2 ^ s : ℕ) * 2 ^ single.least := by
    rw [hq, single_least, sub_eq_add_neg, zpow_add₀ two_ne_zero, zpow_natCast]
    push_cast
    ring
  refine ⟨?_, n, s, hn, hdyadic⟩
  have hscaled : scaled single.fractionBits single.infinity = 2 ^ 23 * 2 ^ 254 := rfl
  rw [hdyadic, BinaryFormat.value, hscaled]
  refine mul_lt_mul_of_pos_right (Nat.cast_lt.mpr ?_) single.least_pos
  calc n * 2 ^ s < 2 ^ 24 * 2 ^ s := Nat.mul_lt_mul_of_pos_right hn (Nat.two_pow_pos s)
    _ ≤ 2 ^ 24 * 2 ^ 200 := Nat.mul_le_mul_left _ (Nat.pow_le_pow_right (by decide) hs)
    _ ≤ 2 ^ 23 * 2 ^ 254 := by norm_num

/-- A float that is an integer of few bits. -/
theorem is_ofRat_nat (hn : n < 2 ^ 24) : single.Is (single.ofRat n) false n := by
  have habs : |(n : ℚ)| = n := abs_of_nonneg (Nat.cast_nonneg n)
  have his := BinaryFormat.is_ofRat (F := single) (q := n) (by
    rw [habs]
    exact single_has (s := 149) hn (by decide) (by simp))
  rw [habs] at his
  refine ⟨his.negative.trans ?_, his.finite, his.value⟩
  exact decide_eq_false (not_lt.mpr (Nat.cast_nonneg n))

theorem is_exp2 {e : ℕ} (he : e < 31) : single.Is (exp2 ((e : ℤ) - 15)) false (2 ^ ((e : ℤ) - 15)) := by
  have hpos : (0 : ℚ) < 2 ^ ((e : ℤ) - 15) := zpow_pos two_pos _
  have his := BinaryFormat.is_ofRat (F := single) (q := 2 ^ ((e : ℤ) - 15)) (by
    rw [abs_of_pos hpos]
    refine single_has (n := 1) (s := e + 134) (by decide) (by omega) ?_
    have hexp : ((e + 134 : ℕ) : ℤ) - 149 = (e : ℤ) - 15 := by
      push_cast
      ring
    rw [Nat.cast_one, one_mul, hexp])
  rw [abs_of_pos hpos] at his
  exact ⟨his.negative.trans (decide_eq_false (not_lt.mpr hpos.le)), his.finite, his.value⟩

theorem is_minusOne : single.Is (single.ofRat (-1)) true 1 := by
  have his := BinaryFormat.is_ofRat (F := single) (q := -1) (by
    refine single_has (n := 1) (s := 149) (by decide) (by decide) ?_
    norm_num)
  rw [abs_neg, abs_one] at his
  exact ⟨his.negative.trans (by decide), his.finite, his.value⟩

/-- The fraction with its leading one, unless the exponent is zero. -/
def significand (m : ℕ) : ℕ := if m / 2 ^ 10 = 0 then m % 2 ^ 10 else 2 ^ 10 + m % 2 ^ 10

theorem significand_lt (m : ℕ) : significand m < 2 ^ 11 := by
  rw [significand]
  split <;> omega

theorem ofHalf_magnitude (h : BitVec 16) : (ofHalf h).magnitude = h.toNat % 2 ^ 15 := rfl

theorem half_expon_toNat (h : BitVec 16) : ((h &&& 0x7C00#16) >>> 10).toNat = (ofHalf h).magnitude / 2 ^ 10 := by
  rw [BitVec.toNat_ushiftRight, BitVec.toNat_and, Nat.shiftRight_and_distrib]
  have hmask : (0x7C00#16).toNat >>> 10 = 2 ^ 5 - 1 := rfl
  rw [hmask, Nat.and_two_pow_sub_one_eq_mod, Nat.shiftRight_eq_div_pow, ofHalf_magnitude]
  omega

theorem half_mantissa_toNat (h : BitVec 16) : (h &&& 0x03FF#16).toNat = (ofHalf h).magnitude % 2 ^ 10 := by
  rw [BitVec.toNat_and]
  have hmask : (0x03FF#16).toNat = 2 ^ 10 - 1 := rfl
  rw [hmask, Nat.and_two_pow_sub_one_eq_mod, ofHalf_magnitude]
  omega

theorem half_sign_ne_zero (h : BitVec 16) : (h &&& 0x8000#16) >>> 15 ≠ 0#16 ↔ (ofHalf h).negative = true := by
  have hlt := h.isLt
  rw [ne_eq, ← BitVec.toNat_inj, BitVec.toNat_ushiftRight, BitVec.toNat_and, Nat.shiftRight_and_distrib]
  have hmask : (0x8000#16).toNat >>> 15 = 1 := rfl
  have hbit : (ofHalf h).negative = h.toNat.testBit 15 := rfl
  rw [hmask, Nat.and_one_is_mod, Nat.shiftRight_eq_div_pow, hbit, Nat.testBit_eq_decide_div_mod_eq]
  simp

theorem significand_toNat (h : BitVec 16) :
    (if (ofHalf h).magnitude / 2 ^ 10 = 0 then h &&& 0x03FF#16 else h &&& 0x03FF#16 ||| 0x0400#16).toNat =
      significand (ofHalf h).magnitude := by
  have hmant := half_mantissa_toNat h
  have hlt : (h &&& 0x03FF#16).toNat < 2 ^ 10 := by omega
  rw [significand]
  split
  · exact hmant
  · have hone : (0x0400#16).toNat = 2 ^ 10 * 1 := rfl
    rw [BitVec.toNat_or, Nat.or_comm, hone, ← Nat.two_pow_add_eq_or_of_lt hlt, hmant, Nat.mul_one]

/-- What a finite half is converted to. -/
theorem is_toFloat (hfinite : half.IsFinite (ofHalf h)) :
    single.Is (toFloat h) (ofHalf h).negative
      (significand (ofHalf h).magnitude * 2 ^ (((ofHalf h).magnitude / 2 ^ 10 : ℕ) - 25 : ℤ)) := by
  have hneg : h ≠ 0xFC00#16 := by
    rintro rfl
    exact absurd hfinite (by decide)
  have hpos : h ≠ 0x7C00#16 := by
    rintro rfl
    exact absurd hfinite (by decide)
  have hlt := significand_lt (ofHalf h).magnitude
  have hexp : (ofHalf h).magnitude / 2 ^ 10 < 31 := Nat.div_lt_of_lt_mul hfinite
  rw [toFloat, if_neg hneg, if_neg hpos]
  simp only [half_expon_toNat]
  rw [if_neg (fun hnan => absurd hnan.1 hexp.ne), significand_toNat]
  generalize (ofHalf h).magnitude / 2 ^ 10 = e at hexp ⊢
  generalize significand (ofHalf h).magnitude = c at hlt ⊢
  have hvalue : single.Is (single.div (single.ofRat c) (single.ofRat 0x400)) false (c / 2 ^ 10) := by
    have hthousand := is_ofRat_nat (n := 2 ^ 10) (by decide)
    have h := BinaryFormat.Is.div (is_ofRat_nat (by omega : c < 2 ^ 24)) hthousand (by norm_num)
      (single_has (n := c) (s := 139) (by omega) (by decide) (by norm_num; ring))
    norm_num at h ⊢
    exact h
  have hscaled : (c : ℚ) / 2 ^ 10 * 2 ^ ((e : ℤ) - 15) = c * 2 ^ ((e : ℤ) - 25) := by
    have hsub : ((e : ℤ) - 15) = ((e : ℤ) - 25) + 10 := by ring
    rw [hsub, zpow_add₀ two_ne_zero]
    norm_num
    ring
  have hhas : single.Has (c * 2 ^ ((e : ℤ) - 25)) := by
    refine single_has (n := c) (s := e + 124) (by omega) (by omega) ?_
    have hadd : ((e + 124 : ℕ) : ℤ) - 149 = (e : ℤ) - 25 := by
      push_cast
      ring
    rw [hadd]
  have hmul := BinaryFormat.Is.mul hvalue (is_exp2 hexp) (hscaled ▸ hhas)
  rw [hscaled] at hmul
  by_cases hsign : (ofHalf h).negative = true
  · rw [if_pos ((half_sign_ne_zero h).mpr hsign), hsign]
    have h := BinaryFormat.Is.mul hmul is_minusOne (by rwa [mul_one])
    rwa [mul_one] at h
  · rw [if_neg (fun hs => hsign ((half_sign_ne_zero h).mp hs)), (Bool.not_eq_true _).mp hsign]
    exact hmul

/-- The magnitude of a normal half, as a float. -/
theorem significand_normal {m : ℕ} (hm : 2 ^ 10 ≤ m) :
    (significand m : ℚ) * 2 ^ ((m / 2 ^ 10 : ℕ) - 25 : ℤ) = half.value m := by
  have hexp : m / 2 ^ 10 ≠ 0 := by omega
  have hsub : ((m / 2 ^ 10 : ℕ) : ℤ) - 25 = ((m / 2 ^ 10 - 1 : ℕ) : ℤ) + -24 := by omega
  have hscaled : scaled half.fractionBits m = (2 ^ 10 + m % 2 ^ 10) * 2 ^ (m / 2 ^ 10 - 1) := if_neg hexp
  rw [BinaryFormat.value, half_least, hscaled, hsub, zpow_add₀ two_ne_zero, zpow_natCast, significand, if_neg hexp]
  push_cast
  ring

theorem significand_denormal {m : ℕ} (hm : m < 2 ^ 10) :
    (significand m : ℚ) * 2 ^ ((m / 2 ^ 10 : ℕ) - 25 : ℤ) = half.value m / 2 := by
  have hexp : m / 2 ^ 10 = 0 := Nat.div_eq_of_lt hm
  have hscaled : scaled half.fractionBits m = m := scaled_of_lt hm
  rw [BinaryFormat.value, half_least, hscaled, significand, if_pos hexp, hexp, Nat.mod_eq_of_lt hm]
  norm_num
  ring

theorem rat_of_is {F : BinaryFormat} {a : BinaryNumber} {negative : Bool} (ha : F.Is a negative q) :
    F.rat a = if negative then -q else q := by
  rw [BinaryFormat.rat, ha.negative, ha.value]

theorem toFloat_magnitude (hfinite : half.IsFinite (ofHalf h)) (hnormal : 2 ^ 10 ≤ (ofHalf h).magnitude) :
    (toFloat h).magnitude = 2 ^ 13 * ((ofHalf h).magnitude + 112 * 2 ^ 10) := by
  have his := is_toFloat hfinite
  have hvalue := single_value (k := (ofHalf h).magnitude) (j := 0) hnormal (by decide)
  rw [Nat.cast_zero, zero_div, zero_mul, add_zero, add_zero, ← significand_normal hnormal, ← his.value] at hvalue
  exact (single.value_strictMono.injective hvalue).symm

/-- A normal half comes back from its float. -/
theorem convert_toFloat (hfinite : half.IsFinite (ofHalf h)) (hnormal : 2 ^ 10 ≤ (ofHalf h).magnitude) :
    convertFloatToHalfWordRep (BitVec.ofNat 32 (single.toBits (toFloat h))) = h := by
  have hnegative := (is_toFloat hfinite).negative
  have hmagnitude := toFloat_magnitude hfinite hnormal
  have hbound : (ofHalf h).magnitude < 31 * 2 ^ 10 := hfinite
  have hbits : single.toBits (toFloat h) =
      (if (ofHalf h).negative then 2 ^ 31 else 0) + 2 ^ 13 * ((ofHalf h).magnitude + 112 * 2 ^ 10) := by
    rw [BinaryFormat.toBits, hnegative, hmagnitude]
    rfl
  have hhalf : halfMagnitude (2 ^ 13 * ((ofHalf h).magnitude + 112 * 2 ^ 10)) = (ofHalf h).magnitude := by
    rcases halfMagnitude_cases (m := 2 ^ 13 * ((ofHalf h).magnitude + 112 * 2 ^ 10))
        (by rw [single_infinity]; omega) with h | h | h
    · omega
    · omega
    · simp only [CutUp] at h
      omega
  have hlt := h.isLt
  have hsign : (if (ofHalf h).negative then 2 ^ 31 else 0) = h.toNat / 2 ^ 15 * 2 ^ 31 := by
    have hbit : (ofHalf h).negative = h.toNat.testBit 15 := rfl
    rw [hbit, Nat.testBit_eq_decide_div_mod_eq]
    simp only [decide_eq_true_eq]
    split <;> omega
  rw [← BitVec.toNat_inj, convert_toNat, BitVec.toNat_ofNat, hbits, hsign]
  have hquot : (h.toNat / 2 ^ 15 * 2 ^ 31 + 2 ^ 13 * ((ofHalf h).magnitude + 112 * 2 ^ 10)) % 2 ^ 32 / 2 ^ 31 =
      h.toNat / 2 ^ 15 := by omega
  have hrem : (h.toNat / 2 ^ 15 * 2 ^ 31 + 2 ^ 13 * ((ofHalf h).magnitude + 112 * 2 ^ 10)) % 2 ^ 32 % 2 ^ 31 =
      2 ^ 13 * ((ofHalf h).magnitude + 112 * 2 ^ 10) := by omega
  rw [hquot, hrem, hhalf, ofHalf_magnitude]
  omega

theorem halfRight_iff (h : BitVec 16) :
    HalfRight h ↔ ¬(0 < (ofHalf h).magnitude ∧ (ofHalf h).magnitude < 2 ^ 10) := by
  constructor
  · rintro hright ⟨hpos, hdenormal⟩
    have hfinite : half.IsFinite (ofHalf h) := hdenormal.trans (by decide)
    have hexact := congrArg (|·|) (hright.exact hfinite).2
    simp only [abs_rat] at hexact
    rw [(is_toFloat hfinite).value, significand_denormal hdenormal] at hexact
    have hvalue := half.value_strictMono hpos
    have hzero := half.value_nonneg 0
    linarith
  · intro hnot
    constructor
    case exact =>
      intro hfinite
      have his := is_toFloat hfinite
      refine ⟨his.finite, ?_⟩
      rw [rat_of_is his, BinaryFormat.rat]
      by_cases hnormal : 2 ^ 10 ≤ (ofHalf h).magnitude
      · rw [significand_normal hnormal]
      · have hzero : (ofHalf h).magnitude = 0 := by omega
        rw [significand_denormal (by omega), hzero]
        simp [BinaryFormat.value, scaled]
    case back => exact fun hfinite hnormal => convert_toFloat hfinite hnormal

/-- Exactly the infinite floats and the denormal halves are converted wrongly, and the order of floats is kept. -/
theorem conversions_iff (u v : BitVec 32) (h : BitVec 16) :
    (FloatRight u ↔ ¬single.IsInfinite (ofFloat u)) ∧
    (single.IsFinite (ofFloat u) → single.IsFinite (ofFloat v) → single.rat (ofFloat u) ≤ single.rat (ofFloat v) →
      half.AtMost (ofHalf (convertFloatToHalfWordRep u)) (ofHalf (convertFloatToHalfWordRep v))) ∧
    (HalfRight h ↔ ¬(0 < (ofHalf h).magnitude ∧ (ofHalf h).magnitude < 2 ^ 10)) :=
  ⟨floatRight_iff u, convert_mono, halfRight_iff h⟩

/-- Infinity becomes NaN, and the least denormal half of itself. -/
theorem not_conversions : ¬FloatRight 0x7f800000#32 ∧ ¬HalfRight 0x0001#16 := by
  constructor
  · exact fun h => (floatRight_iff _).mp h rfl
  · exact fun h => (halfRight_iff _).mp h (by decide)

end ToFloat

end Tce.HalfFloatWord
