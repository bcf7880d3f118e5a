import Tce.Tools.SimValue

/-!
# Shift operations

`SHRU`, `SHR`, `ROTL`, `ROTR` and `LMBD` of the base operations. The host does
not define a shift of a word by a negative count or by 32 or more.
-/

namespace Tce.OpSet

open MathTools

abbrev Word := BitVec 32

/-- `OSAL_WORD_WIDTH`. -/
def osalWordWidth : Nat := 32

/-- What a trigger gives in place of a result. -/
inductive TriggerFault where
  | undefinedShift
  | runtimeError (message : String)
  deriving DecidableEq, Repr

/-! ## Shifts of the host -/

def shiftCount (count : Int) : Except TriggerFault Nat :=
  if 0 ≤ count ∧ count < 32 then .ok count.toNat else .error .undefinedShift

def shiftLeft (value : Word) (count : Int) : Except TriggerFault Word := return value <<< (← shiftCount count)

def shiftRight (value : Word) (count : Int) : Except TriggerFault Word := return value >>> (← shiftCount count)

/-- The right shift of a signed word. -/
def shiftRightSigned (value : Word) (count : Int) : Except TriggerFault Word :=
  return value.sshiftRight (← shiftCount count)

section defined
variable (value : Word) {n : Nat} {count : Int}

theorem shiftCount_natCast (h : n < 32) : shiftCount n = .ok n := by
  rw [shiftCount, if_pos (by omega), Int.toNat_natCast]

theorem shiftLeft_natCast (h : n < 32) : shiftLeft value n = .ok (value <<< n) := by
  rw [shiftLeft, shiftCount_natCast h]
  rfl

theorem shiftRight_natCast (h : n < 32) : shiftRight value n = .ok (value >>> n) := by
  rw [shiftRight, shiftCount_natCast h]
  rfl

theorem shiftRightSigned_natCast (h : n < 32) : shiftRightSigned value n = .ok (value.sshiftRight n) := by
  rw [shiftRightSigned, shiftCount_natCast h]
  rfl

theorem shiftRight_undefined (h : ¬(0 ≤ count ∧ count < 32)) : shiftRight value count = .error .undefinedShift := by
  rw [shiftRight, shiftCount, if_neg h]
  rfl

theorem shiftLeft_undefined (h : ¬(0 ≤ count ∧ count < 32)) : shiftLeft value count = .error .undefinedShift := by
  rw [shiftLeft, shiftCount, if_neg h]
  rfl

theorem shiftRightSigned_undefined (h : ¬(0 ≤ count ∧ count < 32)) :
    shiftRightSigned value count = .error .undefinedShift := by
  rw [shiftRightSigned, shiftCount, if_neg h]
  rfl

end defined

/-! ## The operations -/

/-- `UINT`. -/
def uint (v : SimValue) : Word := BitVec.ofNat 32 v.unsignedValue

/-- `INT`, converted to a word. -/
def int (v : SimValue) : Word := BitVec.ofInt 32 v.intValue

/-- The smaller one of the width of an operand and that of a word. -/
def boundedWidth (v : SimValue) : Nat := min v.width osalWordWidth

def shru (a b : SimValue) : Except TriggerFault Word :=
  if boundedWidth a < (uint b).toNat then .ok 0 else shiftRight (uint a) (uint b).toNat

/-- Both operands are read as unsigned words and taken for signed ones. -/
def shr (a b : SimValue) : Except TriggerFault Word :=
  let int2 := (uint b).toInt
  if (boundedWidth a : Int) < int2 then .ok 0 else shiftRightSigned (uint a) int2

def rotl (a b : SimValue) : Except TriggerFault Word := do
  let in2 := (uint b).toNat % boundedWidth a
  return (← shiftLeft (uint a) in2) ||| (← shiftRight (uint a) (boundedWidth a - in2 : Nat))

def rotr (a b : SimValue) : Except TriggerFault Word := do
  let in2 := (uint b).toNat % boundedWidth a
  return (← shiftRight (uint a) in2) ||| (← shiftLeft (uint a) (boundedWidth a - in2 : Nat))

/-- The loop over the bits, with so many turns left. -/
def leftmostLoop (bitToSearch : Word) : Nat → Nat → Word → Nat
  | 0, foundBits, _ => foundBits
  | turns + 1, foundBits, word =>
    if word >>> 31 = bitToSearch then foundBits else leftmostLoop bitToSearch turns (foundBits + 1) (word <<< 1)

def lmbd (a b : SimValue) : Except TriggerFault Word :=
  let bitToSearch := int b
  if 1 < bitToSearch.toNat then .error (.runtimeError "LMDB's 2nd operand must be 0 or 1!")
  else .ok (BitVec.ofNat 32 (leftmostLoop bitToSearch 33 0 (uint a)))

inductive ShiftOperation where
  | shru
  | shr
  | rotl
  | rotr
  | lmbd
  deriving DecidableEq, Repr

/-- The word that is assigned to the third operand. -/
def ShiftOperation.trigger : ShiftOperation → SimValue → SimValue → Except TriggerFault Word
  | .shru => OpSet.shru
  | .shr => OpSet.shr
  | .rotl => OpSet.rotl
  | .rotr => OpSet.rotr
  | .lmbd => OpSet.lmbd

/-! ## What they are to return -/

/-- An operand that is at most a word wide. -/
structure WordOperand extends SimValue where
  width_pos : 0 < width
  width_le : width ≤ 32

namespace WordOperand

def bits (v : WordOperand) : BitVec v.width := v.word.setWidth v.width

/-- An operand as wide as this one that a word has been assigned to. -/
def assign (v : WordOperand) (word : Word) : WordOperand := { v with word := word }

end WordOperand

/-- The bits of a word before the first one that is equal to `bit`, from the top. -/
def leadingBits (word : Word) (bit : Nat) : Nat := (List.range 32).findIdx fun i => (word.getMsbD i).toNat == bit

/-- The word gives the result in an operand as wide as the first one; the number
of bits is that of a whole word. -/
def ShiftOperation.Returns (op : ShiftOperation) (a b : WordOperand) (word : Word) : Prop :=
  let n := b.bits.toNat
  let result := (a.assign word).bits
  match op with
  | .shru => result.toNat = a.bits.toNat / 2 ^ n
  | .shr => result.toInt = a.bits.toInt / 2 ^ n
  | .rotl => result = a.bits.rotateLeft (n % a.width)
  | .rotr => result = a.bits.rotateRight (n % a.width)
  | .lmbd => word.toNat = leadingBits (a.bits.setWidth 32) n

/-- No shift is undefined and the result is right; what `ROTL` returns, `ROTR`
turns back. -/
def ShiftOperation.Correct (op : ShiftOperation) (a b : WordOperand) : Prop :=
  ∃ word, op.trigger a.toSimValue b.toSimValue = .ok word ∧ op.Returns a b word ∧
    (op = .rotl → ∃ back, OpSet.rotr (a.assign word).toSimValue b.toSimValue = .ok back ∧ (a.assign back).bits = a.bits)

/-- The operands for which the definitions are right. -/
def ShiftOperation.Safe (op : ShiftOperation) (a b : WordOperand) : Prop :=
  let n := b.bits.toNat
  match op with
  | .shru => ¬(a.width = 32 ∧ n = 32)
  | .shr => n = 0 ∨ (0 ≤ a.bits.toInt ∧ n < 2 ^ 31 ∧ ¬(a.width = 32 ∧ n = 32)) ∨ (a.width = 32 ∧ n < 32)
  | .rotl | .rotr => ¬(a.width = 32 ∧ n % 32 = 0)
  | .lmbd => n = 0 ∨ (n = 1 ∧ 1 < b.width ∧ a.bits ≠ 0)

/-! ## Operands as numbers -/

section operands
variable (a b : WordOperand)

theorem boundedWidth_eq : boundedWidth a.toSimValue = a.width := Nat.min_eq_left a.width_le

theorem toNat_uint : (uint a.toSimValue).toNat = a.bits.toNat := by
  have hmin : min a.width 32 = a.width := Nat.min_eq_left a.width_le
  rw [uint, BitVec.toNat_ofNat, SimValue.unsignedValue, hmin, toNat_fastZeroExtendTo a.width_le, WordOperand.bits,
    BitVec.toNat_setWidth]
  apply Nat.mod_eq_of_lt
  exact Nat.lt_of_lt_of_le (Nat.mod_lt _ (Nat.two_pow_pos _)) (Nat.pow_le_pow_right (by decide) a.width_le)

theorem uint_eq : uint a.toSimValue = a.bits.setWidth 32 := by
  apply BitVec.eq_of_toNat_eq
  rw [toNat_uint, BitVec.toNat_setWidth_of_le a.width_le]

theorem getLsbD_uint (i : Nat) : (uint a.toSimValue).getLsbD i = a.bits.getLsbD i := by
  rw [uint_eq, BitVec.getLsbD_setWidth]
  by_cases hi : i < 32
  · simp [hi]
  · have hwidth := a.width_le
    rw [BitVec.getLsbD_of_ge a.bits i (by omega), Bool.and_false]

theorem bits_lt : a.bits.toNat < 2 ^ 32 :=
  Nat.lt_of_lt_of_le a.bits.isLt (Nat.pow_le_pow_right (by decide) a.width_le)

end operands

/-! ## Right shifts -/

section shifts
variable {a b : WordOperand}

theorem shru_correct_iff : ShiftOperation.shru.Correct a b ↔ ShiftOperation.shru.Safe a b := by
  have hlt := a.bits.isLt
  have hwidth := a.width_le
  have htrigger : ShiftOperation.shru.trigger a.toSimValue b.toSimValue =
      if a.width < b.bits.toNat then .ok 0 else shiftRight (uint a.toSimValue) b.bits.toNat := by
    change shru _ _ = _
    rw [shru, boundedWidth_eq, toNat_uint]
  simp only [ShiftOperation.Correct, ShiftOperation.Safe, htrigger]
  by_cases hpast : a.width < b.bits.toNat
  · -- everything is shifted out
    rw [if_pos hpast]
    refine ⟨fun _ h => by omega, fun _ => ⟨0, rfl, ?_, nofun⟩⟩
    have hpow : 2 ^ a.width ≤ 2 ^ b.bits.toNat := Nat.pow_le_pow_right (by decide) (Nat.le_of_lt hpast)
    change ((0 : Word).setWidth a.width).toNat = _
    rw [Nat.div_eq_of_lt (Nat.lt_of_lt_of_le hlt hpow)]
    simp
  rw [if_neg hpast]
  by_cases hn : b.bits.toNat < 32
  · rw [shiftRight_natCast _ hn]
    refine ⟨fun _ h => by omega, fun _ => ⟨_, rfl, ?_, nofun⟩⟩
    change ((uint a.toSimValue >>> b.bits.toNat).setWidth a.width).toNat = _
    rw [BitVec.toNat_setWidth, BitVec.toNat_ushiftRight, toNat_uint, Nat.shiftRight_eq_div_pow]
    exact Nat.mod_eq_of_lt (Nat.lt_of_le_of_lt (Nat.div_le_self _ _) hlt)
  · rw [shiftRight_undefined _ (by omega)]
    constructor
    · rintro ⟨word, hword, -⟩
      cases hword
    · intro h
      exact absurd (by omega) h

/-- A signed number shifted out is 0 or -1. -/
theorem signed_div_of_le {w n : Nat} (x : BitVec w) (h : w ≤ n) :
    x.toInt / 2 ^ n = if x.toInt < 0 then -1 else 0 := by
  have hpow : (2 : Int) ^ w ≤ 2 ^ n := by exact_mod_cast Nat.pow_le_pow_right (show 0 < 2 by decide) h
  have hpos : (0 : Int) < 2 ^ n := Int.pow_pos (by decide)
  have hlt := @BitVec.toInt_lt w x
  have hle := @BitVec.le_toInt w x
  have hhalf : (2 : Int) ^ (w - 1) ≤ 2 ^ w := by
    exact_mod_cast Nat.pow_le_pow_right (show 0 < 2 by decide) (Nat.sub_le w 1)
  split
  · rw [Int.ediv_eq_iff_of_pos hpos]
    omega
  · exact Int.ediv_eq_zero_of_lt (by omega) (by omega)

/-- The second operand as a signed word. -/
theorem toInt_uint : (uint b.toSimValue).toInt =
    if b.bits.toNat < 2 ^ 31 then (b.bits.toNat : Int) else b.bits.toNat - 2 ^ 32 := by
  rw [BitVec.toInt_eq_toNat_cond, toNat_uint]
  by_cases h : b.bits.toNat < 2 ^ 31
  · rw [if_pos h, if_pos (by omega)]
  · rw [if_neg h, if_neg (by omega)]
    rfl

/-- What the signed shift leaves in the operand: the bits are shifted as those of
a word, in which a narrow operand has no sign. -/
theorem toInt_shifted {n : Nat} (h : n < 32) :
    (((uint a.toSimValue).sshiftRight n).setWidth a.width).toInt =
      if a.width = 32 ∨ n = 0 then a.bits.toInt / 2 ^ n else ((a.bits.toNat / 2 ^ n : Nat) : Int) := by
  have hlt := a.bits.isLt
  have hwidth := a.width_le
  have huint : (uint a.toSimValue).toNat = a.bits.toNat := toNat_uint a
  rcases Nat.eq_zero_or_pos n with rfl | hn
  · have hsame : ((uint a.toSimValue).setWidth a.width).toNat = a.bits.toNat := by
      rw [BitVec.toNat_setWidth, huint, Nat.mod_eq_of_lt hlt]
    rw [if_pos (Or.inr rfl), BitVec.sshiftRight_zero, BitVec.eq_of_toNat_eq hsame, Int.pow_zero, Int.ediv_one]
  by_cases hword : a.width = 32
  · have hpow : 2 ^ 32 = 2 ^ a.width := by rw [hword]
    have hsigned : (uint a.toSimValue).toInt = a.bits.toInt := by
      rw [BitVec.toInt_eq_toNat_cond, BitVec.toInt_eq_toNat_cond, huint, hpow]
    have hkeep (r : Word) : (r.setWidth a.width).toInt = r.toInt := by
      have hr : r.toNat < 2 ^ a.width := by
        rw [hword]
        exact r.isLt
      rw [BitVec.toInt_eq_toNat_cond, BitVec.toInt_eq_toNat_cond, BitVec.toNat_setWidth, Nat.mod_eq_of_lt hr, hpow]
    rw [if_pos (Or.inl hword), hkeep, BitVec.toInt_sshiftRight, hsigned, Int.shiftRight_eq_div_pow]
    norm_cast
  · -- the sign bit of the word is not one of the operand
    have hhalf : 2 ^ a.width ≤ 2 ^ 31 := Nat.pow_le_pow_right (by decide) (by omega)
    have hunsigned : (uint a.toSimValue).toInt = (a.bits.toNat : Int) := by
      rw [BitVec.toInt_eq_toNat_cond, huint, if_pos (by omega)]
    have hdiv : a.bits.toNat / 2 ^ n ≤ a.bits.toNat := Nat.div_le_self _ _
    have hshift : ((uint a.toSimValue).sshiftRight n).toNat = a.bits.toNat / 2 ^ n := by
      rw [BitVec.sshiftRight_eq_of_msb_false, BitVec.toNat_ushiftRight, huint, Nat.shiftRight_eq_div_pow]
      rw [BitVec.msb_eq_false_iff_two_mul_lt, huint]
      omega
    have hsmall : 2 * (a.bits.toNat / 2 ^ n) < 2 ^ a.width := by
      have hhalved : a.bits.toNat / 2 ^ n ≤ a.bits.toNat / 2 :=
        Nat.div_le_div_left (Nat.le_pow hn) Nat.two_pos
      have hpow : 2 ^ a.width = 2 * 2 ^ (a.width - 1) := by
        rw [← Nat.pow_succ', Nat.succ_eq_add_one, Nat.sub_add_cancel a.width_pos]
      omega
    rw [if_neg (by omega), BitVec.toInt_eq_toNat_cond, BitVec.toNat_setWidth, hshift, Nat.mod_eq_of_lt (by omega),
      if_pos hsmall]

theorem shr_correct_iff : ShiftOperation.shr.Correct a b ↔ ShiftOperation.shr.Safe a b := by
  have hwidth := a.width_le
  have htrigger : ShiftOperation.shr.trigger a.toSimValue b.toSimValue =
      if (a.width : Int) < (uint b.toSimValue).toInt then .ok 0
      else shiftRightSigned (uint a.toSimValue) (uint b.toSimValue).toInt := by
    change shr _ _ = _
    rw [shr, boundedWidth_eq]
  simp only [ShiftOperation.Correct, ShiftOperation.Safe, htrigger, toInt_uint]
  by_cases hsigned : b.bits.toNat < 2 ^ 31
  swap
  · -- the count is negative
    have hnegative := bits_lt b
    rw [if_neg hsigned, if_neg (by omega), shiftRightSigned_undefined _ (by omega)]
    constructor
    · rintro ⟨word, hword, -⟩
      cases hword
    · intro h
      omega
  rw [if_pos hsigned]
  by_cases hpast : a.width < b.bits.toNat
  · -- a negative number would have to become -1
    rw [if_pos (by omega)]
    have hreturns : ShiftOperation.shr.Returns a b 0 ↔ 0 ≤ a.bits.toInt := by
      change ((0 : Word).setWidth a.width).toInt = _ ↔ _
      rw [signed_div_of_le _ (Nat.le_of_lt hpast)]
      by_cases hneg : a.bits.toInt < 0
      · simp [hneg]
      · simp [hneg, Int.not_lt.mp hneg]
    constructor
    · rintro ⟨word, hword, h, -⟩
      cases hword
      exact .inr (.inl ⟨hreturns.mp h, hsigned, by omega⟩)
    · intro h
      have hpos : 0 ≤ a.bits.toInt := by omega
      exact ⟨0, rfl, hreturns.mpr hpos, nofun⟩
  rw [if_neg (by omega)]
  by_cases hn : b.bits.toNat < 32
  swap
  · rw [shiftRightSigned_undefined _ (by omega)]
    constructor
    · rintro ⟨word, hword, -⟩
      cases hword
    · intro h
      omega
  rw [shiftRightSigned_natCast _ hn]
  have hreturns : ShiftOperation.shr.Returns a b ((uint a.toSimValue).sshiftRight b.bits.toNat) ↔
      (a.width = 32 ∨ b.bits.toNat = 0) ∨ 0 ≤ a.bits.toInt := by
    change (((uint a.toSimValue).sshiftRight b.bits.toNat).setWidth a.width).toInt = _ ↔ _
    rw [toInt_shifted hn]
    by_cases hfull : a.width = 32 ∨ b.bits.toNat = 0
    · simp [hfull]
    rw [if_neg hfull, or_iff_right hfull]
    have hpos : (0 : Int) < 2 ^ b.bits.toNat := Int.pow_pos (by decide)
    constructor
    · intro heq
      by_contra hneg
      have hquotient := Int.ediv_neg_of_neg_of_pos (Int.not_le.mp hneg) hpos
      rw [← heq] at hquotient
      exact absurd hquotient (Int.not_lt.mpr (Int.natCast_nonneg _))
    · intro hnonneg
      have hcond := BitVec.toInt_eq_toNat_cond a.bits
      have hlt := a.bits.isLt
      have hsame : a.bits.toInt = a.bits.toNat := by
        split at hcond
        · exact hcond
        · push_cast at hcond
          have : ((2 ^ a.width : Nat) : Int) = 2 ^ a.width := by push_cast; rfl
          omega
      rw [hsame]
      norm_cast
  constructor
  · rintro ⟨word, hword, h, -⟩
    cases hword
    rcases hreturns.mp h with (hword | hzero) | hnonneg
    · exact .inr (.inr ⟨hword, hn⟩)
    · exact .inl hzero
    · exact .inr (.inl ⟨hnonneg, hsigned, by omega⟩)
  · intro h
    refine ⟨_, rfl, hreturns.mpr ?_, nofun⟩
    omega

end shifts

/-! ## Rotations -/

section rotations
variable {a b : WordOperand}

/-- The other shift of a rotation is by less than a word, unless a word is rotated by nothing. -/
theorem sub_mod_lt {n : Nat} (h : ¬(a.width = 32 ∧ n % 32 = 0)) : a.width - n % a.width < 32 := by
  have hwidth := a.width_le
  by_contra hlate
  have hword : a.width = 32 := by omega
  rw [hword] at hlate
  exact h ⟨hword, by omega⟩

/-- The count that is taken modulo the width leaves a shift of the whole width when it is 0. -/
theorem rotl_eq : rotl a.toSimValue b.toSimValue =
    if a.width = 32 ∧ b.bits.toNat % 32 = 0 then .error .undefinedShift
    else .ok (uint a.toSimValue <<< (b.bits.toNat % a.width) |||
      uint a.toSimValue >>> (a.width - b.bits.toNat % a.width)) := by
  have hwidth := a.width_le
  have hpos := a.width_pos
  have hmod := Nat.mod_lt b.bits.toNat hpos
  rw [rotl, boundedWidth_eq, toNat_uint]
  rw [shiftLeft_natCast _ (by omega)]
  by_cases hfull : a.width = 32 ∧ b.bits.toNat % 32 = 0
  · have hzero : b.bits.toNat % a.width = 0 := hfull.1 ▸ hfull.2
    rw [if_pos hfull, hzero, shiftRight_undefined _ (by omega)]
    rfl
  · rw [if_neg hfull, shiftRight_natCast _ (sub_mod_lt hfull)]
    rfl

theorem rotr_eq : rotr a.toSimValue b.toSimValue =
    if a.width = 32 ∧ b.bits.toNat % 32 = 0 then .error .undefinedShift
    else .ok (uint a.toSimValue >>> (b.bits.toNat % a.width) |||
      uint a.toSimValue <<< (a.width - b.bits.toNat % a.width)) := by
  have hwidth := a.width_le
  have hpos := a.width_pos
  have hmod := Nat.mod_lt b.bits.toNat hpos
  rw [rotr, boundedWidth_eq, toNat_uint]
  rw [shiftRight_natCast _ (by omega)]
  by_cases hfull : a.width = 32 ∧ b.bits.toNat % 32 = 0
  · have hzero : b.bits.toNat % a.width = 0 := hfull.1 ▸ hfull.2
    rw [if_pos hfull, hzero, shiftLeft_undefined _ (by omega)]
    rfl
  · rw [if_neg hfull, shiftLeft_natCast _ (sub_mod_lt hfull)]
    rfl

/-- In a narrow operand the bits shifted past its width are dropped. -/
theorem setWidth_rotl {r : Nat} (hr : r < a.width) :
    (uint a.toSimValue <<< r ||| uint a.toSimValue >>> (a.width - r)).setWidth a.width = a.bits.rotateLeft r := by
  have hwidth := a.width_le
  apply BitVec.eq_of_getLsbD_eq
  intro i hi
  rw [BitVec.getLsbD_setWidth, BitVec.getLsbD_or, BitVec.getLsbD_shiftLeft, BitVec.getLsbD_ushiftRight, getLsbD_uint,
    getLsbD_uint, BitVec.getLsbD_rotateLeft, Nat.mod_eq_of_lt hr]
  by_cases hlow : i < r
  · simp [hi, hlow]
  · have hpast : a.bits.getLsbD (a.width - r + i) = false := BitVec.getLsbD_of_ge _ _ (by omega)
    simp [hi, hlow, hpast, show i < 32 by omega]

theorem setWidth_rotr {r : Nat} (hr : r < a.width) :
    (uint a.toSimValue >>> r ||| uint a.toSimValue <<< (a.width - r)).setWidth a.width = a.bits.rotateRight r := by
  have hwidth := a.width_le
  apply BitVec.eq_of_getLsbD_eq
  intro i hi
  rw [BitVec.getLsbD_setWidth, BitVec.getLsbD_or, BitVec.getLsbD_shiftLeft, BitVec.getLsbD_ushiftRight, getLsbD_uint,
    getLsbD_uint, BitVec.getLsbD_rotateRight, Nat.mod_eq_of_lt hr]
  by_cases hlow : i < a.width - r
  · simp [hi, hlow]
  · have hpast : a.bits.getLsbD (r + i) = false := BitVec.getLsbD_of_ge _ _ (by omega)
    simp [hi, hlow, hpast, show i < 32 by omega]

/-- A word that is rotated left is turned back. -/
theorem rotateRight_rotateLeft {w : Nat} (x : BitVec w) {r : Nat} (hr : r < w) :
    (x.rotateLeft r).rotateRight r = x := by
  apply BitVec.eq_of_getLsbD_eq
  intro i hi
  rw [BitVec.getLsbD_rotateRight, Nat.mod_eq_of_lt hr]
  by_cases hlow : i < w - r
  · have hsum : r + i - r = i := by omega
    simp [hlow, BitVec.getLsbD_rotateLeft, Nat.mod_eq_of_lt hr, show ¬r + i < r by omega, hsum, show r + i < w by omega,
      -BitVec.getLsbD_eq_getElem]
  · have hsum : w - r + (i - (w - r)) = i := by omega
    simp [hlow, hi, BitVec.getLsbD_rotateLeft, Nat.mod_eq_of_lt hr, show i - (w - r) < r by omega, hsum,
      -BitVec.getLsbD_eq_getElem]

theorem rotr_correct_iff : ShiftOperation.rotr.Correct a b ↔ ShiftOperation.rotr.Safe a b := by
  have hmod := Nat.mod_lt b.bits.toNat a.width_pos
  have htrigger : ShiftOperation.rotr.trigger a.toSimValue b.toSimValue = _ := rotr_eq
  simp only [ShiftOperation.Correct, ShiftOperation.Safe, htrigger]
  by_cases hfull : a.width = 32 ∧ b.bits.toNat % 32 = 0
  · rw [if_pos hfull]
    constructor
    · rintro ⟨word, hword, -⟩
      cases hword
    · intro h
      exact absurd hfull h
  · rw [if_neg hfull]
    exact ⟨fun _ => hfull, fun _ => ⟨_, rfl, setWidth_rotr hmod, nofun⟩⟩

theorem rotl_correct_iff : ShiftOperation.rotl.Correct a b ↔ ShiftOperation.rotl.Safe a b := by
  have hmod := Nat.mod_lt b.bits.toNat a.width_pos
  have htrigger : ShiftOperation.rotl.trigger a.toSimValue b.toSimValue = _ := rotl_eq
  simp only [ShiftOperation.Correct, ShiftOperation.Safe, htrigger]
  by_cases hfull : a.width = 32 ∧ b.bits.toNat % 32 = 0
  · rw [if_pos hfull]
    constructor
    · rintro ⟨word, hword, -⟩
      cases hword
    · intro h
      exact absurd hfull h
  · rw [if_neg hfull]
    have hback (word : Word) (h : word.setWidth a.width = a.bits.rotateLeft (b.bits.toNat % a.width)) :
        ∃ back, OpSet.rotr (a.assign word).toSimValue b.toSimValue = .ok back ∧ (a.assign back).bits = a.bits := by
      have hright := @setWidth_rotr (a.assign word) _ hmod
      have hbits : (a.assign word).bits.rotateRight (b.bits.toNat % a.width) = a.bits := by
        change (word.setWidth a.width).rotateRight _ = _
        rw [h, rotateRight_rotateLeft _ hmod]
      exact ⟨_, rotr_eq.trans (if_neg hfull), hright.trans hbits⟩
    have hleft := @setWidth_rotl a _ hmod
    exact ⟨fun _ => hfull, fun _ => ⟨_, rfl, hleft, fun _ => hback _ hleft⟩⟩

end rotations

/-! ## Leading bits -/

section leading
variable {a b : WordOperand}

/-- The loop finds the first turn at which the top bit is the searched one. -/
theorem leftmostLoop_eq (bit : Word) : ∀ (turns foundBits : Nat) (word : Word),
    leftmostLoop bit turns foundBits word =
      foundBits + (List.range turns).findIdx fun (i : Nat) => decide ((word <<< i) >>> 31 = bit) := by
  intro turns
  induction turns with
  | zero => exact fun _ _ => rfl
  | succ turns ih =>
    intro foundBits word
    rw [leftmostLoop, List.range_succ_eq_map, List.findIdx_cons, BitVec.shiftLeft_zero]
    by_cases hbit : word >>> 31 = bit
    · simp [hbit]
    · rw [if_neg hbit, ih, List.findIdx_map]
      have hshift (i : Nat) : word <<< 1 <<< i = word <<< (i + 1) := by
        rw [← BitVec.shiftLeft_add, Nat.add_comm]
      simp [hbit, hshift, Function.comp_def, Nat.add_assoc, Nat.add_comm 1]

/-- The top bit after so many turns, 0 once all bits are shifted out. -/
theorem topBit_eq (word : Word) (i : Nat) : ((word <<< i) >>> 31).toNat = (word.getMsbD i).toNat := by
  have hmsb : ((word <<< i) >>> 31).toNat = (word <<< i).msb.toNat := by
    rw [BitVec.toNat_ushiftRight, Nat.shiftRight_eq_div_pow, BitVec.msb_eq_decide]
    have hlt := (word <<< i).isLt
    by_cases htop : 2 ^ 31 ≤ (word <<< i).toNat
    · simp only [htop, decide_true, Bool.toNat_true]
      omega
    · simp only [htop, decide_false, Bool.toNat_false]
      omega
  rw [hmsb, BitVec.msb_shiftLeft]

/-- The second operand as the loop compares it, extended with its sign. -/
theorem toNat_int : (int b.toSimValue).toNat =
    if 2 * b.bits.toNat < 2 ^ b.width then b.bits.toNat else 2 ^ 32 - 2 ^ b.width + b.bits.toNat := by
  have hmin : min b.width 32 = b.width := Nat.min_eq_left b.width_le
  have hlt := b.bits.isLt
  have hpow : 2 ^ b.width ≤ 2 ^ 32 := Nat.pow_le_pow_right (by decide) b.width_le
  have hcast : ((2 ^ b.width : Nat) : Int) = 2 ^ b.width := by norm_cast
  rw [int, SimValue.intValue, hmin, toInt_fastSignExtendTo b.width_le, BitVec.toNat_ofInt,
    BitVec.toInt_eq_toNat_cond]
  change (((if 2 * b.bits.toNat < 2 ^ b.width then (b.bits.toNat : Int) else _) % _ : Int)).toNat = _
  by_cases hsign : 2 * b.bits.toNat < 2 ^ b.width
  · rw [if_pos hsign, if_pos hsign]
    omega
  · rw [if_neg hsign, if_neg hsign]
    change (((b.bits.toNat : Int) - ((2 ^ b.width : Nat) : Int)) % ((2 ^ 32 : Nat) : Int)).toNat = _
    omega

theorem findIdx_range_succ {p : Nat → Bool} (n : Nat) :
    (List.range (n + 1)).findIdx p =
      if (List.range n).findIdx p < n then (List.range n).findIdx p else if p n then n else n + 1 := by
  rw [List.range_succ, List.findIdx_append, List.length_range]
  split
  · rfl
  · by_cases hp : p n = true
    · simp [List.findIdx_cons, hp]
    · simp [List.findIdx_cons, hp, Nat.add_comm]

theorem getMsbD_zero (i : Nat) : (0 : Word).getMsbD i = false := BitVec.getMsbD_zero

theorem exists_getMsbD {word : Word} (h : word ≠ 0) : ∃ i < 32, word.getMsbD i = true := by
  by_contra hnone
  push Not at hnone
  apply h
  apply BitVec.eq_of_getMsbD_eq
  intro i hi
  rw [getMsbD_zero]
  simpa using hnone i hi

/-- The turn after the last bit looks at a 0 that has been shifted in. -/
theorem leftmostLoop_word {word : Word} {bit : Nat} (hbit : bit ≤ 1) :
    leftmostLoop (BitVec.ofNat 32 bit) 33 0 word = if bit = 1 ∧ word = 0 then 33 else leadingBits word bit := by
  have htop : (fun (i : Nat) => decide ((word <<< i) >>> 31 = BitVec.ofNat 32 bit)) =
      fun i => (word.getMsbD i).toNat == bit := by
    funext i
    rw [← topBit_eq, Bool.eq_iff_iff, decide_eq_true_eq, beq_iff_eq, BitVec.toNat_eq, BitVec.toNat_ofNat]
    omega
  have hafter : word.getMsbD 32 = false := by simp [BitVec.getMsbD]
  rw [leftmostLoop_eq, htop, Nat.zero_add, findIdx_range_succ, leadingBits, hafter]
  rcases Nat.le_one_iff_eq_zero_or_eq_one.mp hbit with rfl | rfl
  · -- a searched 0 is found in the last turn if not before
    have hle : (List.range 32).findIdx (fun i => (word.getMsbD i).toNat == 0) ≤ (List.range 32).length :=
      List.findIdx_le_length
    rw [List.length_range] at hle
    rw [if_neg (fun h : 0 = 1 ∧ word = 0 => absurd h.1 (by decide))]
    split
    · rfl
    · rw [if_pos (by rfl)]
      omega
  · by_cases hzero : word = 0
    · have hnone : (List.range 32).findIdx (fun i => (word.getMsbD i).toNat == 1) = (List.range 32).length := by
        apply List.findIdx_eq_length.mpr
        intro i _
        rw [hzero, getMsbD_zero]
        rfl
      rw [List.length_range] at hnone
      rw [hnone, if_neg (Nat.lt_irrefl 32), if_pos (And.intro rfl hzero)]
      rfl
    · obtain ⟨i, hi, hset⟩ := exists_getMsbD hzero
      have hfound := List.findIdx_lt_length_of_exists (p := fun i => (word.getMsbD i).toNat == 1)
        ⟨i, List.mem_range.mpr hi, by simp [hset]⟩
      rw [List.length_range] at hfound
      rw [if_pos hfound, if_neg fun h => hzero h.2]

/-- The second operand is refused, or it is the searched bit. -/
theorem toNat_int_le_one_iff : (int b.toSimValue).toNat ≤ 1 ↔
    b.bits.toNat = 0 ∨ b.bits.toNat = 1 ∧ 1 < b.width := by
  have hlt := b.bits.isLt
  have hhalf : 2 ^ b.width = 2 * 2 ^ (b.width - 1) := by
    rw [← Nat.pow_succ', Nat.succ_eq_add_one, Nat.sub_add_cancel b.width_pos]
  have hpow : 2 ^ b.width ≤ 2 ^ 32 := Nat.pow_le_pow_right (by decide) b.width_le
  have hpos := Nat.two_pow_pos (b.width - 1)
  rw [toNat_int]
  by_cases hwide : 1 < b.width
  · have hquarter : 2 ≤ 2 ^ (b.width - 1) := Nat.le_pow (by omega)
    split <;> omega
  · have hone : b.width - 1 = 0 := by omega
    rw [hone] at hhalf
    split <;> omega

theorem toNat_int_of_le_one (h : (int b.toSimValue).toNat ≤ 1) : (int b.toSimValue).toNat = b.bits.toNat := by
  have hlt := b.bits.isLt
  have hpow : 2 ^ b.width ≤ 2 ^ 32 := Nat.pow_le_pow_right (by decide) b.width_le
  rcases toNat_int_le_one_iff.mp h with hzero | ⟨hone, -⟩
  · rw [toNat_int] at h ⊢
    split at h <;> split <;> omega
  · rw [toNat_int] at h ⊢
    split at h <;> split <;> omega

theorem leadingBits_lt (word : Word) (bit : Nat) : leadingBits word bit ≤ 32 := by
  have hle : leadingBits word bit ≤ (List.range 32).length := List.findIdx_le_length
  rwa [List.length_range] at hle

theorem lmbd_correct_iff : ShiftOperation.lmbd.Correct a b ↔ ShiftOperation.lmbd.Safe a b := by
  have hzero : a.bits = 0 ↔ uint a.toSimValue = 0 := by
    rw [BitVec.toNat_eq, BitVec.toNat_eq, toNat_uint]
    simp
  have htrigger : ShiftOperation.lmbd.trigger a.toSimValue b.toSimValue = lmbd a.toSimValue b.toSimValue := rfl
  simp only [ShiftOperation.Correct, ShiftOperation.Safe, htrigger, lmbd]
  by_cases hbit : (int b.toSimValue).toNat ≤ 1
  swap
  · rw [if_pos (by omega)]
    constructor
    · rintro ⟨word, hword, -⟩
      cases hword
    · intro h
      exact absurd (toNat_int_le_one_iff.mpr (h.imp_right fun h => ⟨h.1, h.2.1⟩)) hbit
  have hsame := toNat_int_of_le_one hbit
  have hread : int b.toSimValue = BitVec.ofNat 32 b.bits.toNat := by
    apply BitVec.eq_of_toNat_eq
    rw [hsame, BitVec.toNat_ofNat, Nat.mod_eq_of_lt (bits_lt b)]
  have hcases := toNat_int_le_one_iff.mp hbit
  rw [if_neg (by omega), hread, leftmostLoop_word (by omega)]
  have hleading := leadingBits_lt (uint a.toSimValue) b.bits.toNat
  have hreturns (found : Nat) (hfound : found ≤ 33) :
      ShiftOperation.lmbd.Returns a b (BitVec.ofNat 32 found) ↔
        found = leadingBits (uint a.toSimValue) b.bits.toNat := by
    change (BitVec.ofNat 32 found).toNat = leadingBits (a.bits.setWidth 32) b.bits.toNat ↔ _
    rw [← uint_eq, BitVec.toNat_ofNat, Nat.mod_eq_of_lt (by omega)]
  by_cases hpast : b.bits.toNat = 1 ∧ uint a.toSimValue = 0
  · rw [if_pos hpast]
    constructor
    · rintro ⟨word, hword, h, -⟩
      cases hword
      have := (hreturns 33 (Nat.le_refl _)).mp h
      omega
    · rintro (h | ⟨-, -, h⟩)
      · omega
      · exact absurd (hzero.mpr hpast.2) h
  · rw [if_neg hpast]
    refine ⟨fun _ => ?_, fun _ => ⟨_, rfl, (hreturns _ (by omega)).mpr rfl, nofun⟩⟩
    exact hcases.imp_right fun h => ⟨h.1, h.2, fun h0 => hpast ⟨h.1, hzero.mp h0⟩⟩

end leading

/-- The definitions are right for exactly these operands. -/
theorem shiftOperation_correct_iff (op : ShiftOperation) (a b : WordOperand) : op.Correct a b ↔ op.Safe a b := by
  cases op with
  | shru => exact shru_correct_iff
  | shr => exact shr_correct_iff
  | rotl => exact rotl_correct_iff
  | rotr => exact rotr_correct_iff
  | lmbd => exact lmbd_correct_iff

/-- A whole word is shifted by its width. -/
theorem not_correct_shiftByWidth : ¬ShiftOperation.shru.Correct ⟨⟨32, 1⟩, by decide, by decide⟩
    ⟨⟨32, 32⟩, by decide, by decide⟩ := by
  have hundefined : shru ⟨32, 1⟩ ⟨32, 32⟩ = .error .undefinedShift := rfl
  rintro ⟨word, hword, -⟩
  cases hundefined.symm.trans hword

end Tce.OpSet
