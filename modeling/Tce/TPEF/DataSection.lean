import Mathlib.Tactic.Ring
import Tce.Base.BigEndian
import Tce.TPEF.CodeSection
import Tce.Tools.MathTools

/-!
# Data sections

A data section holds minimum addressable units of 1 to 32 bits, each in as many
bytes as it takes. Values of the width of a `long` are written over several
units, the least significant bits in the last one.

Byte offsets are unbounded here, the counter of shifted bits is an `int`.
-/

namespace Tce.TPEF

open BigEndian MathTools

/-- The width of a unit is that of the section's address space. -/
structure DataSection where
  mau : Nat
  data : List Byte
  mau_pos : 0 < mau
  mau_le : mau ≤ 32

/-- A value that is written, of the width of a `long`. -/
inductive LongValue (longBits : Nat) where
  | unsigned (value : BitVec longBits)
  | signed (value : BitVec longBits)

namespace DataSection

def mauSize (s : DataSection) : Nat := (s.mau + 7) / 8

def MAUsToBytes (s : DataSection) (maus : Nat) : Nat := maus * s.mauSize

/-- An assertion fails when the bytes are not a number of whole units. -/
def bytesToMAUs (s : DataSection) (bytes : Nat) : Option Nat :=
  if bytes % s.mauSize = 0 then some (bytes / s.mauSize) else none

def length (s : DataSection) : Nat := s.data.length

def lengthInMAUs (s : DataSection) : Option Nat := s.bytesToMAUs s.length

def byte (s : DataSection) (offset : Nat) : Option Byte := s.data[offset]?

/-- Aborts for an offset outside of the section. -/
def setByte (s : DataSection) (offset : Nat) (aByte : Byte) : Option DataSection :=
  if offset ≥ s.data.length then none else some { s with data := s.data.set offset aByte }

def addByte (s : DataSection) (aByte : Byte) : DataSection := { s with data := s.data ++ [aByte] }

def MAU (s : DataSection) (index : Nat) : Option Nat :=
  (List.range (s.MAUsToBytes 1)).foldlM (fun retVal i => do
    let aByte ← s.byte (s.MAUsToBytes index + i)
    return retVal <<< 8 ||| aByte.toNat) 0

/-- `none` is the exception that the value does not fit to the address space. -/
def addMAU (s : DataSection) (aMAU : Word) : Option DataSection :=
  if requiredBits aMAU.toNat > s.mau ∧ requiredBitsSigned aMAU.toInt > s.mau then none
  else
    let modulo := s.mau % 8
    let mauBits := s.mau - modulo
    let first := if modulo ≠ 0 then s.addByte ((aMAU >>> mauBits).setWidth 8) else s
    -- shifts by `mauBits - 8` down to 0
    some ((List.range (mauBits / 8)).reverse.foldl (fun s i => s.addByte ((aMAU >>> (8 * i)).setWidth 8)) first)

def mauMask (s : DataSection) : Word := BitVec.allOnes 32 >>> (32 - s.mau)

/-- The sum of two `int`s, which is not defined when it does not fit. -/
def addInt (a b : Nat) : Option Nat := if a + b < 2 ^ 31 then some (a + b) else none

/-- Writes the bytes of a unit from the last one. -/
def writeCurrentMAU (s : DataSection) (byteOffset : Nat) (currentMAU : Word) : Option (DataSection × Word) :=
  (List.range (s.MAUsToBytes 1)).reverse.foldlM (fun (s, currentMAU) j => do
    let s ← s.setByte (byteOffset + j) (currentMAU.setWidth 8)
    return (s, currentMAU >>> 8)) (s, currentMAU)

/-- The loop over the units from the end of the area, where a round takes its unit and the
next shift count from the shift count. -/
def writeUnits (round : Nat → Option (Word × Nat)) (s : DataSection) (index numOfMAUs shiftCount : Nat) :
    Option (DataSection × Nat) :=
  (List.range numOfMAUs).reverse.foldlM (fun (s, shiftCount) i => do
    let (currentMAU, shiftCount) ← round shiftCount
    let (s, _) ← s.writeCurrentMAU (s.MAUsToBytes (index + i)) currentMAU
    return (s, shiftCount)) (s, shiftCount)

variable {longBits : Nat}

def unsignedRound (s : DataSection) (value : BitVec longBits) (shiftCount : Nat) : Option (Word × Nat) := do
  let currentMAU : Word :=
    if shiftCount < longBits then ((value >>> shiftCount) &&& s.mauMask.setWidth longBits).setWidth 32 else 0
  let shiftCount ← addInt shiftCount s.mau
  return (currentMAU, shiftCount)

/-- Unlike that of an unsigned value, counts the shift only when it was made. -/
def signedRound (s : DataSection) (value : BitVec longBits) (shiftCount : Nat) : Option (Word × Nat) :=
  if shiftCount < longBits then do
    let currentMAU : Word := (value.sshiftRight shiftCount &&& s.mauMask.setWidth longBits).setWidth 32
    let shiftCount ← addInt shiftCount s.mau
    return (currentMAU, shiftCount)
  else some (BitVec.allOnes 32, shiftCount)

def writeValue (s : DataSection) (index numOfMAUs : Nat) : LongValue longBits → Option DataSection
  | .unsigned value => (writeUnits (s.unsignedRound value) s index numOfMAUs 0).map (·.1)
  | .signed value => (writeUnits (s.signedRound value) s index numOfMAUs 0).map (·.1)

/-! ## Units in bytes -/

theorem mau_le_bits (s : DataSection) : s.mau ≤ 8 * s.mauSize := by
  rw [mauSize]
  omega

theorem mauSize_pos (s : DataSection) : 0 < s.mauSize := by
  have := s.mau_pos
  rw [mauSize]
  omega

theorem mauSize_le (s : DataSection) : s.mauSize ≤ 4 := by
  have := s.mau_le
  rw [mauSize]
  omega

@[simp] theorem MAUsToBytes_one (s : DataSection) : s.MAUsToBytes 1 = s.mauSize := Nat.one_mul _

theorem two_pow_le (s : DataSection) : 2 ^ s.mau ≤ 256 ^ s.mauSize := by
  have hbyte : 256 ^ s.mauSize = 2 ^ (8 * s.mauSize) := by rw [Nat.pow_mul]
  rw [hbyte]
  exact Nat.pow_le_pow_right (by decide) s.mau_le_bits

theorem foldlM_byte (s : DataSection) (offset : Nat) {size : Nat} (h : offset + size ≤ s.data.length) :
    (List.range size).foldlM (fun retVal i => do
      let aByte ← s.byte (offset + i)
      return retVal <<< 8 ||| aByte.toNat) 0 = some (value (window s.data offset size)) := by
  induction size with
  | zero => simp [window, value]
  | succ size ih =>
    have hlt : offset + size < s.data.length := by omega
    have hwindow : window s.data offset (size + 1) = window s.data offset size ++ [s.data[offset + size]] := by
      rw [window, List.take_add_one, List.getElem?_drop, List.getElem?_eq_getElem hlt]
      rfl
    rw [List.range_succ, List.foldlM_append, ih (by omega), hwindow, value_append_singleton]
    simp only [List.foldlM_cons, List.foldlM_nil, byte, List.getElem?_eq_getElem hlt, Option.bind_eq_bind,
      Option.bind_some, Option.pure_def, Option.some.injEq]
    rw [← Nat.shiftLeft_add_eq_or_of_lt s.data[offset + size].isLt, Nat.shiftLeft_eq]

theorem MAU_eq (s : DataSection) {index : Nat} (h : (index + 1) * s.mauSize ≤ s.data.length) :
    s.MAU index = some (value (window s.data (index * s.mauSize) s.mauSize)) := by
  rw [Nat.add_mul, Nat.one_mul] at h
  rw [MAU, MAUsToBytes_one]
  exact s.foldlM_byte _ h

/-- A unit is read from its own bytes. -/
theorem MAU_congr {s t : DataSection} (hmau : t.mau = s.mau) {index : Nat}
    (h : ∀ i < s.mauSize, t.data[index * s.mauSize + i]? = s.data[index * s.mauSize + i]?) :
    t.MAU index = s.MAU index := by
  have hsize : t.mauSize = s.mauSize := by rw [mauSize, mauSize, hmau]
  rw [MAU, MAU, MAUsToBytes_one, MAUsToBytes_one, MAUsToBytes, MAUsToBytes, hsize]
  have hall : ∀ size ≤ s.mauSize, (List.range size).foldlM (fun retVal i => do
      let aByte ← t.byte (index * s.mauSize + i)
      return retVal <<< 8 ||| aByte.toNat) 0 = (List.range size).foldlM (fun retVal i => do
      let aByte ← s.byte (index * s.mauSize + i)
      return retVal <<< 8 ||| aByte.toNat) 0 := by
    intro size hsize
    induction size with
    | zero => rfl
    | succ size ih =>
      rw [List.range_succ, List.foldlM_append, List.foldlM_append, ih (by omega)]
      simp only [List.foldlM_cons, List.foldlM_nil, byte, h size hsize]
  exact hall _ (Nat.le_refl _)

/-- The section with other bytes in place of those of a unit. -/
def withUnit (s : DataSection) (index : Nat) (unit : Word) : DataSection :=
  { s with data := overwrite s.data (index * s.mauSize) (bytes s.mauSize unit.toNat) }

section

variable {s : DataSection} {index : Nat} {unit : Word}

theorem foldlM_setByte (s : DataSection) (offset : Nat) {size : Nat} (unit : Word)
    (h : offset + size ≤ s.data.length) :
    (List.range size).reverse.foldlM (fun (s, currentMAU) j => do
      let s ← s.setByte (offset + j) (BitVec.setWidth 8 currentMAU)
      return (s, currentMAU >>> 8)) (s, unit) =
        some ({ s with data := overwrite s.data offset (bytes size unit.toNat) }, unit >>> (8 * size)) := by
  induction size generalizing s unit with
  | zero => simp [overwrite, bytes]
  | succ size ih =>
    have hset : s.setByte (offset + size) (BitVec.setWidth 8 unit) =
        some { s with data := s.data.set (offset + size) (BitVec.setWidth 8 unit) } := if_neg (by omega)
    have hoverwrite := @overwrite_set _ s.data (bytes size (unit.toNat >>> 8)) offset
      (a := BitVec.ofNat 8 unit.toNat) (by rw [length_bytes]; omega)
    rw [List.range_succ, List.reverse_append, List.reverse_singleton, List.singleton_append, List.foldlM_cons]
    simp only [hset]
    have hrest := ih { s with data := s.data.set (offset + size) (BitVec.setWidth 8 unit) } (unit >>> 8) (by
      rw [List.length_set]
      omega)
    have hshift : unit >>> (8 * (size + 1)) = unit >>> 8 >>> (8 * size) := by
      rw [Nat.mul_add, Nat.mul_one, Nat.add_comm, BitVec.shiftRight_add]
    have hbyte : BitVec.setWidth 8 unit = BitVec.ofNat 8 unit.toNat := rfl
    rw [length_bytes] at hoverwrite
    rw [hshift, bytes, ← hoverwrite, ← hbyte]
    exact hrest

theorem writeCurrentMAU_eq (h : (index + 1) * s.mauSize ≤ s.data.length) :
    ∃ rest, s.writeCurrentMAU (s.MAUsToBytes index) unit = some (s.withUnit index unit, rest) := by
  rw [Nat.add_mul, Nat.one_mul] at h
  rw [writeCurrentMAU, MAUsToBytes_one]
  exact ⟨_, foldlM_setByte s _ unit h⟩

theorem MAU_withUnit (h : (index + 1) * s.mauSize ≤ s.data.length) :
    (s.withUnit index unit).MAU index = some (unit.toNat % 256 ^ s.mauSize) := by
  have h' : index * s.mauSize + s.mauSize ≤ s.data.length := by rwa [Nat.add_mul, Nat.one_mul] at h
  have hbytes : (bytes s.mauSize unit.toNat).length = s.mauSize := length_bytes _ _
  have hlength : (s.withUnit index unit).data.length = s.data.length := length_overwrite (by rwa [hbytes])
  rw [MAU_eq _ (hlength.symm ▸ h), ← value_bytes]
  have hwindow := @window_overwrite _ s.data (bytes s.mauSize unit.toNat) (index * s.mauSize)
    (by rwa [hbytes])
  rw [hbytes] at hwindow
  exact congrArg (fun l => some (value l)) hwindow

theorem MAU_withUnit_of_ne (h : (index + 1) * s.mauSize ≤ s.data.length) {other : Nat} (hne : other ≠ index) :
    (s.withUnit index unit).MAU other = s.MAU other := by
  have h' : index * s.mauSize + s.mauSize ≤ s.data.length := by rwa [Nat.add_mul, Nat.one_mul] at h
  have hmau : (s.withUnit index unit).mau = s.mau := rfl
  apply MAU_congr hmau
  intro i hi
  have hdisjoint : other * s.mauSize + i < index * s.mauSize ∨
      index * s.mauSize + s.mauSize ≤ other * s.mauSize + i := by
    rcases Nat.lt_or_gt_of_ne hne with hlt | hgt
    · have := Nat.mul_le_mul_right s.mauSize hlt
      rw [Nat.succ_mul] at this
      omega
    · have := Nat.mul_le_mul_right s.mauSize hgt
      rw [Nat.succ_mul] at this
      omega
  rw [withUnit, getElem?_overwrite (by rwa [length_bytes]), length_bytes]
  rcases hdisjoint with hlt | hge
  · rw [if_pos hlt]
  · rw [if_neg (by omega), if_neg (by omega)]

end

/-! ## Values over units -/

/-- The units from `index` on have the values, the other units are as they were. -/
structure Holds (s t : DataSection) (index n : Nat) (unit : Nat → Nat) : Prop where
  mau : t.mau = s.mau
  length : t.data.length = s.data.length
  units : ∀ i < n, t.MAU (index + i) = some (unit i)
  others : ∀ j, j < index ∨ index + n ≤ j → t.MAU j = s.MAU j

section

variable {s : DataSection} {index n : Nat} {round : Nat → Option (Word × Nat)}

theorem writeUnits_succ (shiftCount : Nat) :
    writeUnits round s index (n + 1) shiftCount = (round shiftCount).bind fun r =>
      (s.writeCurrentMAU (s.MAUsToBytes (index + n)) r.1).bind fun t => writeUnits round t.1 index n r.2 := by
  rw [writeUnits, List.range_succ, List.reverse_append, List.reverse_singleton, List.singleton_append,
    List.foldlM_cons]
  cases hround : round shiftCount with
  | none => simp [hround]
  | some r => cases hwrite : s.writeCurrentMAU (s.MAUsToBytes (index + n)) r.1 with
    | none => simp [hround, hwrite]
    | some t => simp [hround, hwrite, writeUnits]

/-- Each round writes its unit, the last unit first. -/
theorem writeUnits_eq {shift : Nat → Nat} {content : Nat → Word}
    (hround : ∀ k < n, round (shift k) = some (content k, shift (k + 1)))
    (hroom : (index + n) * s.mauSize ≤ s.data.length) :
    ∃ t, writeUnits round s index n (shift 0) = some (t, shift n) ∧
      Holds s t index n fun i => (content (n - 1 - i)).toNat % 256 ^ s.mauSize := by
  induction n generalizing s shift content with
  | zero => exact ⟨s, rfl, rfl, rfl, fun i hi => absurd hi (Nat.not_lt_zero i), fun _ _ => rfl⟩
  | succ n ih =>
    have hunit : (index + n + 1) * s.mauSize ≤ s.data.length := hroom
    have hle := Nat.mul_le_mul_right s.mauSize (Nat.le_succ (index + n))
    obtain ⟨rest, hwrite⟩ := @writeCurrentMAU_eq _ _ (content 0) hunit
    have hlength : (s.withUnit (index + n) (content 0)).data.length = s.data.length := by
      apply length_overwrite
      rw [length_bytes]
      rwa [Nat.succ_mul] at hunit
    obtain ⟨t, hrest, ht⟩ := @ih (s.withUnit (index + n) (content 0)) (fun k => shift (k + 1))
      (fun k => content (k + 1)) (fun k hk => hround (k + 1) (by omega)) (by
        rw [hlength]
        exact hle.trans hunit)
    refine ⟨t, ?_, ht.mau, ht.length.trans hlength, ?_, ?_⟩
    · rw [writeUnits_succ, hround 0 (Nat.succ_pos n), Option.bind_some, hwrite, Option.bind_some]
      exact hrest
    · intro i hi
      rcases Nat.lt_succ_iff_lt_or_eq.1 hi with hlt | rfl
      · rw [ht.units i hlt]
        have hindex : n - 1 - i + 1 = n + 1 - 1 - i := by omega
        rw [hindex]
        rfl
      · rw [ht.others _ (.inr (Nat.le_refl _)), MAU_withUnit hunit]
        simp
    · intro j hj
      rw [ht.others j (by omega), MAU_withUnit_of_ne hunit (by omega)]

/-- A round of an unsigned value counts its bits, as far as the counter goes. -/
theorem unsignedRound_eq (value : BitVec longBits) (shiftCount : Nat) (h : shiftCount + s.mau < 2 ^ 31) :
    s.unsignedRound value shiftCount =
      some (if shiftCount < longBits then ((value >>> shiftCount) &&& s.mauMask.setWidth longBits).setWidth 32 else 0,
        shiftCount + s.mau) := by
  rw [unsignedRound, addInt, if_pos h]
  rfl

/-- The shift count of an unsigned value when the loop ends. -/
theorem le_of_writeUnits_unsigned {value : BitVec longBits} {shiftCount : Nat} {t : DataSection × Nat}
    {start : DataSection} (h : writeUnits (s.unsignedRound value) start index n shiftCount = some t)
    (hshift : shiftCount < 2 ^ 31) : shiftCount + n * s.mau < 2 ^ 31 := by
  induction n generalizing start shiftCount with
  | zero =>
    rw [Nat.zero_mul]
    exact hshift
  | succ n ih =>
    rw [writeUnits_succ] at h
    obtain ⟨⟨unit, count⟩, hround, h⟩ := Option.bind_eq_some_iff.1 h
    obtain ⟨next, _, hrest⟩ := Option.bind_eq_some_iff.1 h
    obtain ⟨sum, hsum, hround⟩ := Option.bind_eq_some_iff.1 hround
    cases hround
    rw [addInt] at hsum
    split at hsum
    next hlt =>
      cases hsum
      have hend := ih hrest hlt
      rw [Nat.succ_mul]
      omega
    next => cases hsum

end

/-! ## Digits -/

end DataSection

namespace LongValue

variable {longBits : Nat}

/-- The value, zero-extended or sign-extended to any number of bits. -/
def extended : LongValue longBits → Int
  | unsigned value => value.toNat
  | signed value => value.toInt

end LongValue

namespace DataSection

variable {longBits : Nat}

/-- A base `2 ^ w` digit of the value modulo `2 ^ (w * n)`, the least significant one first. -/
def digit (w n : Nat) (v : Int) (k : Nat) : Nat := (v % 2 ^ (w * n) / 2 ^ (w * k) % 2 ^ w).toNat

theorem digit_eq {w n k : Nat} (v : Int) (h : k < n) : (digit w n v k : Int) = v / 2 ^ (w * k) % 2 ^ w := by
  obtain ⟨m, rfl⟩ := Nat.exists_eq_add_of_lt h
  have hk : (2 : Int) ^ (w * k) ≠ 0 := (Int.pow_pos (by decide)).ne'
  have hsplit : (2 : Int) ^ (w * (k + m + 1)) = 2 ^ (w * k) * (2 ^ w * 2 ^ (w * m)) := by
    rw [← pow_add, ← pow_add]
    congr 1
    ring
  have hdiv : v / 2 ^ (w * k) = v % 2 ^ (w * (k + m + 1)) / 2 ^ (w * k) +
      2 ^ w * (2 ^ (w * m) * (v / 2 ^ (w * (k + m + 1)))) := by
    rw [← Int.add_mul_ediv_left _ _ hk]
    congr 1
    calc v = v % 2 ^ (w * (k + m + 1)) + 2 ^ (w * (k + m + 1)) * (v / 2 ^ (w * (k + m + 1))) :=
          (Int.emod_add_mul_ediv ..).symm
      _ = _ := by
          rw [hsplit]
          ring
  rw [digit, Int.toNat_of_nonneg (Int.emod_nonneg _ (Int.pow_pos (by decide)).ne'), hdiv, Int.add_mul_emod_self_left]

section

variable {s : DataSection}

theorem toNat_masked (hlong : 32 ≤ longBits) (x : BitVec longBits) :
    ((x &&& s.mauMask.setWidth longBits).setWidth 32).toNat = x.toNat % 2 ^ s.mau := by
  have hmask : (s.mauMask.setWidth longBits).toNat = 2 ^ s.mau - 1 := by
    rw [BitVec.toNat_setWidth_of_le hlong, mauMask, toNat_allOnes_ushiftRight s.mau_le]
  have hlt : x.toNat % 2 ^ s.mau < 2 ^ 32 :=
    (Nat.mod_lt _ (Nat.two_pow_pos _)).trans_le (Nat.pow_le_pow_right (by decide) s.mau_le)
  rw [BitVec.toNat_setWidth, BitVec.toNat_and, hmask, Nat.and_two_pow_sub_one_eq_mod, Nat.mod_eq_of_lt hlt]

theorem masked_unsigned (hlong : 32 ≤ longBits) (value : BitVec longBits) (shiftCount : Nat) :
    ((((value >>> shiftCount) &&& s.mauMask.setWidth longBits).setWidth 32).toNat : Int) =
      (value.toNat : Int) / 2 ^ shiftCount % 2 ^ s.mau := by
  rw [toNat_masked hlong, BitVec.toNat_ushiftRight, Nat.shiftRight_eq_div_pow]
  push_cast
  rfl

theorem masked_signed (hlong : 32 ≤ longBits) (value : BitVec longBits) (shiftCount : Nat) :
    (((value.sshiftRight shiftCount &&& s.mauMask.setWidth longBits).setWidth 32).toNat : Int) =
      value.toInt / 2 ^ shiftCount % 2 ^ s.mau := by
  have hdvd : (2 : Int) ^ s.mau ∣ 2 ^ longBits := pow_dvd_pow 2 (s.mau_le.trans hlong)
  have hnonneg : 0 ≤ value.toInt / 2 ^ shiftCount % 2 ^ longBits := 
    Int.emod_nonneg _ (Int.pow_pos (by decide)).ne'
  rw [toNat_masked hlong, BitVec.sshiftRight_eq, Int.shiftRight_eq_div_pow, BitVec.toNat_ofInt]
  push_cast
  rw [Int.toNat_of_nonneg hnonneg, Int.emod_emod_of_dvd _ hdvd]

theorem toNat_of_digit {unit : Word} {n k : Nat} {v : Int} (hk : k < n)
    (hunit : (unit.toNat : Int) = v / 2 ^ (s.mau * k) % 2 ^ s.mau) :
    unit.toNat % 256 ^ s.mauSize = digit s.mau n v k := by
  have hdigit : unit.toNat = digit s.mau n v k := by
    have := digit_eq v hk (w := s.mau)
    omega
  have hlt : unit.toNat < 2 ^ s.mau := by
    have := Int.emod_lt_of_pos (v / 2 ^ (s.mau * k)) (Int.pow_pos (by decide) : (0 : Int) < 2 ^ s.mau)
    rw [← hunit] at this
    exact_mod_cast this
  rw [Nat.mod_eq_of_lt (hlt.trans_le s.two_pow_le), hdigit]

/-- The units from `index` on are the digits of the value, the most significant one first. -/
def Written (s : DataSection) (index n : Nat) (value : LongValue longBits) : Prop :=
  ∃ t, s.writeValue index n value = some t ∧
    Holds s t index n fun i => digit s.mau n value.extended (n - 1 - i)

/-- Unsigned values are written right while their bits can be counted. -/
theorem written_unsigned_iff (hlong : 32 ≤ longBits) {index n : Nat} (value : BitVec longBits)
    (hroom : (index + n) * s.mauSize ≤ s.data.length) :
    s.Written index n (.unsigned value) ↔ n * s.mau < 2 ^ 31 := by
  constructor
  · rintro ⟨t, hwrite, _⟩
    obtain ⟨t', hloop, _⟩ := Option.map_eq_some_iff.1 hwrite
    have hend := le_of_writeUnits_unsigned hloop (by decide)
    rwa [Nat.zero_add] at hend
  · intro hbits
    have hround : ∀ k < n, s.unsignedRound value (s.mau * k) =
        some (if s.mau * k < longBits then ((value >>> (s.mau * k)) &&& s.mauMask.setWidth longBits).setWidth 32
          else 0, s.mau * (k + 1)) := by
      intro k hk
      have hle := Nat.mul_le_mul_left s.mau hk
      rw [Nat.mul_succ] at hle ⊢
      exact unsignedRound_eq value _ (by rw [Nat.mul_comm] at hbits; omega)
    obtain ⟨t, hloop, hholds⟩ := @writeUnits_eq _ _ _ _ (fun k => s.mau * k) _ hround hroom
    refine ⟨t, by rw [writeValue]; exact Option.map_eq_some_iff.2 ⟨_, hloop, rfl⟩, hholds.mau, hholds.length, ?_,
      hholds.others⟩
    intro i hi
    rw [hholds.units i hi]
    congr 1
    apply toNat_of_digit (by omega)
    split
    next => exact masked_unsigned hlong value _
    next hge =>
      have hlt : value.toNat < 2 ^ (s.mau * (n - 1 - i)) :=
        value.isLt.trans_le (Nat.pow_le_pow_right (by decide) (Nat.le_of_not_lt hge))
      have hzero : (value.toNat : Int) / 2 ^ (s.mau * (n - 1 - i)) = 0 := by
        apply Int.ediv_eq_zero_of_lt (Int.natCast_nonneg _)
        exact_mod_cast hlt
      simp [LongValue.extended, hzero]

/-- The shift count of a signed value before a round. -/
def signedShift (mau longBits : Nat) : Nat → Nat
  | 0 => 0
  | k + 1 => if signedShift mau longBits k < longBits then signedShift mau longBits k + mau else signedShift mau longBits k

theorem signedShift_eq {mau k : Nat} (h : mau * k < longBits) : signedShift mau longBits k = mau * k := by
  induction k with
  | zero => rfl
  | succ k ih =>
    have hlt : mau * k < longBits := (Nat.mul_le_mul_left mau (Nat.le_succ k)).trans_lt h
    rw [signedShift, ih hlt, if_pos hlt, Nat.mul_succ]

theorem le_signedShift {mau k : Nat} (h : longBits ≤ mau * k) : longBits ≤ signedShift mau longBits k := by
  induction k with
  | zero => exact h
  | succ k ih =>
    rw [signedShift]
    split
    next hlt =>
      have hbefore : mau * k < longBits := by
        by_contra hge
        exact absurd (ih (Nat.le_of_not_lt hge)) (Nat.not_le_of_lt hlt)
      rw [signedShift_eq hbefore]
      exact h
    next hge => exact Nat.le_of_not_lt hge

/-- What a round of a signed value writes. -/
def signedContent (s : DataSection) (value : BitVec longBits) (k : Nat) : Word :=
  if s.mau * k < longBits then (value.sshiftRight (s.mau * k) &&& s.mauMask.setWidth longBits).setWidth 32
  else BitVec.allOnes 32

theorem signedRound_eq (hlong : longBits ≤ 64) (value : BitVec longBits) (k : Nat) :
    s.signedRound value (signedShift s.mau longBits k) =
      some (s.signedContent value k, signedShift s.mau longBits (k + 1)) := by
  rw [signedRound, signedContent, signedShift]
  by_cases hlt : s.mau * k < longBits
  · have hsum : addInt (s.mau * k) s.mau = some (s.mau * k + s.mau) := by
      have := s.mau_le
      exact if_pos (by omega)
    rw [signedShift_eq hlt, if_pos hlt, if_pos hlt, if_pos hlt, hsum]
    rfl
  · have hge := Nat.not_lt_of_le (le_signedShift (Nat.le_of_not_lt hlt))
    rw [if_neg hge, if_neg hlt, if_neg hge]

theorem allOnes_mod : (BitVec.allOnes 32).toNat % 256 ^ s.mauSize = 256 ^ s.mauSize - 1 := by
  have hbyte : 256 ^ s.mauSize = 2 ^ (8 * s.mauSize) := by rw [Nat.pow_mul]
  have hsplit : 2 ^ 32 = 256 ^ s.mauSize * 2 ^ (32 - 8 * s.mauSize) := by
    have := s.mauSize_le
    rw [hbyte, ← Nat.pow_add]
    congr 1
    omega
  have hpos : 0 < 256 ^ s.mauSize := Nat.pow_pos (by decide)
  obtain ⟨q, hq⟩ := Nat.exists_eq_add_of_le' (Nat.two_pow_pos (32 - 8 * s.mauSize))
  have hrest : (BitVec.allOnes 32).toNat = 256 ^ s.mauSize - 1 + 256 ^ s.mauSize * q := by
    rw [BitVec.toNat_allOnes, hsplit, hq, Nat.mul_succ]
    omega
  rw [hrest, Nat.add_mul_mod_self_left, Nat.mod_eq_of_lt (by omega)]

theorem toInt_ediv_of_le {value : BitVec longBits} {k : Nat} (h : longBits ≤ k) :
    value.toInt / 2 ^ k = if value.toInt < 0 then -1 else 0 := by
  have hpow : (2 : Int) ^ longBits ≤ 2 ^ k := by exact_mod_cast Nat.pow_le_pow_right (by decide) h
  have hlow := BitVec.le_two_mul_toInt (x := value)
  have hhigh := BitVec.two_mul_toInt_lt (x := value)
  split
  next hneg => exact Int.ediv_eq_neg_one_of_neg_of_le hneg (by omega)
  next => exact Int.ediv_eq_zero_of_lt (by omega) (by omega)

/-- Above the bits of the value all bits are written set, also those above the unit in its bytes. -/
theorem signedContent_eq_digit_iff (hlong : 32 ≤ longBits) (value : BitVec longBits) {n k : Nat} (hk : k < n) :
    (s.signedContent value k).toNat % 256 ^ s.mauSize = digit s.mau n value.toInt k ↔
      s.mau * k < longBits ∨ value.toInt < 0 ∧ 8 ∣ s.mau := by
  rw [signedContent]
  by_cases hlt : s.mau * k < longBits
  · rw [if_pos hlt]
    simp only [hlt, true_or, iff_true]
    exact toNat_of_digit hk (masked_signed hlong value _)
  · rw [if_neg hlt]
    simp only [hlt, false_or]
    have hdigit := digit_eq value.toInt hk (w := s.mau)
    rw [toInt_ediv_of_le (Nat.le_of_not_lt hlt)] at hdigit
    rw [allOnes_mod]
    have hbytes : 256 ≤ 256 ^ s.mauSize := Nat.le_self_pow s.mauSize_pos.ne' 256
    by_cases hneg : value.toInt < 0
    · have hones : (-1 : Int) % 2 ^ s.mau = 2 ^ s.mau - 1 := by
        have hpos : (0 : Int) < 2 ^ s.mau := Int.pow_pos (by decide)
        calc (-1 : Int) % 2 ^ s.mau = (2 ^ s.mau - 1 + 2 ^ s.mau * -1) % 2 ^ s.mau := by
              congr 1
              ring
          _ = 2 ^ s.mau - 1 := by rw [Int.add_mul_emod_self_left, Int.emod_eq_of_lt (by omega) (by omega)]
      rw [if_pos hneg, hones] at hdigit
      have hunit : ((2 ^ s.mau : Nat) : Int) = 2 ^ s.mau := by
        push_cast
        rfl
      have hpos := Nat.two_pow_pos s.mau
      have hsame : 256 ^ s.mauSize = 2 ^ s.mau ↔ 8 ∣ s.mau := by
        have hbyte : 256 ^ s.mauSize = 2 ^ (8 * s.mauSize) := by rw [Nat.pow_mul]
        rw [hbyte, Nat.pow_right_inj (Nat.lt_succ_self 1), mauSize]
        omega
      rw [← hsame]
      simp only [hneg, true_and]
      omega
    · rw [if_neg hneg] at hdigit
      simp only [hneg, false_and, iff_false]
      simp at hdigit
      omega

/-- Signed values are written right while their bits go, and negative ones also further when
units fill their bytes. -/
theorem written_signed_iff (hlong : 32 ≤ longBits) (hlong' : longBits ≤ 64) {index n : Nat} (value : BitVec longBits)
    (hroom : (index + n) * s.mauSize ≤ s.data.length) :
    s.Written index n (.signed value) ↔ s.mau * (n - 1) < longBits ∨ value.toInt < 0 ∧ 8 ∣ s.mau := by
  obtain ⟨t, hloop, hholds⟩ := @writeUnits_eq _ _ _ _ (signedShift s.mau longBits) (s.signedContent value)
    (fun k _ => signedRound_eq hlong' value k) hroom
  have hwrite : s.writeValue index n (.signed value) = some t := Option.map_eq_some_iff.2 ⟨_, hloop, rfl⟩
  have hdigits : s.Written index n (.signed value) ↔
      ∀ k < n, (s.signedContent value k).toNat % 256 ^ s.mauSize = digit s.mau n value.toInt k := by
    constructor
    · rintro ⟨t', hwrite', hholds'⟩ k hk
      cases hwrite.symm.trans hwrite'
      have hunit := (hholds.units (n - 1 - k) (by omega)).symm.trans (hholds'.units (n - 1 - k) (by omega))
      have hindex : n - 1 - (n - 1 - k) = k := by omega
      rw [hindex] at hunit
      exact Option.some.inj hunit
    · intro hall
      refine ⟨t, hwrite, hholds.mau, hholds.length, ?_, hholds.others⟩
      intro i hi
      rw [hholds.units i hi, hall _ (by omega)]
      rfl
  rw [hdigits]
  constructor
  · intro hall
    cases n with
    | zero =>
      left
      simp
      omega
    | succ n => exact (signedContent_eq_digit_iff hlong value (Nat.lt_succ_self n)).1 (hall n (Nat.lt_succ_self n))
  · intro hcase k hk
    apply (signedContent_eq_digit_iff hlong value hk).2
    rcases hcase with hlt | hneg
    · exact .inl ((Nat.mul_le_mul_left s.mau (by omega)).trans_lt hlt)
    · exact .inr hneg

/-! ## Added units -/

theorem foldl_addByte (t : DataSection) (l : List Nat) (unit : Word) :
    l.foldl (fun s i => s.addByte ((unit >>> (8 * i)).setWidth 8)) t =
      { t with data := t.data ++ l.map fun i => BitVec.ofNat 8 (unit.toNat >>> (8 * i)) } := by
  induction l generalizing t with
  | nil => simp
  | cons i l ih =>
    have hbyte : (unit >>> (8 * i)).setWidth 8 = BitVec.ofNat 8 (unit.toNat >>> (8 * i)) := by
      rw [← BitVec.toNat_ushiftRight]
      rfl
    rw [List.foldl_cons, ih]
    simp [addByte, hbyte]

/-- A unit that fits is added with all its bytes. -/
theorem addMAU_eq {aMAU : Word} (h : aMAU.toNat < 2 ^ s.mau) :
    s.addMAU aMAU = some { s with data := s.data ++ bytes s.mauSize aMAU.toNat } := by
  have hbits := (requiredBits_le_iff s.mau_pos).2 h
  have hshift : s.mau - s.mau % 8 = 8 * (s.mau / 8) := by omega
  rw [addMAU, if_neg (by omega), ← bytes_eq_map_range]
  simp only [hshift, Nat.mul_div_cancel_left _ (by decide : 0 < 8), foldl_addByte]
  by_cases hmodulo : s.mau % 8 = 0
  · have hsize : s.mauSize = s.mau / 8 := by
      rw [mauSize]
      omega
    rw [if_neg (not_not.2 hmodulo), hsize]
  · have hsize : s.mauSize = s.mau / 8 + 1 := by
      rw [mauSize]
      omega
    have hbyte : (aMAU >>> (8 * (s.mau / 8))).setWidth 8 = BitVec.ofNat 8 (aMAU.toNat >>> (8 * (s.mau / 8))) := by
      rw [← BitVec.toNat_ushiftRight]
      rfl
    rw [if_pos hmodulo, hsize, List.range_succ, List.reverse_append]
    simp [addByte, hbyte]

/-- The last unit of the longer section is the one that was added. -/
def Added (s : DataSection) (aMAU : Word) : Prop :=
  ∃ t m, s.addMAU aMAU = some t ∧ s.lengthInMAUs = some m ∧ t.lengthInMAUs = some (m + 1) ∧
    t.MAU m = some aMAU.toNat ∧ ∀ j, j ≠ m → t.MAU j = s.MAU j

theorem lengthInMAUs_eq_some_iff {m : Nat} : s.lengthInMAUs = some m ↔ s.data.length = m * s.mauSize := by
  have hpos := s.mauSize_pos
  rw [lengthInMAUs, bytesToMAUs, length]
  split
  next hwhole =>
    rw [Option.some.injEq, Nat.div_eq_iff_eq_mul_left hpos (Nat.dvd_of_mod_eq_zero hwhole)]
  next hrest =>
    simp only [reduceCtorEq, false_iff]
    intro heq
    exact hrest (heq ▸ Nat.mul_mod_left m s.mauSize)

theorem added {m : Nat} (hwhole : s.lengthInMAUs = some m) {aMAU : Word} (h : aMAU.toNat < 2 ^ s.mau) :
    s.Added aMAU := by
  have hlength := lengthInMAUs_eq_some_iff.1 hwhole
  let t : DataSection := { s with data := s.data ++ bytes s.mauSize aMAU.toNat }
  have hmau : t.mau = s.mau := rfl
  have hsize : t.mauSize = s.mauSize := rfl
  have htlength : t.data.length = (m + 1) * s.mauSize := by
    rw [List.length_append, length_bytes, hlength, Nat.succ_mul]
  refine ⟨t, m, addMAU_eq h, hwhole, lengthInMAUs_eq_some_iff.2 htlength, ?_, ?_⟩
  · have hwindow : window t.data (m * s.mauSize) s.mauSize = bytes s.mauSize aMAU.toNat := by
      rw [window, ← hlength, List.drop_left, List.take_of_length_le (length_bytes _ _).le]
    rw [t.MAU_eq htlength.ge, hsize, hwindow, value_bytes_of_lt (h.trans_le s.two_pow_le)]
  · intro j hj
    apply MAU_congr hmau
    intro i hi
    rcases Nat.lt_or_gt_of_ne hj with hlt | hgt
    · have hle := Nat.mul_le_mul_right s.mauSize hlt
      rw [Nat.succ_mul] at hle
      rw [List.getElem?_append_left (by omega)]
    · have hle : (m + 1) * s.mauSize ≤ j * s.mauSize := Nat.mul_le_mul_right s.mauSize hgt
      have hmore : s.data.length ≤ (m + 1) * s.mauSize := hlength ▸ Nat.mul_le_mul_right s.mauSize (Nat.le_succ m)
      rw [List.getElem?_eq_none (by omega), List.getElem?_eq_none (by omega)]

end

end DataSection

/-- When `writeValue` writes the digits: an unsigned value has its bits counted in an `int`; the shifts
of a signed value stay below its width, or it is negative and units fill their bytes. -/
def LongValue.Writable (mau n : Nat) {longBits : Nat} : LongValue longBits → Prop
  | .unsigned _ => n * mau < 2 ^ 31
  | .signed value => mau * (n - 1) < longBits ∨ value.toInt < 0 ∧ 8 ∣ mau

namespace DataSection

variable {longBits : Nat} {s : DataSection}

/-- Words are held as units: a value is written as its digits, every unit that fits can be added, and
sections have the bytes of their units. -/
structure HoldsWords (s : DataSection) (m index n : Nat) (value : LongValue longBits) : Prop where
  written : s.Written index n value
  added : ∀ aMAU : Word, aMAU.toNat < 2 ^ s.mau → s.Added aMAU
  bytes : s.length = s.MAUsToBytes m

/-- A `long` has 32 or 64 bits. The units that are written are among those of the section. -/
theorem holdsWords_iff (hlong : longBits = 32 ∨ longBits = 64) {m index n : Nat} (hwhole : s.lengthInMAUs = some m)
    (hroom : index + n ≤ m) (value : LongValue longBits) : s.HoldsWords m index n value ↔ value.Writable s.mau n := by
  have hlength := lengthInMAUs_eq_some_iff.1 hwhole
  have hbytes : (index + n) * s.mauSize ≤ s.data.length := hlength ▸ Nat.mul_le_mul_right s.mauSize hroom
  have hwritten : s.Written index n value ↔ value.Writable s.mau n := by
    cases value with
    | unsigned value => exact written_unsigned_iff (by omega) value hbytes
    | signed value => exact written_signed_iff (by omega) (by omega) value hbytes
  constructor
  · intro h
    exact hwritten.1 h.written
  · intro h
    exact ⟨hwritten.2 h, fun _ => added hwhole, hlength⟩

/-- Nine bytes. -/
def nineBytes : DataSection := ⟨8, List.replicate 9 0, by decide, by decide⟩

theorem not_holdsWords_nineBytes : ¬ nineBytes.HoldsWords 9 0 9 (.signed 5#64) := by
  intro h
  obtain ⟨t, hwrite, hholds⟩ := h.written
  have hread : (nineBytes.writeValue 0 9 (.signed 5#64)).bind (·.MAU 0) = some 255 := by decide +kernel
  rw [hwrite, Option.bind_some] at hread
  have hdigit := (hholds.units 0 (by decide)).symm.trans hread
  exact absurd hdigit (by decide +kernel)

theorem holdsWords_nineBytes : nineBytes.HoldsWords 9 1 8 (.signed 5#64) :=
  (holdsWords_iff (.inr rfl) (by decide) (by decide) _).2 (.inl (by decide))

end DataSection

end Tce.TPEF
