import Tce.TPEF.ImmediateElement
import Tce.Tools.SimValue

/-!
# Inline immediates

`ProgramWriter::createCodeSection` checks that the immediate source of a move fits
to the immediate field of the move's bus and writes it into an element. The bus
extends the low bits of the element when the move is executed.
-/

namespace Tce.ProgramWriter

open MathTools TPEF

/-- The immediate field of a bus has 1 to 32 bits. -/
structure Bus where
  name : String
  immediateWidth : Nat
  signExtends : Bool
  width_pos : 0 < immediateWidth
  width_le : immediateWidth ≤ 32

/-- A move with an immediate source, its disassembly and where it is. -/
structure Move where
  procedure : String
  disasm : String
  location : Nat
  bus : Bus
  source : SimValue

inductive WriterFault where
  | notAvailable (message : String)
  | outOfRange
  deriving DecidableEq, Repr

def MAX_SIMM_WIDTH : Nat := 32

def INLINE_IMM : Byte := 0

def lift {α : Type} : Except MathFault α → Except WriterFault α
  | .ok a => .ok a
  | .error .outOfRange => .error .outOfRange

def notAvailable (progMove : Move) (requiredBits : Nat) : WriterFault :=
  .notAvailable ("In procedure:" ++ progMove.procedure ++ " Move: " ++ progMove.disasm ++ " Inline immediate value " ++
    toString progMove.source.unsignedValue ++ " of required width " ++ toString requiredBits ++ " at location " ++
    toString progMove.location ++ " doesn't fit to bus: " ++ progMove.bus.name)

/-- The bits that the value takes. A value that is sign-extended is read as signed and extended from
the field before they are counted. -/
def requiredFieldBits (bus : Bus) (uvalue : BitVec 32) : Except WriterFault Nat :=
  if bus.signExtends then do
    let svalue ← (if bus.immediateWidth < MAX_SIMM_WIDTH then lift (signExtendTo uvalue bus.immediateWidth)
      else .ok uvalue)
    return requiredBitsSigned svalue.toInt
  else .ok (requiredBits uvalue.toNat)

def createInlineImmediate (progMove : Move) (immediateIndex : Byte) : Except WriterFault ImmediateElement := do
  let uvalue : BitVec 32 := BitVec.ofNat 32 progMove.source.unsignedValue
  let fieldWidth := progMove.bus.immediateWidth
  let requiredBits ← requiredFieldBits progMove.bus uvalue
  if requiredBits ≤ fieldWidth then do
    let wordToStore ← lift (zeroExtendTo uvalue fieldWidth)
    let newImmediate : ImmediateElement := ⟨0, 0, []⟩
    return { newImmediate.setWord wordToStore with
      destinationUnit := INLINE_IMM
      destinationIndex := immediateIndex }
  else throw (notAvailable progMove requiredBits)

/-! ## What elements denote -/

/-- The low bits of the word as the bus extends them to 32 bits. -/
def Bus.extended (bus : Bus) (word : Word) : Int :=
  if bus.signExtends then (fastSignExtendTo word bus.immediateWidth).toInt
  else (fastZeroExtendTo word bus.immediateWidth).toNat

/-- An immediate value as a signed number on a bus that sign-extends, otherwise as an unsigned one. -/
def Bus.denoted (bus : Bus) (value : SimValue) : Int :=
  if bus.signExtends then value.intValue else value.unsignedValue

/-- The immediate field of the bus can represent the value. -/
def Bus.Represents (bus : Bus) (value : SimValue) : Prop := ∃ word, bus.extended word = bus.denoted value

/-- Either no element is written, for a value that the field cannot represent, or one that denotes the value again. -/
def WrittenRight (progMove : Move) (immediateIndex : Byte) : Prop :=
  match createInlineImmediate progMove immediateIndex with
  | .error _ => ¬ progMove.bus.Represents progMove.source
  | .ok element => ∃ word, element.word = .ok word ∧ progMove.bus.extended word = progMove.bus.denoted progMove.source

/-- The field of the bus holds the signed value; a negative value is not narrower than the field. -/
def Bus.HoldsSigned (bus : Bus) (value : SimValue) : Prop :=
  -2 ^ (bus.immediateWidth - 1) ≤ value.intValue ∧ value.intValue < 2 ^ (bus.immediateWidth - 1) ∧
    (value.intValue < 0 → bus.immediateWidth ≤ value.width)

section

variable {progMove : Move} {immediateIndex : Byte}

theorem unsignedValue_lt (value : SimValue) : value.unsignedValue < 2 ^ 32 := BitVec.isLt _

theorem word_congr {e e' : ImmediateElement} (h : e.value = e'.value) : e.word = e'.word := by
  rw [ImmediateElement.word, ImmediateElement.word, ImmediateElement.length, ImmediateElement.length, h]

theorem lift_signExtendTo (value : BitVec 32) {width : Nat} (h : width ≤ 32) :
    lift (signExtendTo value width) = .ok (fastSignExtendTo value width) := by
  rw [signExtendTo, if_neg (Nat.not_lt.2 h)]
  rfl

theorem lift_zeroExtendTo (value : BitVec 32) {width : Nat} (h : width ≤ 32) :
    lift (zeroExtendTo value width) = .ok (fastZeroExtendTo value width) := by
  rw [zeroExtendTo, if_neg (Nat.not_lt.2 h)]
  rfl

/-- Values on a bus that sign-extends always fit: they are extended before their bits are counted. -/
theorem requiredFieldBits_le {bus : Bus} (h : bus.signExtends = true) (uvalue : BitVec 32) :
    ∃ bits ≤ bus.immediateWidth, requiredFieldBits bus uvalue = .ok bits := by
  rw [requiredFieldBits, if_pos h]
  by_cases hwidth : bus.immediateWidth < MAX_SIMM_WIDTH
  · rw [if_pos hwidth, lift_signExtendTo uvalue bus.width_le]
    refine ⟨_, ?_, rfl⟩
    rw [requiredBitsSigned_le_iff bus.width_pos, toInt_fastSignExtendTo bus.width_le]
    exact ⟨BitVec.le_toInt _, BitVec.toInt_lt⟩
  · have hmax : bus.immediateWidth = 32 := Nat.le_antisymm bus.width_le (Nat.le_of_not_lt hwidth)
    rw [if_neg hwidth]
    refine ⟨_, ?_, rfl⟩
    rw [hmax, requiredBitsSigned_le_iff (by decide)]
    exact ⟨BitVec.le_toInt _, BitVec.toInt_lt⟩

theorem createInlineImmediate_of_le {bits : Nat}
    (hbits : requiredFieldBits progMove.bus (BitVec.ofNat 32 progMove.source.unsignedValue) = .ok bits)
    (hle : bits ≤ progMove.bus.immediateWidth) :
    ∃ element, createInlineImmediate progMove immediateIndex = .ok element ∧ element.word =
      .ok (fastZeroExtendTo (BitVec.ofNat 32 progMove.source.unsignedValue) progMove.bus.immediateWidth) := by
  refine ⟨{ (ImmediateElement.setWord ⟨0, 0, []⟩ (fastZeroExtendTo (BitVec.ofNat 32 progMove.source.unsignedValue)
    progMove.bus.immediateWidth)) with destinationUnit := INLINE_IMM, destinationIndex := immediateIndex }, ?_, ?_⟩
  · rw [createInlineImmediate, hbits]
    simp only [bind, Except.bind, if_pos hle, lift_zeroExtendTo _ progMove.bus.width_le]
    rfl
  · rw [← ImmediateElement.word_setWord ⟨0, 0, []⟩]
    exact word_congr rfl

theorem createInlineImmediate_of_lt {bits : Nat}
    (hbits : requiredFieldBits progMove.bus (BitVec.ofNat 32 progMove.source.unsignedValue) = .ok bits)
    (hlt : progMove.bus.immediateWidth < bits) :
    createInlineImmediate progMove immediateIndex = .error (notAvailable progMove bits) := by
  rw [createInlineImmediate, hbits]
  simp only [bind, Except.bind, if_neg (Nat.not_le.2 hlt)]
  rfl

theorem unsignedValue_eq (value : SimValue) : value.unsignedValue = value.word.toNat % 2 ^ min value.width 32 :=
  toNat_fastZeroExtendTo (Nat.min_le_right _ _)

theorem intValue_eq (value : SimValue) :
    value.intValue = Int.bmod value.unsignedValue (2 ^ min value.width 32) := by
  rw [SimValue.intValue, toInt_fastSignExtendTo (Nat.min_le_right _ _), BitVec.toInt_eq_toNat_bmod,
    BitVec.toNat_setWidth, unsignedValue_eq]

/-- What a stored value denotes on a bus that sign-extends. -/
theorem toInt_stored (u : Nat) {width : Nat} (h : width ≤ 32) :
    (fastSignExtendTo (fastZeroExtendTo (BitVec.ofNat 32 u) width) width).toInt = Int.bmod u (2 ^ width) := by
  have hdvd : 2 ^ width ∣ 2 ^ 32 := Nat.pow_dvd_pow 2 h
  rw [toInt_fastSignExtendTo h, BitVec.toInt_eq_toNat_bmod, BitVec.toNat_setWidth, toNat_fastZeroExtendTo h,
    BitVec.toNat_ofNat, Nat.mod_mod_of_dvd _ hdvd, Nat.mod_mod]
  push_cast
  exact Int.emod_bmod u (2 ^ width)

/-- A number of `bw` bits is the same signed number in `w` bits when that is in range, and not
negative in bits that it does not have. -/
theorem bmod_eq_bmod_iff {u : Int} {w bw : Nat} (hw : 0 < w) (hlow : 0 ≤ u) (hhigh : u < 2 ^ bw) :
    Int.bmod u (2 ^ w) = Int.bmod u (2 ^ bw) ↔
      -2 ^ (w - 1) ≤ Int.bmod u (2 ^ bw) ∧ Int.bmod u (2 ^ bw) < 2 ^ (w - 1) ∧ (Int.bmod u (2 ^ bw) < 0 → w ≤ bw) := by
  obtain ⟨w, rfl⟩ := Nat.exists_eq_add_of_lt hw
  have hcases : Int.bmod u (2 ^ bw) = u ∨ Int.bmod u (2 ^ bw) < 0 ∧ Int.bmod u (2 ^ bw) - u = -2 ^ bw := by
    have hmod : u % ((2 ^ bw : Nat) : Int) = u := Int.emod_eq_of_lt hlow (by exact_mod_cast hhigh)
    rw [Int.bmod_eq_emod, hmod]
    split
    next =>
      right
      push_cast
      omega
    next => simp
  have hdvd : ((2 ^ (0 + w + 1) : Nat) : Int) ∣ Int.bmod u (2 ^ bw) - u ↔ (Int.bmod u (2 ^ bw) < 0 → 0 + w + 1 ≤ bw) := by
    rcases hcases with heq | ⟨hneg, hsub⟩
    · rw [heq, Int.sub_self]
      simp only [Int.dvd_zero, true_iff]
      omega
    · rw [hsub, Int.dvd_neg]
      simp only [hneg, true_implies]
      exact_mod_cast Nat.pow_dvd_pow_iff_le_right (Nat.lt_succ_self 1)
  have hhalf : ((2 ^ (0 + w + 1) : Nat) : Int) / 2 = 2 ^ w := by
    rw [Nat.zero_add, Nat.pow_succ]
    push_cast
    omega
  have hhalf' : (((2 ^ (0 + w + 1) : Nat) : Int) + 1) / 2 = 2 ^ w := by
    rw [Nat.zero_add, Nat.pow_succ]
    push_cast
    omega
  rw [Int.bmod_eq_iff (Nat.two_pow_pos _), hdvd, hhalf, hhalf', Nat.zero_add, Nat.add_sub_cancel]

/-- Inline immediates are written right on buses that zero-extend, and elsewhere when the field holds the value. -/
theorem writtenRight_iff (progMove : Move) (immediateIndex : Byte) :
    WrittenRight progMove immediateIndex ↔
      (progMove.bus.signExtends = true → progMove.bus.HoldsSigned progMove.source) := by
  have hpos := progMove.bus.width_pos
  have hwidth := progMove.bus.width_le
  rw [WrittenRight]
  by_cases hsign : progMove.bus.signExtends = true
  · obtain ⟨bits, hle, hbits⟩ := requiredFieldBits_le hsign (BitVec.ofNat 32 progMove.source.unsignedValue)
    obtain ⟨element, hcreate, hword⟩ := @createInlineImmediate_of_le progMove immediateIndex _ hbits hle
    have hhigh : (progMove.source.unsignedValue : Int) < 2 ^ min progMove.source.width 32 := by
      rw [unsignedValue_eq]
      exact_mod_cast Nat.mod_lt _ (Nat.two_pow_pos _)
    rw [hcreate]
    simp only [hword, Except.ok.injEq, ↓existsAndEq, true_and, Bus.extended, Bus.denoted, hsign, true_implies, ↓reduceIte]
    rw [toInt_stored _ hwidth, intValue_eq, bmod_eq_bmod_iff hpos (Int.natCast_nonneg _) hhigh, Bus.HoldsSigned,
      intValue_eq, Nat.le_min]
    simp only [hwidth, and_true]
  · have hzero : progMove.bus.signExtends = false := Bool.eq_false_of_not_eq_true hsign
    have hlt := unsignedValue_lt progMove.source
    have hbits : requiredFieldBits progMove.bus (BitVec.ofNat 32 progMove.source.unsignedValue) =
        .ok (requiredBits progMove.source.unsignedValue) := by
      rw [requiredFieldBits, if_neg hsign, BitVec.toNat_ofNat, Nat.mod_eq_of_lt hlt]
    have hfits := @requiredBits_le_iff progMove.source.unsignedValue _ hpos
    simp only [hzero, Bool.false_eq_true, false_implies, iff_true]
    by_cases hle : requiredBits progMove.source.unsignedValue ≤ progMove.bus.immediateWidth
    · obtain ⟨element, hcreate, hword⟩ := @createInlineImmediate_of_le progMove immediateIndex _ hbits hle
      rw [hcreate]
      refine ⟨_, hword, ?_⟩
      simp only [Bus.extended, Bus.denoted, hzero, Bool.false_eq_true, ↓reduceIte]
      rw [toNat_fastZeroExtendTo hwidth, toNat_fastZeroExtendTo hwidth, BitVec.toNat_ofNat, Nat.mod_eq_of_lt hlt,
        Nat.mod_mod, Nat.mod_eq_of_lt (hfits.1 hle)]
    · rw [createInlineImmediate_of_lt hbits (Nat.lt_of_not_le hle)]
      rintro ⟨word, hword⟩
      simp only [Bus.extended, Bus.denoted, hzero, Bool.false_eq_true, ↓reduceIte] at hword
      rw [toNat_fastZeroExtendTo hwidth] at hword
      have hmod := Nat.mod_lt word.toNat (Nat.two_pow_pos progMove.bus.immediateWidth)
      apply hle
      apply hfits.2
      omega

theorem eight_pos : 0 < 8 := by decide

theorem eight_le : 8 ≤ 32 := by decide

/-- The value 300 on a bus with a sign-extended field of 8 bits. -/
def tooWide : Move := ⟨"main", "300 -> RF.0", 0, ⟨"B1", 8, true, eight_pos, eight_le⟩, ⟨32, 300⟩⟩

theorem not_writtenRight_tooWide : ¬ WrittenRight tooWide 0 := by
  have hword : (createInlineImmediate tooWide 0).toOption.bind (·.word.toOption) = some 44 := by decide +kernel
  rw [WrittenRight]
  cases hcreate : createInlineImmediate tooWide 0 with
  | error fault =>
    rw [hcreate] at hword
    cases hword
  | ok element =>
    rintro ⟨word, hread, hsame⟩
    rw [hcreate] at hword
    simp only [Except.toOption, Option.bind_some, hread, Option.some.injEq] at hword
    subst hword
    exact absurd hsame (by decide)

theorem writtenRight_tooWide_negative : WrittenRight { tooWide with source := ⟨32, -100⟩ } 0 := by
  apply (writtenRight_iff _ 0).2
  intro _
  exact ⟨by decide, by decide, fun _ => by decide⟩

end

end Tce.ProgramWriter
