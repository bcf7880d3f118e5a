import Tce.Base.BigEndian
import Tce.Tools.MathTools

/-!
# Values of immediates

A `SimValue` as far as it is an integer: its width and the low word of its data,
of which only the bits up to the width count.
-/

namespace Tce

structure SimValue where
  width : Nat
  word : BitVec 32
  deriving DecidableEq, Repr

namespace SimValue

open MathTools

def intValue (v : SimValue) : Int := (fastSignExtendTo v.word (min v.width 32)).toInt

def unsignedValue (v : SimValue) : Nat := (fastZeroExtendTo v.word (min v.width 32)).toNat

end SimValue

end Tce

/-!
## The bytes of simulation values

A `SimValue` keeps its bytes, big-endian and at the end of a buffer of fixed
size, its width and a mask. The width and the mask are updated apart: only a
width below that of a word sets the mask. An assignment of another value copies
as many bytes as the target has.
-/

namespace Tce

/-- `SIMD_WORD_WIDTH`. -/
def simdWordWidth : Nat := 1024

/-- `SIMVALUE_MAX_BYTE_SIZE`. -/
def simValueMaxByteSize : Nat := simdWordWidth / 8

abbrev BitWidth := { width : Nat // 1 ≤ width ∧ width ≤ simdWordWidth }

/-- The buffer, whose bytes are not initialised at first. -/
abbrev RawData := { bytes : List (BitVec 8) // bytes.length = simValueMaxByteSize }

structure RawSimValue where
  rawData : RawData
  bitWidth : BitWidth
  mask : BitVec 32

/-- The number of bytes that hold so many bits. -/
def byteCount (width : Nat) : Nat := (width + 7) / 8

theorem byteCount_le (width : BitWidth) : byteCount width ≤ simValueMaxByteSize := by
  have hle : width.val ≤ 1024 := width.2.2
  have hsize : simValueMaxByteSize = 128 := rfl
  rw [byteCount, hsize]
  omega

namespace RawSimValue
variable (v source : RawSimValue)

/-- Writes to the end of the buffer. -/
def write (bytes : List (BitVec 8)) (h : bytes.length ≤ simValueMaxByteSize) : RawSimValue :=
  { v with rawData := ⟨BigEndian.overwrite v.rawData (simValueMaxByteSize - bytes.length) bytes, by
      rw [BigEndian.length_overwrite (by rw [v.rawData.2]; omega), v.rawData.2]⟩ }

/-- The last bytes of the buffer. -/
def last (count : Nat) : List (BitVec 8) := BigEndian.window v.rawData (simValueMaxByteSize - count) count

/-- `swapByteOrder` of so many bytes of a number to the end of the buffer. -/
def store (count value : Nat) (h : count ≤ simValueMaxByteSize) : RawSimValue :=
  v.write (BigEndian.bytes count value) (by rwa [BigEndian.length_bytes])

def clearToZero (width : BitWidth) : RawSimValue :=
  v.write (List.replicate (byteCount width) 0) (by rw [List.length_replicate]; exact byteCount_le width)

def doubleWordWidth : BitWidth := ⟨64, by decide⟩

def setBitWidth (width : BitWidth) : RawSimValue :=
  let masked : RawSimValue := { v with
    bitWidth := width
    mask := if width.val < 32 then ~~~((~~~0 : BitVec 32) <<< width.val) else v.mask }
  if 8 < byteCount width then masked.clearToZero width else masked.clearToZero doubleWordWidth

/-- `SimValue(width)`. -/
def create (uninitialised : RawData) (width : BitWidth) : RawSimValue :=
  setBitWidth ⟨uninitialised, width, ~~~0⟩ width

/-- `SimValue(value, width)` copies as many bytes as the width has; the value has only four of them,
and there is no result if more are read. -/
def construct (uninitialised : RawData) (value : BitVec 32) (width : BitWidth) : Option RawSimValue :=
  if byteCount width ≤ 4 then some ((create uninitialised width).store (byteCount width) value.toNat (byteCount_le width))
  else none

/-- Assignments of the integer types keep the width. -/
def assignWord (word : BitVec 32) : RawSimValue := v.store 4 word.toNat (by decide)

def assignHalfFloatWord (word : BitVec 16) : RawSimValue :=
  (v.setBitWidth ⟨16, by decide⟩).store 2 word.toNat (by decide)

def assignFloatWord (word : BitVec 32) : RawSimValue := (v.setBitWidth ⟨32, by decide⟩).store 4 word.toNat (by decide)

def assignDoubleWord (word : BitVec 64) : RawSimValue := (v.setBitWidth ⟨64, by decide⟩).store 8 word.toNat (by decide)

/-- The width of the target says how many bytes are copied. -/
def assign : RawSimValue :=
  v.write (source.last (byteCount v.bitWidth)) (by
    rw [last, BigEndian.window, List.length_take]
    exact Nat.le_trans (Nat.min_le_left _ _) (byteCount_le v.bitWidth))

/-- The last four bytes as a word of the host. -/
def lowWord : BitVec 32 := BitVec.ofNat 32 (BigEndian.value (v.last 4))

def uIntWordValue : BitVec 32 := v.lowWord &&& v.mask

def unsignedValue : BitVec 32 := MathTools.fastZeroExtendTo v.lowWord (min v.bitWidth 32)

def intValue : Int := (MathTools.fastSignExtendTo v.lowWord (min v.bitWidth 32)).toInt

/-- The number that all bytes stand for. -/
def number : Nat := BigEndian.value v.rawData

/-! ## Numbers of the bytes -/

/-- The value as an immediate has it. -/
theorem intValue_eq : v.intValue = SimValue.intValue ⟨v.bitWidth, v.lowWord⟩ := rfl

theorem value_last {count : Nat} (h : count ≤ simValueMaxByteSize) :
    BigEndian.value (v.last count) = v.number % 256 ^ count := by
  have hle : count ≤ v.rawData.val.length := by rwa [v.rawData.2]
  rw [last, number, ← BigEndian.value_window_last v.rawData.val hle, v.rawData.2]

theorem number_write {bytes : List (BitVec 8)} (h : bytes.length ≤ simValueMaxByteSize) :
    (v.write bytes h).number = v.number / 256 ^ bytes.length * 256 ^ bytes.length + BigEndian.value bytes := by
  have hle : bytes.length ≤ v.rawData.val.length := by rwa [v.rawData.2]
  rw [number, number, ← BigEndian.value_overwrite_last hle, v.rawData.2]
  rfl

theorem number_store {count value : Nat} (h : count ≤ simValueMaxByteSize) :
    (v.store count value h).number = v.number / 256 ^ count * 256 ^ count + value % 256 ^ count := by
  rw [store, number_write, BigEndian.length_bytes, BigEndian.value_bytes]

theorem number_assign : (v.assign source).number =
    v.number / 256 ^ byteCount v.bitWidth * 256 ^ byteCount v.bitWidth +
      source.number % 256 ^ byteCount v.bitWidth := by
  have hle := byteCount_le v.bitWidth
  have hlength : (source.last (byteCount v.bitWidth)).length = byteCount v.bitWidth := by
    rw [last, BigEndian.window, List.length_take, List.length_drop, source.rawData.2]
    omega
  rw [assign, number_write, hlength, value_last source hle]

/-- A new width clears the last eight bytes. -/
theorem number_setBitWidth (width : BitWidth) : (v.setBitWidth width).number % 256 ^ 8 = 0 := by
  have hclear (u : RawSimValue) (width : BitWidth) (h : 8 ≤ byteCount width) :
      (u.clearToZero width).number % 256 ^ 8 = 0 := by
    rw [clearToZero, number_write, List.length_replicate, BigEndian.value_replicate_zero, Nat.add_zero]
    exact Nat.mod_eq_zero_of_dvd (Nat.dvd_mul_left_of_dvd (Nat.pow_dvd_pow 256 h) _)
  unfold setBitWidth
  dsimp only
  split
  · next hlt => exact hclear _ _ (Nat.le_of_lt hlt)
  · exact hclear _ _ (by decide)

/-- What is stored into cleared bytes is there alone. -/
theorem number_store_cleared {count value : Nat} (h : count ≤ simValueMaxByteSize) (hcount : count ≤ 8)
    (hclear : v.number % 256 ^ 8 = 0) : (v.store count value h).number % 256 ^ 8 = value % 256 ^ count := by
  obtain ⟨q, hq⟩ := Nat.dvd_of_mod_eq_zero hclear
  have hdvd : 256 ^ count ∣ v.number := by
    rw [hq]
    exact Nat.dvd_mul_right_of_dvd (Nat.pow_dvd_pow 256 hcount) q
  have hlt : value % 256 ^ count < 256 ^ 8 :=
    Nat.lt_of_lt_of_le (Nat.mod_lt _ (Nat.pow_pos (by decide))) (Nat.pow_le_pow_right (by decide) hcount)
  rw [number_store, Nat.div_mul_cancel hdvd, hq, Nat.mul_add_mod, Nat.mod_eq_of_lt hlt]

theorem toNat_lowWord : v.lowWord.toNat = v.number % 2 ^ 32 := by
  rw [lowWord, BitVec.toNat_ofNat, value_last v (by decide)]
  exact Nat.mod_mod _ _

/-- The low bits of the number, up to the width or to a word. -/
def lowBits : Nat := v.number % 2 ^ min v.bitWidth.val 32

theorem toNat_unsignedValue : v.unsignedValue.toNat = v.lowBits := by
  have hle : min v.bitWidth.val 32 ≤ 32 := Nat.min_le_right _ _
  rw [unsignedValue, MathTools.toNat_fastZeroExtendTo hle, toNat_lowWord, lowBits,
    Nat.mod_mod_of_dvd _ (Nat.pow_dvd_pow 2 hle)]

end RawSimValue

end Tce
