import Tce.OpSet.MemoryOperations

/-!
# One big-endian memory

What loads and stores of all sizes are to do: a memory of bytes, in which each
element is the big-endian number of the bytes at its addresses. The conditions
are those under which the operations do so.
-/

namespace Tce.OpSet

open Storage

abbrev Byte := BitVec 8

/-- The bytes as they are after all stores, and whether the clock has advanced
since the last one. -/
structure ByteMemory where
  bytes : Word → Byte
  settled : Bool

namespace ByteMemory

/-- The number of the bytes from an address on. -/
def value (bytes : Word → Byte) (size : Nat) (address : Word) : Nat :=
  BigEndian.value ((addressesFrom address size).map bytes)

def storeUnits (bytes : Word → Byte) (units : List (Word × Byte)) : Word → Byte :=
  units.foldl (fun bytes unit => Function.update bytes unit.1 unit.2) bytes

/-- The bytes of a memory of zeros to which these are written. -/
def initial (units : List (Word × Byte)) : ByteMemory := ⟨storeUnits (fun _ => 0) units, true⟩

/-- The bytes of a number from an address on. -/
def store (bytes : Word → Byte) (size : Nat) (address : Word) (data : Nat) : Word → Byte :=
  storeUnits bytes ((addressesFrom address size).zip (BigEndian.bytes size data))

end ByteMemory

/-- The number of an element as a word. -/
def Load.extended : Load → Nat → Word
  | .LDQ, data => (BitVec.ofNat 8 data).signExtend 32
  | .LDQU, data => (BitVec.ofNat 8 data).setWidth 32
  | .LDH, data => (BitVec.ofNat 16 data).signExtend 32
  | .LDHU, data => (BitVec.ofNat 16 data).setWidth 32
  | .LDW, data => BitVec.ofNat 32 data

def elementAddresses (size : Nat) : Nat → Word → List Word
  | 0, _ => []
  | count + 1, address => address :: elementAddresses size count (address + BitVec.ofNat 32 size)

/-- The data of a store of some elements. -/
def elementData (n : Elements) (data : List Word) : List Word := (List.range n.count).map fun k => data.getD k 0

/-- Stores of elements one after another. -/
def ByteMemory.storeElements (size : Nat) : List Word → Word → (Word → Byte) → Word → Byte
  | [], _, bytes => bytes
  | data :: rest, address, bytes =>
    storeElements size rest (address + BitVec.ofNat 32 size) (store bytes size address data.toNat)

section range
variable (memoryClass : MemoryClass) (start end_ : Word)

/-- So many bytes at an aligned address are in the memory. -/
def Accessible (size alignment : Nat) (address : Word) : Prop :=
  address.toNat % alignment = 0 ∧ start.toNat ≤ address.toNat ∧ address.toNat + size ≤ end_.toNat + 1

instance (size alignment : Nat) (address : Word) : Decidable (Accessible start end_ size alignment address) :=
  inferInstanceAs (Decidable (_ ∧ _ ∧ _))

/-- The range check of so many bytes at an aligned address does not wrap around. -/
def Unwrapped (size alignment : Nat) (address : Word) : Prop :=
  address.toNat % alignment = 0 → start.toNat ≤ address.toNat → size ≤ end_.toNat + 1

namespace MemoryAccess

/-- All elements are aligned and in the memory. -/
def Legal : MemoryAccess → Prop
  | load op n address => ∀ a ∈ elementAddresses op.size n.count address, Accessible start end_ op.size op.size a
  | loadDouble address => Accessible start end_ 8 4 address
  | store op n address _ => ∀ a ∈ elementAddresses op.size n.count address, Accessible start end_ op.size op.size a
  | storeDouble address _ => Accessible start end_ 8 4 address
  | advanceClock => True

instance : ∀ access : MemoryAccess, Decidable (access.Legal start end_)
  | load _ _ _ => inferInstanceAs (Decidable (∀ _ ∈ _, _))
  | loadDouble _ => inferInstanceAs (Decidable (Accessible _ _ _ _ _))
  | store _ _ _ _ => inferInstanceAs (Decidable (∀ _ ∈ _, _))
  | storeDouble _ _ => inferInstanceAs (Decidable (Accessible _ _ _ _ _))
  | advanceClock => inferInstanceAs (Decidable True)

/-- What a legal access does to the bytes. -/
def after (s : ByteMemory) : MemoryAccess → ByteMemory
  | store op n address data => ⟨ByteMemory.storeElements op.size (elementData n data) address s.bytes, false⟩
  | storeDouble address data => ⟨ByteMemory.store s.bytes 8 address data.toNat, false⟩
  | advanceClock => { s with settled := true }
  | _ => s

/-- What a legal access is to answer; what is loaded is known after the clock has advanced. -/
def Expected (s : ByteMemory) (answer : Answer) : MemoryAccess → Prop
  | load op n address => ∃ values, answer = .words values ∧ (s.settled = true →
      values = (elementAddresses op.size n.count address).map fun a => op.extended (ByteMemory.value s.bytes op.size a))
  | loadDouble address => ∃ bits, answer = .doubleWord bits ∧
      (s.settled = true → bits = BitVec.ofNat 64 (ByteMemory.value s.bytes 8 address))
  | _ => answer = .done

/-- The access behaves as that of one big-endian memory, and stores nothing if it is not legal. -/
def Behaves (access : MemoryAccess) (s t : ByteMemory) (answer : Answer) : Prop :=
  if access.Legal start end_ then t = access.after s ∧ access.Expected s answer
  else t = s ∧ ((∀ address, access ≠ loadDouble address) → ∃ fault, answer = .fault fault)

/-- The range check of the access does not wrap around, no element of a store is
in the memory with a later one outside, and a double word does not wait in the
memory with direct access for the store of a word. -/
def Sound : MemoryAccess → Prop
  | load op _ address => Unwrapped start end_ op.size op.size address
  | store op n address data => Unwrapped start end_ op.size op.size address ∧
      (Accessible start end_ op.size op.size address → (store op n address data).Legal start end_)
  | storeDouble address _ => Unwrapped start end_ 8 4 address ∧
      (Accessible start end_ 8 4 address → memoryClass = .idealSRAM)
  | _ => True

end MemoryAccess

/-- All accesses of a run behave as those of one big-endian memory. -/
def Conforms : List MemoryAccess → ByteMemory → Memory → Prop
  | [], _, _ => True
  | access :: accesses, s, m => ∃ m' answer t, access.perform m = some (m', answer) ∧
      access.Behaves start end_ s t answer ∧ Conforms accesses t m'

end range

/-! ## Bytes in words -/

section bytes

def toMAU (byte : Byte) : MAU := byte.setWidth 32

theorem toNat_toMAU (byte : Byte) : (toMAU byte).toNat = byte.toNat := by
  rw [toMAU, BitVec.toNat_setWidth, Nat.mod_eq_of_lt (Nat.lt_trans byte.isLt (by decide))]

theorem value_cons (byte : Byte) (rest : List Byte) :
    BigEndian.value (byte :: rest) = byte.toNat * 2 ^ (8 * rest.length) + BigEndian.value rest := by
  induction rest using List.reverseRecOn with
  | nil => simp [BigEndian.value]
  | append_singleton rest last ih =>
    have hbyte : 2 ^ (8 * 1) = 256 := rfl
    rw [← List.cons_append, BigEndian.value_append_singleton, BigEndian.value_append_singleton, ih, List.length_append,
      List.length_singleton, Nat.mul_add, Nat.pow_add, hbyte, Nat.add_mul, Nat.mul_assoc, Nat.add_assoc]

theorem value_lt (l : List Byte) : BigEndian.value l < 2 ^ (8 * l.length) := by
  induction l with
  | nil => exact Nat.one_pos
  | cons byte rest ih =>
    rw [value_cons, List.length_cons]
    calc byte.toNat * 2 ^ (8 * rest.length) + BigEndian.value rest
      _ < (byte.toNat + 1) * 2 ^ (8 * rest.length) :=
        (Nat.add_lt_add_left ih _).trans_eq (Nat.succ_mul _ _).symm
      _ ≤ 2 ^ 8 * 2 ^ (8 * rest.length) := Nat.mul_le_mul_right _ byte.isLt
      _ = 2 ^ (8 * (rest.length + 1)) := by rw [← Nat.pow_add, Nat.mul_succ, Nat.add_comm]

theorem value_cons_or (byte : Byte) (rest : List Byte) :
    BigEndian.value (byte :: rest) = byte.toNat <<< (8 * rest.length) ||| BigEndian.value rest := by
  rw [value_cons, ← Nat.shiftLeft_eq, Nat.shiftLeft_add_eq_or_of_lt (value_lt rest)]

theorem pack_map_toMAU (l : List Byte) : pack 8 (l.map toMAU) = BitVec.ofNat 32 (BigEndian.value l) := by
  induction l with
  | nil => rfl
  | cons byte rest ih =>
    rw [List.map_cons, pack, ih, List.length_map, value_cons_or]
    apply BitVec.eq_of_toNat_eq
    rw [BitVec.toNat_or, BitVec.toNat_shiftLeft, toNat_toMAU, BitVec.toNat_ofNat, BitVec.toNat_ofNat,
      Nat.or_mod_two_pow]

theorem ofBytes_map_toMAU (l : List Byte) : ofBytes (l.map toMAU) = BigEndian.value l := by
  induction l with
  | nil => rfl
  | cons byte rest ih =>
    rw [List.map_cons, ofBytes, ih, List.length_map, value_cons_or, toNat_toMAU, Nat.mod_eq_of_lt byte.isLt]

theorem unpack_eq (value : Word) (size : Nat) :
    unpack 8 value size = (BigEndian.bytes size value.toNat).map toMAU := by
  induction size with
  | zero => rfl
  | succ size ih =>
    rw [unpack, ih, BigEndian.bytes_succ, List.map_cons]
    congr 1
    apply BitVec.eq_of_toNat_eq
    have hmask : (mask 8).toNat = 2 ^ 8 - 1 := rfl
    rw [BitVec.toNat_and, hmask, Nat.and_two_pow_sub_one_eq_mod, BitVec.toNat_ushiftRight, toNat_toMAU,
      BitVec.toNat_ofNat]

theorem bytesOf_eq (bits size : Nat) : bytesOf bits size = (BigEndian.bytes size bits).map toMAU := by
  induction size with
  | zero => rfl
  | succ size ih =>
    rw [bytesOf, ih, BigEndian.bytes_succ, List.map_cons]
    congr 1
    apply BitVec.eq_of_toNat_eq
    rw [toNat_toMAU, BitVec.toNat_ofNat, BitVec.toNat_ofNat]
    omega

theorem stored_toMAU (memoryClass : MemoryClass) (byte : Byte) : stored memoryClass 8 (toMAU byte) = toMAU byte := by
  cases memoryClass with
  | idealSRAM => rfl
  | directAccessMemory =>
    apply BitVec.eq_of_toNat_eq
    have hmask : (mask 8).toNat = 2 ^ 8 - 1 := rfl
    rw [stored, BitVec.toNat_and, hmask, Nat.and_two_pow_sub_one_eq_mod, toNat_toMAU, Nat.mod_eq_of_lt byte.isLt]

theorem signExtend_eq (data : Word) {width : Nat} (hpos : 0 < width) (hle : width ≤ 32) :
    signExtend data width = (data.setWidth width).signExtend 32 := by
  apply BitVec.eq_of_getLsbD_eq
  intro i hi
  simp only [signExtend, BitVec.getLsbD_sshiftRight, BitVec.getLsbD_signExtend, BitVec.getLsbD_shiftLeft,
    BitVec.getLsbD_setWidth, BitVec.msb_eq_getLsbD_last, hi]
  have hin : ¬32 ≤ i := by omega
  by_cases hlow : i < width
  · have hsub : 32 - width + i - (32 - width) = i := by omega
    have hbit : 32 - width + i < 32 := by omega
    have hshifted : ¬32 - width + i < 32 - width := by omega
    simp [hin, hlow, hsub, hbit, hshifted]
  · have hsub : 32 - 1 - (32 - width) = width - 1 := by omega
    have hbit : ¬32 - width + i < 32 := by omega
    have hsign : ¬32 - 1 < 32 - width := by omega
    have hlast : width - 1 < width := by omega
    simp [hin, hlow, hsub, hbit, hsign, hlast]

theorem zeroExtend_eq (data : Word) {width : Nat} (hle : width ≤ 32) :
    zeroExtend data width = (data.setWidth width).setWidth 32 := by
  apply BitVec.eq_of_getLsbD_eq
  intro i hi
  have hsub : 32 - width + i - (32 - width) = i := by omega
  have hlow : 32 - width + i < 32 ↔ i < width := by omega
  simp only [zeroExtend, BitVec.getLsbD_ushiftRight, BitVec.getLsbD_shiftLeft, BitVec.getLsbD_setWidth, hi, hsub, hlow,
    Nat.not_lt.2 (Nat.le_add_right (32 - width) i), decide_true, decide_false, Bool.not_false, Bool.true_and,
    Bool.and_true]

end bytes

end Tce.OpSet
