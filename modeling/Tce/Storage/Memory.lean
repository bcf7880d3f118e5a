import Mathlib.Data.BitVec
import Tce.Storage.PagedArray

/-!
# Data memories of the simulators

A memory over an inclusive range of addresses, with its contents in a paged array.
The interpretive simulator queues its writes until the clock advances; the direct
access memory of the compiled simulator commits them at once and has fast accesses
without range checks. What is outside the page table, a shift by the width of a word
or more, and an assertion that fails have no result.
-/

namespace Tce.Storage

abbrev Word := BitVec 32

/-- A minimum addressable unit, in the host's word. -/
abbrev MAU := BitVec 32

/-- `MEM_CHUNK_SIZE`. -/
def memChunkSize : Nat := 1024

instance : NeZero memChunkSize := ⟨by decide⟩

abbrev MemoryContents := PagedArray MAU memChunkSize

structure WriteRequest where
  address : Word
  data : List MAU
  deriving DecidableEq

/-- The class of the memory: `IdealSRAM` or `DirectAccessMemory`. -/
inductive MemoryClass where
  | idealSRAM
  | directAccessMemory
  deriving DecidableEq, Repr

structure Memory where
  memoryClass : MemoryClass
  start : Word
  end_ : Word
  MAUSize : Nat
  writeRequests : List WriteRequest
  contents : MemoryContents

/-- What an access gives: nothing, a value, or an exception. -/
inductive Outcome where
  | done
  | value (data : Nat)
  | outOfRange
  deriving DecidableEq, Repr

/-- `MAX_ACCESS_SIZE`. -/
def maxAccessSize : Nat := 64

section Packing

/-- `mask_`. -/
def mask (MAUSize : Nat) : Word := if MAUSize < 32 then ~~~((~~~0 : Word) <<< MAUSize) else ~~~0

/-- What a single write stores: the direct access memory drops the upper bits. -/
def stored (memoryClass : MemoryClass) (MAUSize : Nat) (data : MAU) : MAU :=
  match memoryClass with
  | .idealSRAM => data
  | .directAccessMemory => data &&& mask MAUSize

/-- `Memory::unpack`, the first unit from the upper bits. -/
def unpack (MAUSize : Nat) (value : Word) : Nat → List MAU
  | 0 => []
  | size + 1 => ((value >>> (MAUSize * size)) &&& mask MAUSize) :: unpack MAUSize value size

/-- `Memory::pack`. -/
def pack (MAUSize : Nat) : List MAU → Word
  | [] => 0
  | data :: rest => (data <<< (MAUSize * rest.length)) ||| pack MAUSize rest

/-- The shifts for so many units are defined. -/
def shiftsDefined (MAUSize size : Nat) : Bool := MAUSize * (size - 1) < 32

/-- The bytes of a floating point word, the upper ones first. -/
def bytesOf (bits : Nat) : Nat → List MAU
  | 0 => []
  | size + 1 => BitVec.ofNat 32 (bits >>> (8 * size) % 2 ^ 8) :: bytesOf bits size

/-- The floating point word of some bytes. -/
def ofBytes : List MAU → Nat
  | [] => 0
  | data :: rest => (data.toNat % 2 ^ 8) <<< (8 * rest.length) ||| ofBytes rest

/-- The units at consecutive addresses. -/
def unitsFrom (address : Word) : List MAU → List (Word × MAU)
  | [] => []
  | data :: rest => (address, data) :: unitsFrom (address + 1) rest

def addressesFrom (address : Word) : Nat → List Word
  | 0 => []
  | size + 1 => address :: addressesFrom (address + 1) size

end Packing

namespace Memory

/-- The constructors: a unit that is wider than a word is out of range. -/
def new (memoryClass : MemoryClass) (start end_ : Word) (MAUSize : Nat) : Option Memory :=
  if MAUSize ≤ 32 then some ⟨memoryClass, start, end_, MAUSize, [], PagedArray.new (end_ - start).toNat⟩ else none

variable (m : Memory)

/-- `write` of a single unit. -/
def writeMAU (address : Word) (data : MAU) : Option Memory :=
  (m.contents.writeData (address - m.start).toNat (stored m.memoryClass m.MAUSize data)).map fun contents => { m with contents }

/-- `read` of a single unit. -/
def readMAU (address : Word) : Option MAU := m.contents.readData (address - m.start).toNat 0

def writeMAUs : List (Word × MAU) → Memory → Option Memory
  | [], m => some m
  | (address, data) :: units, m => (m.writeMAU address data).bind (writeMAUs units)

def readMAUs (addresses : List Word) : Option (List MAU) := addresses.mapM m.readMAU

/-- `Memory::checkRange`, in the arithmetic of words; false when it throws. -/
def checkRange (startAddress : Word) (numberOfMAUs : Nat) : Bool :=
  !(startAddress < m.start || m.end_ - BitVec.ofNat 32 numberOfMAUs + 1 < startAddress)

/-- `Memory::advanceClock`: commits the requests in their order. -/
def commit : Option Memory :=
  (writeMAUs (m.writeRequests.flatMap fun request => unitsFrom request.address request.data) m).map fun m =>
    { m with writeRequests := [] }

/-- Queues the data of a request. -/
def request (address : Word) (data : List MAU) : Memory :=
  { m with writeRequests := m.writeRequests ++ [⟨address, data⟩] }

/-- `Memory::write`, and that of the direct access memory, which flushes the requests. -/
def write (address : Word) (count : Nat) (data : Word) : Option (Memory × Outcome) :=
  if m.checkRange address count then
    if shiftsDefined m.MAUSize count && count ≤ maxAccessSize then
      let queued := m.request address (unpack m.MAUSize data count)
      match m.memoryClass with
      | .idealSRAM => some (queued, .done)
      | .directAccessMemory => queued.commit.map (·, .done)
    else none
  else some (m, .outOfRange)

/-- `Memory::write` of a floating point word of so many bytes. -/
def writeFloat (size : Nat) (address : Word) (data : Nat) : Option (Memory × Outcome) :=
  if m.MAUSize = 8 then
    if m.checkRange address size then some (m.request address (bytesOf data size), .done)
    else some (m, .outOfRange)
  else none

def writeFloatWord (address : Word) (data : BitVec 32) := m.writeFloat 4 address data.toNat

def writeDoubleWord (address : Word) (data : BitVec 64) := m.writeFloat 8 address data.toNat

/-- `Memory::read`. -/
def read (address : Word) (size : Nat) : Option (Memory × Outcome) :=
  if m.checkRange address size then
    if shiftsDefined m.MAUSize size then
      (m.readMAUs (addressesFrom address size)).map fun data => (m, .value (pack m.MAUSize data).toNat)
    else none
  else some (m, .outOfRange)

/-- Reads the units one by one, each with its own check, as long as none is out of range. -/
def readBytes (addresses : List Word) : Option (Memory × Outcome) :=
  if addresses.all fun address => m.checkRange address 1 then
    (m.readMAUs addresses).map fun data => (m, .value (ofBytes data))
  else some (m, .outOfRange)

/-- `Memory::read` of a single precision word checks the range as a whole first. -/
def readFloatWord (address : Word) : Option (Memory × Outcome) :=
  if m.MAUSize = 8 then
    if m.checkRange address 4 then m.readBytes (addressesFrom address 4) else some (m, .outOfRange)
  else none

def readDoubleWord (address : Word) : Option (Memory × Outcome) :=
  if m.MAUSize = 8 then m.readBytes (addressesFrom address 8) else none

section Fast

/-- The fast writes of the direct access memory, of so many units. -/
def fastWrite (count : Nat) (address : Word) (data : Word) : Option (Memory × Outcome) :=
  if m.memoryClass = .directAccessMemory && shiftsDefined m.MAUSize count then
    (writeMAUs (unitsFrom address (unpack m.MAUSize data count)) m).map (·, .done)
  else none

def fastWriteMAU := m.fastWrite 1
def fastWrite2MAUs := m.fastWrite 2
def fastWrite4MAUs := m.fastWrite 4

def fastRead (count : Nat) (address : Word) : Option (Memory × Outcome) :=
  if m.memoryClass = .directAccessMemory && shiftsDefined m.MAUSize count then
    (m.readMAUs (addressesFrom address count)).map fun data => (m, .value (pack m.MAUSize data).toNat)
  else none

def fastReadMAU := m.fastRead 1
def fastRead2MAUs := m.fastRead 2
def fastRead4MAUs := m.fastRead 4

end Fast

/-- The clock does not commit the requests of the direct access memory. -/
def advanceClock : Option (Memory × Outcome) :=
  match m.memoryClass with
  | .idealSRAM => m.commit.map (·, .done)
  | .directAccessMemory => some (m, .done)

def reset : Memory :=
  match m.memoryClass with
  | .idealSRAM => { m with writeRequests := [] }
  | .directAccessMemory => m

def fillWithZeros : Memory := { m with contents := m.contents.clear }

end Memory

/-- A call of the memory interface. The fast ones are those of the direct access memory. -/
inductive Access where
  | writeMAU (address : Word) (data : MAU)
  | write (address : Word) (count : Nat) (data : Word)
  | writeFloatWord (address : Word) (data : BitVec 32)
  | writeDoubleWord (address : Word) (data : BitVec 64)
  | fastWriteMAU (address : Word) (data : Word)
  | fastWrite2MAUs (address : Word) (data : Word)
  | fastWrite4MAUs (address : Word) (data : Word)
  | readMAU (address : Word)
  | read (address : Word) (size : Nat)
  | readFloatWord (address : Word)
  | readDoubleWord (address : Word)
  | fastReadMAU (address : Word)
  | fastRead2MAUs (address : Word)
  | fastRead4MAUs (address : Word)
  | advanceClock
  | reset
  | fillWithZeros
  deriving DecidableEq

namespace Memory

def access (m : Memory) : Access → Option (Memory × Outcome)
  | .writeMAU address data => (m.writeMAU address data).map (·, .done)
  | .write address count data => m.write address count data
  | .writeFloatWord address data => m.writeFloatWord address data
  | .writeDoubleWord address data => m.writeDoubleWord address data
  | .fastWriteMAU address data => m.fastWriteMAU address data
  | .fastWrite2MAUs address data => m.fastWrite2MAUs address data
  | .fastWrite4MAUs address data => m.fastWrite4MAUs address data
  | .readMAU address => (m.readMAU address).map fun data => (m, .value data.toNat)
  | .read address size => m.read address size
  | .readFloatWord address => m.readFloatWord address
  | .readDoubleWord address => m.readDoubleWord address
  | .fastReadMAU address => m.fastReadMAU address
  | .fastRead2MAUs address => m.fastRead2MAUs address
  | .fastRead4MAUs address => m.fastRead4MAUs address
  | .advanceClock => m.advanceClock
  | .reset => some (m.reset, .done)
  | .fillWithZeros => some (m.fillWithZeros, .done)

/-- The outcomes of a sequence of calls. -/
def run : List Access → Memory → Option (Memory × List Outcome)
  | [], m => some (m, [])
  | a :: accesses, m =>
    (m.access a).bind fun r => (run accesses r.1).map fun s => (s.1, r.2 :: s.2)

end Memory

end Tce.Storage
