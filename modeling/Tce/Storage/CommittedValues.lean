import Tce.Storage.Memory

/-!
# Reads return what was committed last

A history of a memory keeps every unit that was committed, the last one first, and
the units that wait for it. Over an address range that the page table covers the
memories give what the history says; the page table covers the range unless the
last address is the first one of a page.
-/

namespace Tce.Storage

/-- The units committed so far and those that are pending. -/
structure History where
  commits : List (Word × MAU)
  pending : List (Word × MAU)

namespace History

/-- The value that was committed last to the address, or 0 if none was. -/
def lastCommitted (h : History) (address : Word) : MAU := (h.commits.lookup address).getD 0

section Accesses
variable (memoryClass : MemoryClass) (MAUSize : Nat) (h : History)

def commit (units : List (Word × MAU)) : History :=
  { h with commits := (units.map fun unit => (unit.1, stored memoryClass MAUSize unit.2)).reverse ++ h.commits }

def queue (units : List (Word × MAU)) : History := { h with pending := h.pending ++ units }

def flush : History := { h.commit memoryClass MAUSize h.pending with pending := [] }

/-- The units of a word, committed in one go. -/
def fastWrite (count : Nat) (address : Word) (data : Word) : History × Outcome :=
  (h.commit memoryClass MAUSize (unitsFrom address (unpack MAUSize data count)), .done)

def read (address : Word) (size : Nat) : History × Outcome :=
  (h, .value (pack MAUSize ((addressesFrom address size).map h.lastCommitted)).toNat)

def readBytes (address : Word) (size : Nat) : History × Outcome :=
  (h, .value (ofBytes ((addressesFrom address size).map h.lastCommitted)))

/-- Writes of words are pending until the clock advances; with direct access they are not, but
writes of floating point words wait for the next write of a word. -/
def access : Access → History × Outcome
  | .writeMAU address data => (h.commit memoryClass MAUSize [(address, data)], .done)
  | .write address count data =>
    let queued := h.queue (unitsFrom address (unpack MAUSize data count))
    match memoryClass with
    | .idealSRAM => (queued, .done)
    | .directAccessMemory => (queued.flush memoryClass MAUSize, .done)
  | .writeFloatWord address data => (h.queue (unitsFrom address (bytesOf data.toNat 4)), .done)
  | .writeDoubleWord address data => (h.queue (unitsFrom address (bytesOf data.toNat 8)), .done)
  | .fastWriteMAU address data => h.fastWrite memoryClass MAUSize 1 address data
  | .fastWrite2MAUs address data => h.fastWrite memoryClass MAUSize 2 address data
  | .fastWrite4MAUs address data => h.fastWrite memoryClass MAUSize 4 address data
  | .readMAU address => (h, .value (h.lastCommitted address).toNat)
  | .read address size => h.read MAUSize address size
  | .readFloatWord address => h.readBytes address 4
  | .readDoubleWord address => h.readBytes address 8
  | .fastReadMAU address => h.read MAUSize address 1
  | .fastRead2MAUs address => h.read MAUSize address 2
  | .fastRead4MAUs address => h.read MAUSize address 4
  | .advanceClock =>
    match memoryClass with
    | .idealSRAM => (h.flush memoryClass MAUSize, .done)
    | .directAccessMemory => (h, .done)
  | .reset =>
    match memoryClass with
    | .idealSRAM => ({ h with pending := [] }, .done)
    | .directAccessMemory => (h, .done)
  | .fillWithZeros => ({ h with commits := [] }, .done)

/-- The outcomes that a sequence of calls should have. -/
def outcomes (memoryClass : MemoryClass) (MAUSize : Nat) : List Access → History → List Outcome
  | [], _ => []
  | a :: accesses, h =>
    (h.access memoryClass MAUSize a).2 :: outcomes memoryClass MAUSize accesses (h.access memoryClass MAUSize a).1

end Accesses

end History

section Validity
variable (m : Memory)

/-- The address is one of the memory. -/
def Memory.InRange (address : Word) : Prop := m.start.toNat ≤ address.toNat ∧ address.toNat ≤ m.end_.toNat

/-- So many units, at least one, are at addresses of the memory. -/
def Memory.Within (address : Word) (count : Nat) : Prop :=
  0 < count ∧ m.start.toNat ≤ address.toNat ∧ address.toNat + count ≤ m.end_.toNat + 1

/-- A call at addresses of the memory: of units that fit in a word, or of bytes. -/
def Access.Valid : Access → Prop
  | .writeMAU address _ | .readMAU address => m.Within address 1
  | .write address count _ => m.Within address count ∧ shiftsDefined m.MAUSize count = true ∧ count ≤ maxAccessSize
  | .read address size => m.Within address size ∧ shiftsDefined m.MAUSize size = true
  | .writeFloatWord address _ | .readFloatWord address => m.Within address 4 ∧ m.MAUSize = 8
  | .writeDoubleWord address _ | .readDoubleWord address => m.Within address 8 ∧ m.MAUSize = 8
  | .fastWriteMAU address _ | .fastReadMAU address =>
    m.memoryClass = .directAccessMemory ∧ m.Within address 1 ∧ shiftsDefined m.MAUSize 1 = true
  | .fastWrite2MAUs address _ | .fastRead2MAUs address =>
    m.memoryClass = .directAccessMemory ∧ m.Within address 2 ∧ shiftsDefined m.MAUSize 2 = true
  | .fastWrite4MAUs address _ | .fastRead4MAUs address =>
    m.memoryClass = .directAccessMemory ∧ m.Within address 4 ∧ shiftsDefined m.MAUSize 4 = true
  | .advanceClock | .reset | .fillWithZeros => True

end Validity

section Addresses
variable {m : Memory} {address : Word} {count : Nat}

theorem Memory.Within.inRange (h : m.Within address count) : m.InRange address := ⟨h.2.1, by have := h.1; have := h.2.2; omega⟩

theorem Memory.Within.next (h : m.Within address (count + 1)) (hpos : 0 < count) : m.Within (address + 1) count := by
  obtain ⟨_, hlow, hhigh⟩ := h
  have hend := m.end_.isLt
  have hnext : (address + 1).toNat = address.toNat + 1 := by
    have hone : (1 : Word).toNat = 1 := rfl
    rw [BitVec.toNat_add, hone, Nat.mod_eq_of_lt (by omega)]
  exact ⟨hpos, by omega, by omega⟩

theorem inRange_of_mem (h : m.Within address count) : ∀ a ∈ addressesFrom address count, m.InRange a := by
  induction count generalizing address with
  | zero => simp [addressesFrom]
  | succ count ih =>
    intro a ha
    rcases List.mem_cons.mp ha with rfl | hrest
    · exact h.inRange
    · cases count with
      | zero => cases hrest
      | succ count => exact ih (h.next (Nat.succ_pos count)) a hrest

theorem map_fst_unitsFrom (address : Word) (data : List MAU) :
    (unitsFrom address data).map (·.1) = addressesFrom address data.length := by
  induction data generalizing address with
  | nil => rfl
  | cons d data ih => simp [unitsFrom, addressesFrom, ih]

@[simp] theorem length_unpack (MAUSize : Nat) (value : Word) (size : Nat) : (unpack MAUSize value size).length = size := by
  induction size with
  | zero => rfl
  | succ size ih => simp [unpack, ih]

@[simp] theorem length_bytesOf (bits size : Nat) : (bytesOf bits size).length = size := by
  induction size with
  | zero => rfl
  | succ size ih => simp [bytesOf, ih]

theorem inRange_of_unit {data : List MAU} (h : m.Within address data.length) :
    ∀ unit ∈ unitsFrom address data, m.InRange unit.1 := by
  intro unit hunit
  apply inRange_of_mem h
  rw [← map_fst_unitsFrom]
  exact List.mem_map_of_mem hunit

theorem Memory.Within.checkRange (h : m.Within address count) : m.checkRange address count = true := by
  obtain ⟨hpos, hlow, hhigh⟩ := h
  have hend := m.end_.isLt
  have hlast : (m.end_ - BitVec.ofNat 32 count + 1).toNat = m.end_.toNat + 1 - count := by
    rw [BitVec.toNat_add, BitVec.toNat_sub, BitVec.toNat_ofNat]
    have hone : (1 : Word).toNat = 1 := rfl
    omega
  simp only [Memory.checkRange, BitVec.lt_def, hlast, Bool.not_eq_true', Bool.or_eq_false_iff, decide_eq_false_iff_not]
  omega

theorem Memory.InRange.index_le (h : m.InRange address) : (address - m.start).toNat ≤ (m.end_ - m.start).toNat := by
  obtain ⟨hlow, hhigh⟩ := h
  rw [BitVec.toNat_sub_of_le (BitVec.le_def.mpr hlow), BitVec.toNat_sub_of_le (BitVec.le_def.mpr (by omega))]
  omega

theorem index_inj {start a b : Word} (h : (a - start).toNat = (b - start).toNat) : a = b :=
  (BitVec.sub_left_inj start).mp (BitVec.eq_of_toNat_eq h)

end Addresses

/-- The memory has its contents in the page table, and they are what the history says. -/
structure Holds (m : Memory) (h : History) : Prop where
  table : ∀ i ≤ (m.end_ - m.start).toNat, m.contents.InTable i
  contents : ∀ address, m.InRange address → m.contents.contents (address - m.start).toNat = h.lastCommitted address
  requests : m.writeRequests.flatMap (fun request => unitsFrom request.address request.data) = h.pending
  pending : ∀ unit ∈ h.pending, m.InRange unit.1

section Steps
variable {m : Memory} {h : History}

theorem lastCommitted_commit_single (h : History) (memoryClass : MemoryClass) (MAUSize : Nat) (address : Word) (data : MAU)
    (a : Word) : (h.commit memoryClass MAUSize [(address, data)]).lastCommitted a =
      if a = address then stored memoryClass MAUSize data else h.lastCommitted a := by
  by_cases he : a = address
  · simp [History.lastCommitted, History.commit, he]
  · simp [History.lastCommitted, History.commit, he, List.lookup_cons, beq_false_of_ne he]

theorem writeMAU_spec (hm : Holds m h) {address : Word} (hr : m.InRange address) (data : MAU) :
    ∃ contents, m.writeMAU address data = some { m with contents } ∧
      Holds { m with contents } (h.commit m.memoryClass m.MAUSize [(address, data)]) := by
  obtain ⟨contents, hwrite, hlength, hcontents⟩ := PagedArray.writeData_of_inTable (hm.table _ hr.index_le)
    (stored m.memoryClass m.MAUSize data)
  refine ⟨contents, by rw [Memory.writeMAU, hwrite, Option.map_some], ?_, ?_, hm.requests, hm.pending⟩
  · intro i hi
    have := hm.table i hi
    rwa [PagedArray.InTable, hlength]
  · intro a ha
    rw [hcontents, lastCommitted_commit_single]
    by_cases he : a = address
    · rw [if_pos he, if_pos (he ▸ rfl)]
    · rw [if_neg he, if_neg fun heq => he (index_inj heq)]
      exact hm.contents a ha

theorem commit_cons (h : History) (memoryClass : MemoryClass) (MAUSize : Nat) (unit : Word × MAU)
    (units : List (Word × MAU)) : h.commit memoryClass MAUSize (unit :: units) =
      (h.commit memoryClass MAUSize [unit]).commit memoryClass MAUSize units := by
  simp [History.commit]

theorem writeMAUs_spec (hm : Holds m h) {units : List (Word × MAU)} (hr : ∀ unit ∈ units, m.InRange unit.1) :
    ∃ contents, Memory.writeMAUs units m = some { m with contents } ∧
      Holds { m with contents } (h.commit m.memoryClass m.MAUSize units) := by
  induction units generalizing m h with
  | nil => exact ⟨m.contents, rfl, by simpa [History.commit] using hm⟩
  | cons unit units ih =>
    obtain ⟨address, data⟩ := unit
    obtain ⟨contents, hwrite, hm'⟩ := writeMAU_spec hm (hr _ List.mem_cons_self) data
    obtain ⟨contents', hrest, hm''⟩ := ih hm' fun unit hunit => hr unit (List.mem_cons_of_mem _ hunit)
    refine ⟨contents', by rw [Memory.writeMAUs, hwrite, Option.bind_some, hrest], ?_⟩
    rw [commit_cons]
    exact hm''

theorem readMAU_spec (hm : Holds m h) {address : Word} (hr : m.InRange address) :
    m.readMAU address = some (h.lastCommitted address) := by
  rw [Memory.readMAU, PagedArray.readData_of_inTable (hm.table _ hr.index_le), hm.contents address hr]

theorem readMAUs_spec (hm : Holds m h) {addresses : List Word} (hr : ∀ a ∈ addresses, m.InRange a) :
    m.readMAUs addresses = some (addresses.map h.lastCommitted) := by
  rw [Memory.readMAUs]
  induction addresses with
  | nil => rfl
  | cons a addresses ih =>
    rw [List.mapM_cons, readMAU_spec hm (hr a List.mem_cons_self),
      ih fun b hb => hr b (List.mem_cons_of_mem _ hb)]
    rfl

/-- The requests are committed in their order, and there are no more of them. -/
theorem commit_spec (hm : Holds m h) : ∃ contents,
    m.commit = some { m with contents, writeRequests := [] } ∧
      Holds { m with contents, writeRequests := [] } (h.flush m.memoryClass m.MAUSize) := by
  obtain ⟨contents, hwrite, hm'⟩ := writeMAUs_spec hm hm.pending
  refine ⟨contents, by rw [Memory.commit, hm.requests, hwrite, Option.map_some], ?_⟩
  exact ⟨hm'.table, hm'.contents, rfl, by simp [History.flush]⟩

theorem request_spec (hm : Holds m h) {address : Word} {data : List MAU} (hw : m.Within address data.length) :
    Holds (m.request address data) (h.queue (unitsFrom address data)) where
  table := hm.table
  contents := hm.contents
  requests := by simp [Memory.request, History.queue, hm.requests]
  pending := by
    intro unit hunit
    rcases List.mem_append.mp hunit with hold | hnew
    · exact hm.pending unit hold
    · exact inRange_of_unit hw unit hnew

/-- The call gives what the history says, and keeps the memory in step with it. -/
def Answers (m : Memory) (r : Option (Memory × Outcome)) (s : History × Outcome) : Prop :=
  ∃ contents writeRequests, r = some ({ m with contents, writeRequests }, s.2) ∧
    Holds { m with contents, writeRequests } s.1

theorem answers_same (hm : Holds m h) (outcome : Outcome) : Answers m (some (m, outcome)) (h, outcome) :=
  ⟨m.contents, m.writeRequests, rfl, hm⟩

theorem answers_write (hm : Holds m h) {address : Word} {count : Nat} (hw : m.Within address count)
    (hshifts : shiftsDefined m.MAUSize count = true) (hsize : count ≤ maxAccessSize) (data : Word) :
    Answers m (m.write address count data) (h.access m.memoryClass m.MAUSize (.write address count data)) := by
  have hunits : m.Within address (unpack m.MAUSize data count).length := by simpa using hw
  have hqueued := request_spec hm hunits
  simp only [Memory.write, hw.checkRange, hshifts, hsize, if_true, Bool.and_self, decide_true, History.access]
  cases hclass : m.memoryClass with
  | idealSRAM => exact ⟨m.contents, _, rfl, hqueued⟩
  | directAccessMemory =>
    obtain ⟨contents, hcommit, hm'⟩ := commit_spec hqueued
    simp only [hcommit, Option.map_some]
    refine ⟨contents, [], rfl, ?_⟩
    simpa [Memory.request, hclass] using hm'

theorem answers_writeFloat (hm : Holds m h) {address : Word} {size : Nat} (hw : m.Within address size)
    (hMAU : m.MAUSize = 8) (data : Nat) :
    Answers m (m.writeFloat size address data) (h.queue (unitsFrom address (bytesOf data size)), .done) := by
  have hunits : m.Within address (bytesOf data size).length := by simpa using hw
  have hqueued := request_spec hm hunits
  simp only [Memory.writeFloat, if_pos hMAU, hw.checkRange, if_true]
  exact ⟨m.contents, _, rfl, hqueued⟩

theorem answers_read (hm : Holds m h) {address : Word} {size : Nat} (hw : m.Within address size)
    (hshifts : shiftsDefined m.MAUSize size = true) :
    Answers m (m.read address size) (h.read m.MAUSize address size) := by
  simp only [Memory.read, hw.checkRange, hshifts, if_true, readMAUs_spec hm (inRange_of_mem hw), Option.map_some]
  exact answers_same hm _

theorem answers_readBytes (hm : Holds m h) {address : Word} {size : Nat} (hw : m.Within address size) :
    Answers m (m.readBytes (addressesFrom address size)) (h.readBytes address size) := by
  have hall : (addressesFrom address size).all (fun a => m.checkRange a 1) = true := by
    apply List.all_eq_true.mpr
    intro a ha
    obtain ⟨hlow, hhigh⟩ := inRange_of_mem hw a ha
    exact Memory.Within.checkRange ⟨Nat.one_pos, hlow, by omega⟩
  simp only [Memory.readBytes, hall, if_true, readMAUs_spec hm (inRange_of_mem hw), Option.map_some]
  exact answers_same hm _

theorem answers_fastWrite (hm : Holds m h) {address : Word} {count : Nat} (hclass : m.memoryClass = .directAccessMemory)
    (hw : m.Within address count) (hshifts : shiftsDefined m.MAUSize count = true) (data : Word) :
    Answers m (m.fastWrite count address data) (h.fastWrite m.memoryClass m.MAUSize count address data) := by
  have hunits : m.Within address (unpack m.MAUSize data count).length := by simpa using hw
  obtain ⟨contents, hwrite, hm'⟩ := writeMAUs_spec hm (inRange_of_unit hunits)
  rw [Memory.fastWrite, if_pos (by simp [hclass, hshifts]), hwrite]
  exact ⟨contents, m.writeRequests, rfl, hm'⟩

theorem answers_fastRead (hm : Holds m h) {address : Word} {count : Nat} (hclass : m.memoryClass = .directAccessMemory)
    (hw : m.Within address count) (hshifts : shiftsDefined m.MAUSize count = true) :
    Answers m (m.fastRead count address) (h.read m.MAUSize address count) := by
  simp only [Memory.fastRead, hclass, hshifts, decide_true, Bool.and_self, if_true,
    readMAUs_spec hm (inRange_of_mem hw), Option.map_some]
  exact answers_same hm _

theorem answers_advanceClock (hm : Holds m h) :
    Answers m m.advanceClock (h.access m.memoryClass m.MAUSize .advanceClock) := by
  simp only [Memory.advanceClock, History.access]
  cases hclass : m.memoryClass with
  | idealSRAM =>
    obtain ⟨contents, hcommit, hm'⟩ := commit_spec hm
    simp only [hcommit, Option.map_some]
    exact ⟨contents, [], rfl, by simpa [hclass] using hm'⟩
  | directAccessMemory => exact answers_same hm _

theorem answers_reset (hm : Holds m h) :
    Answers m (some (m.reset, .done)) (h.access m.memoryClass m.MAUSize .reset) := by
  simp only [Memory.reset, History.access]
  cases hclass : m.memoryClass with
  | idealSRAM => exact ⟨m.contents, [], by simp [hclass], hm.table, hm.contents, rfl, by simp⟩
  | directAccessMemory => exact answers_same hm _

theorem answers_fillWithZeros (hm : Holds m h) :
    Answers m (some (m.fillWithZeros, .done)) (h.access m.memoryClass m.MAUSize .fillWithZeros) := by
  refine ⟨m.contents.clear, m.writeRequests, rfl, ?_, ?_, hm.requests, hm.pending⟩
  · intro i hi
    have := hm.table i hi
    rwa [PagedArray.InTable, PagedArray.length_clear]
  · intro a _
    rw [PagedArray.contents_clear]
    rfl

/-- One call of the memory. -/
theorem access_spec (hm : Holds m h) {a : Access} (ha : a.Valid m) :
    Answers m (m.access a) (h.access m.memoryClass m.MAUSize a) := by
  cases a with
  | writeMAU address data =>
    obtain ⟨contents, hwrite, hm'⟩ := writeMAU_spec hm ha.inRange data
    exact ⟨contents, m.writeRequests, by rw [Memory.access, hwrite]; rfl, hm'⟩
  | write address count data => exact answers_write hm ha.1 ha.2.1 ha.2.2 data
  | writeFloatWord address data => exact answers_writeFloat hm ha.1 ha.2 _
  | writeDoubleWord address data => exact answers_writeFloat hm ha.1 ha.2 _
  | fastWriteMAU address data => exact answers_fastWrite hm ha.1 ha.2.1 ha.2.2 data
  | fastWrite2MAUs address data => exact answers_fastWrite hm ha.1 ha.2.1 ha.2.2 data
  | fastWrite4MAUs address data => exact answers_fastWrite hm ha.1 ha.2.1 ha.2.2 data
  | readMAU address =>
    rw [Memory.access, readMAU_spec hm ha.inRange]
    exact answers_same hm _
  | read address size => exact answers_read hm ha.1 ha.2
  | readFloatWord address =>
    rw [Memory.access, Memory.readFloatWord, if_pos ha.2, if_pos ha.1.checkRange]
    exact answers_readBytes hm ha.1
  | readDoubleWord address =>
    rw [Memory.access, Memory.readDoubleWord, if_pos ha.2]
    exact answers_readBytes hm ha.1
  | fastReadMAU address => exact answers_fastRead hm ha.1 ha.2.1 ha.2.2
  | fastRead2MAUs address => exact answers_fastRead hm ha.1 ha.2.1 ha.2.2
  | fastRead4MAUs address => exact answers_fastRead hm ha.1 ha.2.1 ha.2.2
  | advanceClock => exact answers_advanceClock hm
  | reset => exact answers_reset hm
  | fillWithZeros => exact answers_fillWithZeros hm

/-- All calls of a run. -/
theorem run_spec (hm : Holds m h) {accesses : List Access} (ha : ∀ a ∈ accesses, a.Valid m) :
    ∃ m', Memory.run accesses m = some (m', History.outcomes m.memoryClass m.MAUSize accesses h) := by
  induction accesses generalizing m h with
  | nil => exact ⟨m, rfl⟩
  | cons a accesses ih =>
    obtain ⟨contents, writeRequests, haccess, hm'⟩ := access_spec hm (ha a List.mem_cons_self)
    obtain ⟨m', hrun⟩ := ih hm' fun b hb => ha b (List.mem_cons_of_mem _ hb)
    refine ⟨m', ?_⟩
    rw [Memory.run, haccess, Option.bind_some]
    simp only [hrun, Option.map_some, History.outcomes]

end Steps

section Correctness
variable {memoryClass : MemoryClass} {start end_ : Word} {MAUSize : Nat} {m : Memory}

/-- Whatever is called at addresses of a new memory is in its page table, and reads return
what was committed last. -/
def ReturnsCommitted (m : Memory) : Prop :=
  ∀ accesses, (∀ a ∈ accesses, a.Valid m) →
    ∃ m', Memory.run accesses m = some (m', History.outcomes m.memoryClass m.MAUSize accesses ⟨[], []⟩)

theorem holds_new (h : Memory.new memoryClass start end_ MAUSize = some m)
    (hsize : (end_ - start).toNat % memChunkSize ≠ 0) : Holds m ⟨[], []⟩ := by
  unfold Memory.new at h
  split at h
  · obtain rfl := Option.some.inj h
    exact ⟨PagedArray.inTable_new_size.mpr hsize, fun a _ => PagedArray.contents_new _ _, rfl, by simp⟩
  · cases h

/-- **Memories return what was committed last** exactly if the last address is not the first
one of a page. -/
theorem returnsCommitted_iff (h : Memory.new memoryClass start end_ MAUSize = some m) (hle : start ≤ end_) :
    ReturnsCommitted m ↔ (end_ - start).toNat % memChunkSize ≠ 0 := by
  constructor
  · intro hm
    unfold Memory.new at h
    split at h
    case isFalse => cases h
    obtain rfl := Option.some.inj h
    have hend := end_.isLt
    obtain ⟨m', hrun⟩ := hm [.readMAU end_] (by simpa [Access.Valid, Memory.Within] using BitVec.le_def.mp hle)
    have hlast : (PagedArray.new (end_ - start).toNat : MemoryContents).InTable (end_ - start).toNat := by
      by_contra hout
      have hnone := PagedArray.readData_eq_none (0 : MAU) hout
      simp only [Memory.run, Memory.access, Memory.readMAU, hnone, Option.map_none, Option.bind_none] at hrun
      cases hrun
    exact PagedArray.inTable_new_size.mp fun i hi => hlast.mono hi
  · intro hsize accesses ha
    exact run_spec (holds_new h hsize) ha

/-- A memory that ends with a page. -/
theorem returnsCommitted_kilobyte : ∃ m, Memory.new .idealSRAM 0 1023 8 = some m ∧ ReturnsCommitted m := by
  have h : Memory.new .idealSRAM 0 1023 8 = some ⟨.idealSRAM, 0, 1023, 8, [], PagedArray.new 1023⟩ := rfl
  exact ⟨_, h, (returnsCommitted_iff h (by decide)).mpr (by decide)⟩

/-- The unit after the first page has no place in the page table that is made for it. -/
theorem not_returnsCommitted :
    ∃ m, Memory.new .directAccessMemory 0 1024 8 = some m ∧ ¬ ReturnsCommitted m := by
  refine ⟨_, rfl, fun h => ?_⟩
  obtain ⟨m', hrun⟩ := h [.readMAU 1024] (by simp [Access.Valid, Memory.Within])
  have hnone : Memory.run [.readMAU 1024] ⟨.directAccessMemory, 0, 1024, 8, [], PagedArray.new 1024⟩ = none := rfl
  cases hnone.symm.trans hrun

end Correctness

end Tce.Storage
