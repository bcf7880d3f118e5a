import Tce.Storage.CommittedValues
import Tce.Tools.MathTools

/-!
# The fast accesses of the direct access memory

The compiled simulator packs and unpacks one, two or four units by hand, without
the loop of `Memory::pack` and without a range check. Shifts are defined while
the units fit in a word.
-/

namespace Tce.Storage

namespace DirectAccessMemory
variable (m : Memory) (address data : Word)

/-- `mask_` of the direct access memory. -/
def mask_ : Word := if 32 ≤ m.MAUSize then ~~~0 else ~~~((~~~0 : Word) <<< m.MAUSize)

def MAUSize2 : Nat := m.MAUSize * 2

def MAUSize3 : Nat := m.MAUSize * 3

def writeData (m : Memory) (index : Word) (data : MAU) : Option Memory :=
  (m.contents.writeData index.toNat data).map fun contents => { m with contents }

def readData (index : Word) : Option MAU := m.contents.readData index.toNat 0

def fastWriteMAU : Option Memory := writeData m (address - m.start) (data &&& mask_ m)

def fastWrite2MAUs : Option Memory := do
  let index := address - m.start
  let m' ← writeData m index ((data >>> m.MAUSize) &&& mask_ m)
  writeData m' (index + 1) (data &&& mask_ m)

def fastWrite4MAUs : Option Memory := do
  let index := address - m.start
  let m' ← writeData m index ((data >>> MAUSize3 m) &&& mask_ m)
  let m' ← writeData m' (index + 1) ((data >>> MAUSize2 m) &&& mask_ m)
  let m' ← writeData m' (index + 2) ((data >>> m.MAUSize) &&& mask_ m)
  writeData m' (index + 3) (data &&& mask_ m)

def fastReadMAU : Option Word := readData m (address - m.start)

def fastRead2MAUs : Option Word := do
  let index := address - m.start
  let first ← readData m index
  let second ← readData m (index + 1)
  return first <<< m.MAUSize ||| second

def fastRead4MAUs : Option Word := do
  let index := address - m.start
  let first ← readData m index
  let second ← readData m (index + 1)
  let third ← readData m (index + 2)
  let fourth ← readData m (index + 3)
  return first <<< MAUSize3 m ||| second <<< MAUSize2 m ||| third <<< m.MAUSize ||| fourth

end DirectAccessMemory

/-- The sizes of the fast accesses. -/
inductive Units where
  | one
  | two
  | four
  deriving DecidableEq

def Units.count : Units → Nat
  | one => 1
  | two => 2
  | four => 4

/-- The fast access, or the generic one and for a write an advance of the clock after it. -/
inductive Path where
  | fast
  | generic
  deriving DecidableEq

inductive UnitAccess where
  | write (units : Units) (address data : Word)
  | read (units : Units) (address : Word)
  deriving DecidableEq

namespace UnitAccess

def fastWrite (m : Memory) (units : Units) (address data : Word) : Option Memory :=
  match units with
  | .one => DirectAccessMemory.fastWriteMAU m address data
  | .two => DirectAccessMemory.fastWrite2MAUs m address data
  | .four => DirectAccessMemory.fastWrite4MAUs m address data

def fastRead (m : Memory) (units : Units) (address : Word) : Option Word :=
  match units with
  | .one => DirectAccessMemory.fastReadMAU m address
  | .two => DirectAccessMemory.fastRead2MAUs m address
  | .four => DirectAccessMemory.fastRead4MAUs m address

def perform (m : Memory) : Path → UnitAccess → Option (Memory × Outcome)
  | .fast, write units address data => (fastWrite m units address data).map (·, .done)
  | .fast, read units address => (fastRead m units address).map fun data => (m, .value data.toNat)
  | .generic, write units address data => do
    let written ← m.write address units.count data
    let advanced ← written.1.advanceClock
    return (advanced.1, written.2)
  | .generic, read units address => m.read address units.count

/-- The units are in the memory and fit in a word. -/
def Fits (m : Memory) : UnitAccess → Prop
  | write units address _ | read units address => m.Within address units.count ∧ units.count * m.MAUSize ≤ 32

/-- The outcomes of accesses, each by its path. -/
def run : List (Path × UnitAccess) → Memory → Option (Memory × List Outcome)
  | [], m => some (m, [])
  | (path, access) :: accesses, m => do
    let performed ← access.perform m path
    let rest ← run accesses performed.1
    return (rest.1, performed.2 :: rest.2)

end UnitAccess

open UnitAccess

/-- In every sequence of accesses each fast one has the effect and the result of the generic one, and the
units of a word are read back as they were written, by either path. -/
structure PathsAgree (m : Memory) : Prop where
  paths : ∀ accesses : List (Path × UnitAccess), (∀ a ∈ accesses, a.2.Fits m) →
    ∃ r, run accesses m = some r ∧ run (accesses.map fun a => (.generic, a.2)) m = some r
  readBack : ∀ accesses : List (Path × UnitAccess), (∀ a ∈ accesses, a.2.Fits m) → ∀ r, run accesses m = some r →
    ∀ units address data, (write units address data).Fits m → ∀ path path', ∃ m',
      (write units address data).perform r.1 path = some (m', .done) ∧
        (read units address).perform m' path' = some (m', .value (data.toNat % 2 ^ (units.count * m.MAUSize)))

/-! ## Units in words -/

section Packing
variable {MAUSize : Nat} {x : Word}

theorem toNat_mask (h : MAUSize ≤ 32) : (mask MAUSize).toNat = 2 ^ MAUSize - 1 := by
  rw [mask]
  split
  · exact MathTools.toNat_lowMask h
  · obtain rfl : MAUSize = 32 := by omega
    rfl

theorem toNat_and_mask (h : MAUSize ≤ 32) : (x &&& mask MAUSize).toNat = x.toNat % 2 ^ MAUSize := by
  rw [BitVec.toNat_and, toNat_mask h, Nat.and_two_pow_sub_one_eq_mod]

theorem and_mask_and_mask : x &&& mask MAUSize &&& mask MAUSize = x &&& mask MAUSize := by
  rw [BitVec.and_assoc, BitVec.and_self]

/-- The units of a word stand for its low bits. -/
theorem toNat_pack_unpack {size : Nat} (h : size * MAUSize ≤ 32) (hMAU : MAUSize ≤ 32) :
    (pack MAUSize (unpack MAUSize x size)).toNat = x.toNat % 2 ^ (size * MAUSize) := by
  induction size with
  | zero =>
    rw [Nat.zero_mul, Nat.pow_zero, Nat.mod_one]
    rfl
  | succ size ih =>
    rw [Nat.succ_mul] at h
    have hlow := ih (by omega)
    have hlt : (x.toNat >>> (MAUSize * size)) % 2 ^ MAUSize < 2 ^ MAUSize := Nat.mod_lt _ (Nat.two_pow_pos _)
    have hunit : (x.toNat >>> (MAUSize * size)) % 2 ^ MAUSize * 2 ^ (MAUSize * size) < 2 ^ 32 := by
      calc _ < 2 ^ MAUSize * 2 ^ (MAUSize * size) := Nat.mul_lt_mul_of_pos_right hlt (Nat.two_pow_pos _)
        _ = 2 ^ (size * MAUSize + MAUSize) := by rw [← Nat.pow_add, Nat.mul_comm, Nat.add_comm]
        _ ≤ 2 ^ 32 := Nat.pow_le_pow_right (by decide) h
    have hrest : x.toNat % 2 ^ (size * MAUSize) < 2 ^ (MAUSize * size) := by
      rw [Nat.mul_comm]
      exact Nat.mod_lt _ (Nat.two_pow_pos _)
    rw [unpack, pack, length_unpack, BitVec.toNat_or, hlow, BitVec.toNat_shiftLeft, toNat_and_mask hMAU,
      BitVec.toNat_ushiftRight, Nat.shiftLeft_eq, Nat.mod_eq_of_lt hunit, ← Nat.shiftLeft_eq,
      ← Nat.shiftLeft_add_eq_or_of_lt hrest, Nat.shiftLeft_eq, Nat.shiftRight_eq_div_pow, Nat.succ_mul, Nat.pow_add,
      Nat.mod_mul, Nat.mul_comm MAUSize size, Nat.mul_comm (2 ^ (size * MAUSize)), Nat.add_comm]

theorem stored_unpack (size : Nat) :
    (unpack MAUSize x size).map (stored .directAccessMemory MAUSize) = unpack MAUSize x size := by
  induction size with
  | zero => rfl
  | succ size ih => rw [unpack, List.map_cons, ih, stored, and_mask_and_mask]

end Packing

/-! ## Fast accesses as runs over units -/

section Fast
variable {m m₀ : Memory} {address data : Word}

/-- The memory is one of direct access over the same addresses, with the same units. -/
structure SameUnits (m₀ m : Memory) : Prop where
  memoryClass : m.memoryClass = .directAccessMemory
  start : m.start = m₀.start
  MAUSize : m.MAUSize = m₀.MAUSize

theorem directMask_eq : DirectAccessMemory.mask_ m = mask m.MAUSize := by
  rw [DirectAccessMemory.mask_, mask]
  by_cases h : 32 ≤ m.MAUSize
  · rw [if_pos h, if_neg (Nat.not_lt.2 h)]
  · rw [if_neg h, if_pos (Nat.not_le.1 h)]

theorem SameUnits.writeMAU {m' : Memory} (h : SameUnits m₀ m) (hwrite : m.writeMAU address data = some m') :
    SameUnits m₀ m' := by
  obtain ⟨contents, -, rfl⟩ := Option.map_eq_some_iff.1 hwrite
  exact ⟨h.memoryClass, h.start, h.MAUSize⟩

theorem SameUnits.writeData (h : SameUnits m₀ m) (i x : Word) :
    DirectAccessMemory.writeData m (address - m₀.start + i) (x &&& DirectAccessMemory.mask_ m₀) =
      m.writeMAU (address + i) (x &&& mask m₀.MAUSize) := by
  rw [DirectAccessMemory.writeData, Memory.writeMAU, directMask_eq, h.memoryClass, stored, h.MAUSize, and_mask_and_mask,
    h.start, sub_add_eq_add_sub]

/-- A unit by hand is the first one of a run over units. -/
theorem SameUnits.writeMAUs_cons (h : SameUnits m₀ m) (address i x : Word) {units : List (Word × MAU)}
    {next : Memory → Option Memory} (hnext : ∀ m', SameUnits m₀ m' → next m' = Memory.writeMAUs units m') :
    (DirectAccessMemory.writeData m (address - m₀.start + i) (x &&& DirectAccessMemory.mask_ m₀)).bind next =
      Memory.writeMAUs ((address + i, x &&& mask m₀.MAUSize) :: units) m := by
  rw [h.writeData, Memory.writeMAUs]
  cases hwrite : m.writeMAU (address + i) (x &&& mask m₀.MAUSize) with
  | none => rfl
  | some m' => exact hnext m' (h.writeMAU hwrite)

theorem SameUnits.writeMAUs_last (h : SameUnits m₀ m) (address i x : Word) :
    DirectAccessMemory.writeData m (address - m₀.start + i) (x &&& DirectAccessMemory.mask_ m₀) =
      Memory.writeMAUs [(address + i, x &&& mask m₀.MAUSize)] m := by
  rw [← h.writeMAUs_cons address i x fun _ _ => rfl]
  exact (Option.bind_fun_some _).symm

theorem fastWrite_eq (hclass : m.memoryClass = .directAccessMemory) (units : Units) :
    fastWrite m units address data = Memory.writeMAUs (unitsFrom address (unpack m.MAUSize data units.count)) m := by
  have h : SameUnits m m := ⟨hclass, rfl, rfl⟩
  have hfirst := add_zero (address - m.start)
  have haddress := add_zero address
  cases units with
  | one =>
    have hone := h.writeMAUs_last address 0 data
    rw [hfirst, haddress] at hone
    simpa [fastWrite, DirectAccessMemory.fastWriteMAU, Units.count, unpack, unitsFrom] using hone
  | two =>
    have htwo := h.writeMAUs_cons address 0 (data >>> m.MAUSize) fun m' h' => h'.writeMAUs_last address 1 data
    rw [hfirst, haddress] at htwo
    simpa [fastWrite, DirectAccessMemory.fastWrite2MAUs, Units.count, unpack, unitsFrom] using htwo
  | four =>
    have hfour := h.writeMAUs_cons address 0 (data >>> (m.MAUSize * 3)) fun m' h' =>
      h'.writeMAUs_cons address 1 (data >>> (m.MAUSize * 2)) fun m' h' =>
        h'.writeMAUs_cons address 2 (data >>> m.MAUSize) fun m' h' => h'.writeMAUs_last address 3 data
    rw [hfirst, haddress] at hfour
    simpa [fastWrite, DirectAccessMemory.fastWrite4MAUs, DirectAccessMemory.MAUSize2, DirectAccessMemory.MAUSize3,
      Units.count, unpack, unitsFrom, BitVec.add_assoc] using hfour

theorem readData_eq (i : Word) :
    DirectAccessMemory.readData m (address - m.start + i) = m.readMAU (address + i) := by
  rw [DirectAccessMemory.readData, Memory.readMAU, sub_add_eq_add_sub]

theorem fastRead_eq (units : Units) :
    fastRead m units address = (m.readMAUs (addressesFrom address units.count)).map (pack m.MAUSize) := by
  have hfirst : DirectAccessMemory.readData m (address - m.start) = m.readMAU address := rfl
  cases units with
  | one =>
    simp only [fastRead, DirectAccessMemory.fastReadMAU, hfirst, Units.count, Memory.readMAUs, addressesFrom,
      List.mapM_cons, List.mapM_nil]
    cases m.readMAU address <;> simp [pack]
  | two =>
    simp only [fastRead, DirectAccessMemory.fastRead2MAUs, hfirst, readData_eq, Units.count, Memory.readMAUs,
      addressesFrom, List.mapM_cons, List.mapM_nil]
    cases m.readMAU address <;> cases m.readMAU (address + 1) <;> simp [pack]
  | four =>
    have hsecond : address + 1 + 1 = address + 2 := BitVec.add_assoc _ _ _
    have hthird : address + 2 + 1 = address + 3 := BitVec.add_assoc _ _ _
    simp only [fastRead, DirectAccessMemory.fastRead4MAUs, hfirst, readData_eq, Units.count, Memory.readMAUs,
      addressesFrom, hsecond, hthird, List.mapM_cons, List.mapM_nil]
    cases m.readMAU address <;> cases m.readMAU (address + 1) <;> cases m.readMAU (address + 2) <;>
      cases m.readMAU (address + 3) <;> simp [pack, DirectAccessMemory.MAUSize2, DirectAccessMemory.MAUSize3,
        BitVec.or_assoc]

end Fast

/-! ## Both paths -/

section Paths
variable {m : Memory} {h : History} {units : Units} {address data : Word}

/-- A direct access memory with no requests left, which has what the history says. -/
structure Ready (m : Memory) (h : History) : Prop where
  memoryClass : m.memoryClass = .directAccessMemory
  MAUSize : m.MAUSize ≤ 32
  writeRequests : m.writeRequests = []
  holds : Holds m h

theorem count_le (units : Units) : units.count ≤ maxAccessSize := by
  cases units <;> decide

theorem shiftsDefined_of_fits (hfits : units.count * m.MAUSize ≤ 32) : shiftsDefined m.MAUSize units.count = true := by
  rw [shiftsDefined, decide_eq_true_eq]
  cases units <;> simp only [Units.count] at hfits ⊢ <;> omega

theorem within_unpack {count : Nat} (h : m.Within address count) (data : Word) :
    m.Within address (unpack m.MAUSize data count).length := by
  rwa [length_unpack]

theorem writeMAUs_requests (units : List (Word × MAU)) (m : Memory) (requests : List WriteRequest) :
    Memory.writeMAUs units { m with writeRequests := requests } =
      (Memory.writeMAUs units m).map fun m' => { m' with writeRequests := requests } := by
  induction units generalizing m with
  | nil => rfl
  | cons unit units ih =>
    obtain ⟨address, data⟩ := unit
    rw [Memory.writeMAUs, Memory.writeMAUs, Memory.writeMAU, Memory.writeMAU]
    cases m.contents.writeData (address - m.start).toNat (stored m.memoryClass m.MAUSize data) with
    | none => rfl
    | some contents => exact ih { m with contents }

/-- The generic write also commits its units at once. -/
theorem perform_write (hm : Ready m h) (hfits : (write units address data).Fits m) (path : Path) :
    (write units address data).perform m path =
      (Memory.writeMAUs (unitsFrom address (unpack m.MAUSize data units.count)) m).map (·, .done) := by
  cases path with
  | fast => rw [perform, fastWrite_eq hm.memoryClass]
  | generic =>
    obtain ⟨contents, hwrite, -⟩ := writeMAUs_spec hm.holds
      (inRange_of_unit (within_unpack hfits.1 data))
    have hcommit : (m.request address (unpack m.MAUSize data units.count)).commit =
        some { m with contents, writeRequests := [] } := by
      rw [Memory.commit, Memory.request, writeMAUs_requests, hm.writeRequests]
      simp [hwrite]
    simp only [perform, Memory.write, hfits.1.checkRange, shiftsDefined_of_fits hfits.2, count_le, hm.memoryClass,
      hcommit, hwrite, Memory.advanceClock, if_true, Bool.and_self, decide_true, Option.map_some, Option.bind_eq_bind,
      Option.bind_some, Option.pure_def]
    rw [← hm.writeRequests]

theorem perform_read (hfits : (read units address).Fits m) (path : Path) : (read units address).perform m path =
    (m.readMAUs (addressesFrom address units.count)).map fun data => (m, .value (pack m.MAUSize data).toNat) := by
  cases path with
  | fast =>
    rw [perform, fastRead_eq, Option.map_map]
    rfl
  | generic =>
    simp only [perform, Memory.read, hfits.1.checkRange, shiftsDefined_of_fits hfits.2, if_true]

/-- An access ends, with what it gives in the history. -/
theorem perform_spec (hm : Ready m h) {access : UnitAccess} (hfits : access.Fits m) :
    ∃ contents outcome h', (∀ path, access.perform m path = some ({ m with contents }, outcome)) ∧
      Ready { m with contents } h' := by
  cases access with
  | write units address data =>
    obtain ⟨contents, hwrite, hm'⟩ := writeMAUs_spec hm.holds
      (inRange_of_unit (within_unpack hfits.1 data))
    refine ⟨contents, .done, _, fun path => ?_, hm.memoryClass, hm.MAUSize, hm.writeRequests, hm'⟩
    rw [perform_write hm hfits, hwrite]
    rfl
  | read units address =>
    have hread := readMAUs_spec hm.holds (inRange_of_mem hfits.1)
    refine ⟨m.contents, .value (pack m.MAUSize ((addressesFrom address units.count).map h.lastCommitted)).toNat, h,
      fun path => ?_, hm⟩
    rw [perform_read hfits, hread]
    rfl

theorem fits_contents (contents : MemoryContents) (access : UnitAccess) :
    access.Fits { m with contents } ↔ access.Fits m := by
  cases access <;> exact Iff.rfl

/-- Runs end in the same way by every path. -/
theorem run_ends (hm : Ready m h) {accesses : List (Path × UnitAccess)} (hfits : ∀ a ∈ accesses, a.2.Fits m) :
    ∃ contents outcomes h', run accesses m = some ({ m with contents }, outcomes) ∧
      run (accesses.map fun a => (.generic, a.2)) m = some ({ m with contents }, outcomes) ∧
      Ready { m with contents } h' := by
  induction accesses generalizing m h with
  | nil => exact ⟨m.contents, [], h, rfl, rfl, hm⟩
  | cons a accesses ih =>
    obtain ⟨path, access⟩ := a
    obtain ⟨contents, outcome, h', hperform, hm'⟩ := perform_spec hm (hfits _ List.mem_cons_self)
    obtain ⟨contents', outcomes, h'', hrun, hgeneric, hm''⟩ :=
      ih hm' fun b hb => (fits_contents contents b.2).2 (hfits b (List.mem_cons_of_mem _ hb))
    refine ⟨contents', outcome :: outcomes, h'', ?_, ?_, hm''⟩
    · simp only [run, hperform, hrun, Option.bind_eq_bind, Option.bind_some, Option.pure_def]
    · simp only [List.map_cons, run, hperform, hgeneric, Option.bind_eq_bind, Option.bind_some, Option.pure_def]

theorem lastCommitted_commit_of_not_mem {units : List (Word × MAU)} {a : Word} (ha : a ∉ units.map (·.1))
    (memoryClass : MemoryClass) (MAUSize : Nat) :
    (h.commit memoryClass MAUSize units).lastCommitted a = h.lastCommitted a := by
  induction units generalizing h with
  | nil => rfl
  | cons unit units ih =>
    rw [List.map_cons, List.mem_cons, not_or] at ha
    rw [commit_cons, ih ha.2, lastCommitted_commit_single, if_neg ha.1]

theorem not_mem_addressesFrom {address : Word} {count : Nat} (h : m.Within address (count + 1)) :
    address ∉ addressesFrom (address + 1) count := by
  intro hmem
  have hpos : 0 < count := by
    rcases Nat.eq_zero_or_pos count with rfl | hpos
    · cases hmem
    · exact hpos
  have hnext := h.next hpos
  have hlow := (inRange_of_mem (m := { m with start := address + 1 }) ⟨hpos, Nat.le_refl _, hnext.2.2⟩ _ hmem).1
  have hone : (1 : Word).toNat = 1 := rfl
  have hsum : (address + 1).toNat = address.toNat + 1 := by
    have hend := m.end_.isLt
    have hhigh := h.2.2
    rw [BitVec.toNat_add, hone, Nat.mod_eq_of_lt (by omega)]
  have hle : (address + 1).toNat ≤ address.toNat := hlow
  omega

/-- What was committed to the addresses of a word is the units of the word. -/
theorem map_lastCommitted {data : List MAU} {address : Word} (hwithin : m.Within address data.length)
    (memoryClass : MemoryClass) (MAUSize : Nat) :
    (addressesFrom address data.length).map (h.commit memoryClass MAUSize (unitsFrom address data)).lastCommitted =
      data.map (stored memoryClass MAUSize) := by
  induction data generalizing address h with
  | nil => rfl
  | cons unit data ih =>
    have hnot : address ∉ (unitsFrom (address + 1) data).map (·.1) := by
      rw [map_fst_unitsFrom]
      exact not_mem_addressesFrom hwithin
    rw [List.length_cons, addressesFrom, unitsFrom, commit_cons, List.map_cons, List.map_cons,
      lastCommitted_commit_of_not_mem hnot, lastCommitted_commit_single, if_pos rfl]
    rcases Nat.eq_zero_or_pos data.length with hzero | hpos
    · obtain rfl := List.length_eq_zero_iff.1 hzero
      rfl
    · rw [ih (hwithin.next hpos)]

/-- A word is read back, as far as its units go. -/
theorem perform_readBack (hm : Ready m h) (hfits : (write units address data).Fits m) (path path' : Path) :
    ∃ m', (write units address data).perform m path = some (m', .done) ∧
      (read units address).perform m' path' = some (m', .value (data.toNat % 2 ^ (units.count * m.MAUSize))) := by
  have hwithin := within_unpack hfits.1 data
  obtain ⟨contents, hwrite, hm'⟩ := writeMAUs_spec hm.holds (inRange_of_unit hwithin)
  refine ⟨{ m with contents }, by rw [perform_write hm hfits, hwrite]; rfl, ?_⟩
  have hcommitted := map_lastCommitted (h := h) hwithin m.memoryClass m.MAUSize
  rw [length_unpack, hm.memoryClass, stored_unpack] at hcommitted
  have hread : (read units address).Fits { m with contents } := hfits
  rw [perform_read hread, readMAUs_spec hm' (inRange_of_mem hread.1), hm.memoryClass, hcommitted, Option.map_some,
    toNat_pack_unpack hfits.2 hm.MAUSize]

theorem pathsAgree_of_ready (hm : Ready m h) : PathsAgree m where
  paths accesses hfits := by
    obtain ⟨contents, outcomes, h', hrun, hgeneric, -⟩ := run_ends hm hfits
    exact ⟨_, hrun, hgeneric⟩
  readBack accesses hfits r hr units address data hwrite path path' := by
    obtain ⟨contents, outcomes, h', hrun, -, hm'⟩ := run_ends hm hfits
    obtain rfl := Option.some.inj (hrun.symm.trans hr)
    exact perform_readBack hm' hwrite path path'

/-- A memory whose last address is below its first one has no access. -/
theorem pathsAgree_of_empty (hempty : m.end_ < m.start) : PathsAgree m := by
  have hnone (access : UnitAccess) : ¬ access.Fits m := by
    intro hfits
    have hwithin : ∃ address count, m.Within address count := by
      cases access with
      | write units address data => exact ⟨address, units.count, hfits.1⟩
      | read units address => exact ⟨address, units.count, hfits.1⟩
    obtain ⟨address, count, hpos, hlow, hhigh⟩ := hwithin
    rw [BitVec.lt_def] at hempty
    omega
  have hnil (accesses : List (Path × UnitAccess)) (hfits : ∀ a ∈ accesses, a.2.Fits m) : accesses = [] := by
    cases accesses with
    | nil => rfl
    | cons a accesses => exact absurd (hfits a List.mem_cons_self) (hnone a.2)
  constructor
  · intro accesses hfits
    obtain rfl := hnil accesses hfits
    exact ⟨_, rfl, rfl⟩
  · intro accesses hfits r hr units address data hwrite
    obtain rfl := hnil accesses hfits
    cases hr
    exact absurd hwrite (hnone _)

variable {start end_ : Word} {MAUSize : Nat}

/-- The unit at the last address has no page. -/
theorem not_pathsAgree_of_page (hnew : Memory.new .directAccessMemory start end_ MAUSize = some m) (hle : start ≤ end_)
    (hpage : (end_ - start).toNat % memChunkSize = 0) : ¬ PathsAgree m := by
  intro hagree
  unfold Memory.new at hnew
  split at hnew
  case isFalse => cases hnew
  next hMAU =>
    obtain rfl := Option.some.inj hnew
    have hend := end_.isLt
    obtain ⟨r, hrun, -⟩ := hagree.paths [(.fast, .read .one end_)] (by
      intro a ha
      obtain rfl := List.mem_singleton.1 ha
      exact ⟨⟨Nat.one_pos, BitVec.le_def.1 hle, Nat.le_refl _⟩, by rwa [Units.count, Nat.one_mul]⟩)
    have hout : ¬ (PagedArray.new (end_ - start).toNat : MemoryContents).InTable (end_ - start).toNat := fun hin =>
      PagedArray.inTable_new_size.1 (fun i hi => hin.mono hi) hpage
    have hnone := PagedArray.readData_eq_none (0 : MAU) hout
    simp only [run, perform, fastRead, DirectAccessMemory.fastReadMAU, DirectAccessMemory.readData, hnone,
      Option.map_none, Option.bind_eq_bind, Option.bind_none] at hrun
    cases hrun

/-- **The fast accesses agree with the generic ones** exactly if the last address of the memory is not the
first one of a page. -/
theorem pathsAgree_iff (hnew : Memory.new .directAccessMemory start end_ MAUSize = some m) :
    PathsAgree m ↔ (start ≤ end_ → (end_ - start).toNat % memChunkSize ≠ 0) := by
  constructor
  · intro hagree hle hpage
    exact not_pathsAgree_of_page hnew hle hpage hagree
  · intro hsize
    by_cases hle : start ≤ end_
    · have hholds := holds_new hnew (hsize hle)
      unfold Memory.new at hnew
      split at hnew
      case isFalse => cases hnew
      next hMAU =>
        obtain rfl := Option.some.inj hnew
        exact pathsAgree_of_ready ⟨rfl, hMAU, rfl, hholds⟩
    · unfold Memory.new at hnew
      split at hnew
      case isFalse => cases hnew
      next hMAU =>
        obtain rfl := Option.some.inj hnew
        exact pathsAgree_of_empty (BitVec.not_le.1 hle)

/-- A memory that ends with a page. -/
theorem pathsAgree_kilobyte : ∃ m, Memory.new .directAccessMemory 0 1023 8 = some m ∧ PathsAgree m := by
  have hnew : Memory.new .directAccessMemory 0 1023 8 = some ⟨.directAccessMemory, 0, 1023, 8, [], PagedArray.new 1023⟩ :=
    rfl
  exact ⟨_, hnew, (pathsAgree_iff hnew).2 fun _ => by decide⟩

/-- The unit after the first page has no place in the page table. -/
theorem not_pathsAgree_page : ∃ m, Memory.new .directAccessMemory 0 1024 8 = some m ∧ ¬ PathsAgree m := by
  have hnew : Memory.new .directAccessMemory 0 1024 8 = some ⟨.directAccessMemory, 0, 1024, 8, [], PagedArray.new 1024⟩ :=
    rfl
  exact ⟨_, hnew, not_pathsAgree_of_page hnew (by decide) (by decide)⟩

end Paths

end Tce.Storage
