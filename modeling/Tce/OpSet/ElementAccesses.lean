import Tce.OpSet.BigEndianMemory

/-!
# Accesses of elements

What one load or store does to a memory that represents bytes, and that the
graphs of several elements do the loads and stores one after another.
-/

namespace Tce.OpSet

open Storage

/-! ## Memories of bytes -/

/-- The memory has the bytes, with the stores that wait for the clock. -/
structure Represents (m : Memory) (s : ByteMemory) : Prop where
  MAUSize : m.MAUSize = 8
  history : ∃ h, Holds m h ∧
    (∀ a, m.InRange a → (h.flush m.memoryClass 8).lastCommitted a = toMAU (s.bytes a)) ∧
    (s.settled = true ∨ m.memoryClass = .directAccessMemory → h.pending = [])

section commits
variable {memoryClass : MemoryClass} {h : History}

theorem lastCommitted_flush (hpending : h.pending = []) (a : Word) :
    (h.flush memoryClass 8).lastCommitted a = h.lastCommitted a := by
  rw [History.flush, hpending]
  rfl

theorem lastCommitted_flush_flush (a : Word) :
    ((h.flush memoryClass 8).flush memoryClass 8).lastCommitted a = (h.flush memoryClass 8).lastCommitted a :=
  lastCommitted_flush rfl a

theorem lastCommitted_flush_queue (units : List (Word × MAU)) (a : Word) :
    ((h.queue units).flush memoryClass 8).lastCommitted a =
      ((h.flush memoryClass 8).commit memoryClass 8 units).lastCommitted a := by
  simp only [History.flush, History.queue, History.commit, History.lastCommitted, List.map_append, List.reverse_append,
    List.append_assoc]

theorem unitsFrom_map_toMAU (address : Word) (l : List Byte) :
    unitsFrom address (l.map toMAU) =
      ((addressesFrom address l.length).zip l).map fun unit => (unit.1, toMAU unit.2) := by
  induction l generalizing address with
  | nil => rfl
  | cons byte rest ih =>
    rw [List.map_cons, unitsFrom, ih]
    rfl

/-- What is committed last is what was stored last. -/
theorem lastCommitted_commit {P : Word → Prop} {bytes : Word → Byte} {units : List (Word × Byte)}
    (hbytes : ∀ a, P a → h.lastCommitted a = toMAU (bytes a)) {a : Word} (ha : P a) :
    (h.commit memoryClass 8 (units.map fun unit => (unit.1, toMAU unit.2))).lastCommitted a =
      toMAU (ByteMemory.storeUnits bytes units a) := by
  induction units generalizing h bytes with
  | nil => exact hbytes a ha
  | cons unit units ih =>
    rw [List.map_cons, commit_cons]
    apply ih
    intro b hb
    rw [lastCommitted_commit_single, stored_toMAU, hbytes b hb]
    dsimp only
    by_cases hunit : b = unit.1
    · rw [if_pos hunit, hunit, Function.update_self]
    · rw [if_neg hunit, Function.update_of_ne hunit]

end commits

section ranges
variable {m : Memory} {address : Word} {count : Nat}

theorem start_le_of_checkRange (h : m.checkRange address count = true) : m.start.toNat ≤ address.toNat := by
  simp only [Memory.checkRange, BitVec.lt_def, Bool.not_eq_true', Bool.or_eq_false_iff, decide_eq_false_iff_not] at h
  exact Nat.le_of_not_lt h.1

/-- The range check is right when it does not wrap around. -/
theorem checkRange_iff (hpos : 0 < count) (hwrap : count ≤ m.end_.toNat + 1) :
    m.checkRange address count = true ↔ m.Within address count := by
  refine ⟨fun h => ?_, Memory.Within.checkRange⟩
  have hend := m.end_.isLt
  have hlast : (m.end_ - BitVec.ofNat 32 count + 1).toNat = (m.end_.toNat + 1 - count) % 2 ^ 32 := by
    rw [BitVec.toNat_add, BitVec.toNat_sub, BitVec.toNat_ofNat]
    have hone : (1 : Word).toNat = 1 := rfl
    omega
  simp only [Memory.checkRange, BitVec.lt_def, hlast, Bool.not_eq_true', Bool.or_eq_false_iff,
    decide_eq_false_iff_not] at h
  exact ⟨hpos, by omega, by omega⟩

theorem accessible_iff {size alignment : Nat} (hpos : 0 < size) :
    Accessible m.start m.end_ size alignment address ↔ address.toNat % alignment = 0 ∧ m.Within address size :=
  and_congr_right fun _ => (and_iff_right hpos).symm

end ranges

/-! ## One element -/

section element
variable {m : Memory} {s : ByteMemory}

/-- A memory that has changed in its contents and requests only. -/
def Changed (m m' : Memory) : Prop := ∃ contents writeRequests, m' = { m with contents, writeRequests }

theorem Changed.refl (m : Memory) : Changed m m := ⟨_, _, rfl⟩

theorem Changed.trans {m m' m'' : Memory} (h : Changed m m') (h' : Changed m' m'') : Changed m m'' := by
  obtain ⟨_, _, rfl⟩ := h
  obtain ⟨contents, writeRequests, rfl⟩ := h'
  exact ⟨contents, writeRequests, rfl⟩

theorem whenAligned_eq {α : Type} {size : Nat} {address : Word} (h : address.toNat % size = 0) (m : Memory)
    (access : MemoryResult α) : whenAligned size address m access = access := if_neg (by simpa using h)

/-- An access that is not aligned throws, and so does one that the memory refuses. -/
theorem whenAligned_fault {α : Type} {size alignment : Nat} {address : Word} {access : MemoryResult α} (hpos : 0 < size)
    (hwrap : Unwrapped m.start m.end_ size alignment address) (h : ¬Accessible m.start m.end_ size alignment address)
    (hrange : ¬m.checkRange address size = true → access = some (m, .error .outOfRange)) :
    ∃ fault, whenAligned alignment address m access = some (m, .error fault) := by
  by_cases haligned : address.toNat % alignment = 0
  · have hrefused : ¬m.checkRange address size = true := fun hcheck =>
      have hsize := hwrap haligned (start_le_of_checkRange hcheck)
      h ((accessible_iff hpos).2 ⟨haligned, (checkRange_iff hpos hsize).1 hcheck⟩)
    rw [whenAligned_eq haligned, hrange hrefused]
    exact ⟨_, rfl⟩
  · exact ⟨_, if_pos haligned⟩

theorem shiftsDefined_of_le {size : Nat} (hm : Represents m s) (hle : size ≤ 4) :
    shiftsDefined m.MAUSize size = true := by
  rw [hm.MAUSize]
  exact decide_eq_true (by omega)

/-- A store of a word is queued or committed. -/
theorem store_spec (hm : Represents m s) {size : Nat} (hpos : 0 < size) (hle : size ≤ 4) {address : Word}
    (haccessible : Accessible m.start m.end_ size size address) (data : Word) :
    ∃ m', store size address data m = some (m', .ok ()) ∧ Changed m m' ∧
      Represents m' ⟨ByteMemory.store s.bytes size address data.toNat, false⟩ := by
  obtain ⟨haligned, hwithin⟩ := (accessible_iff hpos).1 haccessible
  obtain ⟨h, hholds, hbytes, hpending⟩ := hm.history
  obtain ⟨contents, writeRequests, hwrite, hholds'⟩ :=
    answers_write hholds hwithin (shiftsDefined_of_le hm hle) (Nat.le_trans hle (by decide)) data
  have hunits : unitsFrom address (unpack m.MAUSize data size) =
      ((addressesFrom address size).zip (BigEndian.bytes size data.toNat)).map fun unit => (unit.1, toMAU unit.2) := by
    rw [hm.MAUSize, unpack_eq, unitsFrom_map_toMAU, BigEndian.length_bytes]
  have hstored {a : Word} (ha : m.InRange a) : ((h.queue (unitsFrom address (unpack m.MAUSize data size))).flush
      m.memoryClass 8).lastCommitted a = toMAU (ByteMemory.store s.bytes size address data.toNat a) := by
    rw [lastCommitted_flush_queue, hunits]
    exact lastCommitted_commit hbytes ha
  unfold store
  have hdone : (h.access m.memoryClass m.MAUSize (.write address size data)).2 = .done := by
    unfold History.access
    cases m.memoryClass <;> rfl
  rw [whenAligned_eq haligned, hwrite, hdone]
  refine ⟨_, rfl, ⟨contents, writeRequests, rfl⟩, hm.MAUSize, _, hholds', ?_⟩
  by_cases hclass : m.memoryClass = .idealSRAM
  · have hqueued : (h.access m.memoryClass m.MAUSize (.write address size data)).1 =
        h.queue (unitsFrom address (unpack m.MAUSize data size)) := by
      rw [hclass]
      rfl
    rw [hqueued]
    refine ⟨fun a ha => hstored ha, fun hsettled => ?_⟩
    cases hsettled with
    | inl hfalse => cases hfalse
    | inr hdirect => cases hclass.symm.trans hdirect
  · have hdirect : m.memoryClass = .directAccessMemory := by
      cases hm' : m.memoryClass with
      | idealSRAM => exact absurd hm' hclass
      | directAccessMemory => rfl
    have hflushed : (h.access m.memoryClass m.MAUSize (.write address size data)).1 =
        (h.queue (unitsFrom address (unpack m.MAUSize data size))).flush m.memoryClass 8 := by
      rw [hdirect, ← hm.MAUSize]
      rfl
    rw [hflushed]
    refine ⟨fun a ha => ?_, fun _ => rfl⟩
    rw [lastCommitted_flush_flush]
    exact hstored ha

theorem store_fault {size : Nat} (hpos : 0 < size) {address : Word}
    (hwrap : Unwrapped m.start m.end_ size size address) (h : ¬Accessible m.start m.end_ size size address)
    (data : Word) :
    ∃ fault, store size address data m = some (m, .error fault) := by
  apply whenAligned_fault hpos hwrap h
  intro hrefused
  rw [Memory.write, if_neg hrefused]
  rfl

/-- The bytes in the memory, when no stores wait. -/
theorem lastCommitted_settled {h : History}
    (hbytes : ∀ a, m.InRange a → (h.flush m.memoryClass 8).lastCommitted a = toMAU (s.bytes a))
    (hpending : h.pending = []) {address : Word} {size : Nat} (hrange : ∀ a ∈ addressesFrom address size, m.InRange a) :
    (addressesFrom address size).map h.lastCommitted = ((addressesFrom address size).map s.bytes).map toMAU := by
  rw [List.map_map]
  apply List.map_congr_left
  intro a ha
  rw [← lastCommitted_flush hpending]
  exact hbytes a (hrange a ha)

theorem load_spec (hm : Represents m s) {size : Nat} (hpos : 0 < size) (hle : size ≤ 4) {address : Word}
    (haccessible : Accessible m.start m.end_ size size address) (extend : Memory → Word → Word) :
    ∃ data, load size extend address m = some (m, .ok (extend m data)) ∧
      (s.settled = true → data = BitVec.ofNat 32 (ByteMemory.value s.bytes size address)) := by
  obtain ⟨haligned, hwithin⟩ := (accessible_iff hpos).1 haccessible
  obtain ⟨h, hholds, hbytes, hpending⟩ := hm.history
  have hread : m.read address size =
      some (m, .value (pack m.MAUSize ((addressesFrom address size).map h.lastCommitted)).toNat) := by
    rw [Memory.read, if_pos hwithin.checkRange, if_pos (shiftsDefined_of_le hm hle),
      readMAUs_spec hholds (inRange_of_mem hwithin), Option.map_some]
  refine ⟨pack m.MAUSize ((addressesFrom address size).map h.lastCommitted), ?_, fun hsettled => ?_⟩
  · unfold load
    rw [whenAligned_eq haligned, hread]
    dsimp only [Option.map_some, readResult]
    rw [BitVec.ofNat_toNat, BitVec.setWidth_eq]
  · rw [lastCommitted_settled hbytes (hpending (.inl hsettled)) (inRange_of_mem hwithin), hm.MAUSize, pack_map_toMAU]
    rfl

theorem load_fault {size : Nat} (hpos : 0 < size) {address : Word}
    (hwrap : Unwrapped m.start m.end_ size size address) (h : ¬Accessible m.start m.end_ size size address)
    (extend : Memory → Word → Word) :
    ∃ fault, load size extend address m = some (m, .error fault) := by
  apply whenAligned_fault hpos hwrap h
  intro hrefused
  rw [Memory.read, if_neg hrefused]
  rfl

/-! ## Double words -/

theorem std_spec (hm : Represents m s) (hclass : m.memoryClass = .idealSRAM) {address : Word}
    (haccessible : Accessible m.start m.end_ 8 4 address) (data : BitVec 64) :
    ∃ m', std address data m = some (m', .ok ()) ∧ Changed m m' ∧
      Represents m' ⟨ByteMemory.store s.bytes 8 address data.toNat, false⟩ := by
  obtain ⟨haligned, hwithin⟩ := (accessible_iff (by decide)).1 haccessible
  obtain ⟨h, hholds, hbytes, hpending⟩ := hm.history
  obtain ⟨contents, writeRequests, hwrite, hholds'⟩ := answers_writeFloat hholds hwithin hm.MAUSize data.toNat
  have hunits : unitsFrom address (bytesOf data.toNat 8) =
      ((addressesFrom address 8).zip (BigEndian.bytes 8 data.toNat)).map fun unit => (unit.1, toMAU unit.2) := by
    rw [bytesOf_eq, unitsFrom_map_toMAU, BigEndian.length_bytes]
  unfold std
  rw [whenAligned_eq haligned, Memory.writeDoubleWord, hwrite]
  refine ⟨_, rfl, ⟨contents, writeRequests, rfl⟩, hm.MAUSize, _, hholds', fun a ha => ?_, fun hsettled => ?_⟩
  · rw [lastCommitted_flush_queue, hunits, lastCommitted_commit hbytes ha]
    rfl
  · cases hsettled with
    | inl hfalse => cases hfalse
    | inr hdirect => cases hclass.symm.trans hdirect

theorem std_fault (hm : Represents m s) {address : Word} (hwrap : Unwrapped m.start m.end_ 8 4 address)
    (h : ¬Accessible m.start m.end_ 8 4 address) (data : BitVec 64) :
    ∃ fault, std address data m = some (m, .error fault) := by
  apply whenAligned_fault (by decide) hwrap h
  intro hrefused
  rw [Memory.writeDoubleWord, Memory.writeFloat, if_pos hm.MAUSize, if_neg hrefused]
  rfl

theorem ldd_spec (hm : Represents m s) {address : Word} (haccessible : Accessible m.start m.end_ 8 4 address) :
    ∃ bits, ldd address m = some (m, .ok bits) ∧
      (s.settled = true → bits = BitVec.ofNat 64 (ByteMemory.value s.bytes 8 address)) := by
  obtain ⟨haligned, hwithin⟩ := (accessible_iff (by decide)).1 haccessible
  obtain ⟨h, hholds, hbytes, hpending⟩ := hm.history
  have hall : (addressesFrom address 8).all (fun a => m.checkRange a 1) = true := by
    apply List.all_eq_true.2
    intro a ha
    obtain ⟨hlow, hhigh⟩ := inRange_of_mem hwithin a ha
    exact Memory.Within.checkRange ⟨Nat.one_pos, hlow, by omega⟩
  have hread : m.readDoubleWord address =
      some (m, .value (ofBytes ((addressesFrom address 8).map h.lastCommitted))) := by
    rw [Memory.readDoubleWord, if_pos hm.MAUSize, Memory.readBytes, if_pos hall,
      readMAUs_spec hholds (inRange_of_mem hwithin), Option.map_some]
  refine ⟨BitVec.ofNat 64 (ofBytes ((addressesFrom address 8).map h.lastCommitted)), ?_, fun hsettled => ?_⟩
  · unfold ldd
    rw [whenAligned_eq haligned, hread]
    rfl
  · rw [lastCommitted_settled hbytes (hpending (.inl hsettled)) (inRange_of_mem hwithin), ofBytes_map_toMAU]
    rfl

/-- A load of a double word changes nothing, whatever its address is. -/
theorem ldd_unchanged (hm : Represents m s) (address : Word) : ∃ result, ldd address m = some (m, result) := by
  obtain ⟨h, hholds, -⟩ := hm.history
  unfold ldd whenAligned
  split
  · exact ⟨_, rfl⟩
  · rw [Memory.readDoubleWord, if_pos hm.MAUSize, Memory.readBytes]
    split
    · next hall =>
      have hrange : ∀ a ∈ addressesFrom address 8, m.InRange a := by
        intro a ha
        have hcheck := List.all_eq_true.1 hall a ha
        exact ((checkRange_iff Nat.one_pos (by omega)).1 hcheck).inRange
      rw [readMAUs_spec hholds hrange]
      exact ⟨_, rfl⟩
    · exact ⟨_, rfl⟩

/-- The stores are committed, and the bytes are as before. -/
theorem advanceClock_spec (hm : Represents m s) :
    ∃ m', m.advanceClock = some (m', .done) ∧ Changed m m' ∧ Represents m' { s with settled := true } := by
  obtain ⟨h, hholds, hbytes, hpending⟩ := hm.history
  unfold Memory.advanceClock
  cases hclass : m.memoryClass with
  | idealSRAM =>
    obtain ⟨contents, hcommit, hholds'⟩ := commit_spec hholds
    dsimp only
    rw [hcommit]
    refine ⟨_, rfl, ⟨contents, [], rfl⟩, hm.MAUSize, _, hholds', fun a ha => ?_, fun _ => rfl⟩
    rw [hm.MAUSize, lastCommitted_flush_flush]
    exact hbytes a ha
  | directAccessMemory =>
    exact ⟨m, rfl, Changed.refl m, hm.MAUSize, h, hholds, hbytes, fun _ => hpending (.inr hclass)⟩

/-! ## Loads and stores by name -/

theorem Load.size_pos (op : Load) : 0 < op.size ∧ op.size ≤ 4 := by
  cases op <;> decide

theorem Store.size_pos (op : Store) : 0 < op.size ∧ op.size ≤ 4 := by
  cases op <;> decide

theorem Load.trigger_spec (hm : Represents m s) (op : Load) {address : Word}
    (haccessible : Accessible m.start m.end_ op.size op.size address) :
    ∃ data, op.trigger address m = some (m, .ok data) ∧
      (s.settled = true → data = op.extended (ByteMemory.value s.bytes op.size address)) := by
  have hload (extend : Memory → Word → Word) := load_spec hm op.size_pos.1 op.size_pos.2 haccessible extend
  have hwidth {width value : Nat} (h : width ≤ 32) :
      (BitVec.ofNat 32 value).setWidth width = BitVec.ofNat width value := BitVec.setWidth_ofNat_of_le h value
  cases op with
  | LDQ =>
    obtain ⟨data, hdata, hvalue⟩ := hload fun m data => signExtend data m.MAUSize
    refine ⟨_, hdata, fun hsettled => ?_⟩
    rw [hvalue hsettled, hm.MAUSize, signExtend_eq _ (by decide) (by decide), hwidth (by decide)]
    rfl
  | LDQU =>
    obtain ⟨data, hdata, hvalue⟩ := hload fun m data => zeroExtend data m.MAUSize
    refine ⟨_, hdata, fun hsettled => ?_⟩
    rw [hvalue hsettled, hm.MAUSize, zeroExtend_eq _ (by decide), hwidth (by decide)]
    rfl
  | LDH =>
    obtain ⟨data, hdata, hvalue⟩ := hload fun m data => signExtend data (m.MAUSize * 2)
    refine ⟨_, hdata, fun hsettled => ?_⟩
    rw [hvalue hsettled, hm.MAUSize, signExtend_eq _ (by decide) (by decide), hwidth (by decide)]
    rfl
  | LDHU =>
    obtain ⟨data, hdata, hvalue⟩ := hload fun m data => zeroExtend data (m.MAUSize * 2)
    refine ⟨_, hdata, fun hsettled => ?_⟩
    rw [hvalue hsettled, hm.MAUSize, zeroExtend_eq _ (by decide), hwidth (by decide)]
    rfl
  | LDW =>
    obtain ⟨data, hdata, hvalue⟩ := hload fun _ data => data
    exact ⟨_, hdata, hvalue⟩

theorem Load.trigger_fault (op : Load) {address : Word} (hwrap : Unwrapped m.start m.end_ op.size op.size address)
    (h : ¬Accessible m.start m.end_ op.size op.size address) :
    ∃ fault, op.trigger address m = some (m, .error fault) := by
  have hload (extend : Memory → Word → Word) := load_fault op.size_pos.1 hwrap h extend
  cases op with
  | LDQ => exact hload fun m data => signExtend data m.MAUSize
  | LDQU => exact hload fun m data => zeroExtend data m.MAUSize
  | LDH => exact hload fun m data => signExtend data (m.MAUSize * 2)
  | LDHU => exact hload fun m data => zeroExtend data (m.MAUSize * 2)
  | LDW => exact hload fun _ data => data

theorem Store.trigger_spec (hm : Represents m s) (op : Store) {address : Word}
    (haccessible : Accessible m.start m.end_ op.size op.size address) (data : Word) :
    ∃ m', op.trigger address data m = some (m', .ok ()) ∧ Changed m m' ∧
      Represents m' ⟨ByteMemory.store s.bytes op.size address data.toNat, false⟩ := by
  have hstore := store_spec hm op.size_pos.1 op.size_pos.2 haccessible data
  cases op <;> exact hstore

theorem Store.trigger_fault (op : Store) {address : Word} (hwrap : Unwrapped m.start m.end_ op.size op.size address)
    (h : ¬Accessible m.start m.end_ op.size op.size address) (data : Word) :
    ∃ fault, op.trigger address data m = some (m, .error fault) := by
  have hstore := store_fault op.size_pos.1 hwrap h data
  cases op <;> exact hstore

end element

/-! ## One after another -/

/-- The loads of a graph in turn. -/
def Load.inTurn (op : Load) : Nat → Word → MemoryContext → List Word × MemoryContext
  | 0, _, context => ([], context)
  | count + 1, address, context =>
    let result := executeIn (op.trigger address) context
    let rest := op.inTurn count (address + BitVec.ofInt 32 op.size) result.1
    (loaded result.2 :: rest.1, rest.2)

/-- The stores of a graph in turn. -/
def Store.inTurn (op : Store) : List Word → Word → MemoryContext → MemoryContext
  | [], _, context => context
  | data :: rest, address, context =>
    op.inTurn rest (address + BitVec.ofInt 32 op.size) (executeIn (op.trigger address data) context).1

/-- The graphs of loads do them in turn. -/
theorem Load.simulateStatements_eq (op : Load) (n : Elements) (operands : Nat → Word) (m : Memory) :
    (simulateStatements ⟨"", 1, n.count, true⟩ (elementStatements op.name op.size n) operands m).map
        (fun r => ((List.range n.count).map fun k => r.1 (k + 2), r.2)) =
      some (op.inTurn n.count (operands 1) (some (m, none))) := by
  cases op <;> cases n <;> rfl

theorem Store.simulateStatements_eq (op : Store) (n : Elements) (operands : Nat → Word) (m : Memory) :
    (simulateStatements ⟨"", n.count + 1, 0, true⟩ (elementStatements op.name op.size n) operands m).map (·.2) =
      some (op.inTurn ((List.range n.count).map fun k => operands (k + 2)) (operands 1) (some (m, none))) := by
  cases op <;> cases n <;> rfl

section turns
variable {m : Memory} {s : ByteMemory}

theorem next_address (address : Word) (size : Nat) :
    address + BitVec.ofInt 32 size = address + BitVec.ofNat 32 size := by
  rw [BitVec.ofInt_natCast]

/-- After an exception no load is executed. -/
theorem Load.inTurn_fault (op : Load) (fault : MemoryFault) (count : Nat) (address : Word) :
    (op.inTurn count address (some (m, some fault))).2 = some (m, some fault) := by
  induction count generalizing address with
  | zero => rfl
  | succ count ih =>
    rw [inTurn]
    exact ih _

theorem Store.inTurn_fault (op : Store) (fault : MemoryFault) (data : List Word) (address : Word) :
    op.inTurn data address (some (m, some fault)) = some (m, some fault) := by
  induction data generalizing address with
  | nil => rfl
  | cons data rest ih =>
    rw [inTurn]
    exact ih _

/-- Loads of accessible elements give their values. -/
theorem Load.inTurn_spec (hm : Represents m s) (op : Load) {count : Nat} {address : Word}
    (haccessible : ∀ a ∈ elementAddresses op.size count address, Accessible m.start m.end_ op.size op.size a) :
    ∃ values, op.inTurn count address (some (m, none)) = (values, some (m, none)) ∧
      (s.settled = true → values =
        (elementAddresses op.size count address).map fun a => op.extended (ByteMemory.value s.bytes op.size a)) := by
  induction count generalizing address with
  | zero => exact ⟨[], rfl, fun _ => rfl⟩
  | succ count ih =>
    obtain ⟨hfirst, hrest⟩ := List.forall_mem_cons.1 haccessible
    obtain ⟨data, hdata, hvalue⟩ := op.trigger_spec hm hfirst
    obtain ⟨values, hvalues, hall⟩ := ih hrest
    refine ⟨data :: values, ?_, fun hsettled => ?_⟩
    · rw [inTurn, next_address]
      simp only [executeIn, hdata, contextAfter, loaded, hvalues]
    · rw [hvalue hsettled, hall hsettled]
      rfl

/-- A load with an element that is not accessible throws, and changes nothing. -/
theorem Load.inTurn_not_accessible (hm : Represents m s) (op : Load) {count : Nat} {address : Word}
    (hwrap : Unwrapped m.start m.end_ op.size op.size address)
    (h : ¬∀ a ∈ elementAddresses op.size count address, Accessible m.start m.end_ op.size op.size a) :
    ∃ fault, (op.inTurn count address (some (m, none))).2 = some (m, some fault) := by
  induction count generalizing address with
  | zero => exact absurd (fun a ha => nomatch ha) h
  | succ count ih =>
    rw [inTurn, next_address]
    by_cases hfirst : Accessible m.start m.end_ op.size op.size address
    · obtain ⟨data, hdata, -⟩ := op.trigger_spec hm hfirst
      simp only [executeIn, hdata, contextAfter]
      -- The range check wraps around at no address if it does not at one in the memory.
      have hsize : op.size ≤ m.end_.toNat + 1 := by
        have hlast := hfirst.2.2
        omega
      exact ih (fun _ _ => hsize) fun hrest => h (List.forall_mem_cons.2 ⟨hfirst, hrest⟩)
    · obtain ⟨fault, hfault⟩ := op.trigger_fault hwrap hfirst
      simp only [executeIn, hfault, contextAfter]
      exact ⟨fault, op.inTurn_fault fault count _⟩

/-- Stores of accessible elements store them one after another. -/
theorem Store.inTurn_spec (hm : Represents m s) (op : Store) {data : List Word} {address : Word}
    (haccessible : ∀ a ∈ elementAddresses op.size data.length address, Accessible m.start m.end_ op.size op.size a)
    (hne : data ≠ []) :
    ∃ m', op.inTurn data address (some (m, none)) = some (m', none) ∧ Changed m m' ∧
      Represents m' ⟨ByteMemory.storeElements op.size data address s.bytes, false⟩ := by
  induction data generalizing m s address with
  | nil => exact absurd rfl hne
  | cons data rest ih =>
    obtain ⟨hfirst, hrest⟩ := List.forall_mem_cons.1 haccessible
    obtain ⟨m', hstore, hchanged, hm'⟩ := op.trigger_spec hm hfirst data
    rw [inTurn, next_address]
    simp only [executeIn, hstore, contextAfter]
    cases rest with
    | nil => exact ⟨m', rfl, hchanged, hm'⟩
    | cons second rest =>
      obtain ⟨contents, writeRequests, rfl⟩ := hchanged
      obtain ⟨m'', hstores, hchanged', hm''⟩ := ih hm' hrest (List.cons_ne_nil _ _)
      exact ⟨m'', hstores, Changed.trans ⟨contents, writeRequests, rfl⟩ hchanged', hm''⟩

/-- When the first element is not accessible, no store is executed. -/
theorem Store.inTurn_not_accessible (op : Store) {data : List Word} {address : Word}
    (hwrap : Unwrapped m.start m.end_ op.size op.size address)
    (h : ¬Accessible m.start m.end_ op.size op.size address) (hne : data ≠ []) :
    ∃ fault, op.inTurn data address (some (m, none)) = some (m, some fault) := by
  cases data with
  | nil => exact absurd rfl hne
  | cons data rest =>
    obtain ⟨fault, hfault⟩ := op.trigger_fault hwrap h data
    rw [inTurn]
    simp only [executeIn, hfault, contextAfter]
    exact ⟨fault, op.inTurn_fault fault rest _⟩

end turns

end Tce.OpSet
