import Tce.OpSet.ElementAccesses

/-!
# Runs of memory operations

Every access behaves as that of one big-endian memory when its range check does
not wrap around, no store ends in the middle and no double word waits.
-/

namespace Tce.OpSet

open Storage

/-! ## Graphs -/

/-- What loads in turn give. -/
def turnsResult {α : Type} (values : α) (context : MemoryContext) : MemoryResult α :=
  context.map fun c =>
    (c.1, match c.2 with
      | some fault => .error fault
      | none => .ok values)

theorem bind_graphResult {α : Type} (outputs : (Nat → Word) → α) (result : Option ((Nat → Word) × MemoryContext)) :
    result.bind (graphResult outputs) =
      (result.map fun r => (outputs r.1, r.2)).bind fun r => turnsResult r.1 r.2 := by
  cases result <;> rfl

theorem Load.elements_eq (op : Load) (n : Elements) (address : Word) (m : Memory) :
    op.elements n address m =
      turnsResult (op.inTurn n.count address (some (m, none))).1 (op.inTurn n.count address (some (m, none))).2 := by
  have hgraph : (simulateStatements ⟨"", 1, n.count, true⟩ (elementStatements op.name op.size n)
      (operandValues [address]) m).bind
      (graphResult fun operands => (List.range n.count).map fun k => operands (k + 2)) =
      turnsResult (op.inTurn n.count address (some (m, none))).1 (op.inTurn n.count address (some (m, none))).2 := by
    rw [bind_graphResult, op.simulateStatements_eq n]
    rfl
  cases n with
  | one =>
    change (op.trigger address m).map _ = _
    simp only [Elements.count, inTurn, executeIn]
    rcases op.trigger address m with _ | ⟨m', fault | word⟩ <;> rfl
  | two => exact hgraph
  | four => exact hgraph
  | eight => exact hgraph

theorem Store.elements_eq (op : Store) (n : Elements) (address : Word) (data : List Word) (m : Memory) :
    op.elements n address data m = turnsResult () (op.inTurn (elementData n data) address (some (m, none))) := by
  have hgraph : (simulateStatements ⟨"", n.count + 1, 0, true⟩ (elementStatements op.name op.size n)
      (operandValues (address :: data)) m).bind (graphResult fun _ => ()) =
      turnsResult () (op.inTurn (elementData n data) address (some (m, none))) := by
    have hturns := op.simulateStatements_eq n (operandValues (address :: data)) m
    rw [bind_graphResult]
    revert hturns
    cases simulateStatements ⟨"", n.count + 1, 0, true⟩ (elementStatements op.name op.size n)
      (operandValues (address :: data)) m with
    | none => exact fun hturns => nomatch hturns
    | some result => exact fun hturns => congrArg (turnsResult ()) (Option.some.inj hturns)
  cases n with
  | one =>
    change op.trigger address (data.getD 0 0) m = _
    simp only [elementData, Elements.count, List.range_one, List.map_singleton, inTurn, executeIn]
    rcases op.trigger address (data.getD 0 0) m with _ | ⟨m', fault | ⟨⟩⟩ <;> rfl
  | two => exact hgraph
  | four => exact hgraph
  | eight => exact hgraph

theorem length_elementData (n : Elements) (data : List Word) : (elementData n data).length = n.count := by
  rw [elementData, List.length_map, List.length_range]

theorem elementData_ne_nil (n : Elements) (data : List Word) : elementData n data ≠ [] := by
  cases n <;> exact List.cons_ne_nil _ _

/-! ## Steps -/

section steps
variable {m : Memory} {s : ByteMemory}

/-- A step of the memory and of the bytes. -/
def Step (access : MemoryAccess) (m : Memory) (s : ByteMemory) : Prop :=
  ∃ m' answer t, access.perform m = some (m', answer) ∧ access.Behaves m.start m.end_ s t answer ∧ Changed m m' ∧
    Represents m' t

theorem step_load (hm : Represents m s) (op : Load) (n : Elements) (address : Word)
    (hwrap : Unwrapped m.start m.end_ op.size op.size address) : Step (.load op n address) m s := by
  by_cases hlegal : (MemoryAccess.load op n address).Legal m.start m.end_
  · obtain ⟨values, hturns, hvalues⟩ := op.inTurn_spec hm hlegal
    refine ⟨m, .words values, s, ?_, (if_pos hlegal).mpr ⟨rfl, values, rfl, hvalues⟩, Changed.refl m, hm⟩
    rw [MemoryAccess.perform, op.elements_eq, hturns]
    rfl
  · obtain ⟨fault, hfault⟩ := op.inTurn_not_accessible hm hwrap hlegal
    refine ⟨m, .fault fault, s, ?_, (if_neg hlegal).mpr ⟨rfl, fun _ => ⟨fault, rfl⟩⟩, Changed.refl m, hm⟩
    rw [MemoryAccess.perform, op.elements_eq, hfault]
    rfl

theorem step_store (hm : Represents m s) (op : Store) (n : Elements) (address : Word) (data : List Word)
    (hwrap : Unwrapped m.start m.end_ op.size op.size address)
    (hwhole : Accessible m.start m.end_ op.size op.size address →
      (MemoryAccess.store op n address data).Legal m.start m.end_) :
    Step (.store op n address data) m s := by
  have hne := elementData_ne_nil n data
  by_cases hlegal : (MemoryAccess.store op n address data).Legal m.start m.end_
  · have haccessible : ∀ a ∈ elementAddresses op.size (elementData n data).length address,
        Accessible m.start m.end_ op.size op.size a := by
      rw [length_elementData]
      exact hlegal
    obtain ⟨m', hturns, hchanged, hm'⟩ := op.inTurn_spec hm haccessible hne
    refine ⟨m', .done, _, ?_, (if_pos hlegal).mpr ⟨rfl, rfl⟩, hchanged, hm'⟩
    rw [MemoryAccess.perform, op.elements_eq, hturns]
    rfl
  · obtain ⟨fault, hfault⟩ := op.inTurn_not_accessible hwrap (fun hfirst => hlegal (hwhole hfirst)) hne
    refine ⟨m, .fault fault, s, ?_, (if_neg hlegal).mpr ⟨rfl, fun _ => ⟨fault, rfl⟩⟩, Changed.refl m, hm⟩
    rw [MemoryAccess.perform, op.elements_eq, hfault]
    rfl

theorem step_loadDouble (hm : Represents m s) (address : Word) : Step (.loadDouble address) m s := by
  by_cases hlegal : (MemoryAccess.loadDouble address).Legal m.start m.end_
  · obtain ⟨bits, hbits, hvalue⟩ := ldd_spec hm hlegal
    refine ⟨m, .doubleWord bits, s, ?_, (if_pos hlegal).mpr ⟨rfl, bits, rfl, hvalue⟩, Changed.refl m, hm⟩
    rw [MemoryAccess.perform, hbits]
    rfl
  · obtain ⟨result, hresult⟩ := ldd_unchanged hm address
    refine ⟨m, (answerWith .doubleWord (m, result)).2, s, ?_,
      (if_neg hlegal).mpr ⟨rfl, fun h => absurd rfl (h address)⟩, Changed.refl m, hm⟩
    rw [MemoryAccess.perform, hresult]
    rfl

theorem step_storeDouble (hm : Represents m s) (address : Word) (data : BitVec 64)
    (hwrap : Unwrapped m.start m.end_ 8 4 address)
    (hclass : Accessible m.start m.end_ 8 4 address → m.memoryClass = .idealSRAM) :
    Step (.storeDouble address data) m s := by
  by_cases hlegal : (MemoryAccess.storeDouble address data).Legal m.start m.end_
  · obtain ⟨m', hstore, hchanged, hm'⟩ := std_spec hm (hclass hlegal) hlegal data
    refine ⟨m', .done, _, ?_, (if_pos hlegal).mpr ⟨rfl, rfl⟩, hchanged, hm'⟩
    rw [MemoryAccess.perform, hstore]
    rfl
  · obtain ⟨fault, hfault⟩ := std_fault hm hwrap hlegal data
    refine ⟨m, .fault fault, s, ?_, (if_neg hlegal).mpr ⟨rfl, fun _ => ⟨fault, rfl⟩⟩, Changed.refl m, hm⟩
    rw [MemoryAccess.perform, hfault]
    rfl

theorem step_advanceClock (hm : Represents m s) : Step .advanceClock m s := by
  obtain ⟨m', hadvance, hchanged, hm'⟩ := advanceClock_spec hm
  refine ⟨m', .done, { s with settled := true }, ?_, (if_pos trivial).mpr ⟨rfl, rfl⟩, hchanged, hm'⟩
  rw [MemoryAccess.perform, hadvance]
  rfl

theorem step_of_sound (hm : Represents m s) {access : MemoryAccess}
    (hsound : access.Sound m.memoryClass m.start m.end_) : Step access m s := by
  cases access with
  | load op n address => exact step_load hm op n address hsound
  | loadDouble address => exact step_loadDouble hm address
  | store op n address data => exact step_store hm op n address data hsound.1 hsound.2
  | storeDouble address data => exact step_storeDouble hm address data hsound.1 hsound.2
  | advanceClock => exact step_advanceClock hm

/-- The accesses of a run behave one after another. -/
theorem conforms_of_sound (hm : Represents m s) {accesses : List MemoryAccess}
    (hsound : ∀ access ∈ accesses, access.Sound m.memoryClass m.start m.end_) :
    Conforms m.start m.end_ accesses s m := by
  induction accesses generalizing m s with
  | nil => trivial
  | cons access accesses ih =>
    obtain ⟨hfirst, hrest⟩ := List.forall_mem_cons.1 hsound
    obtain ⟨m', answer, t, hperform, hbehaves, ⟨contents, writeRequests, rfl⟩, hm'⟩ := step_of_sound hm hfirst
    exact ⟨_, answer, t, hperform, hbehaves, ih hm' hrest⟩

/-- A new memory has the bytes that are written to it unit by unit. -/
theorem represents_initial {memoryClass : MemoryClass} {start end_ : Word}
    (h : Memory.new memoryClass start end_ 8 = some m) (hsize : (end_ - start).toNat % memChunkSize ≠ 0)
    {units : List (Word × Byte)} (hunits : ∀ unit ∈ units, m.InRange unit.1) :
    ∃ m', Memory.writeMAUs (units.map fun unit => (unit.1, toMAU unit.2)) m = some m' ∧ Changed m m' ∧
      Represents m' (.initial units) := by
  have hMAUSize : m.MAUSize = 8 := by
    unfold Memory.new at h
    split at h
    · rw [← Option.some.inj h]
    · cases h
  have hmapped : ∀ unit ∈ units.map fun unit => (unit.1, toMAU unit.2), m.InRange unit.1 := by
    intro unit hunit
    obtain ⟨unit', hunit', rfl⟩ := List.mem_map.1 hunit
    exact hunits unit' hunit'
  obtain ⟨contents, hwrite, hholds⟩ := writeMAUs_spec (holds_new h hsize) hmapped
  refine ⟨_, hwrite, ⟨contents, m.writeRequests, rfl⟩, hMAUSize, _, hholds, fun a ha => ?_, fun _ => rfl⟩
  rw [lastCommitted_flush rfl, hMAUSize]
  have hzero : ∀ a, m.InRange a → (⟨[], []⟩ : History).lastCommitted a = toMAU ((fun _ => 0 : Word → Byte) a) :=
    fun _ _ => rfl
  exact lastCommitted_commit hzero ha

end steps

/-! ## Correctness -/

section correctness
variable {memoryClass : MemoryClass} {start end_ : Word} {m : Memory}

/-- With all initial bytes, all sound accesses behave as those of one big-endian memory. -/
def BigEndianMemory (memoryClass : MemoryClass) (start end_ : Word) (m : Memory) : Prop :=
  ∀ (units : List (Word × Byte)) (accesses : List MemoryAccess), (∀ unit ∈ units, start ≤ unit.1 ∧ unit.1 ≤ end_) →
    (∀ access ∈ accesses, access.Sound memoryClass start end_) →
    ∃ m', Memory.writeMAUs (units.map fun unit => (unit.1, toMAU unit.2)) m = some m' ∧
      Conforms start end_ accesses (.initial units) m'

/-- **Loads and stores see one big-endian memory** in all sound runs exactly if the last
address is not the first one of a page. -/
theorem bigEndianMemory_iff (h : Memory.new memoryClass start end_ 8 = some m) (hle : start ≤ end_) :
    BigEndianMemory memoryClass start end_ m ↔ (end_ - start).toNat % memChunkSize ≠ 0 := by
  have hm : m = ⟨memoryClass, start, end_, 8, [], PagedArray.new (end_ - start).toNat⟩ := by
    unfold Memory.new at h
    split at h
    · exact (Option.some.inj h).symm
    · cases h
  constructor
  · intro hmemory
    have hle' := BitVec.le_def.mp hle
    have hsound : ∀ access ∈ [MemoryAccess.load .LDQU .one end_], access.Sound memoryClass start end_ := by
      intro access haccess
      obtain rfl := List.mem_singleton.1 haccess
      exact fun _ _ => Nat.succ_le_succ (Nat.zero_le _)
    obtain ⟨m', hwrite, m'', answer, -, hperform, -⟩ := hmemory [] _ (fun _ hunit => nomatch hunit) hsound
    obtain rfl := Option.some.inj hwrite
    have hlast : (PagedArray.new (end_ - start).toNat : MemoryContents).InTable (end_ - start).toNat := by
      by_contra hout
      have hnone := PagedArray.readData_eq_none (0 : MAU) hout
      have hwithin : m.Within end_ 1 := by
        rw [hm]
        exact ⟨Nat.one_pos, hle', Nat.le_refl _⟩
      have hread : m.readMAUs (addressesFrom end_ 1) = none := by
        rw [hm]
        simp only [addressesFrom, Memory.readMAUs, List.mapM_cons, Memory.readMAU, hnone]
        rfl
      have hload : Load.LDQU.elements .one end_ m = none := by
        change (ldqu end_ m).map _ = none
        unfold ldqu load
        rw [whenAligned_eq (Nat.mod_one _), Memory.read, if_pos hwithin.checkRange, hread, hm]
        rfl
      rw [MemoryAccess.perform, hload] at hperform
      cases hperform
    exact PagedArray.inTable_new_size.mp fun i hi => hlast.mono hi
  · intro hsize units accesses hunits hsound
    have hrange : ∀ unit ∈ units, m.InRange unit.1 := by
      rw [hm]
      exact fun unit hunit => (hunits unit hunit).imp BitVec.le_def.mp BitVec.le_def.mp
    obtain ⟨m', hwrite, ⟨contents, writeRequests, rfl⟩, hrepresents⟩ := represents_initial h hsize hrange
    refine ⟨_, hwrite, ?_⟩
    subst hm
    exact conforms_of_sound hrepresents hsound

/-- A memory of a page less a byte. -/
theorem bigEndianMemory_kilobyte :
    ∃ m, Memory.new .idealSRAM 0 1023 8 = some m ∧ BigEndianMemory .idealSRAM 0 1023 m := by
  have h : Memory.new .idealSRAM 0 1023 8 = some ⟨.idealSRAM, 0, 1023, 8, [], PagedArray.new 1023⟩ := rfl
  exact ⟨_, h, (bigEndianMemory_iff h (by decide)).mpr (by decide)⟩

/-- A double word that is stored to the memory with direct access is not there after the clock has advanced. -/
theorem not_conforms_storeDouble : ∃ m, Memory.new .directAccessMemory 0 7 8 = some m ∧
    ¬Conforms 0 7 [.storeDouble 0 1, .advanceClock, .loadDouble 0] (.initial []) m := by
  refine ⟨_, rfl, ?_⟩
  rintro ⟨m₁, answer₁, t₁, hstore, ⟨rfl, -⟩, m₂, answer₂, t₂, hadvance, ⟨rfl, -⟩, m₃, answer₃, t₃, hload,
    ⟨-, bits, rfl, hbits⟩, -⟩
  obtain ⟨rfl, -⟩ := Prod.mk.inj (Option.some.inj hstore)
  obtain ⟨rfl, -⟩ := Prod.mk.inj (Option.some.inj hadvance)
  obtain ⟨-, hzero⟩ := Prod.mk.inj (Option.some.inj hload)
  have hone : bits = 1 := hbits rfl
  cases hone
  exact absurd hzero (by decide)

end correctness

end Tce.OpSet
