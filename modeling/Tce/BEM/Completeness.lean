import Tce.BEM.LongImmDst
import Tce.BEM.SocketTables

/-!
# The generated map is complete

When the generator succeeds, and what the binary encoding map has for the machine:
an encoding of its own for everything a field has to name, a code for everything a
socket is connected to, a register field for every destination of long immediates,
and slots that are wide enough for their parts.
-/

namespace Tce.BEM

open PrefixCode

section Specification
variable (m : Machine) (scTableMap : SCTableMap) (bus : Bus)

/-- A socket of the direction that is connected to any segment of the bus, with its codes. -/
def IsSocketOf (direction : Direction) (name : String) (socketCodes : Option SocketCodeTable) : Prop :=
  ∃ socket, (∃ segment ∈ bus.segments, socket ∈ segment) ∧ socket.direction = direction ∧ socket.name = name ∧
    socketCodeTable scTableMap socket = socketCodes

def NeedsNop : Prop := .unconditionalGuard true ∉ bus.guards

/-- What the source field of a bus has encodings for. -/
def InSource : Component → Prop
  | .nop => NeedsNop bus
  | .immediate immediateWidth => immediateWidth = bus.immediateWidth ∧ 0 < immediateWidth
  | .socket name socketCodes => IsSocketOf scTableMap bus .output name socketCodes
  | .bridge name => ∃ bridge ∈ m.bridges, bridge.destinationBus = bus.name ∧ bridge.name = name

/-- What the destination field of a bus has encodings for. -/
def InDestination : Component → Prop
  | .nop => NeedsNop bus
  | .socket name socketCodes => IsSocketOf scTableMap bus .input name socketCodes
  | _ => False

/-- Exactly one encoding for each of some components, and the test finds no two ambiguous. -/
structure OneEach (wanted : Component → Prop) (field : SlotField) : Prop where
  wanted_iff : ∀ component, component ∈ field.encodings.map (·.1) ↔ wanted component
  distinct : field.encodings.Pairwise fun c d => c.1.same d.1 = false
  unambiguous : field.encodings.Pairwise fun c d =>
    ambiguous d.2 c.2 c.2.width ((c.2.width : Int) - d.2.width) = false

/-- One code for each register file, immediate unit, port and operation at the socket. -/
structure CodesOf (socket : Socket) (table : SocketCodeTable) : Prop where
  keys : (table.portCodes.map (·.key)).Perm (socket.ports.flatMap Port.portKeys)
  unambiguous : table.portCodes.Pairwise fun c d => ∃ e f, c.encoding = some e ∧ d.encoding = some f ∧
    ambiguous f e e.width ((e.width : Int) - f.width) = false

/-- A map is complete when its source fields, tables, register fields and slots are, and the
destination field of each bus has one encoding for each of the wanted components. -/
structure Complete (wanted : SCTableMap → Bus → Component → Prop) (bem : BinaryEncoding) : Prop where
  tables : ∀ socket ∈ m.sockets, needsSocketCodeTable socket = true →
    ∃ table, socketCodeTable bem.socketCodeTables socket = some table ∧ CodesOf socket table
  slots : List.Forall₂ (fun bus slot => slot.name = bus.name ∧
    OneEach (wanted bem.socketCodeTables bus) slot.destinationField ∧
    OneEach (InSource m bem.socketCodeTables bus) slot.sourceField) m.buses bem.moveSlots
  registerFields : ∀ iTemp ∈ m.instructionTemplates, ∀ iu ∈ m.immediateUnits, isOneOfDestinations iTemp iu = true →
    1 < iu.numberOfRegisters → ∃ field ∈ bem.longImmDstRegisterFields,
      field.immediateUnit iTemp.name = some iu.name ∧ iu.numberOfRegisters ≤ 2 ^ field.width
  own : bem.longImmDstRegisterFields.Pairwise fun f g => ∀ mapping ∈ f.destinationMap, mapping ∉ g.destinationMap
  widths : ∀ slot ∈ bem.moveSlots, ∀ iTemp ∈ m.instructionTemplates, ∀ part ∈ iTemp.slots, part.slot = slot.name →
    part.width ≤ slot.width

end Specification

section Components
variable {m : Machine} {scTableMap : SCTableMap} {bus : Bus}

theorem createNopField_iff : createNopField bus = true ↔ NeedsNop bus := by
  simp only [createNopField, NeedsNop, Bool.not_eq_true', List.any_eq_false, decide_eq_true_eq]
  exact ⟨fun h hmem => h _ hmem rfl, fun h guard hmem he => h (he ▸ hmem)⟩

theorem nop_mem : Component.nop ∈ nopComponents bus ↔ NeedsNop bus := by
  rw [← createNopField_iff]
  unfold nopComponents
  split <;> simp_all

theorem mem_nopComponents {component : Component} (h : component ∈ nopComponents bus) : component = .nop := by
  unfold nopComponents at h
  split at h
  · exact List.mem_singleton.mp h
  · cases h

theorem socket_mem {direction : Direction} {name : String} {socketCodes : Option SocketCodeTable} :
    .socket name socketCodes ∈ socketComponents scTableMap bus direction ↔
      IsSocketOf scTableMap bus direction name socketCodes := by
  simp only [socketComponents, List.mem_map, Bus.mem_connectedSockets, IsSocketOf, Component.socket.injEq]
  constructor
  · rintro ⟨socket, ⟨hseg, hdir⟩, rfl, rfl⟩
    exact ⟨socket, hseg, hdir, rfl, rfl⟩
  · rintro ⟨socket, hseg, hdir, rfl, rfl⟩
    exact ⟨socket, ⟨hseg, hdir⟩, rfl, rfl⟩

theorem mem_socketComponents {direction : Direction} {component : Component}
    (h : component ∈ socketComponents scTableMap bus direction) : ∃ name codes, component = .socket name codes := by
  obtain ⟨socket, _, rfl⟩ := List.mem_map.mp h
  exact ⟨_, _, rfl⟩

theorem mem_destinationComponents {component : Component} :
    component ∈ destinationComponents scTableMap bus ↔ InDestination scTableMap bus component := by
  rw [destinationComponents, List.mem_append]
  cases component with
  | nop =>
    rw [nop_mem]
    refine ⟨fun h => h.elim id fun h => ?_, Or.inl⟩
    obtain ⟨_, _, h⟩ := mem_socketComponents h
    cases h
  | socket name codes =>
    rw [socket_mem]
    exact ⟨fun h => h.elim (fun h => by cases mem_nopComponents h) id, Or.inr⟩
  | immediate w =>
    refine ⟨fun h => h.elim (fun h => by cases mem_nopComponents h) fun h => ?_, False.elim⟩
    obtain ⟨_, _, h⟩ := mem_socketComponents h
    cases h
  | bridge name =>
    refine ⟨fun h => h.elim (fun h => by cases mem_nopComponents h) fun h => ?_, False.elim⟩
    obtain ⟨_, _, h⟩ := mem_socketComponents h
    cases h

theorem mem_sourceComponents {component : Component} :
    component ∈ sourceComponents m scTableMap bus ↔ InSource m scTableMap bus component := by
  have himm : component ∈ (if 0 < bus.immediateWidth then [Component.immediate bus.immediateWidth] else []) ↔
      0 < bus.immediateWidth ∧ component = .immediate bus.immediateWidth := by
    split <;> simp_all
  have hbridge : component ∈ (m.sourceBridges bus).map (fun bridge => Component.bridge bridge.name) ↔
      ∃ bridge ∈ m.bridges, bridge.destinationBus = bus.name ∧ component = .bridge bridge.name := by
    simp [Machine.sourceBridges, and_assoc, eq_comm]
  simp only [sourceComponents, List.mem_append, himm, hbridge]
  cases component with
  | nop =>
    rw [nop_mem]
    constructor
    · rintro (((h | ⟨_, h⟩) | h) | ⟨_, _, _, h⟩)
      · exact h
      · cases h
      · obtain ⟨_, _, h⟩ := mem_socketComponents h
        cases h
      · cases h
    · exact fun h => .inl (.inl (.inl h))
  | immediate w =>
    constructor
    · rintro (((h | ⟨hpos, h⟩) | h) | ⟨_, _, _, h⟩)
      · cases mem_nopComponents h
      · obtain rfl := Component.immediate.inj h
        exact ⟨rfl, hpos⟩
      · obtain ⟨_, _, h⟩ := mem_socketComponents h
        cases h
      · cases h
    · rintro ⟨rfl, hpos⟩
      exact .inl (.inl (.inr ⟨hpos, rfl⟩))
  | socket name codes =>
    rw [socket_mem]
    constructor
    · rintro (((h | ⟨_, h⟩) | h) | ⟨_, _, _, h⟩)
      · cases mem_nopComponents h
      · cases h
      · exact h
      · cases h
    · exact fun h => .inl (.inr h)
  | bridge name =>
    constructor
    · rintro (((h | ⟨_, h⟩) | h) | ⟨bridge, hmem, hbus, h⟩)
      · cases mem_nopComponents h
      · cases h
      · obtain ⟨_, _, h⟩ := mem_socketComponents h
        cases h
      · exact ⟨bridge, hmem, hbus, (Component.bridge.inj h).symm⟩
    · rintro ⟨bridge, hmem, hbus, rfl⟩
      exact .inr ⟨bridge, hmem, hbus, rfl⟩

theorem nopComponents_distinct : (nopComponents bus).Pairwise fun c d => c.same d = false := by
  unfold nopComponents
  split <;> simp

theorem socketComponents_distinct (hb : bus ∈ m.buses) (direction : Direction) :
    (socketComponents scTableMap bus direction).Pairwise fun c d => c.same d = false := by
  apply List.pairwise_map.mpr
  refine (bus.connectedSockets_nodup direction).imp_of_mem fun {s t} hs ht hne => ?_
  have : s.name ≠ t.name := fun he => hne (m.socket_eq (m.mem_sockets hb hs) (m.mem_sockets hb ht) he)
  simpa [Component.same] using this

theorem same_socket {component : Component} {direction : Direction}
    (h : component ∈ socketComponents scTableMap bus direction) : component.same .nop = false ∧
      Component.nop.same component = false := by
  obtain ⟨name, codes, rfl⟩ := mem_socketComponents h
  exact ⟨rfl, rfl⟩

theorem destinationComponents_compatible (hb : bus ∈ m.buses) : Compatible (destinationComponents scTableMap bus) where
  distinct := by
    refine List.pairwise_append.mpr ⟨nopComponents_distinct, socketComponents_distinct hb .input, ?_⟩
    intro c hc d hd
    obtain rfl := mem_nopComponents hc
    exact (same_socket hd).2
  bridges := by
    have hnone : (destinationComponents scTableMap bus).countP (·.isBridge) = 0 := by
      apply List.countP_eq_zero.mpr
      intro c hc
      have := mem_destinationComponents.mp hc
      cases c with
      | bridge name => exact this.elim
      | _ => simp [Component.isBridge]
    omega
  immediates := fun w h => (mem_destinationComponents.mp h).elim

theorem sourceComponents_compatible (hb : bus ∈ m.buses) : Compatible (sourceComponents m scTableMap bus) where
  distinct := by
    have hbridges : ((m.sourceBridges bus).map fun bridge => Component.bridge bridge.name).Pairwise
        fun c d => c.same d = false := by
      have hnames : (m.sourceBridges bus).Pairwise fun b b' => b.name ≠ b'.name :=
        (List.pairwise_map.mp m.bridges_nodup).sublist List.filter_sublist
      exact List.pairwise_map.mpr (hnames.imp fun h => by simpa [Component.same] using h)
    have himm : (if 0 < bus.immediateWidth then [Component.immediate bus.immediateWidth] else []).Pairwise
        fun c d => c.same d = false := by
      split <;> simp
    have himmof : ∀ c ∈ (if 0 < bus.immediateWidth then [Component.immediate bus.immediateWidth] else []),
        c = Component.immediate bus.immediateWidth := by
      intro c hc
      split at hc
      · exact List.mem_singleton.mp hc
      · cases hc
    refine List.pairwise_append.mpr ⟨List.pairwise_append.mpr ⟨List.pairwise_append.mpr
      ⟨nopComponents_distinct, himm, ?_⟩, socketComponents_distinct hb .output, ?_⟩, hbridges, ?_⟩
    · intro c hc d hd
      obtain rfl := mem_nopComponents hc
      obtain rfl := himmof d hd
      rfl
    · intro c hc d hd
      obtain ⟨name, codes, rfl⟩ := mem_socketComponents hd
      rcases List.mem_append.mp hc with hnop | himm
      · obtain rfl := mem_nopComponents hnop
        rfl
      · obtain rfl := himmof c himm
        rfl
    · intro c hc d hd
      obtain ⟨bridge, _, rfl⟩ := List.mem_map.mp hd
      rcases List.mem_append.mp hc with hrest | hsocket
      · rcases List.mem_append.mp hrest with hnop | himm
        · obtain rfl := mem_nopComponents hnop
          rfl
        · obtain rfl := himmof c himm
          rfl
      · obtain ⟨name, codes, rfl⟩ := mem_socketComponents hsocket
        rfl
  bridges := by
    have hother : ∀ c ∈ nopComponents bus ++
        (if 0 < bus.immediateWidth then [Component.immediate bus.immediateWidth] else []) ++
        socketComponents scTableMap bus .output, ¬ c.isBridge = true := by
      intro c hc
      rcases List.mem_append.mp hc with hrest | hsocket
      · rcases List.mem_append.mp hrest with hnop | himm
        · simp [mem_nopComponents hnop, Component.isBridge]
        · split at himm
          · simp [List.mem_singleton.mp himm, Component.isBridge]
          · cases himm
      · obtain ⟨name, codes, rfl⟩ := mem_socketComponents hsocket
        simp [Component.isBridge]
    rw [sourceComponents, List.countP_append, List.countP_eq_zero.mpr hother, Nat.zero_add]
    refine Nat.le_trans List.countP_le_length ?_
    rw [List.length_map]
    exact m.bridges_le bus hb
  immediates := by
    intro w hw
    exact (mem_sourceComponents.mp hw).2

end Components

section Slots
variable {m : Machine} {scTableMap : SCTableMap} {bus : Bus} {field field' : SlotField}

theorem OneEach.of_fieldOf {components : List Component} {wanted : Component → Prop} (h : FieldOf components field)
    (hmem : ∀ component, component ∈ components ↔ wanted component) (hdistinct : Compatible components) :
    OneEach wanted field where
  wanted_iff component := (h.components.mem_iff).trans (hmem component)
  distinct := by
    have := (h.components.pairwise_iff fun he => Component.same_comm _ _ ▸ he).mpr hdistinct.distinct
    exact List.pairwise_map.mp this
  unambiguous := by
    refine (List.pairwise_map.mp h.ordered).imp fun hpre => ?_
    simpa using (not_congr ambiguous_iff).mpr (not_not_intro hpre.separate)

/-- A destination field has encodings for NOP only if the bus has a socket to write to. -/
def InDestinationOf (scTableMap : SCTableMap) (bus : Bus) (component : Component) : Prop :=
  InDestination scTableMap bus component ∧
    ∃ segment ∈ bus.segments, ∃ socket ∈ segment, socket.direction = .input

theorem connectedSockets_isEmpty (direction : Direction) : (bus.connectedSockets direction).isEmpty = true ↔
    ¬ ∃ segment ∈ bus.segments, ∃ socket ∈ segment, socket.direction = direction := by
  rw [List.isEmpty_iff, List.eq_nil_iff_forall_not_mem]
  simp only [Bus.mem_connectedSockets]
  constructor
  · rintro h ⟨segment, hseg, socket, hs, hdir⟩
    exact h socket ⟨⟨segment, hseg, hs⟩, hdir⟩
  · rintro h socket ⟨⟨segment, hseg, hs⟩, hdir⟩
    exact h ⟨segment, hseg, socket, hs, hdir⟩

theorem addDestinationEncodings_eq_some (hb : bus ∈ m.buses) (hempty : field.encodings = [])
    (hleft : field.componentIDPosition = .left)
    (hfits : FitsWord ((destinationComponents scTableMap bus).map (·.oppositeWidth))) :
    ∃ field', addDestinationEncodings scTableMap bus field = some field' ∧
      OneEach (InDestinationOf scTableMap bus) field' := by
  unfold addDestinationEncodings
  split
  · rename_i hnone
    have hno := (connectedSockets_isEmpty .input).mp hnone
    exact ⟨field, rfl, by simp [hempty, InDestinationOf, hno], by simp [hempty], by simp [hempty]⟩
  · rename_i hsome
    have hsome' := not_not.mp ((connectedSockets_isEmpty .input).not.mp hsome)
    have hcompatible : Compatible (destinationComponents scTableMap bus) := destinationComponents_compatible hb
    obtain ⟨field', hfield'⟩ := addComponents_eq_some hempty hleft hcompatible hfits
    refine ⟨field', hfield', OneEach.of_fieldOf (addComponents_inv hempty hfield').2 (fun c => ?_) hcompatible⟩
    exact mem_destinationComponents.trans ⟨fun h => ⟨h, hsome'⟩, And.left⟩

theorem addSourceEncodings_eq_some (hb : bus ∈ m.buses) (hempty : field.encodings = [])
    (hleft : field.componentIDPosition = .left)
    (hfits : FitsWord ((sourceComponents m scTableMap bus).map (·.oppositeWidth))) :
    ∃ field', addSourceEncodings m scTableMap bus field = some field' ∧
      OneEach (InSource m scTableMap bus) field' := by
  have hcompatible : Compatible (sourceComponents m scTableMap bus) := sourceComponents_compatible hb
  obtain ⟨field', hfield'⟩ := addComponents_eq_some hempty hleft hcompatible hfits
  refine ⟨field', ?_, OneEach.of_fieldOf (addComponents_inv hempty hfield').2 (fun c => mem_sourceComponents) hcompatible⟩
  have hle : (m.sourceBridges bus).length ≤ 2 := m.bridges_le bus hb
  rw [addSourceEncodings, if_pos hle, hfield']

theorem addGuardEncodings_eq_some {guards : List Guard} {i : Nat} {gField : GuardField} (hnodup : guards.Nodup)
    (hnew : ∀ e ∈ gField.encodings, e.1 ∉ guards ∧ e.2 < i) : ∃ gField', addGuardEncodings guards i gField = some gField' := by
  induction guards generalizing i gField with
  | nil => exact ⟨_, rfl⟩
  | cons guard guards ih =>
    obtain ⟨hnotin, htail⟩ := List.nodup_cons.mp hnodup
    have hadd : gField.addGuardEncoding guard i = some { gField with encodings := gField.encodings ++ [(guard, i)] } := by
      unfold GuardField.addGuardEncoding
      rw [if_neg]
      simp only [List.any_eq_true, Bool.or_eq_true, decide_eq_true_eq, not_exists, not_and, not_or]
      intro e he
      obtain ⟨hguard, hlt⟩ := hnew e he
      exact ⟨fun h => hguard (h ▸ List.mem_cons_self), by omega⟩
    have hnew' : ∀ e ∈ gField.encodings ++ [(guard, i)], e.1 ∉ guards ∧ e.2 < i + 1 := by
      intro e he
      rcases List.mem_append.mp he with hold | hlast
      · exact ⟨fun h => (hnew e hold).1 (List.mem_cons_of_mem _ h), by have := (hnew e hold).2; omega⟩
      · obtain rfl := List.mem_singleton.mp hlast
        exact ⟨hnotin, Nat.lt_succ_self i⟩
    obtain ⟨gField', h⟩ := @ih (i + 1) { gField with encodings := gField.encodings ++ [(guard, i)] } htail hnew'
    exact ⟨gField', by simp [addGuardEncodings, hadd, h]⟩

theorem addGuardEncodings_empty (bus : Bus) : ∃ gField, addGuardEncodings bus.guards 0 ⟨[], 0⟩ = some gField :=
  addGuardEncodings_eq_some bus.guards_nodup (by simp)

/-- The slot keeps its fields and gets as wide as the widest part of a long immediate in it. -/
theorem addExtraGuardBits_eq_some (slot : MoveSlot) : ∃ slot', addExtraGuardBits m bus slot = some slot' ∧
    slot'.name = slot.name ∧ slot'.destinationField = slot.destinationField ∧ slot'.sourceField = slot.sourceField ∧
    maxLongImmSlotWidth m slot.name ≤ slot'.width := by
  by_cases hlt : slot.width < maxLongImmSlotWidth m slot.name
  · cases hg : slot.guardField with
    | some gField =>
      simp only [addExtraGuardBits, hlt, if_true, hg]
      refine ⟨_, rfl, rfl, rfl, rfl, ?_⟩
      simp only [MoveSlot.width, hg, Option.map_some, Option.getD_some, GuardField.width] at hlt ⊢
      omega
    | none =>
      obtain ⟨gField, hadd⟩ := addGuardEncodings_empty bus
      simp only [addExtraGuardBits, hlt, if_true, hg, hadd, Option.map_some]
      refine ⟨_, rfl, rfl, rfl, rfl, ?_⟩
      simp only [MoveSlot.width, hg, Option.map_none, Option.getD_none, Option.map_some, Option.getD_some,
        GuardField.width] at hlt ⊢
      omega
  · simp only [addExtraGuardBits, hlt, if_false]
    exact ⟨slot, rfl, rfl, rfl, rfl, by omega⟩

theorem guardFieldOf_eq_some (bus : Bus) : ∃ gField, guardFieldOf bus = some gField := by
  unfold guardFieldOf
  split
  · obtain ⟨gField, hadd⟩ := addGuardEncodings_empty bus
    exact ⟨some gField, by rw [hadd]; rfl⟩
  · exact ⟨none, rfl⟩

theorem addSubfields_eq_some (hb : bus ∈ m.buses)
    (hdst : FitsWord ((destinationComponents scTableMap bus).map (·.oppositeWidth)))
    (hsrc : FitsWord ((sourceComponents m scTableMap bus).map (·.oppositeWidth))) :
    ∃ slot, addSubfields m scTableMap bus = some slot ∧ slot.name = bus.name ∧
      OneEach (InDestinationOf scTableMap bus) slot.destinationField ∧
      OneEach (InSource m scTableMap bus) slot.sourceField ∧ maxLongImmSlotWidth m slot.name ≤ slot.width := by
  obtain ⟨dField, hd, hdone⟩ := @addDestinationEncodings_eq_some _ _ _ ⟨.destinationField, .left, [], 0⟩ hb rfl rfl hdst
  obtain ⟨sField, hs, hsone⟩ := @addSourceEncodings_eq_some _ _ _ ⟨.sourceField, .left, [], 0⟩ hb rfl rfl hsrc
  obtain ⟨gField, hg⟩ := guardFieldOf_eq_some bus
  obtain ⟨slot, hslot, hname, hdf, hsf, hwidth⟩ := @addExtraGuardBits_eq_some m bus
    ⟨bus.name, dField, sField, gField⟩
  refine ⟨slot, ?_, hname, hdf ▸ hdone, hsf ▸ hsone, hname ▸ hwidth⟩
  simp only [addSubfields, hd, hs, hg, Option.bind_some, hslot]

theorem width_le_maxLongImmSlotWidth {iTemp : PIG.InstructionTemplate} {part : PIG.TemplateSlot}
    (ht : iTemp ∈ m.instructionTemplates) (hp : part ∈ iTemp.slots) : part.width ≤ maxLongImmSlotWidth m part.slot := by
  have hmem : part ∈ m.instructionTemplates.flatMap (·.slots) := List.mem_flatMap.mpr ⟨iTemp, ht, hp⟩
  have := le_foldr_max (List.mem_map_of_mem
    (f := fun slot : PIG.TemplateSlot => if slot.slot = part.slot then slot.width else 0) hmem)
  simpa [maxLongImmSlotWidth] using this

theorem addMoveSlots_eq_some {slots : List MoveSlot} {buses : List Bus} (hbuses : ∀ bus ∈ buses, bus ∈ m.buses)
    (hnames : (slots.map (·.name) ++ buses.map (·.name)).Nodup)
    (hfits : ∀ bus ∈ buses, FitsWord ((destinationComponents scTableMap bus).map (·.oppositeWidth)) ∧
      FitsWord ((sourceComponents m scTableMap bus).map (·.oppositeWidth))) :
    ∃ added, addMoveSlots m scTableMap buses slots = some (slots ++ added) ∧
      List.Forall₂ (fun bus slot => slot.name = bus.name ∧ OneEach (InDestinationOf scTableMap bus) slot.destinationField ∧
        OneEach (InSource m scTableMap bus) slot.sourceField) buses added ∧
      ∀ slot ∈ added, maxLongImmSlotWidth m slot.name ≤ slot.width := by
  induction buses generalizing slots with
  | nil => exact ⟨[], by simp [addMoveSlots], List.Forall₂.nil, by simp⟩
  | cons bus buses ih =>
    obtain ⟨hdst, hsrc⟩ := hfits bus List.mem_cons_self
    obtain ⟨slot, hslot, hname, hdone, hsone, hwidth⟩ := addSubfields_eq_some (hbuses bus List.mem_cons_self) hdst hsrc
    have hfresh : slots.any (·.name = bus.name) = false := by
      apply List.any_eq_false.mpr
      intro other hother
      have := (List.nodup_append.mp hnames).2.2 other.name (List.mem_map_of_mem hother) bus.name (by simp)
      simpa using this
    have hnames' : ((slots ++ [slot]).map (·.name) ++ buses.map (·.name)).Nodup := by simpa [hname] using hnames
    obtain ⟨added, hadded, hall, hwidths⟩ := ih (fun b hb => hbuses b (List.mem_cons_of_mem _ hb))
      hnames' (fun b hb => hfits b (List.mem_cons_of_mem _ hb))
    refine ⟨slot :: added, ?_, List.Forall₂.cons ⟨hname, hdone, hsone⟩ hall, ?_⟩
    · simp only [addMoveSlots, hfresh, Bool.false_eq_true, if_false, hslot, Option.bind_some, hadded]
      simp
    · intro s hs
      rcases List.mem_cons.mp hs with rfl | hmem
      · exact hwidth
      · exact hwidths s hmem

theorem addImmediateSlotFields_eq_some {names : List String} {fields : List ImmediateSlotField}
    (h : (fields.map (·.name) ++ names).Nodup) : ∃ fields', addImmediateSlotFields m names fields = some fields' := by
  induction names generalizing fields with
  | nil => exact ⟨_, rfl⟩
  | cons name names ih =>
    unfold addImmediateSlotFields
    split
    · have hfresh : fields.any (·.name = name) = false := by
        apply List.any_eq_false.mpr
        intro other hother
        have := (List.nodup_append.mp h).2.2 other.name (List.mem_map_of_mem hother) name (by simp)
        simpa using this
      rw [hfresh]
      exact ih (by simpa using h)
    · exact ih (h.sublist (List.Sublist.append_left (List.sublist_cons_self _ _) _))

end Slots

section Generate
variable {m : Machine}

/-- Machines the generator is made for. A socket that gets a table of its own has ports with
as many codes as are calculated for them, and numbers of 32 bits suffice for its codes and for
the encodings of the fields; no two indexed destinations of a template fit in the same fields. -/
structure Generable (m : Machine) : Prop where
  codable : ∀ earlier socket later, m.sockets = earlier ++ socket :: later → needsSocketCodeTable socket = true →
    NewTable earlier socket → Codable socket
  apart : DestinationsApart m
  fits : ∀ scTableMap, addSocketCodeTables m.sockets [] = some scTableMap → ∀ bus ∈ m.buses,
    FitsWord ((destinationComponents scTableMap bus).map (·.oppositeWidth)) ∧
      FitsWord ((sourceComponents m scTableMap bus).map (·.oppositeWidth))

/-- The codes of a table stand for all that is at the socket. -/
def CodesAll (socket : Socket) (table : SocketCodeTable) : Prop :=
  TableOf socket table ∧ (table.portCodes.map (·.key)).Perm (socket.ports.flatMap Port.portKeys)

theorem CodesAll.share (socket socket' : Socket) (table : SocketCodeTable)
    (h : haveEqualConnections socket socket' = true) (ht : CodesAll socket' table) : CodesAll socket table :=
  ⟨ht.1.share h, ht.2.trans (portKeys_perm h).symm⟩

theorem CodesAll.codesOf {socket : Socket} {table : SocketCodeTable} (h : CodesAll socket table) :
    CodesOf socket table where
  keys := h.2
  unambiguous := by
    obtain ⟨encodings, hmap, hpair⟩ := h.1.encodings
    have hsome : (table.portCodes.map (·.encoding)).Pairwise fun a b =>
        ∃ e f, a = some e ∧ b = some f ∧ e.Precedes f := by
      rw [hmap]
      exact List.pairwise_map.mpr (hpair.imp fun {e f} hpre => ⟨e, f, rfl, rfl, hpre⟩)
    refine (List.pairwise_map.mp hsome).imp ?_
    rintro c d ⟨e, f, he, hf, hpre⟩
    exact ⟨e, f, he, hf, by simpa using (not_congr ambiguous_iff).mpr (not_not_intro hpre.separate)⟩

theorem Generable.addSocketCodeTables (h : Generable m) : ∃ scTableMap,
    addSocketCodeTables m.sockets [] = some scTableMap ∧ Tables CodesAll m.sockets scTableMap := by
  have hstart : Tables CodesAll [] [] := ⟨rfl, by simp, by simp⟩
  -- a socket without a table is passed over before the property is asked for
  have hmake : ∀ earlier socket later, m.sockets = earlier ++ socket :: later → needsSocketCodeTable socket = true →
      NewTable ([] ++ earlier) socket → ∀ table, addPortCodes ⟨socket.name, [], 0⟩ socket = some table →
      CodesAll socket table := by
    intro earlier socket later hs hneeds hnew table ht
    obtain ⟨table', ht', hperm⟩ := addPortCodes_eq_some (h.codable earlier socket later hs hneeds hnew)
    obtain rfl := Option.some.inj (ht'.symm.trans ht)
    exact ⟨(addPortCodes_inv ht).2, hperm⟩
  obtain ⟨scTableMap, hrun⟩ := addSocketCodeTables_eq_some hstart CodesAll.share (by simpa using m.sockets_nodup)
    (fun earlier socket later hs hneeds hnew =>
      let ⟨table, ht, _⟩ := addPortCodes_eq_some (h.codable earlier socket later hs hneeds hnew)
      ⟨table, ht⟩) hmake
  exact ⟨scTableMap, hrun, by simpa using hstart.run CodesAll.share hmake hrun⟩

/-- **BEM generation is complete.** -/
theorem generate_complete (h : Generable m) :
    ∃ bem, generate m = some bem ∧ Complete m InDestinationOf bem := by
  obtain ⟨scTableMap, htables, hcodes⟩ := h.addSocketCodeTables
  have himmNames : (([] : List ImmediateSlotField).map (·.name) ++ m.immediateSlots).Nodup := by
    simpa using m.immediateSlots_nodup
  obtain ⟨immediateSlotFields, himm⟩ := addImmediateSlotFields_eq_some (m := m) himmNames
  obtain ⟨registerFields, hlimm, hown, hmapped⟩ := addLongImmDstRegisterFields_eq_some h.apart
  have hbusNames : (([] : List MoveSlot).map (·.name) ++ m.buses.map (·.name)).Nodup := by simpa using m.buses_nodup
  obtain ⟨slots, hslots, hall, hwidths⟩ := addMoveSlots_eq_some (fun _ hb => hb) hbusNames (h.fits scTableMap htables)
  rw [List.nil_append] at hslots
  refine ⟨⟨scTableMap, immediateSlotFields, slots, registerFields, immediateControlField m⟩, ?_, ?_, hall, ?_, hown, ?_⟩
  · simp only [generate, htables, Option.bind_some, himm, hlimm, hslots, Option.map_some]
  · intro socket hs hneeds
    have hsome := hcodes.socketCodeTable_isSome hs
    rw [hneeds] at hsome
    obtain ⟨table, htable⟩ := Option.isSome_iff_exists.mp hsome
    exact ⟨table, htable, (hcodes.tables _ (mem_of_socketCodeTable htable)).codesOf⟩
  · intro iTemp ht iu hiu hdst hregs
    have hmem : iu ∈ indexedDestinations m iTemp := List.mem_filter.mpr ⟨hiu, by simp [hdst, hregs]⟩
    obtain ⟨field, hfield, hunit, hle⟩ := hmapped iTemp ht iu hmem
    refine ⟨field, hfield, hunit, ?_⟩
    have := bitLength_le.mp hle
    omega
  · intro slot hslot iTemp ht part hp hname
    exact Nat.le_trans (hname ▸ width_le_maxLongImmSlotWidth ht hp) (hwidths slot hslot)

/-- A machine of one bus with an always-true guard and sockets at its only segment. -/
def oneBus (sockets : List Socket) (iTemps : List PIG.InstructionTemplate) (ius : List ImmediateUnit)
    (hs : (sockets.map (·.name)).Nodup) (ht : (iTemps.map (·.name)).Nodup) (hi : (ius.map (·.name)).Nodup) : Machine where
  sockets := sockets
  buses := [⟨"bus", [sockets], 8, [.unconditionalGuard false], by simp⟩]
  bridges := []
  immediateSlots := []
  instructionTemplates := iTemps
  immediateUnits := ius
  sockets_nodup := hs
  connected := by simp
  buses_nodup := by simp
  bridges_nodup := by simp
  bridges_le := by simp
  immediateSlots_nodup := by simp
  instructionTemplates_nodup := ht
  immediateUnits_nodup := hi

/-- An adder that is written through one socket, next to a register file. -/
def adderSocket : Socket :=
  ⟨"in", .input, [⟨"op", .functionUnit "alu" ["add"], false⟩, ⟨"trigger", .functionUnit "alu" ["add"], true⟩,
    ⟨"write", .registerFile "rf" 8, false⟩], by decide +kernel⟩

theorem generate_complete_adder : ∃ bem, generate (oneBus [adderSocket] [] [] (by decide) (by decide) (by decide)) = some bem ∧
    Complete (oneBus [adderSocket] [] [] (by decide) (by decide) (by decide)) InDestinationOf bem := by
  refine generate_complete ⟨?_, by simp [DestinationsApart, oneBus], ?_⟩
  · intro earlier socket later hs _ _
    have hmem : socket ∈ [adderSocket] := by
      have : socket ∈ earlier ++ socket :: later := by simp
      rwa [← hs] at this
    obtain rfl := List.mem_singleton.mp hmem
    exact ⟨fun h => absurd rfl h, by decide +kernel, by decide +kernel⟩
  · intro scTableMap h bus hb
    have hrun : addSocketCodeTables [adderSocket] [] = some [(adderSocket, ⟨"in",
        [⟨.rf "rf", some ⟨0, 1⟩, 3⟩, ⟨.fu "alu" "op" none, some ⟨2, 0⟩, 0⟩, ⟨.fu "alu" "trigger" (some "add"), some ⟨3, 0⟩, 0⟩],
        0⟩)] := by decide +kernel
    obtain rfl := Option.some.inj (hrun.symm.trans h)
    obtain rfl := List.mem_singleton.mp hb
    exact ⟨by decide +kernel, by decide +kernel⟩

/-- Two operations of a unit whose trigger port is read. -/
def readTrigger : Socket := ⟨"out", .output, [⟨"trigger", .functionUnit "alu" ["add", "sub"], true⟩], by decide +kernel⟩

/-- A template that fills two immediate units of two registers. -/
def twoDestinations : PIG.InstructionTemplate :=
  ⟨"limm", [⟨"bus", 8, "i0"⟩, ⟨"slot", 8, "i1"⟩], by decide, by decide⟩

/-- Register files so large that a code needs more than 32 bits. -/
def wideFiles : Socket :=
  ⟨"out", .output, [⟨"r", .registerFile "r0" (2 ^ 30 + 1), false⟩, ⟨"r", .registerFile "r1" (2 ^ 29 + 1), false⟩,
    ⟨"r", .registerFile "r2" (2 ^ 29 + 1), false⟩, ⟨"r", .registerFile "r3" (2 ^ 29 + 1), false⟩,
    ⟨"r", .registerFile "r4" (2 ^ 29 + 1), false⟩, ⟨"r", .registerFile "r5" (2 ^ 29 + 1), false⟩,
    ⟨"result", .functionUnit "alu" ["add"], false⟩], by decide +kernel⟩

/-- A destination field without sockets has no NOP, and the generator stops at ports that set the
opcode and are read, at destinations that fit in the same fields, and at codes that do not fit. -/
theorem not_generate_complete :
    (¬ ∀ m : Machine, (∀ bus ∈ m.buses, bus.guards ≠ []) → ∃ bem, generate m = some bem ∧ Complete m InDestination bem) ∧
    generate (oneBus [readTrigger] [] [] (by decide) (by decide) (by decide)) = none ∧
    generate (oneBus [] [twoDestinations] [⟨"i0", 2⟩, ⟨"i1", 2⟩] (by decide) (by decide) (by decide)) = none ∧
    generate (oneBus [wideFiles] [] [] (by decide) (by decide) (by decide)) = none := by
  refine ⟨fun h => ?_, ?_, ?_, ?_⟩
  · obtain ⟨bem, hbem, hcomplete⟩ := h (oneBus [] [] [] (by decide) (by decide) (by decide)) (by simp [oneBus])
    have hfields : (generate (oneBus [] [] [] (by decide) (by decide) (by decide))).map
        (fun bem => bem.moveSlots.map fun slot => slot.destinationField.encodings) = some [[]] := by decide +kernel
    rw [hbem, Option.map_some] at hfields
    obtain ⟨slot, rest, ⟨_, hone, _⟩, _, heq⟩ := List.forall₂_cons_left_iff.mp hcomplete.slots
    have hempty : slot.destinationField.encodings = [] := by
      have := Option.some.inj hfields
      rw [heq] at this
      exact (List.cons.inj this).1
    have hnop := (hone.wanted_iff .nop).mpr (by simp [InDestination, NeedsNop])
    simp [hempty] at hnop
  · decide +kernel
  · decide +kernel
  · decide +kernel

end Generate

end Tce.BEM
