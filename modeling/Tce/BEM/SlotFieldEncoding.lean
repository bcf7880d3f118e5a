import Mathlib.Data.List.Pairwise
import Tce.BEM.Completeness
import Tce.PIG.InstructionWord

/-!
# The bits of source and destination fields

What the compressor plugin writes into a source or destination field for the
terminal of a move, or for no move, with the component ID at the left end. What
throws, or is undefined, gives no bits.
-/

namespace Tce.BEM

/-! ## What every generated map has -/

/-- A source field is read from the sockets that write to the bus. -/
def FieldKind.direction : FieldKind → Direction
  | .sourceField => .output
  | .destinationField => .input

def MoveSlot.field (slot : MoveSlot) : FieldKind → SlotField
  | .sourceField => slot.sourceField
  | .destinationField => slot.destinationField

/-- A field with separate encodings at the left end, in which a socket has its own table. -/
structure GeneratedField (scTableMap : SCTableMap) (bus : Bus) (direction : Direction) (field : SlotField) : Prop where
  left : field.componentIDPosition = .left
  ordered : (field.encodings.map (·.2)).Pairwise Encoding.Precedes
  distinct : field.encodings.Pairwise fun c d => c.1.same d.1 = false
  sockets : ∀ name socketCodes enc, (.socket name socketCodes, enc) ∈ field.encodings →
    IsSocketOf scTableMap bus direction name socketCodes

section Fields
variable {m : Machine} {scTableMap : SCTableMap} {bus : Bus} {field field' : SlotField} {direction : Direction}

theorem GeneratedField.of_fieldOf {components : List Component} (h : FieldOf components field)
    (hleft : field.componentIDPosition = .left) (hdistinct : components.Pairwise fun c d => c.same d = false)
    (hsockets : ∀ name socketCodes, .socket name socketCodes ∈ components →
      IsSocketOf scTableMap bus direction name socketCodes) : GeneratedField scTableMap bus direction field where
  left := hleft
  ordered := h.ordered
  distinct := by
    have := (h.components.pairwise_iff fun he => Component.same_comm _ _ ▸ he).mpr hdistinct
    exact List.pairwise_map.mp this
  sockets name socketCodes enc hmem := hsockets name socketCodes (h.components.mem_iff.mp (List.mem_map_of_mem hmem))

theorem addDestinationEncodings_inv (hb : bus ∈ m.buses)
    (h : addDestinationEncodings scTableMap bus ⟨.destinationField, .left, [], 0⟩ = some field) :
    GeneratedField scTableMap bus .input field := by
  unfold addDestinationEncodings at h
  split at h
  · obtain rfl := Option.some.inj h
    exact ⟨rfl, by simp, by simp, by simp⟩
  · obtain ⟨heq, hfield⟩ := addComponents_inv rfl h
    refine GeneratedField.of_fieldOf hfield (by rw [heq]) (destinationComponents_compatible hb).distinct ?_
    exact fun name codes hmem => mem_destinationComponents.mp hmem

theorem addSourceEncodings_inv (hb : bus ∈ m.buses)
    (h : addSourceEncodings m scTableMap bus ⟨.sourceField, .left, [], 0⟩ = some field) :
    GeneratedField scTableMap bus .output field := by
  unfold addSourceEncodings at h
  split at h
  case isFalse => cases h
  obtain ⟨heq, hfield⟩ := addComponents_inv rfl h
  refine GeneratedField.of_fieldOf hfield (by rw [heq]) (sourceComponents_compatible hb).distinct ?_
  exact fun name codes hmem => mem_sourceComponents.mp hmem

theorem addExtraGuardBits_inv {slot slot' : MoveSlot} (h : addExtraGuardBits m bus slot = some slot') :
    slot'.name = slot.name ∧ slot'.destinationField = slot.destinationField ∧ slot'.sourceField = slot.sourceField := by
  obtain ⟨s, hs, hname, hd, hsrc, _⟩ := addExtraGuardBits_eq_some (m := m) slot
  obtain rfl := Option.some.inj (hs.symm.trans h)
  exact ⟨hname, hd, hsrc⟩

theorem addSubfields_inv (hb : bus ∈ m.buses) {slot : MoveSlot} (h : addSubfields m scTableMap bus = some slot) :
    slot.name = bus.name ∧ ∀ kind, GeneratedField scTableMap bus (FieldKind.direction kind) (slot.field kind) := by
  obtain ⟨dField, hd, h⟩ := Option.bind_eq_some_iff.mp h
  obtain ⟨sField, hs, h⟩ := Option.bind_eq_some_iff.mp h
  obtain ⟨gField, _, h⟩ := Option.bind_eq_some_iff.mp h
  obtain ⟨hname, hdf, hsf⟩ := addExtraGuardBits_inv h
  refine ⟨hname, fun kind => ?_⟩
  cases kind with
  | sourceField =>
    simp only [MoveSlot.field, hsf]
    exact addSourceEncodings_inv hb hs
  | destinationField =>
    simp only [MoveSlot.field, hdf]
    exact addDestinationEncodings_inv hb hd

theorem addMoveSlots_inv {buses : List Bus} {slots slots' : List MoveSlot} (hbuses : ∀ bus ∈ buses, bus ∈ m.buses)
    (h : addMoveSlots m scTableMap buses slots = some slots') :
    ∃ added, slots' = slots ++ added ∧ List.Forall₂ (fun bus slot => slot.name = bus.name ∧
      ∀ kind, GeneratedField scTableMap bus (FieldKind.direction kind) (slot.field kind)) buses added := by
  induction buses generalizing slots with
  | nil =>
    obtain rfl := Option.some.inj h
    exact ⟨[], by simp, List.Forall₂.nil⟩
  | cons bus buses ih =>
    unfold addMoveSlots at h
    split at h
    · cases h
    · obtain ⟨slot, hslot, h⟩ := Option.bind_eq_some_iff.mp h
      obtain ⟨added, rfl, hall⟩ := ih (fun b hb => hbuses b (List.mem_cons_of_mem _ hb)) h
      exact ⟨slot :: added, by simp, List.Forall₂.cons (addSubfields_inv (hbuses bus List.mem_cons_self) hslot) hall⟩

/-- The slots of a generated map are those of the buses. -/
theorem generate_inv {bem : BinaryEncoding} (h : generate m = some bem) :
    Tables TableOf m.sockets bem.socketCodeTables ∧
      List.Forall₂ (fun bus slot => slot.name = bus.name ∧
        ∀ kind, GeneratedField bem.socketCodeTables bus (FieldKind.direction kind) (slot.field kind))
        m.buses bem.moveSlots := by
  obtain ⟨scTableMap, htables, h⟩ := Option.bind_eq_some_iff.mp h
  obtain ⟨_, _, h⟩ := Option.bind_eq_some_iff.mp h
  obtain ⟨_, _, h⟩ := Option.bind_eq_some_iff.mp h
  obtain ⟨slots, hslots, rfl⟩ := Option.map_eq_some_iff.mp h
  constructor
  · have hstart : Tables TableOf [] [] := ⟨rfl, by simp, by simp⟩
    simpa using hstart.run (fun _ _ _ heq ht => ht.share heq)
      (fun _ _ _ _ _ _ table ht => (addPortCodes_inv ht).2) htables
  · obtain ⟨added, hadded, hall⟩ := addMoveSlots_inv (fun _ hb => hb) hslots
    rw [List.nil_append] at hadded
    exact hadded ▸ hall

end Fields

/-! ## The encoding of slot fields -/

open PIG (pushBack)

/-- What a field is programmed to: a terminal with the socket its port has for the field,
or no move. -/
inductive Programming where
  | nop
  | immediate (value : Nat)
  | registerFile (socketName rfName : String) (index : Nat)
  | immediateUnit (socketName iuName : String) (index : Nat)
  | fuPort (socketName fuName portName : String) (operationName : Option String)
  deriving DecidableEq, Repr

section Encoding
variable (field : SlotField)

def noOperationEncoding : Option Encoding := (field.encodings.find? fun c => c.1 = .nop).map (·.2)

/-- The encoding of the immediate. -/
def immediateEncoding : Option Encoding :=
  (field.encodings.find? fun c => c.1.same (.immediate 0)).map (·.2)

/-- The encoding of a socket with its codes, if it has any. -/
def socketEncoding (socketName : String) : Option (Encoding × Option SocketCodeTable) :=
  field.encodings.findSome? fun c =>
    match c.1 with
    | .socket name socketCodes => if name = socketName then some (c.2, socketCodes) else none
    | _ => none

/-- The bits of an encoding at the left or right end of the others. -/
def aligned (idBits otherBits : List Bool) : List Bool :=
  match field.componentIDPosition with
  | .left => idBits ++ otherBits
  | .right => otherBits ++ idBits

/-- `CodeCompressorPlugin::encodeSlotField`. -/
def encodeSlotField (componentIDBits socketCodeBits : List Bool) : Option (List Bool) :=
  (pushBack 0 (field.width - componentIDBits.length - socketCodeBits.length)).map fun zeros =>
    match field.componentIDPosition with
    | .left => componentIDBits ++ zeros ++ socketCodeBits
    | .right => socketCodeBits ++ zeros ++ componentIDBits

/-- The part of `CodeCompressorPlugin::encodeNOP` for one field of a slot. -/
def encodeNOP (hasAlwaysFalseGuard : Bool) : Option (List Bool) :=
  if field.width = 0 then some []
  else
    match noOperationEncoding field with
    | none => if hasAlwaysFalseGuard then pushBack 0 field.width else none
    | some encoding =>
      match field.componentIDPosition with
      | .left =>
        (pushBack encoding.encoding encoding.width).bind fun code =>
          (pushBack 0 (field.width - encoding.width)).map (code ++ ·)
      | .right => pushBack encoding.encoding field.width

/-- `CodeCompressorPlugin::encodeImmediateTerminal`, of an immediate that is not relocated. -/
def encodeImmediateTerminal (value : Nat) : Option (List Bool) :=
  (immediateEncoding field).bind fun encoding =>
    (pushBack value (field.width - encoding.width)).bind fun immediateBits =>
      (pushBack encoding.encoding encoding.width).map fun code => aligned field code immediateBits

def portCode (socketCodes : SocketCodeTable) (key : PortKey) : Option PortCode :=
  socketCodes.portCodes.find? (·.key = key)

def encodingBits (portCode : PortCode) : Option (List Bool) :=
  match portCode.encoding with
  | none => some []
  | some encoding => pushBack encoding.encoding portCode.encodingWidth

/-- `CodeCompressorPlugin::socketCodeBits`. -/
def socketCodeBits (socketCodes : SocketCodeTable) (portCode : PortCode) (registerIndex : Nat) : Option (List Bool) :=
  (encodingBits portCode).bind fun code =>
    (pushBack registerIndex (socketCodes.width - portCode.encodingWidth)).map (code ++ ·)

/-- The code of a register behind a socket, or none if the socket ID says all. -/
def registerCode (socketCodes : Option SocketCodeTable) (key : PortKey) (index : Nat) : Option (List Bool) :=
  match socketCodes with
  | none => some []
  | some socketCodes => (portCode socketCodes key).bind fun code => socketCodeBits socketCodes code index

/-- The code of a function unit port, in the width of the table. -/
def fuCode (socketCodes : Option SocketCodeTable) (key : PortKey) : Option (List Bool) :=
  match socketCodes with
  | none => some []
  | some socketCodes =>
    (portCode socketCodes key).bind fun code =>
      code.encoding.bind fun encoding => pushBack encoding.encoding socketCodes.width

/-- What `encodeRFTerminal`, `encodeIUTerminal` and `encodeFUTerminal` do with the codes of
the socket. -/
def encodeTerminal (socketName : String) (codeBits : Option SocketCodeTable → Option (List Bool)) :
    Option (List Bool) :=
  (socketEncoding field socketName).bind fun socketID =>
    (pushBack socketID.1.encoding socketID.1.width).bind fun socketIDBits =>
      (codeBits socketID.2).bind fun codeBits => encodeSlotField field socketIDBits codeBits

def encodeRFTerminal (socketName rfName : String) (index : Nat) : Option (List Bool) :=
  encodeTerminal field socketName fun socketCodes => registerCode socketCodes (.rf rfName) index

def encodeIUTerminal (socketName iuName : String) (index : Nat) : Option (List Bool) :=
  encodeTerminal field socketName fun socketCodes => registerCode socketCodes (.iu iuName) index

def encodeFUTerminal (socketName fuName portName : String) (operationName : Option String) : Option (List Bool) :=
  encodeTerminal field socketName fun socketCodes => fuCode socketCodes (.fu fuName portName operationName)

def encode (hasAlwaysFalseGuard : Bool) : Programming → Option (List Bool)
  | .nop => encodeNOP field hasAlwaysFalseGuard
  | .immediate value => encodeImmediateTerminal field value
  | .registerFile socketName rfName index => encodeRFTerminal field socketName rfName index
  | .immediateUnit socketName iuName index => encodeIUTerminal field socketName iuName index
  | .fuPort socketName fuName portName operationName => encodeFUTerminal field socketName fuName portName operationName

end Encoding

end Tce.BEM

/-!
## Reading a source or destination field back

The component whose encoding starts the field says what the rest of it is: the
value of an immediate, or at the right end the code of a port with the index of a
register after it.
-/

namespace Tce.BEM

open PIG (pushBack pushBack_eq)
open PrefixCode Bits

/-- The word that a bus makes of an immediate of the given width. -/
def extendImmediate (signExtends : Bool) (width value : Nat) : Nat :=
  if signExtends && value.testBit (width - 1) then value + (2 ^ 32 - 2 ^ width) else value

section Decoding
variable (m : Machine) (signExtends : Bool) (field : SlotField)

def programmingOf (socketName : String) (index : Nat) : PortKey → Programming
  | .fu fuName portName operationName => .fuPort socketName fuName portName operationName
  | .rf rfName => .registerFile socketName rfName index
  | .iu iuName => .immediateUnit socketName iuName index

def codeBits (code : PortCode) : List Bool := (code.encoding.map Encoding.bits).getD []

/-- A socket without codes has one port, of which there is one thing to name. -/
def decodeSocket (socketName : String) (socketCodes : Option SocketCodeTable) (s : List Bool) : Option Programming :=
  match socketCodes with
  | none =>
    (m.sockets.find? fun socket => socket.name = socketName).bind fun socket =>
      (socket.ports.flatMap Port.portKeys).head?.map (programmingOf socketName 0)
  | some table =>
    (PrefixCode.decode (table.portCodes.map fun code => (codeBits code, code)) (s.drop (s.length - table.width))).map fun r =>
      programmingOf socketName (value r.2) r.1.key

def decodeComponent (component : Component) (s : List Bool) : Option Programming :=
  match component with
  | .nop => some .nop
  | .immediate _ => some (.immediate (extendImmediate signExtends s.length (value s)))
  | .socket name socketCodes => decodeSocket m name socketCodes s
  | .bridge _ => none

/-- A field without encodings says that there is no move. -/
def decodeSlotField (s : List Bool) : Option Programming :=
  if field.encodings.isEmpty then some .nop
  else
    (PrefixCode.decode (field.encodings.map fun c => (c.2.bits, c.1)) s).bind fun r =>
      decodeComponent m signExtends r.1 r.2

end Decoding

section Programmings
variable (m : Machine) (signExtends : Bool) (bus : Bus) (direction : Direction) (field : SlotField)

/-- What a field of the bus can be programmed to: no move, an immediate that its bits
represent, or a register, port or operation at a socket of the bus. -/
inductive Programs : Programming → Prop
  | nop : Programs .nop
  | immediate (value : Nat) (represented : ∀ enc, immediateEncoding field = some enc →
      extendImmediate signExtends (field.width - enc.width) (value % 2 ^ (field.width - enc.width)) = value) :
      Programs (.immediate value)
  | registerFile (socket : Socket) (hs : socket ∈ bus.connectedSockets direction) (port : Port)
      (hp : port ∈ socket.ports) (rf : String) (n : Nat) (unit : port.parentUnit = .registerFile rf n) (index : Nat)
      (lt : index < n) : Programs (.registerFile socket.name rf index)
  | immediateUnit (socket : Socket) (hs : socket ∈ bus.connectedSockets direction) (port : Port)
      (hp : port ∈ socket.ports) (iu : String) (n : Nat) (unit : port.parentUnit = .immediateUnit iu n) (index : Nat)
      (lt : index < n) : Programs (.immediateUnit socket.name iu index)
  | fuPort (socket : Socket) (hs : socket ∈ bus.connectedSockets direction) (port : Port) (hp : port ∈ socket.ports)
      (fu : String) (operations : List String) (unit : port.parentUnit = .functionUnit fu operations)
      (op : Option String) (key : .fu fu port.name op ∈ port.portKeys) :
      Programs (.fuPort socket.name fu port.name op)

/-- A field that can have another programming has an encoding for NOP, and the code of a
function unit port is as wide as its table. -/
def Distinguished : Programming → Prop
  | .nop => field.encodings = [] ∨ ∃ enc, noOperationEncoding field = some enc
  | .fuPort socketName fuName portName operationName =>
    ∀ enc table code, socketEncoding field socketName = some (enc, some table) →
      portCode table (.fu fuName portName operationName) = some code → code.encodingWidth = table.width
  | _ => True

end Programmings

section Reading
variable {m : Machine} {bem : BinaryEncoding} {bus : Bus} {direction : Direction} {field : SlotField}
  {socket : Socket} {table : SocketCodeTable}

theorem pushBack_some {v n : Nat} {s : List Bool} (h : pushBack v n = some s) : s = bits v n := by
  rw [pushBack_eq] at h
  split at h
  · exact (Option.some.inj h).symm
  · cases h

theorem decodeSlotField_append (hfield : GeneratedField bem.socketCodeTables bus direction field)
    {component : Component} {enc : Encoding} (hc : (component, enc) ∈ field.encodings) (signExtends : Bool)
    (rest : List Bool) :
    decodeSlotField m signExtends field (enc.bits ++ rest) = decodeComponent m signExtends component rest := by
  have hne : field.encodings.isEmpty = false := by
    cases hnil : field.encodings with
    | nil => simp [hnil] at hc
    | cons => rfl
  have hseparate : (field.encodings.map fun c => (c.2.bits, c.1)).Pairwise fun c d => Separate c.1 d.1 :=
    List.pairwise_map.mpr ((List.pairwise_map.mp hfield.ordered).imp fun h => h.separate)
  have hmem : (enc.bits, component) ∈ field.encodings.map fun c => (c.2.bits, c.1) :=
    List.mem_map_of_mem (f := fun c : Component × Encoding => (c.2.bits, c.1)) hc
  simp [decodeSlotField, hne, decode_of_mem hseparate hmem rest]

theorem decode_table (ht : TableOf socket table) {code : PortCode} (hc : code ∈ table.portCodes) (rest : List Bool) :
    PrefixCode.decode (table.portCodes.map fun code => (codeBits code, code)) (codeBits code ++ rest) =
      some (code, rest) := by
  obtain ⟨encodings, hmap, hordered⟩ := ht.encodings
  have hseparate : (table.portCodes.map (·.encoding)).Pairwise fun a b =>
      Separate ((a.map Encoding.bits).getD []) ((b.map Encoding.bits).getD []) := by
    rw [hmap]
    exact List.pairwise_map.mpr (hordered.imp fun h => h.separate)
  have hcodes := List.pairwise_map.mp hseparate
  apply decode_of_mem
  · exact List.pairwise_map.mpr hcodes
  · exact List.mem_map_of_mem (f := fun code : PortCode => (codeBits code, code)) hc

/-- The code stands at the right end of the field. -/
theorem decodeSocket_append (ht : TableOf socket table) {code : PortCode} (hc : code ∈ table.portCodes)
    {rest : List Bool} (hwidth : (codeBits code ++ rest).length = table.width) (name : String) (zeros : List Bool) :
    decodeSocket m name (some table) (zeros ++ (codeBits code ++ rest)) =
      some (programmingOf name (value rest) code.key) := by
  have hdrop : (zeros ++ (codeBits code ++ rest)).drop ((zeros ++ (codeBits code ++ rest)).length - table.width) =
      codeBits code ++ rest := by
    rw [List.length_append, hwidth, Nat.add_sub_cancel]
    exact List.drop_left
  simp only [decodeSocket, hdrop, decode_table ht hc, Option.map_some]

theorem socketEncoding_some {name : String} {enc : Encoding} {socketCodes : Option SocketCodeTable}
    (h : socketEncoding field name = some (enc, socketCodes)) : (.socket name socketCodes, enc) ∈ field.encodings := by
  obtain ⟨c, hc, h⟩ := List.exists_of_findSome?_eq_some h
  split at h
  · rename_i codes hcomp
    split at h
    · rename_i heq
      obtain ⟨rfl, rfl⟩ := Prod.mk.inj (Option.some.inj h)
      rw [← heq, ← hcomp]
      exact hc
    · cases h
  · cases h

/-- A terminal is encoded as the socket, zeros, and the code of the port. -/
theorem encodeTerminal_some (hleft : field.componentIDPosition = .left) {name : String} {s : List Bool}
    {code : Option SocketCodeTable → Option (List Bool)} (h : encodeTerminal field name code = some s) :
    ∃ enc socketCodes codeBits zeros, socketEncoding field name = some (enc, socketCodes) ∧
      code socketCodes = some codeBits ∧ s = enc.bits ++ (zeros ++ codeBits) := by
  obtain ⟨⟨enc, socketCodes⟩, henc, h⟩ := Option.bind_eq_some_iff.mp h
  obtain ⟨idBits, hid, h⟩ := Option.bind_eq_some_iff.mp h
  obtain ⟨codeBits, hcode, h⟩ := Option.bind_eq_some_iff.mp h
  obtain ⟨zeros, _, rfl⟩ := Option.map_eq_some_iff.mp h
  obtain rfl := pushBack_some hid
  exact ⟨enc, socketCodes, codeBits, zeros, henc, hcode, by simp [hleft, Encoding.bits]⟩

theorem portCode_some {key : PortKey} {code : PortCode} (h : portCode table key = some code) :
    code ∈ table.portCodes ∧ code.key = key :=
  ⟨List.mem_of_find?_eq_some h, by simpa using List.find?_some h⟩

/-- Ports of a socket that have a code in common are one port. -/
theorem port_of_key {port port' : Port} (hp : port ∈ socket.ports) (hp' : port' ∈ socket.ports) {key : PortKey}
    (hkey : key ∈ port.portKeys) (hkey' : key ∈ port'.portKeys) : port = port' := by
  obtain ⟨_, hapart⟩ := List.nodup_flatMap.mp socket.keys_nodup
  by_contra hne
  have : Std.Symm (Function.onFun List.Disjoint Port.portKeys) := ⟨fun _ _ h _ hb ha => h ha hb⟩
  exact hapart.forall hp hp' hne hkey hkey'

theorem width_of_key (ht : TableOf socket table) {port : Port} (hp : port ∈ socket.ports) {key : PortKey}
    (hkey : key ∈ port.portKeys) {code : PortCode} (hcode : portCode table key = some code) :
    code.encodingWidth + port.indexWidth ≤ table.width := by
  obtain ⟨hmem, rfl⟩ := portCode_some hcode
  obtain ⟨port', hp', hkey', hwidth⟩ := ht.widths code hmem
  obtain rfl := port_of_key hp hp' hkey hkey'
  have := SocketCodeTable.width_le hmem
  rwa [PortCode.width, hwidth] at this

theorem encodingBits_some {code : PortCode} {s : List Bool} (h : encodingBits code = some s) :
    s = codeBits code ∧ s.length = code.encodingWidth := by
  unfold encodingBits at h
  unfold codeBits PortCode.encodingWidth
  split at h
  · rename_i hnone
    obtain rfl := Option.some.inj h
    simp [hnone]
  · rename_i enc henc
    have hs := pushBack_some h
    simp only [PortCode.encodingWidth, henc, Option.map_some, Option.getD_some] at hs ⊢
    exact ⟨hs, by simp [hs]⟩

/-- The index of a register is read back from behind the code of its unit. -/
theorem decodeSocket_registerCode (ht : TableOf socket table) {port : Port} (hp : port ∈ socket.ports) {key : PortKey}
    (hkey : key ∈ port.portKeys) {index : Nat} (hindex : index < 2 ^ port.indexWidth) {s : List Bool}
    (hs : registerCode (some table) key index = some s) (name : String) (zeros : List Bool) :
    decodeSocket m name (some table) (zeros ++ s) = some (programmingOf name index key) := by
  obtain ⟨code, hcode, hs⟩ := Option.bind_eq_some_iff.mp hs
  obtain ⟨codeS, hcodeS, hs⟩ := Option.bind_eq_some_iff.mp hs
  obtain ⟨indexS, hindexS, rfl⟩ := Option.map_eq_some_iff.mp hs
  obtain rfl := pushBack_some hindexS
  obtain ⟨rfl, hlen⟩ := encodingBits_some hcodeS
  have hwidth := width_of_key ht hp hkey hcode
  obtain ⟨hmem, rfl⟩ := portCode_some hcode
  rw [decodeSocket_append ht hmem (by simp [hlen]; omega), value_bits, Nat.mod_eq_of_lt]
  exact Nat.lt_of_lt_of_le hindex (Nat.pow_le_pow_right (by omega) (by omega))

/-- A port whose code is as wide as the table is read back. -/
theorem decodeSocket_fuCode (ht : TableOf socket table) {key : PortKey} {s : List Bool}
    (hs : fuCode (some table) key = some s)
    (hfull : ∀ code, portCode table key = some code → code.encodingWidth = table.width) (name : String)
    (zeros : List Bool) : decodeSocket m name (some table) (zeros ++ s) = some (programmingOf name 0 key) := by
  obtain ⟨code, hcode, hs⟩ := Option.bind_eq_some_iff.mp hs
  obtain ⟨enc, henc, hpush⟩ := Option.bind_eq_some_iff.mp hs
  have hwidth := hfull code hcode
  obtain ⟨hmem, rfl⟩ := portCode_some hcode
  have hbits : encodingBits code = some s := by simpa [encodingBits, henc, hwidth] using hpush
  obtain ⟨rfl, hlen⟩ := encodingBits_some hbits
  have := decodeSocket_append (m := m) ht hmem
    (show (codeBits code ++ []).length = table.width by simp [hlen, hwidth]) name zeros
  simpa [value] using this

/-- A socket that needs no table has one port with one thing to name. -/
theorem portKeys_single (hno : needsSocketCodeTable socket = false) {port : Port} (hp : port ∈ socket.ports)
    {key : PortKey} (hkey : key ∈ port.portKeys) :
    socket.ports.flatMap Port.portKeys = [key] ∧ port.indexWidth = 0 := by
  unfold needsSocketCodeTable at hno
  split at hno
  · rename_i hnil
    simp [hnil] at hp
  · rename_i port' hone
    rw [hone] at hp
    obtain rfl := List.mem_singleton.mp hp
    simp only [hone, List.flatMap_cons, List.flatMap_nil, List.append_nil]
    split at hno
    · rename_i fu operations hunit
      simp only [Port.portKeys, Port.indexWidth, hunit, and_true] at hkey ⊢
      split at hkey
      · rename_i hset
        have hlen : (operations.insertionSort (· ≤ ·)).length ≤ 1 := by
          simpa [hset, List.length_insertionSort] using hno
        simp only [hset, if_true]
        obtain ⟨op, hop, rfl⟩ := List.mem_map.mp hkey
        cases hsort : operations.insertionSort (· ≤ ·) with
        | nil => simp [hsort] at hop
        | cons op' rest =>
          rw [hsort] at hlen hop
          obtain rfl : rest = [] := List.eq_nil_of_length_eq_zero (by simpa using hlen)
          simp [List.mem_singleton.mp hop]
      · rename_i hset
        simp [hset, List.mem_singleton.mp hkey]
    · rename_i rf n hunit
      simp only [Port.portKeys, Port.indexWidth, hunit] at hkey ⊢
      simp only [decide_eq_false_iff_not, Nat.not_lt] at hno
      exact ⟨by rw [List.mem_singleton.mp hkey], by simp [requiredIndexWidth, hno]⟩
    · rename_i iu n hunit
      simp only [Port.portKeys, Port.indexWidth, hunit] at hkey ⊢
      simp only [decide_eq_false_iff_not, Nat.not_lt] at hno
      exact ⟨by rw [List.mem_singleton.mp hkey], by simp [requiredIndexWidth, hno]⟩
  · cases hno

theorem decodeSocket_none (hs : socket ∈ m.sockets) (hno : needsSocketCodeTable socket = false) {port : Port}
    (hp : port ∈ socket.ports) {key : PortKey} (hkey : key ∈ port.portKeys) (s : List Bool) :
    decodeSocket m socket.name none s = some (programmingOf socket.name 0 key) := by
  have hfind : m.sockets.find? (fun other => other.name = socket.name) = some socket := by
    cases hf : m.sockets.find? (fun other => other.name = socket.name) with
    | none => simpa using List.find?_eq_none.mp hf socket hs
    | some other =>
      have hname : other.name = socket.name := by simpa using List.find?_some hf
      rw [m.socket_eq (List.mem_of_find?_eq_some hf) hs hname]
  simp [decodeSocket, hfind, (portKeys_single hno hp hkey).1]

/-- The codes that the field has for a socket of its bus are those of the socket. -/
theorem socketCodes_of (htables : Tables TableOf m.sockets bem.socketCodeTables) (hb : bus ∈ m.buses)
    (hfield : GeneratedField bem.socketCodeTables bus direction field) (hs : socket ∈ bus.connectedSockets direction)
    {enc : Encoding} {socketCodes : Option SocketCodeTable}
    (henc : socketEncoding field socket.name = some (enc, socketCodes)) :
    socketCodes = none ∧ needsSocketCodeTable socket = false ∨ ∃ table, socketCodes = some table ∧ TableOf socket table := by
  obtain ⟨other, hseg, hdir, hname, hcodes⟩ := hfield.sockets _ _ _ (socketEncoding_some henc)
  have hother := m.mem_sockets hb (Bus.mem_connectedSockets.mpr ⟨hseg, hdir⟩)
  obtain rfl := m.socket_eq hother (m.mem_sockets hb hs) hname
  cases socketCodes with
  | none =>
    have hsome := htables.socketCodeTable_isSome hother
    rw [hcodes] at hsome
    exact .inl ⟨rfl, hsome.symm⟩
  | some table => exact .inr ⟨table, rfl, htables.tables _ (mem_of_socketCodeTable hcodes)⟩

end Reading

section Injective
variable {m : Machine} {bem : BinaryEncoding} {bus : Bus} {direction : Direction} {field : SlotField}
  {signExtends hasAlwaysFalseGuard : Bool} {s : List Bool}

theorem decode_encodeNOP (hfield : GeneratedField bem.socketCodeTables bus direction field)
    (hd : Distinguished field .nop) (hs : encodeNOP field hasAlwaysFalseGuard = some s) :
    decodeSlotField m signExtends field s = some .nop := by
  rcases hd with hempty | ⟨enc, henc⟩
  · simp [decodeSlotField, hempty]
  obtain ⟨c, hfind, rfl⟩ := Option.map_eq_some_iff.mp henc
  have hmem : (.nop, c.2) ∈ field.encodings := by
    have hnop : c.1 = .nop := by simpa using List.find?_some hfind
    rw [← hnop]
    exact List.mem_of_find?_eq_some hfind
  have hstarts : ∃ rest, s = c.2.bits ++ rest := by
    simp only [encodeNOP, henc, hfield.left] at hs
    split at hs
    · rename_i hzero
      have hwidth := SlotField.width_le hmem
      have hnil : c.2.bits = [] := List.eq_nil_of_length_eq_zero (by rw [Encoding.length_bits]; omega)
      exact ⟨s, by simp [hnil]⟩
    · obtain ⟨code, hcode, hs⟩ := Option.bind_eq_some_iff.mp hs
      obtain ⟨zeros, _, rfl⟩ := Option.map_eq_some_iff.mp hs
      exact ⟨zeros, by rw [pushBack_some hcode, Encoding.bits]⟩
  obtain ⟨rest, rfl⟩ := hstarts
  exact decodeSlotField_append hfield hmem signExtends rest

theorem decode_encodeImmediateTerminal (hfield : GeneratedField bem.socketCodeTables bus direction field) {v : Nat}
    (hv : ∀ enc, immediateEncoding field = some enc →
      extendImmediate signExtends (field.width - enc.width) (v % 2 ^ (field.width - enc.width)) = v)
    (hs : encodeImmediateTerminal field v = some s) :
    decodeSlotField m signExtends field s = some (.immediate v) := by
  obtain ⟨enc, henc, hs⟩ := Option.bind_eq_some_iff.mp hs
  obtain ⟨immediateBits, himm, hs⟩ := Option.bind_eq_some_iff.mp hs
  obtain ⟨code, hcode, rfl⟩ := Option.map_eq_some_iff.mp hs
  obtain rfl := pushBack_some himm
  obtain rfl := pushBack_some hcode
  obtain ⟨c, hfind, rfl⟩ := Option.map_eq_some_iff.mp henc
  have himmediate : ∃ w, c.1 = .immediate w := by
    have := List.find?_some hfind
    cases hc : c.1 with
    | immediate w => exact ⟨w, rfl⟩
    | _ => simp [hc, Component.same] at this
  obtain ⟨w, hw⟩ := himmediate
  have hmem : (.immediate w, c.2) ∈ field.encodings := hw ▸ List.mem_of_find?_eq_some hfind
  have hread := decodeSlotField_append (m := m) hfield hmem signExtends (bits v (field.width - c.2.width))
  simp only [aligned, hfield.left]
  rw [Encoding.bits] at hread
  rw [hread, decodeComponent, length_bits, value_bits, hv _ henc]

/-- What is written for a register behind a socket of the bus is read back. -/
theorem decode_encodeTerminal_register (htables : Tables TableOf m.sockets bem.socketCodeTables) (hb : bus ∈ m.buses)
    (hfield : GeneratedField bem.socketCodeTables bus direction field) {socket : Socket}
    (hsocket : socket ∈ bus.connectedSockets direction) {port : Port} (hp : port ∈ socket.ports) {key : PortKey}
    (hkey : key ∈ port.portKeys) {index : Nat} (hindex : index < 2 ^ port.indexWidth)
    (hs : encodeTerminal field socket.name (registerCode · key index) = some s) :
    decodeSlotField m signExtends field s = some (programmingOf socket.name index key) := by
  obtain ⟨enc, socketCodes, code, zeros, henc, hcode, rfl⟩ := encodeTerminal_some hfield.left hs
  rw [decodeSlotField_append hfield (socketEncoding_some henc), decodeComponent]
  rcases socketCodes_of htables hb hfield hsocket henc with ⟨rfl, hno⟩ | ⟨table, rfl, ht⟩
  · obtain rfl : index = 0 := by
      rw [(portKeys_single hno hp hkey).2] at hindex
      simpa using hindex
    exact decodeSocket_none (m.mem_sockets hb hsocket) hno hp hkey _
  · exact decodeSocket_registerCode ht hp hkey hindex hcode _ _

theorem decode_encode (htables : Tables TableOf m.sockets bem.socketCodeTables) (hb : bus ∈ m.buses)
    (hfield : GeneratedField bem.socketCodeTables bus direction field) {p : Programming}
    (hp : Programs signExtends bus direction field p) (hd : Distinguished field p)
    (hs : encode field hasAlwaysFalseGuard p = some s) : decodeSlotField m signExtends field s = some p := by
  cases hp with
  | nop => exact decode_encodeNOP hfield hd hs
  | immediate v hv => exact decode_encodeImmediateTerminal hfield hv hs
  | registerFile socket hsocket port hport rf n hunit index hlt =>
    have hkey : .rf rf ∈ port.portKeys := by simp [Port.portKeys, hunit]
    have hindex : index < 2 ^ port.indexWidth := by
      simpa [Port.indexWidth, hunit] using lt_two_pow_requiredIndexWidth hlt
    exact decode_encodeTerminal_register htables hb hfield hsocket hport hkey hindex hs
  | immediateUnit socket hsocket port hport iu n hunit index hlt =>
    have hkey : .iu iu ∈ port.portKeys := by simp [Port.portKeys, hunit]
    have hindex : index < 2 ^ port.indexWidth := by
      simpa [Port.indexWidth, hunit] using lt_two_pow_requiredIndexWidth hlt
    exact decode_encodeTerminal_register htables hb hfield hsocket hport hkey hindex hs
  | fuPort socket hsocket port hport fu operations hunit op hkey =>
    simp only [encode, encodeFUTerminal] at hs
    obtain ⟨enc, socketCodes, code, zeros, henc, hcode, rfl⟩ := encodeTerminal_some hfield.left hs
    rw [decodeSlotField_append hfield (socketEncoding_some henc), decodeComponent]
    rcases socketCodes_of htables hb hfield hsocket henc with ⟨rfl, hno⟩ | ⟨table, rfl, ht⟩
    · exact decodeSocket_none (m.mem_sockets hb hsocket) hno hport hkey _
    · exact decodeSocket_fuCode ht hcode (fun code hcode => hd enc table code henc hcode) _ _

/-- The bits of a distinguished programming are read back as it, and no other has them. -/
def Recovers (m : Machine) (bus : Bus) (direction : Direction) (field : SlotField) : Prop :=
  ∀ (signExtends hasAlwaysFalseGuard : Bool) (p : Programming) (s : List Bool),
    Programs signExtends bus direction field p → Distinguished field p →
    encode field hasAlwaysFalseGuard p = some s → decodeSlotField m signExtends field s = some p ∧
      ∀ q, Programs signExtends bus direction field q → Distinguished field q →
        encode field hasAlwaysFalseGuard q = some s → q = p

theorem recovers (htables : Tables TableOf m.sockets bem.socketCodeTables) (hb : bus ∈ m.buses)
    (hfield : GeneratedField bem.socketCodeTables bus direction field) : Recovers m bus direction field := by
  intro signExtends hasAlwaysFalseGuard p s hp hdp hs
  have hdecode := decode_encode htables hb hfield hp hdp hs
  refine ⟨hdecode, fun q hq hdq hsq => ?_⟩
  have hother := decode_encode htables hb hfield hq hdq hsq
  exact Option.some.inj (hother.symm.trans hdecode)

/-- **The encoding of source and destination fields is injective** in every generated map. -/
theorem slotFields_injective (h : generate m = some bem) :
    List.Forall₂ (fun bus slot => slot.name = bus.name ∧
      ∀ kind, Recovers m bus (FieldKind.direction kind) (slot.field kind)) m.buses bem.moveSlots := by
  obtain ⟨htables, hslots⟩ := generate_inv h
  have hmem := (List.forall₂_and_left (p := (· ∈ m.buses)) m.buses bem.moveSlots).mpr ⟨fun _ hb => hb, hslots⟩
  refine hmem.imp ?_
  rintro bus slot ⟨hb, hname, hfields⟩
  exact ⟨hname, fun kind => recovers htables hb (hfields kind)⟩

theorem slotFields_injective_adder :
    ∃ bem, generate (oneBus [adderSocket] [] [] (by decide) (by decide) (by decide)) = some bem ∧
      List.Forall₂ (fun bus slot => slot.name = bus.name ∧ ∀ kind,
        Recovers (oneBus [adderSocket] [] [] (by decide) (by decide) (by decide)) bus (FieldKind.direction kind) (slot.field kind))
        (oneBus [adderSocket] [] [] (by decide) (by decide) (by decide)).buses bem.moveSlots := by
  obtain ⟨bem, h⟩ := Option.isSome_iff_exists.mp (show
    (generate (oneBus [adderSocket] [] [] (by decide) (by decide) (by decide))).isSome = true by decide +kernel)
  exact ⟨bem, h, slotFields_injective h⟩

/-- Bits of a source field that two programmings have. -/
def SharedBits (bus : Bus) (slot : MoveSlot) : Prop :=
  ∃ p q s, p ≠ q ∧ Programs false bus .output slot.sourceField p ∧ Programs false bus .output slot.sourceField q ∧
    ∀ guarded, (guarded = true ↔ .unconditionalGuard true ∈ bus.guards) →
      encode slot.sourceField guarded p = some s ∧ encode slot.sourceField guarded q = some s

/-- A bus for immediates, with an always-true and an always-false guard. -/
def guardedBus : Machine where
  sockets := []
  buses := [⟨"bus", [[]], 8, [.unconditionalGuard false, .unconditionalGuard true], by decide⟩]
  bridges := []
  immediateSlots := []
  instructionTemplates := []
  immediateUnits := []
  sockets_nodup := List.nodup_nil
  connected := by decide
  buses_nodup := List.nodup_singleton _
  bridges_nodup := List.nodup_nil
  bridges_le := by decide
  immediateSlots_nodup := List.nodup_nil
  instructionTemplates_nodup := List.nodup_nil
  immediateUnits_nodup := List.nodup_nil

theorem slot_of_generate {m : Machine} {α : Type} {f : SlotField → α} {x : α}
    (h : (generate m).map (fun bem => bem.moveSlots.map fun slot => f slot.sourceField) = some [x]) :
    ∃ bem slot, generate m = some bem ∧ bem.moveSlots = [slot] ∧ f slot.sourceField = x := by
  obtain ⟨bem, hbem, hslots⟩ := Option.map_eq_some_iff.mp h
  obtain ⟨slot, hslot, hf⟩ := List.map_eq_singleton_iff.mp hslots
  exact ⟨bem, slot, hbem, hslot, hf⟩

/-- A register file that shares its output socket with a function unit. -/
def mixedSocket : Socket :=
  ⟨"out", .output, [⟨"read", .registerFile "rf" 8, false⟩, ⟨"result", .functionUnit "alu" ["add"], false⟩],
    by decide +kernel⟩

/-- Where a false guard says that there is no move the field is as for the immediate 0, and the
code of a result port that is narrower than the table is as for a register. -/
theorem not_slotFields_injective :
    (∃ bem bus slot, generate guardedBus = some bem ∧ (bus, slot) ∈ guardedBus.buses.zip bem.moveSlots ∧
      SharedBits bus slot) ∧
    ∃ bem bus slot, generate (oneBus [mixedSocket] [] [] (by decide) (by decide) (by decide)) = some bem ∧
      (bus, slot) ∈ (oneBus [mixedSocket] [] [] (by decide) (by decide) (by decide)).buses.zip bem.moveSlots ∧
      SharedBits bus slot := by
  constructor
  · obtain ⟨bem, slot, hbem, hslot, hbits⟩ := slot_of_generate (m := guardedBus)
      (f := fun field => (encode field true .nop, encode field true (.immediate 0)))
      (x := (some (bits 0 8), some (bits 0 8))) (by decide +kernel)
    obtain ⟨hnop, himm⟩ := Prod.mk.inj hbits
    refine ⟨bem, _, slot, hbem, by simp [hslot, guardedBus]; rfl, .nop, .immediate 0, bits 0 8, by simp, .nop, ?_, ?_⟩
    · exact .immediate 0 fun _ _ => by simp [extendImmediate]
    · intro guarded hguarded
      obtain rfl : guarded = true := hguarded.mpr (by simp)
      exact ⟨hnop, himm⟩
  · obtain ⟨bem, slot, hbem, hslot, hbits⟩ := slot_of_generate
      (m := oneBus [mixedSocket] [] [] (by decide) (by decide) (by decide))
      (f := fun field => (encode field false (.registerFile "out" "rf" 1),
        encode field false (.fuPort "out" "alu" "result" none)))
      (x := (some (bits 257 9), some (bits 257 9))) (by decide +kernel)
    obtain ⟨hregister, hresult⟩ := Prod.mk.inj hbits
    refine ⟨bem, _, slot, hbem, by simp [hslot, oneBus]; rfl, .registerFile "out" "rf" 1,
      .fuPort "out" "alu" "result" none, bits 257 9, by simp, ?_, ?_, ?_⟩
    · exact .registerFile mixedSocket (by decide +kernel) ⟨"read", .registerFile "rf" 8, false⟩ (by simp [mixedSocket])
        "rf" 8 rfl 1 (by omega)
    · exact .fuPort mixedSocket (by decide +kernel) ⟨"result", .functionUnit "alu" ["add"], false⟩ (by simp [mixedSocket])
        "alu" ["add"] rfl none (by decide +kernel)
    · intro guarded hguarded
      obtain rfl : guarded = false := Bool.eq_false_iff.mpr fun h => absurd (hguarded.mp h) (by simp)
      exact ⟨hregister, hresult⟩

end Injective

end Tce.BEM
