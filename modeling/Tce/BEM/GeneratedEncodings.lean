import Tce.BEM.AddedEncodings

/-!
# The encodings of tables and fields

What the generator puts into a table of port codes and into a source or destination
field, and when it succeeds. The result has one encoding for each code of a port and
for each component, and no encoding starts another.
-/

namespace Tce.BEM

open Handout PrefixCode

theorem flatMap_singleton_length {α : Type} (l : List α) (f : α → Nat) :
    (l.flatMap fun a => List.replicate 1 (f a)) = l.map f := by
  induction l with
  | nil => rfl
  | cons a l ih => simpa using ih

section PortCodes
variable {socket : Socket} {table : SocketCodeTable} {name : String}

@[simp] theorem Port.portCodes_length (port : Port) : port.portCodes.length = port.portKeys.length := by
  simp [Port.portCodes]

theorem Port.map_key_portCodes (port : Port) : port.portCodes.map (·.key) = port.portKeys := by
  simp [Port.portCodes, Function.comp_def]

theorem map_key_flatMap (ports : List Port) :
    (ports.flatMap Port.portCodes).map (·.key) = ports.flatMap Port.portKeys := by
  simp only [List.map_flatMap, Port.map_key_portCodes]

/-- The codes of a table stand for ports of a socket, none for the same as another, and
no encoding starts another. -/
structure TableOf (socket : Socket) (table : SocketCodeTable) : Prop where
  keys : ∃ left, (table.portCodes.map (·.key) ++ left).Perm (socket.ports.flatMap Port.portKeys)
  encodings : ∃ encodings : List Encoding, table.portCodes.map (·.encoding) = encodings.map some ∧
    encodings.Pairwise Encoding.Precedes
  widths : ∀ code ∈ table.portCodes, ∃ port ∈ socket.ports, code.key ∈ port.portKeys ∧ code.indexWidth = port.indexWidth

/-- A socket whose ports get as many codes as are calculated: a port that sets the opcode
is written to or has one operation, and there is a code for which the numbers suffice. -/
structure Codable (socket : Socket) : Prop where
  opcodes : socket.direction ≠ .input → ∀ port ∈ socket.ports, port.isOpcodeSetting = true →
    ∀ fu operations, port.parentUnit = .functionUnit fu operations → operations.length = 1
  keys : socket.ports.flatMap Port.portKeys ≠ []
  fits : FitsWord (indexWidths socket)

theorem Codable.encodingsNeeded_eq (h : Codable socket) {port : Port} (hp : port ∈ socket.ports) :
    encodingsNeeded socket.direction port = port.portKeys.length := by
  cases hunit : port.parentUnit with
  | functionUnit fu operations =>
    simp only [encodingsNeeded, Port.portKeys, hunit]
    by_cases hset : port.isOpcodeSetting = true
    · by_cases hdir : socket.direction = .input
      · simp [hset, hdir, List.length_insertionSort]
      · simp [hset, hdir, List.length_insertionSort, h.opcodes hdir port hp hset fu operations hunit]
    · simp [hset]
  | registerFile rf n => simp [encodingsNeeded, Port.portKeys, hunit]
  | immediateUnit iu n => simp [encodingsNeeded, Port.portKeys, hunit]

theorem Codable.indexWidths_perm (h : Codable socket) :
    (indexWidths socket).Perm
      (socket.ports.flatMap fun port => List.replicate port.portCodes.length port.indexWidth) := by
  apply List.Perm.of_eq
  apply List.flatMap_congr
  intro port hp
  rw [h.encodingsNeeded_eq hp, Port.portCodes_length]

theorem Codable.indexWidths_ne_nil (h : Codable socket) : indexWidths socket ≠ [] := by
  intro hnil
  have hlen := h.indexWidths_perm.length_eq
  rw [hnil] at hlen
  apply h.keys
  apply List.eq_nil_of_length_eq_zero
  simpa [List.length_flatMap] using hlen.symm

theorem coded_encoding (codes : List (PortCode × Encoding)) :
    (coded codes).map (·.encoding) = (codes.map (·.2)).map some := by
  simp [coded, Function.comp_def]

theorem coded_key (codes : List (PortCode × Encoding)) : (coded codes).map (·.key) = (codes.map (·.1)).map (·.key) := by
  simp [coded, Function.comp_def]

theorem mem_portCodes {port : Port} {code : PortCode} (h : code ∈ port.portCodes) :
    code.key ∈ port.portKeys ∧ code.indexWidth = port.indexWidth := by
  obtain ⟨key, hkey, rfl⟩ := List.mem_map.mp h
  exact ⟨hkey, rfl⟩

/-- The table of a socket that has a single register file gets an encoding all the same. -/
theorem calculateEncodings_ne_nil {encodings : List Encoding} {code : PortCode} (hcode : singlePortCode socket = some code)
    (h : calculateEncodings (indexWidths socket) = some encodings) : encodings ≠ [] := by
  have hlen := (calculateEncodings_ordered h).2
  have hone : (indexWidths socket).length = 1 := by
    unfold singlePortCode at hcode
    split at hcode
    case h_2 => cases hcode
    rename_i port hports
    cases hunit : port.parentUnit with
    | functionUnit fu operations => simp [hunit] at hcode
    | registerFile rf n => simp [indexWidths, hports, encodingsNeeded, hunit]
    | immediateUnit iu n => simp [indexWidths, hports, encodingsNeeded, hunit]
  rintro rfl
  simp only [List.length_nil] at hlen
  omega

theorem addPortCodes_inv (h : addPortCodes ⟨name, [], 0⟩ socket = some table) :
    table.name = name ∧ TableOf socket table := by
  obtain ⟨encodings, hcalc, h⟩ := Option.bind_eq_some_iff.mp h
  split at h
  · rename_i hnil
    obtain ⟨code, hcode, _⟩ := Option.bind_eq_some_iff.mp h
    exact absurd (List.isEmpty_iff.mp hnil) (calculateEncodings_ne_nil hcode hcalc)
  · obtain ⟨codes, hcodes, h⟩ := Option.bind_eq_some_iff.mp h
    obtain rfl := SocketCodeTable.addPortCodes_inv h
    obtain ⟨_, left, hperm⟩ := handOut_spec hcodes
    have hmem : ∀ c ∈ codes, ∃ port ∈ socket.ports, c.1 ∈ port.portCodes := by
      intro c hc
      apply List.mem_flatMap.mp
      exact hperm.mem_iff.mp (List.mem_append_left _ (List.mem_map_of_mem hc))
    refine ⟨rfl, ⟨left.map (·.key), ?_⟩, ⟨codes.map (·.2), ?_, (handed_encodings hcalc hcodes).2⟩, ?_⟩
    · rw [List.nil_append, coded_key, ← List.map_append, ← map_key_flatMap]
      exact hperm.map _
    · rw [List.nil_append, coded_encoding]
    · intro code hcode
      obtain ⟨c, hc, rfl⟩ := List.mem_map.mp hcode
      obtain ⟨port, hport, hin⟩ := hmem c hc
      exact ⟨port, hport, (mem_portCodes hin).1, (mem_portCodes hin).2⟩

/-- A table is made for every codable socket, and each of its codes is for one port. -/
theorem addPortCodes_eq_some (h : Codable socket) :
    ∃ table, addPortCodes ⟨name, [], 0⟩ socket = some table ∧
      (table.portCodes.map (·.key)).Perm (socket.ports.flatMap Port.portKeys) := by
  obtain ⟨encodings, hcalc⟩ := calculateEncodings_eq_some h.fits
  have hne : encodings.isEmpty = false := by
    have hlen := (calculateEncodings_ordered hcalc).2
    cases encodings with
    | nil => exact absurd (List.eq_nil_of_length_eq_zero hlen.symm) h.indexWidths_ne_nil
    | cons => rfl
  obtain ⟨codes, hcodes, hperm⟩ := handOut_calculated h.indexWidths_perm hcalc
  have hkeys : (codes.map (·.1.key)).Nodup := by
    have := (hperm.map (·.key)).nodup_iff.mpr (by rw [map_key_flatMap]; exact socket.keys_nodup)
    simpa [Function.comp_def] using this
  have hadd : SocketCodeTable.CanAdd ⟨name, [], 0⟩ codes :=
    ⟨(handed_encodings hcalc hcodes).2, hkeys, by simp, by simp⟩
  refine ⟨⟨name, coded codes, 0⟩, ?_, ?_⟩
  · simp only [addPortCodes, hcalc, Option.bind_some, hne, hcodes, SocketCodeTable.addPortCodes_eq_some hadd]
    rfl
  · rw [coded_key, ← map_key_flatMap]
    exact hperm.map _

end PortCodes

section Components
variable {components : List Component} {field field' : SlotField}

/-- The encodings of a field are for components, one for each, and no encoding starts another. -/
structure FieldOf (components : List Component) (field : SlotField) : Prop where
  components : (field.encodings.map (·.1)).Perm components
  ordered : (field.encodings.map (·.2)).Pairwise Encoding.Precedes

theorem Component.same_comm (c d : Component) : c.same d = d.same c := by
  cases c <;> cases d <;> simp [Component.same, eq_comm]

theorem oppositeWidths_perm (components : List Component) :
    (components.map (·.oppositeWidth)).Perm
      (components.flatMap fun c => List.replicate [c].length c.oppositeWidth) :=
  (flatMap_singleton_length components _).symm ▸ List.Perm.refl _

theorem flatMap_singleton (components : List Component) : (components.flatMap fun c => [c]) = components := by
  simp

theorem addComponents_inv (hempty : field.encodings = []) (h : addComponents components field = some field') :
    field' = { field with encodings := field'.encodings } ∧ FieldOf components field' := by
  obtain ⟨encodings, hcalc, h⟩ := Option.bind_eq_some_iff.mp h
  obtain ⟨handed, hhanded, h⟩ := Option.bind_eq_some_iff.mp h
  obtain rfl := SlotField.addEncodings_inv h
  refine ⟨rfl, ?_, ?_⟩
  · have hwidths : ((encodings.zip (descending (components.map (·.oppositeWidth)))).map (·.2)).Perm
        (components.flatMap fun c => List.replicate [c].length c.oppositeWidth) := by
      rw [map_snd_zip_descending hcalc]
      exact (descending_perm _).trans (oppositeWidths_perm components)
    have := handOut_perm hwidths hhanded
    rwa [hempty, List.nil_append, ← flatMap_singleton components]
  · rw [hempty, List.nil_append]
    exact (handed_encodings hcalc hhanded).2

/-- Components that one field can have together. -/
structure Compatible (components : List Component) : Prop where
  distinct : components.Pairwise fun c d => c.same d = false
  bridges : components.countP (·.isBridge) ≤ 2
  immediates : ∀ w, .immediate w ∈ components → 0 < w

theorem addComponents_eq_some (hempty : field.encodings = []) (hleft : field.componentIDPosition = .left)
    (hc : Compatible components) (hfits : FitsWord (components.map (·.oppositeWidth))) :
    ∃ field', addComponents components field = some field' := by
  obtain ⟨encodings, hcalc⟩ := calculateEncodings_eq_some hfits
  obtain ⟨handed, hhanded, hperm⟩ := handOut_calculated (oppositeWidths_perm components) hcalc
  rw [flatMap_singleton] at hperm
  have hadd : field.CanAdd handed := by
    constructor
    · exact hleft
    · rw [hempty, List.nil_append]
      exact (handed_encodings hcalc hhanded).2
    · rw [hempty, List.nil_append, ← List.pairwise_map (f := fun c : Component × Encoding => c.1)
        (R := fun c d : Component => c.same d = false)]
      exact (hperm.pairwise_iff fun h => Component.same_comm _ _ ▸ h).mpr hc.distinct
    · rw [hempty, List.nil_append]
      have := hperm.countP_eq (·.isBridge)
      rw [List.countP_map] at this
      exact Nat.le_trans (Nat.le_of_eq this) hc.bridges
    · intro c hmem w hw
      rw [hempty, List.nil_append] at hmem
      exact hc.immediates w (hperm.mem_iff.mp (hw ▸ List.mem_map_of_mem hmem))
  refine ⟨{ field with encodings := field.encodings ++ handed }, ?_⟩
  simp only [addComponents, hcalc, Option.bind_some, hhanded, SlotField.addEncodings_eq_some hadd]

end Components

end Tce.BEM
