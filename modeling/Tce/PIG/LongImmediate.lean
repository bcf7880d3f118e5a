import Tce.PIG.InstructionWord

/-!
# Long immediates

What is read back from an instruction word: the parts of each long immediate, in
the slots of its destination, and the indices in the destination register fields.
`encodeLongImmediate` takes the first immediate of the instruction for every slot,
so several immediates survive only when they agree with the first.
-/

namespace Tce.PIG
open Bits

section Read

/-- The bits of the first field that the predicate holds of. -/
def readField (p : InstructionField → Bool) : List InstructionField → List Bool → List Bool
  | [], _ => []
  | field :: fields, word =>
    if p field then word.take field.width else readField p fields (word.drop field.width)

def slotBits (childFields : List InstructionField) (word : List Bool) (name : String) : List Bool :=
  readField (·.slotName = some name) childFields.reverse word

def lowBits (n : Nat) (l : List Bool) : List Bool := l.drop (l.length - n)

/-- The low bits of the slots of a destination, the most significant slot first. -/
def readImmediate (childFields : List InstructionField) (word : List Bool) (t : InstructionTemplate)
    (dstUnit : String) : List Bool :=
  (List.range (t.numberOfSlots dstUnit)).flatMap fun i =>
    match t.slotOfDestination dstUnit i with
    | none => []
    | some name => lowBits (t.supportedWidth name) (slotBits childFields word name)

/-- The bits of a field that has these fields to its left. -/
def bitsAfter (left : List InstructionField) (field : InstructionField) (word : List Bool) : List Bool :=
  (word.drop (left.map (·.width)).sum).take field.width

/-- The index that a destination register field should hold: that of the immediate
for the unit it is used for, if this has several registers. -/
def registerIndex (machine : Machine) (instruction : Instruction) (destinationMap : List (String × String)) : Nat :=
  match immediateUnit destinationMap instruction.template.name with
  | none => 0
  | some iu =>
    if machine.numberOfRegisters iu = 1 then 0
    else ((instruction.immediates.find? (·.destination = iu)).map (·.index)).getD 0

end Read

section Claim
variable (machine : Machine) (childFields : List InstructionField)
  (other : InstructionField → Option (List Bool)) (instruction : Instruction)

/-- An instruction of a template with one immediate for each destination, and an
encoding that has each slot of the template once and wide enough. -/
structure Carries : Prop where
  known : instruction.template ∈ machine.instructionTemplates
  single : (instruction.immediates.map (·.destination)).Nodup
  destinations : ∀ u, (∃ imm ∈ instruction.immediates, imm.destination = u) ↔
    ∃ s ∈ instruction.template.slots, s.destination = u
  slotNames : (childFields.filterMap (·.slotName)).Nodup
  slots : ∀ s ∈ instruction.template.slots, ∃ field ∈ childFields,
    field.slotName = some s.slot ∧ s.width ≤ field.width
  control : ∀ width, .immediateControlField width ∈ childFields →
    ∃ l, other (.immediateControlField width) = some l ∧ l.length = width
  moves : ∀ name width, .moveSlot name width ∈ childFields → ¬instruction.template.usesSlot name →
    ∃ l, other (.moveSlot name width) = some l ∧ l.length = width

/-- Every immediate and every register index can be read back from the word. -/
def Survives : Prop :=
  ∃ word, bemInstructionBits machine childFields other instruction = some word ∧
    (∀ imm ∈ instruction.immediates,
      readImmediate childFields word instruction.template imm.destination =
        bits imm.value.toNat (instruction.template.supportedWidthOf imm.destination)) ∧
    ∀ left right width destinationMap,
      childFields.reverse = left ++ .lImmDstRegisterField width destinationMap :: right →
      value (bitsAfter left (.lImmDstRegisterField width destinationMap) word) =
        registerIndex machine instruction destinationMap

/-- When the encoding works: every immediate agrees with the first one in the bits that
its destination has room for, a template that has an immediate for a unit with several
registers uses all register fields, each of them can hold its index, and no number
of bits is asked of an integer that has fewer. -/
structure Agrees : Prop where
  first : ∀ imm₀ rest, instruction.immediates = imm₀ :: rest → ∀ imm ∈ instruction.immediates,
    imm₀.value.toNat % 2 ^ instruction.template.supportedWidthOf imm.destination =
      imm.value.toNat % 2 ^ instruction.template.supportedWidthOf imm.destination
  used : (∃ imm ∈ instruction.immediates, machine.numberOfRegisters imm.destination ≠ 1) →
    ∀ width destinationMap, .lImmDstRegisterField width destinationMap ∈ childFields →
      immediateUnit destinationMap instruction.template.name ≠ none
  holds : ∀ width destinationMap, .lImmDstRegisterField width destinationMap ∈ childFields →
    width ≤ 32 ∧ registerIndex machine instruction destinationMap < 2 ^ width
  wordWidth : ∀ imm ∈ instruction.immediates, instruction.template.supportedWidthOf imm.destination ≤ 32
  slotWidth : ∀ name width, .immediateSlotField name width ∈ childFields →
    ¬instruction.template.usesSlot name → width ≤ 32

end Claim

section Fields
variable {encode : InstructionField → Option (List Bool)}

theorem bitsAfter_eq {left : List InstructionField} {field : InstructionField} {right : List InstructionField} :
    ∀ {word : List Bool}, fieldBits encode (left ++ field :: right) = some word →
      ∃ l, encode field = some l ∧ l.length = field.width ∧ bitsAfter left field word = l := by
  induction left with
  | nil =>
    intro word h
    obtain ⟨l, rest, hl, hlen, _, rfl⟩ := fieldBits_cons h
    exact ⟨l, hl, hlen, by simp [bitsAfter, ← hlen]⟩
  | cons g left ih =>
    intro word h
    obtain ⟨l, rest, hl, hlen, hrest, rfl⟩ := fieldBits_cons h
    obtain ⟨l', hl', hlen', hafter⟩ := ih hrest
    refine ⟨l', hl', hlen', ?_⟩
    have hgone : l.drop (g.width + (left.map (·.width)).sum) = [] :=
      List.drop_eq_nil_of_le (by omega)
    rw [← hafter]
    simp [bitsAfter, List.drop_append, hlen, hgone]

theorem readField_eq {p : InstructionField → Bool} {left : List InstructionField} {field : InstructionField}
    {right : List InstructionField} (hleft : ∀ g ∈ left, p g = false) (hp : p field = true) :
    ∀ word, readField p (left ++ field :: right) word = bitsAfter left field word := by
  induction left with
  | nil => intro word; simp [readField, hp, bitsAfter]
  | cons g left ih =>
    intro word
    have hg : p g = false := hleft g List.mem_cons_self
    have hrest := ih fun g' hg' => hleft g' (List.mem_cons_of_mem _ hg')
    simp [readField, hg, hrest, bitsAfter, List.drop_drop]

end Fields

section Slots
variable {t : InstructionTemplate}

/-- The part of a slot starts where the less significant slots of its destination end. -/
theorem rightmostBit_eq {dstUnit : String} {more : List TemplateSlot} {s : TemplateSlot}
    {less : List TemplateSlot} (h : t.slotsOf dstUnit = more ++ s :: less) :
    rightmostBitToEncode t dstUnit s.slot (t.numberOfSlots dstUnit) = (less.map (·.width)).sum := by
  have hnodup : ((t.slotsOf dstUnit).map (·.slot)).Nodup := t.nodup.sublist (List.filter_sublist.map _)
  have hdistinct : ∀ s' ∈ less, s'.slot ≠ s.slot := by
    intro s' hs' he
    rw [h, List.map_append, List.map_cons, List.nodup_append] at hnodup
    have := (List.nodup_cons.mp hnodup.2.1).1
    exact this (he ▸ List.mem_map_of_mem hs')
  have hwidth : ∀ s' ∈ less, t.supportedWidth s'.slot = s'.width := by
    intro s' hs'
    apply InstructionTemplate.supportedWidth_of_mem
    exact (InstructionTemplate.mem_slotsOf.mp (h ▸ by simp [hs'] : s' ∈ t.slotsOf dstUnit)).1
  have upTo : ∀ k ≤ less.length,
      rightmostBitToEncode t dstUnit s.slot (more.length + 1 + k) = ((less.take k).map (·.width)).sum := by
    intro k
    induction k with
    | zero => intro _; simp [rightmostBitToEncode, InstructionTemplate.slotOfDestination, h]
    | succ k ih =>
      intro hk
      have hlt : k < less.length := by omega
      have hget : (t.slotsOf dstUnit)[more.length + 1 + k]? = some less[k] := by
        rw [h, List.getElem?_append_right (by omega)]
        have : more.length + 1 + k - more.length = k + 1 := by omega
        simp [this, hlt]
      have hmem : less[k] ∈ less := List.getElem_mem hlt
      rw [← Nat.add_assoc, rightmostBitToEncode]
      simp only [InstructionTemplate.slotOfDestination, hget, Option.map_some, hdistinct _ hmem, ne_eq,
        not_false_eq_true, ↓reduceIte, hwidth _ hmem, ih (by omega)]
      rw [List.take_succ_eq_append_getElem hlt, List.map_append, List.sum_append]
      simp [Nat.add_comm]
  have hlength : t.numberOfSlots dstUnit = more.length + 1 + less.length := by
    simp [InstructionTemplate.numberOfSlots, h, Nat.add_assoc, Nat.add_comm 1]
  rw [hlength, upTo less.length (Nat.le_refl _), List.take_length]

theorem slot_splits {s : TemplateSlot} (hs : s ∈ t.slots) :
    ∃ more less, t.slotsOf s.destination = more ++ s :: less :=
  List.append_of_mem (InstructionTemplate.mem_slotsOf.mpr ⟨hs, rfl⟩)

/-- What a slot is given: zeros, and its window of the first immediate. -/
theorem encodePart_eq {s : TemplateSlot} (hs : s ∈ t.slots) {more less : List TemplateSlot}
    (h : t.slotsOf s.destination = more ++ s :: less) {slotWidth : Nat} (hwidth : s.width ≤ slotWidth)
    (imm : Immediate) :
    encodePart t s.slot slotWidth imm =
      if (less.map (·.width)).sum + s.width ≤ 32 then
        some (List.replicate (slotWidth - s.width) false ++
          window imm.value.toNat (less.map (·.width)).sum s.width)
      else none := by
  have hpos := t.width_pos s hs
  have hne : s.width ≠ 0 := by omega
  simp only [encodePart, InstructionTemplate.destinationOfSlot_of_mem hs,
    InstructionTemplate.supportedWidth_of_mem hs, rightmostBit_eq h, hpos, hwidth, addBits_eq, hne, false_or,
    Option.bind_eq_bind, Option.bind_some, and_self, ↓reduceIte]
  split <;> rfl

end Slots

section Encoding
variable {machine : Machine} {childFields : List InstructionField}
  {other : InstructionField → Option (List Bool)} {instruction : Instruction}
  (h : Carries machine childFields other instruction)
include h

/-- Without immediates the template has no slots, and neither has the one that is used. -/
theorem Carries.template : ∃ t, instructionTemplate machine instruction = some t ∧
    ∀ name, t.usesSlot name = instruction.template.usesSlot name := by
  unfold instructionTemplate
  cases himm : instruction.immediates with
  | cons imm rest => exact ⟨_, rfl, fun _ => rfl⟩
  | nil =>
    have hempty : instruction.template.slots = [] := by
      apply List.eq_nil_iff_forall_not_mem.mpr
      intro s hs
      obtain ⟨imm, hmem, _⟩ := (h.destinations s.destination).mpr ⟨s, hs, rfl⟩
      simp [himm] at hmem
    obtain ⟨t, ht⟩ : ∃ t, machine.instructionTemplates.find? (·.isEmpty) = some t := by
      apply Option.isSome_iff_exists.mp
      apply List.find?_isSome.mpr
      exact ⟨_, h.known, by simp [InstructionTemplate.isEmpty, hempty]⟩
    have hslots : t.slots = [] := by simpa [InstructionTemplate.isEmpty] using List.find?_some ht
    exact ⟨t, by simpa using ht, fun name => by simp [InstructionTemplate.usesSlot,
      InstructionTemplate.templateSlot, hslots, hempty]⟩

theorem Carries.addBits_unused {field : InstructionField} (hmem : field ∈ childFields)
    (hunused : ∀ name, field.slotName = some name → ¬instruction.template.usesSlot name)
    (hwidth : ∀ name width, field = .immediateSlotField name width → width ≤ 32)
    (hkind : ∀ width destinationMap, field ≠ .lImmDstRegisterField width destinationMap) :
    ∃ l, addBitsForField machine instruction other field = some l ∧ l.length = field.width := by
  obtain ⟨t, ht, huses⟩ := h.template
  cases field with
  | immediateControlField width => exact h.control width hmem
  | moveSlot name width =>
    have hno : t.usesSlot name = false := (huses name).trans (Bool.eq_false_iff.mpr (hunused name rfl))
    obtain ⟨l, hl, hlen⟩ := h.moves name width hmem (hunused name rfl)
    exact ⟨l, by simpa [addBitsForField, ht, hno] using hl, hlen⟩
  | immediateSlotField name width =>
    have hno : t.usesSlot name = false := (huses name).trans (Bool.eq_false_iff.mpr (hunused name rfl))
    exact ⟨bits 0 width, by simp [addBitsForField, ht, hno, pushBack_eq, hwidth name width rfl],
      by simp [InstructionField.width]⟩
  | lImmDstRegisterField width destinationMap => exact absurd rfl (hkind width destinationMap)

/-- A slot of the template has its part of the first immediate. -/
theorem Carries.addBits_slot {s : TemplateSlot} (hs : s ∈ instruction.template.slots)
    {field : InstructionField} (hname : field.slotName = some s.slot) (hwidth : s.width ≤ field.width)
    {imm₀ : Immediate} {rest : List Immediate} (himm : instruction.immediates = imm₀ :: rest)
    {more less : List TemplateSlot}
    (hsplit : instruction.template.slotsOf s.destination = more ++ s :: less) :
    addBitsForField machine instruction other field =
      if (less.map (·.width)).sum + s.width ≤ 32 then
        some (List.replicate (field.width - s.width) false ++
          window imm₀.value.toNat (less.map (·.width)).sum s.width)
      else none := by
  obtain ⟨t, ht, huses⟩ := h.template
  have hyes : instruction.template.usesSlot s.slot := InstructionTemplate.usesSlot_iff.mpr ⟨s, hs, rfl⟩
  have hencode (width : Nat) (hw : s.width ≤ width) :
      encodeLongImmediate instruction.template s.slot width instruction.immediates =
        encodePart instruction.template s.slot width imm₀ := by
    simp only [himm, encodeLongImmediate, hyes, ↓reduceIte]
  cases field with
  | moveSlot name width =>
    cases hname
    simp only [addBitsForField, ht, huses, hyes, ↓reduceIte]
    exact (hencode width hwidth).trans (encodePart_eq hs hsplit hwidth imm₀)
  | immediateSlotField name width =>
    cases hname
    simp only [addBitsForField, ht, huses, hyes, ↓reduceIte]
    exact (hencode width hwidth).trans (encodePart_eq hs hsplit hwidth imm₀)
  | immediateControlField | lImmDstRegisterField => cases hname

/-- The word has the field of a slot in one place. -/
theorem Carries.slot_field {s : TemplateSlot} (hs : s ∈ instruction.template.slots) :
    ∃ left field right, childFields.reverse = left ++ field :: right ∧ field.slotName = some s.slot ∧
      s.width ≤ field.width ∧ ∀ g ∈ left, decide (g.slotName = some s.slot) = false := by
  obtain ⟨field, hmem, hname, hwidth⟩ := h.slots s hs
  obtain ⟨left, right, hsplit⟩ := List.append_of_mem (List.mem_reverse.mpr hmem)
  refine ⟨left, field, right, hsplit, hname, hwidth, ?_⟩
  intro g hg
  have hnodup : (childFields.reverse.filterMap (·.slotName)).Nodup := by
    simpa [List.filterMap_reverse] using h.slotNames
  rw [hsplit, List.filterMap_append, List.filterMap_cons_some hname] at hnodup
  have hdisjoint := (List.nodup_append.mp hnodup).2.2
  rw [decide_eq_false_iff_not]
  intro he
  exact hdisjoint s.slot (List.mem_filterMap.mpr ⟨g, hg, he⟩) s.slot List.mem_cons_self rfl

/-- The low bits of a slot are its window of the first immediate. -/
theorem Carries.lowBits_slot {word : List Bool}
    (hword : bemInstructionBits machine childFields other instruction = some word)
    {s : TemplateSlot} (hs : s ∈ instruction.template.slots) {imm₀ : Immediate} {rest : List Immediate}
    (himm : instruction.immediates = imm₀ :: rest) {more less : List TemplateSlot}
    (hsplit : instruction.template.slotsOf s.destination = more ++ s :: less) :
    (less.map (·.width)).sum + s.width ≤ 32 ∧
      lowBits s.width (slotBits childFields word s.slot) =
        window imm₀.value.toNat (less.map (·.width)).sum s.width := by
  obtain ⟨left, field, right, hfields, hname, hwidth, hleft⟩ := h.slot_field hs
  rw [bemInstructionBits, hfields] at hword
  obtain ⟨l, hl, _, hafter⟩ := bitsAfter_eq hword
  rw [h.addBits_slot hs hname hwidth himm hsplit] at hl
  split at hl
  next hle =>
    refine ⟨hle, ?_⟩
    have hread : slotBits childFields word s.slot = l := by
      rw [← hafter, slotBits, hfields]
      exact readField_eq hleft (by simp [hname]) word
    rw [hread, ← Option.some.inj hl]
    simp [lowBits]
  next => cases hl

/-- The slots of a destination together have the low bits of the first immediate. -/
theorem Carries.read_eq {word : List Bool}
    (hword : bemInstructionBits machine childFields other instruction = some word)
    {imm₀ : Immediate} {rest : List Immediate} (himm : instruction.immediates = imm₀ :: rest) (dstUnit : String) :
    readImmediate childFields word instruction.template dstUnit =
      bits imm₀.value.toNat (instruction.template.supportedWidthOf dstUnit) := by
  have hslots : readImmediate childFields word instruction.template dstUnit =
      (instruction.template.slotsOf dstUnit).flatMap fun s =>
        lowBits s.width (slotBits childFields word s.slot) := by
    have hpart (s : TemplateSlot) (hs : s ∈ instruction.template.slotsOf dstUnit) :
        instruction.template.supportedWidth s.slot = s.width :=
      InstructionTemplate.supportedWidth_of_mem (InstructionTemplate.mem_slotsOf.mp hs).1
    unfold readImmediate InstructionTemplate.numberOfSlots InstructionTemplate.slotOfDestination
    generalize instruction.template.slotsOf dstUnit = slots at hpart ⊢
    induction slots with
    | nil => rfl
    | cons s slots ih =>
      have hrest := ih fun s' hs' => hpart s' (List.mem_cons_of_mem _ hs')
      simp only [List.length_cons, List.range_succ_eq_map, List.flatMap_cons, List.flatMap_map] at hrest ⊢
      simp only [List.getElem?_cons_zero, List.getElem?_cons_succ, Option.map_some, hpart s List.mem_cons_self,
        hrest]
  have suffix : ∀ less more, instruction.template.slotsOf dstUnit = more ++ less →
      (less.flatMap fun s => lowBits s.width (slotBits childFields word s.slot)) =
        window imm₀.value.toNat 0 (less.map (·.width)).sum := by
    intro less
    induction less with
    | nil => intro more _; rfl
    | cons s less ih =>
      intro more hsplit
      obtain ⟨hs, hdst⟩ := InstructionTemplate.mem_slotsOf.mp
        (hsplit ▸ by simp : s ∈ instruction.template.slotsOf dstUnit)
      have hlow := (h.lowBits_slot hword hs himm (hdst ▸ hsplit)).2
      have hrest := ih (more ++ [s]) (by simp [hsplit])
      have happend := window_append imm₀.value.toNat 0 (less.map (·.width)).sum s.width
      simp only [List.flatMap_cons, hlow, hrest, List.map_cons, List.sum_cons]
      simpa [Nat.add_comm s.width] using happend
  rw [hslots]
  exact suffix _ [] rfl

end Encoding

section Registers
variable {machine : Machine} {t : InstructionTemplate} {width : Nat} {destinationMap : List (String × String)}

theorem addBitsForDstRegisterField_unused {immediates : List Immediate} (hone : ∀ imm ∈ immediates,
    machine.numberOfRegisters imm.destination = 1) :
    addBitsForDstRegisterField machine t width destinationMap immediates = pushBack 0 width := by
  induction immediates with
  | nil => rfl
  | cons imm immediates ih =>
    simp [addBitsForDstRegisterField, hone imm List.mem_cons_self,
      ih fun imm' himm' => hone imm' (List.mem_cons_of_mem _ himm')]

/-- A field that the template does not use fails as soon as an immediate needs a register. -/
theorem addBitsForDstRegisterField_throws (hmap : immediateUnit destinationMap t.name = none)
    {immediates : List Immediate} (hmany : ∃ imm ∈ immediates, machine.numberOfRegisters imm.destination ≠ 1) :
    addBitsForDstRegisterField machine t width destinationMap immediates = none := by
  induction immediates with
  | nil => simp at hmany
  | cons imm immediates ih =>
    by_cases hone : machine.numberOfRegisters imm.destination = 1
    · have hrest : ∃ imm' ∈ immediates, machine.numberOfRegisters imm'.destination ≠ 1 := by
        simpa [hone] using hmany
      simp [addBitsForDstRegisterField, hone, ih hrest]
    · simp [addBitsForDstRegisterField, hone, hmap]

theorem addBitsForDstRegisterField_used {iu : String} (hmap : immediateUnit destinationMap t.name = some iu)
    (immediates : List Immediate) :
    addBitsForDstRegisterField machine t width destinationMap immediates =
      pushBack (if machine.numberOfRegisters iu = 1 then 0
        else ((immediates.find? (·.destination = iu)).map (·.index)).getD 0) width := by
  induction immediates with
  | nil => simp [addBitsForDstRegisterField]
  | cons imm immediates ih =>
    by_cases he : imm.destination = iu
    · by_cases hone : machine.numberOfRegisters iu = 1
      · simp [addBitsForDstRegisterField, he, hone, ih]
      · simp [addBitsForDstRegisterField, he, hone, hmap]
    · simp [addBitsForDstRegisterField, hmap, he, ih]

/-- The bits of a destination register field that is encoded at all. -/
theorem registerField_eq {machine : Machine} {instruction : Instruction} {width : Nat}
    {destinationMap : List (String × String)}
    (hused : (∃ imm ∈ instruction.immediates, machine.numberOfRegisters imm.destination ≠ 1) →
      immediateUnit destinationMap instruction.template.name ≠ none) :
    addBitsForDstRegisterField machine instruction.template width destinationMap instruction.immediates =
      pushBack (registerIndex machine instruction destinationMap) width := by
  cases hmap : immediateUnit destinationMap instruction.template.name with
  | some iu => simp [registerIndex, hmap, addBitsForDstRegisterField_used hmap]
  | none =>
    have hone : ∀ imm ∈ instruction.immediates, machine.numberOfRegisters imm.destination = 1 := by
      intro imm himm
      by_contra hmany
      exact hused ⟨imm, himm, hmany⟩ hmap
    simp [registerIndex, hmap, addBitsForDstRegisterField_unused hone]

end Registers

/-- Two fields of one slot are one field. -/
theorem field_of_slotName {childFields : List InstructionField}
    (hnodup : (childFields.filterMap (·.slotName)).Nodup) {f g : InstructionField} (hf : f ∈ childFields)
    (hg : g ∈ childFields) {name : String} (hfn : f.slotName = some name) (hgn : g.slotName = some name) :
    f = g := by
  induction childFields with
  | nil => cases hf
  | cons x fields ih =>
    have notLater {y : InstructionField} (hy : y ∈ fields) (hyn : y.slotName = some name)
        (hx : x.slotName = some name) : False := by
      rw [List.filterMap_cons_some hx, List.nodup_cons] at hnodup
      exact hnodup.1 (List.mem_filterMap.mpr ⟨y, hy, hyn⟩)
    have hrest : (fields.filterMap (·.slotName)).Nodup := by
      cases hx : x.slotName with
      | none => rwa [List.filterMap_cons_none hx] at hnodup
      | some n =>
        rw [List.filterMap_cons_some hx, List.nodup_cons] at hnodup
        exact hnodup.2
    rcases List.mem_cons.mp hf with rfl | hf'
    · rcases List.mem_cons.mp hg with rfl | hg'
      · rfl
      · exact (notLater hg' hgn hfn).elim
    · rcases List.mem_cons.mp hg with rfl | hg'
      · exact (notLater hf' hfn hgn).elim
      · exact ih hrest hf' hg'

section Main
variable {machine : Machine} {childFields : List InstructionField}
  {other : InstructionField → Option (List Bool)} {instruction : Instruction}

/-- The destinations that have an immediate have slots. -/
theorem Carries.slotsOf_ne_nil (h : Carries machine childFields other instruction) {imm : Immediate}
    (himm : imm ∈ instruction.immediates) :
    ∃ s less, instruction.template.slotsOf imm.destination = s :: less := by
  obtain ⟨s, hs, hdst⟩ := (h.destinations imm.destination).mp ⟨imm, himm, rfl⟩
  have hmem : s ∈ instruction.template.slotsOf imm.destination := InstructionTemplate.mem_slotsOf.mpr ⟨hs, hdst⟩
  cases hslots : instruction.template.slotsOf imm.destination with
  | nil => simp [hslots] at hmem
  | cons s' less => exact ⟨s', less, rfl⟩

/-- A register field that comes out in the word holds its index, if this fits. -/
theorem registerField_holds (hused : (∃ imm ∈ instruction.immediates, machine.numberOfRegisters imm.destination ≠ 1) →
      ∀ width destinationMap, .lImmDstRegisterField width destinationMap ∈ childFields →
        immediateUnit destinationMap instruction.template.name ≠ none)
    {word : List Bool} (hword : bemInstructionBits machine childFields other instruction = some word)
    {left right : List InstructionField} {width : Nat} {destinationMap : List (String × String)}
    (hsplit : childFields.reverse = left ++ .lImmDstRegisterField width destinationMap :: right) :
    width ≤ 32 ∧ value (bitsAfter left (.lImmDstRegisterField width destinationMap) word) =
      registerIndex machine instruction destinationMap % 2 ^ width := by
  have hmem : .lImmDstRegisterField width destinationMap ∈ childFields := by
    rw [← List.mem_reverse, hsplit]
    simp
  rw [bemInstructionBits, hsplit] at hword
  obtain ⟨l, hl, _, hafter⟩ := bitsAfter_eq hword
  rw [addBitsForField, registerField_eq fun hmany => hused hmany width destinationMap hmem, pushBack_eq] at hl
  split at hl
  next hwidth => exact ⟨hwidth, by rw [hafter, ← Option.some.inj hl, value_bits]⟩
  next => cases hl

theorem Agrees.survives (h : Carries machine childFields other instruction)
    (ha : Agrees machine childFields instruction) : Survives machine childFields other instruction := by
  have hfields : ∀ field ∈ childFields.reverse,
      ∃ l, addBitsForField machine instruction other field = some l ∧ l.length = field.width := by
    intro field hrev
    have hmem : field ∈ childFields := List.mem_reverse.mp hrev
    by_cases hslot : ∃ name, field.slotName = some name ∧ instruction.template.usesSlot name
    · obtain ⟨name, hname, huses⟩ := hslot
      obtain ⟨s, hs, rfl⟩ := InstructionTemplate.usesSlot_iff.mp huses
      obtain ⟨imm, himm, hdst⟩ := (h.destinations s.destination).mpr ⟨s, hs, rfl⟩
      obtain ⟨more, less, hsplit⟩ := slot_splits hs
      obtain ⟨left, field', right, hfields, hname', hwidth, hleft⟩ := h.slot_field hs
      -- a slot has one field only
      have hsame : field = field' := by
        have hnodup : (childFields.filterMap (·.slotName)).Nodup := h.slotNames
        have hmem' : field' ∈ childFields := by
          rw [← List.mem_reverse, hfields]
          simp
        exact field_of_slotName hnodup hmem hmem' hname hname'
      subst hsame
      have htotal : (less.map (·.width)).sum + s.width ≤ 32 := by
        have := ha.wordWidth imm himm
        rw [hdst, InstructionTemplate.supportedWidthOf, hsplit] at this
        simp only [List.map_append, List.map_cons, List.sum_append, List.sum_cons] at this
        omega
      cases himms : instruction.immediates with
      | nil => simp [himms] at himm
      | cons imm₀ rest =>
        refine ⟨_, (h.addBits_slot hs hname hwidth himms hsplit).trans (if_pos htotal), ?_⟩
        simp only [List.length_append, List.length_replicate, length_window]
        omega
    · cases hkind : field with
      | lImmDstRegisterField width destinationMap =>
        subst hkind
        have hheld := ha.holds width destinationMap hmem
        refine ⟨bits (registerIndex machine instruction destinationMap) width, ?_, by simp [InstructionField.width]⟩
        rw [addBitsForField, registerField_eq fun hmany => ha.used hmany width destinationMap hmem, pushBack_eq,
          if_pos hheld.1]
      | immediateControlField | moveSlot | immediateSlotField =>
        rw [← hkind]
        apply h.addBits_unused hmem
        · exact fun name hname huses => hslot ⟨name, hname, huses⟩
        · rintro name width rfl
          exact ha.slotWidth name width hmem fun huses => hslot ⟨name, rfl, huses⟩
        · rintro width destinationMap rfl
          cases hkind
  obtain ⟨word, hword⟩ := fieldBits_exists hfields
  refine ⟨word, hword, ?_, ?_⟩
  · intro imm himm
    cases himms : instruction.immediates with
    | nil => simp [himms] at himm
    | cons imm₀ rest =>
      rw [h.read_eq hword himms]
      exact bits_eq_iff.mpr (ha.first imm₀ rest himms imm himm)
  · intro left right width destinationMap hsplit
    have hmem : .lImmDstRegisterField width destinationMap ∈ childFields := by
      rw [← List.mem_reverse, hsplit]
      simp
    rw [(registerField_holds ha.used hword hsplit).2]
    exact Nat.mod_eq_of_lt (ha.holds width destinationMap hmem).2

theorem Survives.agrees (h : Carries machine childFields other instruction)
    (hs : Survives machine childFields other instruction) : Agrees machine childFields instruction := by
  obtain ⟨word, hword, himms, hregs⟩ := hs
  have encoded {field : InstructionField} (hmem : field ∈ childFields) :
      ∃ left right l, childFields.reverse = left ++ field :: right ∧
        addBitsForField machine instruction other field = some l ∧ bitsAfter left field word = l := by
    obtain ⟨left, right, hsplit⟩ := List.append_of_mem (List.mem_reverse.mpr hmem)
    rw [bemInstructionBits, hsplit] at hword
    obtain ⟨l, hl, _, hafter⟩ := bitsAfter_eq hword
    exact ⟨left, right, l, hsplit, hl, hafter⟩
  have hused : (∃ imm ∈ instruction.immediates, machine.numberOfRegisters imm.destination ≠ 1) →
      ∀ width destinationMap, .lImmDstRegisterField width destinationMap ∈ childFields →
        immediateUnit destinationMap instruction.template.name ≠ none := by
    intro hmany width destinationMap hmem hmap
    obtain ⟨_, _, l, _, hl, _⟩ := encoded hmem
    rw [addBitsForField, addBitsForDstRegisterField_throws hmap hmany] at hl
    cases hl
  exact {
    first := by
      intro imm₀ rest himm₀ imm himm
      apply bits_eq_iff.mp
      rw [← h.read_eq hword himm₀, himms imm himm]
    used := hused
    holds := by
      intro width destinationMap hmem
      obtain ⟨left, right, _, hsplit, _⟩ := encoded hmem
      obtain ⟨hwidth, hvalue⟩ := registerField_holds hused hword hsplit
      refine ⟨hwidth, ?_⟩
      rw [← hregs left right width destinationMap hsplit, hvalue]
      exact Nat.mod_lt _ (Nat.two_pow_pos width)
    wordWidth := by
      intro imm himm
      obtain ⟨s, less, hslots⟩ := h.slotsOf_ne_nil himm
      obtain ⟨hs, hdst⟩ := InstructionTemplate.mem_slotsOf.mp
        (hslots ▸ List.mem_cons_self : s ∈ instruction.template.slotsOf imm.destination)
      cases himms' : instruction.immediates with
      | nil => simp [himms'] at himm
      | cons imm₀ rest =>
        have hsplit : instruction.template.slotsOf s.destination = [] ++ s :: less := by
          rw [hdst, hslots]
          rfl
        have hle := (h.lowBits_slot hword hs himms' hsplit).1
        rw [InstructionTemplate.supportedWidthOf, hslots, List.map_cons, List.sum_cons]
        omega
    slotWidth := by
      intro name width hmem hunused
      obtain ⟨_, _, l, _, hl, _⟩ := encoded hmem
      obtain ⟨t, ht, huses⟩ := h.template
      have hno : t.usesSlot name = false := (huses name).trans (Bool.eq_false_iff.mpr hunused)
      simp only [addBitsForField, ht, hno, Bool.false_eq_true, ↓reduceIte, pushBack_eq] at hl
      split at hl
      next hwidth => exact hwidth
      next => cases hl }

/-- Long immediates can be read back exactly when they agree with the first one and
every register field can be filled. -/
theorem survives_iff (h : Carries machine childFields other instruction) :
    Survives machine childFields other instruction ↔ Agrees machine childFields instruction :=
  ⟨fun hs => hs.agrees h, fun ha => ha.survives h⟩

/-- One immediate in two slots, with a register field for its unit. -/
theorem survives_twoSlots :
    Survives ⟨[⟨"limm", [⟨"B1", 8, "IU"⟩, ⟨"B2", 8, "IU"⟩], by decide, by decide⟩], ["IU"], fun _ => 4⟩
      [.moveSlot "B2" 8, .moveSlot "B1" 10, .lImmDstRegisterField 2 [("limm", "IU")]] (fun _ => none)
      ⟨⟨"limm", [⟨"B1", 8, "IU"⟩, ⟨"B2", 8, "IU"⟩], by decide, by decide⟩, [⟨0x1234, "IU", 3⟩]⟩ := by
  apply (survives_iff ?_).mpr
  · exact {
      first := by simp
      used := by simp [immediateUnit]
      holds := by
        intro width destinationMap hmem
        simp only [List.mem_cons, InstructionField.lImmDstRegisterField.injEq, reduceCtorEq, false_or,
          List.not_mem_nil, or_false] at hmem
        obtain ⟨rfl, rfl⟩ := hmem
        decide
      wordWidth := by simp [InstructionTemplate.supportedWidthOf, InstructionTemplate.slotsOf]
      slotWidth := by simp }
  · exact {
      known := by simp
      single := by simp
      destinations := by simp [eq_comm]
      slotNames := by decide
      slots := by decide
      control := by simp
      moves := by
        intro name width hmem hunused
        simp only [List.mem_cons, InstructionField.moveSlot.injEq, reduceCtorEq, List.not_mem_nil, or_false] at hmem
        obtain ⟨rfl, rfl⟩ | ⟨rfl, rfl⟩ := hmem <;> exact absurd (by decide) hunused }

/-- Two immediates for two units: both slots get the first one. -/
theorem not_survives : ¬∀ machine childFields other instruction,
    Carries machine childFields other instruction → Survives machine childFields other instruction := by
  intro hclaim
  have carries : Carries
      ⟨[⟨"limm2", [⟨"B1", 8, "IU1"⟩, ⟨"B2", 8, "IU2"⟩], by decide, by decide⟩], ["IU1", "IU2"], fun _ => 1⟩
      [.moveSlot "B2" 8, .moveSlot "B1" 8] (fun _ => none)
      ⟨⟨"limm2", [⟨"B1", 8, "IU1"⟩, ⟨"B2", 8, "IU2"⟩], by decide, by decide⟩,
        [⟨5, "IU1", 0⟩, ⟨6, "IU2", 0⟩]⟩ := {
    known := by simp
    single := by decide
    destinations := by simp [eq_comm]
    slotNames := by decide
    slots := by decide
    control := by simp
    moves := by
      intro name width hmem hunused
      simp only [List.mem_cons, InstructionField.moveSlot.injEq, List.not_mem_nil, or_false] at hmem
      obtain ⟨rfl, rfl⟩ | ⟨rfl, rfl⟩ := hmem <;> exact absurd (by decide) hunused }
  have agrees := (hclaim _ _ _ _ carries).agrees carries
  have := agrees.first ⟨5, "IU1", 0⟩ [⟨6, "IU2", 0⟩] rfl ⟨6, "IU2", 0⟩ (by simp)
  revert this
  decide

end Main

end Tce.PIG
