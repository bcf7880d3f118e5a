import Mathlib.Algebra.Ring.Nat
import Mathlib.Data.List.Nodup

/-!
# Instruction templates

The slots in which an instruction of a template carries parts of long
immediates, each with the width it gives to its part and the immediate unit the
part goes to. Slots, units and templates have the names the machine gives them.
-/

namespace Tce.PIG

structure TemplateSlot where
  slot : String
  width : Nat
  destination : String
  deriving DecidableEq, Repr

/-- `addSlot` refuses a slot without width and one the template has already. -/
structure InstructionTemplate where
  name : String
  slots : List TemplateSlot
  width_pos : ∀ s ∈ slots, 0 < s.width
  nodup : (slots.map (·.slot)).Nodup

namespace InstructionTemplate
variable (t : InstructionTemplate)

def isEmpty : Bool := t.slots.isEmpty

def templateSlot (slotName : String) : Option TemplateSlot := t.slots.find? (·.slot = slotName)

def usesSlot (slotName : String) : Bool := (t.templateSlot slotName).isSome

def destinationOfSlot (slotName : String) : Option String := (t.templateSlot slotName).map (·.destination)

/-- The width of the part that is carried in the slot. -/
def supportedWidth (slotName : String) : Nat := ((t.templateSlot slotName).map (·.width)).getD 0

/-- The slots of one destination, the most significant first. -/
def slotsOf (dstUnit : String) : List TemplateSlot := t.slots.filter (·.destination = dstUnit)

def numberOfSlots (dstUnit : String) : Nat := (t.slotsOf dstUnit).length

def slotOfDestination (dstUnit : String) (index : Nat) : Option String :=
  ((t.slotsOf dstUnit)[index]?).map (·.slot)

def supportedWidthOf (dstUnit : String) : Nat := ((t.slotsOf dstUnit).map (·.width)).sum

variable {t}

theorem templateSlot_of_mem {s : TemplateSlot} (hs : s ∈ t.slots) : t.templateSlot s.slot = some s := by
  cases hf : t.templateSlot s.slot with
  | none =>
    have := List.find?_eq_none.mp hf s hs
    simp at this
  | some s' =>
    have hmem : s' ∈ t.slots := List.mem_of_find?_eq_some hf
    have hname : s'.slot = s.slot := by simpa using List.find?_some hf
    exact congrArg some (List.inj_on_of_nodup_map t.nodup hmem hs hname)

@[simp] theorem usesSlot_iff {slotName : String} : t.usesSlot slotName ↔ ∃ s ∈ t.slots, s.slot = slotName := by
  simp [usesSlot, templateSlot]

theorem supportedWidth_of_mem {s : TemplateSlot} (hs : s ∈ t.slots) : t.supportedWidth s.slot = s.width := by
  simp [supportedWidth, templateSlot_of_mem hs]

theorem destinationOfSlot_of_mem {s : TemplateSlot} (hs : s ∈ t.slots) :
    t.destinationOfSlot s.slot = some s.destination := by
  simp [destinationOfSlot, templateSlot_of_mem hs]

theorem mem_slotsOf {dstUnit : String} {s : TemplateSlot} :
    s ∈ t.slotsOf dstUnit ↔ s ∈ t.slots ∧ s.destination = dstUnit := by
  simp [slotsOf]

end InstructionTemplate

end Tce.PIG
