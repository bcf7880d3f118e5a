import Tce.Tools.ObjectState
import Tce.Base.Rebuild

/-!
# Operands

What an operation knows of each of its operands, and the state that an operand saves
and loads.
-/

namespace Tce.OSAL
open Tce.Tools

inductive OperandType where
  | SINT_WORD
  | UINT_WORD
  | FLOAT_WORD
  | DOUBLE_WORD
  | HALF_FLOAT_WORD
  | BOOL
  | RAW_DATA
  deriving DecidableEq, Repr

namespace OperandType

def typeString : OperandType → String
  | SINT_WORD => "SIntWord"
  | UINT_WORD => "UIntWord"
  | FLOAT_WORD => "FloatWord"
  | DOUBLE_WORD => "DoubleWord"
  | HALF_FLOAT_WORD => "HalfFloatWord"
  | BOOL => "Bool"
  | RAW_DATA => "RawData"

def ofString (typeString : String) : Option OperandType :=
  if typeString = "SIntWord" then some SINT_WORD
  else if typeString = "UIntWord" then some UINT_WORD
  else if typeString = "FloatWord" then some FLOAT_WORD
  else if typeString = "DoubleWord" then some DOUBLE_WORD
  else if typeString = "HalfFloatWord" then some HALF_FLOAT_WORD
  else if typeString = "Bool" then some BOOL
  else if typeString = "RawData" then some RAW_DATA
  else none

theorem ofString_typeString (type : OperandType) : ofString type.typeString = some type := by
  cases type <;> decide

end OperandType

structure Operand where
  index : Int
  isInput : Bool
  type : OperandType
  elementWidth : Int
  elementCount : Int
  isAddress : Bool
  addressUnits : Int
  isMemoryData : Bool
  /-- The indices of the operands it can be swapped with. -/
  swap : Finset Int
  deriving DecidableEq

namespace Operand

def isOutput (operand : Operand) : Bool := !operand.isInput

def defaultElementWidth (type : OperandType) : Int :=
  if type = .DOUBLE_WORD then 64
  else if type = .HALF_FLOAT_WORD then 16
  else if type = .BOOL then 1
  else 32

/-- The constructor. That of an operand to be loaded takes the index zero and `SINT_WORD`. -/
def new (isInput : Bool) (index : Int) (type : OperandType) : Operand where
  index := index
  isInput := isInput
  type := type
  elementWidth := defaultElementWidth type
  elementCount := 1
  isAddress := false
  addressUnits := 0
  isMemoryData := false
  swap := ∅

def canSwap (operand op : Operand) : Bool := op.index ∈ operand.swap

/-- The direction, the type and the address units stay as they are. -/
def clear (operand : Operand) : Operand :=
  { operand with index := 0, elementWidth := 0, elementCount := 0, isAddress := false, isMemoryData := false, swap := ∅ }

/-- One child of the list of swappable operands. -/
def loadSwap (swap : Finset Int) (canSwap : ObjectState) : Option (Finset Int) :=
  (canSwap.intAttribute "id").map fun id => insert id swap

def loadChild (operand : Operand) (child : ObjectState) : Option Operand :=
  if child.name = "can-swap" then
    (child.children.foldlM loadSwap operand.swap).map fun swap => { operand with swap := swap }
  else none

/-- An attribute that may be left out. -/
def intAttributeOr (state : ObjectState) (name : String) (default : Int) : Option Int :=
  if state.hasAttribute name then state.intAttribute name else some default

def loadState (operand : Operand) (state : ObjectState) : Option Operand := do
  let index ← state.intAttribute "id"
  let type ← (state.stringAttribute "type").bind OperandType.ofString
  let elementWidth ← intAttributeOr state "element-width" (defaultElementWidth type)
  let elementCount ← intAttributeOr state "element-count" 1
  let isAddress ← state.boolAttribute "mem-address"
  let isMemoryData ← state.boolAttribute "mem-data"
  let addressUnits ← intAttributeOr state "mem-units" operand.clear.addressUnits
  if state.children.length > 1 then none
  else
    state.children.foldlM loadChild
      { operand.clear with
        index := index
        type := type
        elementWidth := elementWidth
        elementCount := elementCount
        isAddress := isAddress
        isMemoryData := isMemoryData
        addressUnits := addressUnits }

/-- `Conversion::toString` of a boolean value. -/
def boolValue (value : Bool) : AttributeValue := .int (if value then 1 else 0)

def saveSwap (id : Int) : ObjectState := (ObjectState.node "in" [] []).setAttribute "id" (.int id)

def saveState (operand : Operand) : ObjectState :=
  let root := ObjectState.node "" [] []
  let root := root.setAttribute "id" (.int operand.index)
  let root := root.setAttribute "type" (.text operand.type.typeString)
  let root := root.setAttribute "element-width" (.int operand.elementWidth)
  let root := root.setAttribute "element-count" (.int operand.elementCount)
  let root := root.setAttribute "mem-address" (boolValue operand.isAddress)
  let root := root.setAttribute "mem-data" (boolValue operand.isMemoryData)
  let root := if operand.addressUnits ≠ 0 then root.setAttribute "mem-units" (.int operand.addressUnits) else root
  if operand.swap.card > 0 then
    root.addChildren [(ObjectState.node "can-swap" [] []).addChildren ((operand.swap.sort (· ≤ ·)).map saveSwap)]
  else root

theorem foldlM_loadSwap (ids : List Int) (swap : Finset Int) :
    (ids.map saveSwap).foldlM loadSwap swap = some (ids.foldl (fun swap id => insert id swap) swap) := by
  induction ids generalizing swap with
  | nil => rfl
  | cons id ids ih =>
    have hid : (saveSwap id).intAttribute "id" = some id := ObjectState.intAttribute_of_int (by simp [saveSwap])
    rw [List.map_cons, List.foldlM_cons, loadSwap, hid]
    exact ih (insert id swap)

theorem boolAttribute_boolValue {state : ObjectState} {key : String} {value : Bool}
    (h : state.attributeValue key = some (boolValue value)) : state.boolAttribute key = some value := by
  rw [ObjectState.boolAttribute, ObjectState.intAttribute_of_int h]
  cases value <;> rfl

theorem intAttributeOr_of_int {state : ObjectState} {key : String} {value default : Int}
    (h : state.attributeValue key = some (.int value)) : intAttributeOr state key default = some value := by
  rw [intAttributeOr, ObjectState.hasAttribute, h, ObjectState.intAttribute_of_int h]
  rfl

/-- The children that are saved are loaded as the operands to swap with. -/
theorem load_children (operand saved : Operand) (hswap : operand.swap = ∅) :
    saved.saveState.children.length ≤ 1 ∧
      saved.saveState.children.foldlM loadChild operand = some { operand with swap := saved.swap } := by
  have hchildren : saved.saveState.children = if saved.swap.card > 0 then
      [(ObjectState.node "can-swap" [] []).addChildren ((saved.swap.sort (· ≤ ·)).map saveSwap)] else [] := by
    unfold saveState
    split <;> split <;> rfl
  by_cases hcard : saved.swap.card > 0
  · rw [hchildren, if_pos hcard]
    refine ⟨Nat.le_refl 1, ?_⟩
    have hload : loadChild operand
        ((ObjectState.node "can-swap" [] []).addChildren ((saved.swap.sort (· ≤ ·)).map saveSwap)) =
        some { operand with swap := saved.swap } := by
      simp only [loadChild, ObjectState.name_addChildren, ObjectState.name_node, ObjectState.children_addChildren,
        ObjectState.children_node, List.nil_append, foldlM_loadSwap, hswap, Rebuild.foldl_insert_sort, ↓reduceIte,
        Option.map_some]
    rw [List.foldlM_cons, hload]
    rfl
  · rw [hchildren, if_neg hcard]
    have hempty : saved.swap = ∅ := Finset.card_eq_zero.1 (Nat.eq_zero_of_not_pos hcard)
    rw [hempty, ← hswap]
    exact ⟨Nat.zero_le 1, rfl⟩

theorem attributeValue_saveState (operand : Operand) (key : String) : operand.saveState.attributeValue key =
    if key = "mem-units" ∧ operand.addressUnits ≠ 0 then some (.int operand.addressUnits)
    else if key = "mem-data" then some (boolValue operand.isMemoryData)
    else if key = "mem-address" then some (boolValue operand.isAddress)
    else if key = "element-count" then some (.int operand.elementCount)
    else if key = "element-width" then some (.int operand.elementWidth)
    else if key = "type" then some (.text operand.type.typeString)
    else if key = "id" then some (.int operand.index)
    else none := by
  by_cases hunits : operand.addressUnits ≠ 0 <;> by_cases hcard : operand.swap.card > 0 <;>
    simp [saveState, hunits, hcard]

/-- An operand that was just constructed becomes the one that was saved, but for its direction. -/
theorem loadState_saveState (fresh operand : Operand) (name : String) (hfresh : fresh.addressUnits = 0) :
    fresh.loadState (operand.saveState.setName name) = some { operand with isInput := fresh.isInput } := by
  have hvalue : ∀ key, (operand.saveState.setName name).attributeValue key = operand.saveState.attributeValue key :=
    ObjectState.attributeValue_setName _ _
  have hindex : (operand.saveState.setName name).intAttribute "id" = some operand.index :=
    ObjectState.intAttribute_of_int (by rw [hvalue, attributeValue_saveState]; simp)
  have htype : (operand.saveState.setName name).stringAttribute "type" = some operand.type.typeString :=
    ObjectState.stringAttribute_of_text (by rw [hvalue, attributeValue_saveState]; simp)
  have hwidth : intAttributeOr (operand.saveState.setName name) "element-width" (defaultElementWidth operand.type) =
      some operand.elementWidth :=
    intAttributeOr_of_int (by rw [hvalue, attributeValue_saveState]; simp)
  have hcount : intAttributeOr (operand.saveState.setName name) "element-count" 1 = some operand.elementCount :=
    intAttributeOr_of_int (by rw [hvalue, attributeValue_saveState]; simp)
  have haddress : (operand.saveState.setName name).boolAttribute "mem-address" = some operand.isAddress :=
    boolAttribute_boolValue (by rw [hvalue, attributeValue_saveState]; simp)
  have hdata : (operand.saveState.setName name).boolAttribute "mem-data" = some operand.isMemoryData :=
    boolAttribute_boolValue (by rw [hvalue, attributeValue_saveState]; simp)
  have hunits : intAttributeOr (operand.saveState.setName name) "mem-units" fresh.clear.addressUnits =
      some operand.addressUnits := by
    by_cases hzero : operand.addressUnits = 0
    · have hnone : (operand.saveState.setName name).attributeValue "mem-units" = none := by
        rw [hvalue, attributeValue_saveState]
        simp [hzero]
      simp [intAttributeOr, ObjectState.hasAttribute, hnone, hzero, clear, hfresh]
    · exact intAttributeOr_of_int (by rw [hvalue, attributeValue_saveState]; simp [hzero])
  have hlength : ¬(operand.saveState.setName name).children.length > 1 :=
    Nat.not_lt.2 (load_children fresh.clear operand rfl).1
  rw [loadState, hindex, htype, Option.bind_some, OperandType.ofString_typeString]
  simp only [Option.bind_eq_bind, Option.bind_some, hwidth, hcount, haddress, hdata, hunits, if_neg hlength]
  exact (load_children _ operand rfl).2

end Operand

end Tce.OSAL
