import Mathlib.Algebra.Ring.Nat

/-!
# Object states

The tree that an object saves its state to and is constructed from: named nodes with
attributes and children. An accessor that throws gives nothing.
-/

namespace Tce.Tools

/-- The text of an attribute, by what it was converted from. -/
inductive AttributeValue where
  | text (value : String)
  | int (value : Int)
  | unsignedInt (value : Nat)
  deriving DecidableEq, Repr

/-- `Conversion::toInt`: the digits of an unsigned integer need not be those of an integer. -/
def AttributeValue.toInt : AttributeValue → Option Int
  | text _ => none
  | int value => some value
  | unsignedInt value => if value < 2 ^ 31 then some value else none

inductive ObjectState where
  | node (name : String) (attributes : List (String × AttributeValue)) (children : List ObjectState)
  deriving Repr

namespace ObjectState

def name : ObjectState → String
  | node name _ _ => name

def attributes : ObjectState → List (String × AttributeValue)
  | node _ attributes _ => attributes

def children : ObjectState → List ObjectState
  | node _ _ children => children

def setName (state : ObjectState) (name : String) : ObjectState := node name state.attributes state.children

/-- The attribute of the name gets the value, or a new one is behind the others. -/
def assign (name : String) (value : AttributeValue) : List (String × AttributeValue) → List (String × AttributeValue)
  | [] => [(name, value)]
  | a :: attributes => if a.1 = name then (name, value) :: attributes else a :: assign name value attributes

def setAttribute (state : ObjectState) (name : String) (value : AttributeValue) : ObjectState :=
  node state.name (assign name value state.attributes) state.children

def addChildren (state : ObjectState) (children : List ObjectState) : ObjectState :=
  node state.name state.attributes (state.children ++ children)

def attributeValue (state : ObjectState) (name : String) : Option AttributeValue :=
  (state.attributes.find? (·.1 = name)).map (·.2)

def hasAttribute (state : ObjectState) (name : String) : Bool := (state.attributeValue name).isSome

def stringAttribute (state : ObjectState) (name : String) : Option String :=
  match state.attributeValue name with
  | some (.text value) => some value
  | some (.int value) => some (toString value)
  | some (.unsignedInt value) => some (toString value)
  | none => none

def intAttribute (state : ObjectState) (name : String) : Option Int :=
  (state.attributeValue name).bind AttributeValue.toInt

def boolAttribute (state : ObjectState) (name : String) : Option Bool :=
  (state.intAttribute name).map (· ≠ 0)

/-- The value of a node is kept as the attribute that has no name. -/
def setValue (state : ObjectState) (value : String) : ObjectState := state.setAttribute "" (.text value)

def stringValue (state : ObjectState) : String := (state.stringAttribute "").getD ""

variable (state : ObjectState) (name key : String) (value : AttributeValue) (states : List ObjectState)

@[simp] theorem name_node (attributes) (children) : (node name attributes children).name = name := rfl

@[simp] theorem children_node (attributes) (children) : (node name attributes children).children = children := rfl

@[simp] theorem name_setName : (state.setName name).name = name := rfl

@[simp] theorem children_setName : (state.setName name).children = state.children := rfl

@[simp] theorem attributeValue_setName : (state.setName name).attributeValue key = state.attributeValue key := rfl

@[simp] theorem name_setAttribute : (state.setAttribute key value).name = state.name := rfl

@[simp] theorem children_setAttribute : (state.setAttribute key value).children = state.children := rfl

@[simp] theorem name_addChildren : (state.addChildren states).name = state.name := rfl

@[simp] theorem children_addChildren : (state.addChildren states).children = state.children ++ states := rfl

@[simp] theorem attributeValue_addChildren : (state.addChildren states).attributeValue key = state.attributeValue key := rfl

@[simp] theorem attributeValue_node_nil (children) : (node name [] children).attributeValue key = none := rfl

theorem find?_assign (attributes : List (String × AttributeValue)) :
    (assign name value attributes).find? (·.1 = key) =
      if key = name then some (name, value) else attributes.find? (·.1 = key) := by
  induction attributes with
  | nil =>
    by_cases hkey : key = name
    · simp [assign, hkey]
    · simp [assign, hkey, Ne.symm hkey]
  | cons a attributes ih =>
    unfold assign
    by_cases ha : a.1 = name <;> by_cases hkey : key = name
    · simp [ha, hkey]
    · simp [ha, hkey, Ne.symm hkey]
    · simp [ha, hkey] at ih ⊢
      exact ih
    · simp [ha, hkey] at ih ⊢
      rw [List.find?_cons, List.find?_cons, ih]

@[simp] theorem attributeValue_setAttribute : (state.setAttribute name value).attributeValue key =
    if key = name then some value else state.attributeValue key := by
  simp only [attributeValue, setAttribute, attributes, find?_assign]
  split <;> rfl

@[simp] theorem name_setValue (text : String) : (state.setValue text).name = state.name := rfl

@[simp] theorem stringValue_setValue (text : String) : (state.setValue text).stringValue = text := by
  simp [stringValue, stringAttribute, setValue]

variable {state name} {key : String}

theorem stringAttribute_of_text {text : String} (h : state.attributeValue key = some (.text text)) :
    state.stringAttribute key = some text := by
  rw [stringAttribute, h]

theorem intAttribute_of_int {n : Int} (h : state.attributeValue key = some (.int n)) : state.intAttribute key = some n := by
  rw [intAttribute, h]
  rfl

end ObjectState

end Tce.Tools
