import Mathlib.Data.List.Basic
import Tce.TPEF.CodeSection

/-!
# TPEF resource numbers

`TPEFResourceUpdater` finds or makes the element of the resource section for a part of a
machine. Parts are named by their addresses and elements by their places in the section.
Names are strings; the string section is left out.
-/

namespace Tce.TPEF

inductive ResourceType where
  | null
  | bus
  | unit
  | rf
  | op
  | imm
  | sr
  | port
  deriving DecidableEq, Repr

structure ResourceElement where
  type : ResourceType
  id : HalfWord
  name : String
  deriving DecidableEq, Repr

namespace ResourceElement

def UNIVERSAL_BUS : HalfWord := 0x00
def UNIVERSAL_FU : HalfWord := 0x00
def INT_RF : HalfWord := 0x80
def BOOL_RF : HalfWord := 0x81
def FP_RF : HalfWord := 0x82

end ResourceElement

end Tce.TPEF

namespace Tce.POM
open TPEF (HalfWord ResourceType ResourceElement)

/-- The target machine `mach_` with what its navigators give, the universal machine, and what
the updater asks of any part. `toInt` and `toString` are those of `Conversion`. -/
structure Hardware (P : Type) where
  name : P → String
  ofUniversalMachine : P → Bool
  operations : P → List P
  parentUnit : P → P
  buses : List P
  functionUnits : List P
  registerFiles : List P
  immediateUnits : List P
  controlUnit : Option P
  universalBus : P
  universalFunctionUnit : P
  universalControlUnit : P
  booleanRegisterFile : P
  integerRegisterFile : P
  doubleRegisterFile : P
  toInt : String → Option Int
  toString : Int → String
  universalFunctionUnit_machine : ofUniversalMachine universalFunctionUnit = true
  universalControlUnit_machine : ofUniversalMachine universalControlUnit = true

namespace Hardware
variable {P : Type} (hw : Hardware P)

/-- `Navigator::item` by name. -/
def item (parts : List P) (name : String) : Option P := parts.find? fun p => hw.name p = name

/-- `FunctionUnit::operation`; operations have names in lower case. -/
def operation (fu : P) (name : String) : Option P := (hw.operations fu).find? fun o => hw.name o = name.toLower

/-- The name of an operation and the index of an operand, around the first dot of a name. -/
def operandOf (resourceName : String) : Option (String × Int) :=
  if '.' ∈ resourceName.toList then
    let operName := String.ofList (resourceName.toList.takeWhile (· ≠ '.'))
    let rest := String.ofList ((resourceName.toList.dropWhile (· ≠ '.')).drop 1)
    (hw.toInt rest).map fun operandIndex => (operName, operandIndex)
  else none

end Hardware

/-- A part with the index of an operand, 0 where there is none: the key of the cache. -/
inductive Resource (P : Type) where
  | bus (bus : P)
  | functionUnit (fu : P)
  | operand (oper : P) (operandIndex : Int)
  | registerFile (rf : P)
  | immediateUnit (immUnit : P)
  deriving DecidableEq, Repr

/-- The five counters. -/
inductive Counter where
  | busId
  | unitPortId
  | functionUnitId
  | registerFileId
  | immediateUnitId
  deriving DecidableEq, Repr

structure TPEFResourceUpdater (P : Type) where
  resources : List ResourceElement
  cache : Resource P → Option Nat
  last : Counter → HalfWord

namespace TPEFResourceUpdater
open Function (update)
variable {P : Type} [DecidableEq P] (hw : Hardware P)

def setCache (s : TPEFResourceUpdater P) (key : Resource P) (element : Nat) : TPEFResourceUpdater P :=
  { s with cache := update s.cache key (some element) }

/-- `if (last < id) last = id + 1` -/
def skipId (s : TPEFResourceUpdater P) (counter : Counter) (id : HalfWord) : TPEFResourceUpdater P :=
  if s.last counter < id then { s with last := update s.last counter (id + 1) } else s

/-- The element is that of the operand in one unit, if it has the operation. -/
def cacheOperand (operName : String) (operandIndex : Int) (place : Nat) (s : TPEFResourceUpdater P) (fu : P) :
    TPEFResourceUpdater P :=
  match hw.operation fu operName with
  | some oper => s.setCache (.operand oper operandIndex) place
  | none => s

/-- A step of `initCache`, for the element at one place; `none` where the program is aborted. The
entries of ports are left out, as only `functionUnitPort` asks for them. -/
def remember (s : TPEFResourceUpdater P) (place : Nat) (currRes : ResourceElement) : Option (TPEFResourceUpdater P) :=
  match currRes.type with
  | .null => none
  | .bus => do
    let bus ← hw.item hw.buses currRes.name
    return s.setCache (.bus bus) place
  | .unit => do
    let fu ← hw.item hw.functionUnits currRes.name
    return (s.skipId .functionUnitId currRes.id).setCache (.functionUnit fu) place
  | .rf => do
    let rf ← hw.item hw.registerFiles currRes.name
    return (s.skipId .registerFileId currRes.id).setCache (.registerFile rf) place
  | .op => do
    let (operName, operandIndex) ← hw.operandOf currRes.name
    return hw.functionUnits.foldl (cacheOperand hw operName operandIndex place) (s.skipId .unitPortId currRes.id)
  | .imm => do
    let immUnit ← hw.item hw.immediateUnits currRes.name
    return (s.skipId .immediateUnitId currRes.id).setCache (.immediateUnit immUnit) place
  | .port => return s.skipId .unitPortId currRes.id
  | .sr => return s.skipId .unitPortId currRes.id

/-- The constructor, on the elements that the section has. -/
def create (resources : List ResourceElement) : Option (TPEFResourceUpdater P) :=
  resources.zipIdx.foldlM (fun s entry => s.remember hw entry.2 entry.1)
    ⟨resources, fun _ => none, fun _ => 1⟩

/-- A new element at the end of the section, in the cache under the key. -/
def addElement (s : TPEFResourceUpdater P) (key : Resource P) (newRes : ResourceElement) : TPEFResourceUpdater P × Nat :=
  ({ s with resources := s.resources ++ [newRes] }.setCache key s.resources.length, s.resources.length)

/-- `last++` -/
def takeId (s : TPEFResourceUpdater P) (counter : Counter) : TPEFResourceUpdater P × HalfWord :=
  ({ s with last := update s.last counter (s.last counter + 1) }, s.last counter)

/-- An element with the next id. -/
def addNumbered (s : TPEFResourceUpdater P) (key : Resource P) (type : ResourceType) (counter : Counter) (name : String) :
    TPEFResourceUpdater P × Nat :=
  let (s, id) := s.takeId counter
  s.addElement key ⟨type, id, name⟩

def bus (s : TPEFResourceUpdater P) (bus : P) : Option (TPEFResourceUpdater P × Nat) :=
  match s.cache (.bus bus) with
  | some element => some (s, element)
  | none =>
    if hw.ofUniversalMachine bus then
      if bus = hw.universalBus then
        some (s.addElement (.bus bus) ⟨.bus, ResourceElement.UNIVERSAL_BUS, hw.name bus⟩)
      else none
    else some (s.addNumbered (.bus bus) .bus .busId (hw.name bus))

/-- An operation that its unit does not have, or not under its name, is an abort or a null pointer. -/
def operand (s : TPEFResourceUpdater P) (oper : P) (operandIndex : Int) : Option (TPEFResourceUpdater P × Nat) :=
  match s.cache (.operand oper operandIndex) with
  | some element => some (s, element)
  | none =>
    if hw.operation (hw.parentUnit oper) (hw.name oper) = some oper then
      some (s.addNumbered (.operand oper operandIndex) .op .unitPortId
        (hw.name oper ++ "." ++ hw.toString operandIndex))
    else none

/-- The name of the part is set also where the element was there. -/
def setName (s : TPEFResourceUpdater P) (element : Nat) (name : String) : TPEFResourceUpdater P :=
  { s with resources := s.resources.modify element fun e => { e with name := name } }

def functionUnit (s : TPEFResourceUpdater P) (fu : P) : Option (TPEFResourceUpdater P × Nat) :=
  match s.cache (.functionUnit fu) with
  | some element => some (s, element)
  | none =>
    if hw.ofUniversalMachine fu then
      if fu = hw.universalFunctionUnit ∨ fu = hw.universalControlUnit then
        -- The universal function unit and the universal control unit have one element.
        match s.cache (.functionUnit hw.universalFunctionUnit), s.cache (.functionUnit hw.universalControlUnit) with
        | some element, _ => some ((s.setName element (hw.name fu)).setCache (.functionUnit fu) element, element)
        | none, some element => some ((s.setName element (hw.name fu)).setCache (.functionUnit fu) element, element)
        | none, none => some (s.addElement (.functionUnit fu) ⟨.unit, ResourceElement.UNIVERSAL_FU, hw.name fu⟩)
      else none
    else some (s.addNumbered (.functionUnit fu) .unit .functionUnitId (hw.name fu))

def registerFile (s : TPEFResourceUpdater P) (rf : P) : Option (TPEFResourceUpdater P × Nat) :=
  match s.cache (.registerFile rf) with
  | some element => some (s, element)
  | none =>
    if hw.ofUniversalMachine rf then
      if rf = hw.booleanRegisterFile then
        some (s.addElement (.registerFile rf) ⟨.rf, ResourceElement.BOOL_RF, hw.name rf⟩)
      else if rf = hw.integerRegisterFile then
        some (s.addElement (.registerFile rf) ⟨.rf, ResourceElement.INT_RF, hw.name rf⟩)
      else if rf = hw.doubleRegisterFile then
        some (s.addElement (.registerFile rf) ⟨.rf, ResourceElement.FP_RF, hw.name rf⟩)
      else none
    else some (s.addNumbered (.registerFile rf) .rf .registerFileId (hw.name rf))

def immediateUnit (s : TPEFResourceUpdater P) (immUnit : P) : Option (TPEFResourceUpdater P × Nat) :=
  match s.cache (.immediateUnit immUnit) with
  | some element => some (s, element)
  | none => some (s.addNumbered (.immediateUnit immUnit) .imm .immediateUnitId (hw.name immUnit))

end TPEFResourceUpdater

end Tce.POM
