import Tce.OSAL.OperationDAGBuilder
import Tce.OpSet.ShiftOperations

/-!
# Base operations

The operations of words and the comparisons of floats, with what their triggers
compute and with the statements that stand for them. A float is what a word is
read as: not a number, or an element of a linear order.
-/

namespace Tce.OpSet

open OSAL

/-- What ends a trigger: the host does not define its result, or it is an error. -/
inductive OperationFault where
  | undefined
  | runtimeError (message : String)
  deriving DecidableEq, Repr

def TriggerFault.toOperationFault : TriggerFault → OperationFault
  | .undefinedShift => .undefined
  | .runtimeError message => .runtimeError message

/-- A comparison gives one or zero. -/
def ofBool (test : Bool) : Word := if test then 1 else 0

/-! ## Words -/

def eq (a b : Word) : Word := ofBool (decide (a = b))

def gt (a b : Word) : Word := ofBool (decide (b.toInt < a.toInt))

def gtu (a b : Word) : Word := ofBool (decide (b.toNat < a.toNat))

def min (a b : Word) : Word := if a.toInt < b.toInt then a else b

def max (a b : Word) : Word := if b.toInt < a.toInt then a else b

def minu (a b : Word) : Word := if a.toNat < b.toNat then a else b

def maxu (a b : Word) : Word := if b.toNat < a.toNat then a else b

/-- `SIGN_EXTEND`. -/
def signExtend (value : Word) (width : Nat) : Word := (value <<< (32 - width)).sshiftRight (32 - width)

/-- `ZERO_EXTEND`. -/
def zeroExtend (value : Word) (width : Nat) : Word := (value <<< (32 - width)) >>> (32 - width)

/-- The host does not define the quotient of the least word and of minus one. -/
def signedQuotient (quotient : Word → Word → Word) (a b : Word) : Except OperationFault Word :=
  if b = 0 then .error (.runtimeError "Divide by zero.")
  else if a = BitVec.intMin 32 ∧ b = -1 then .error .undefined
  else .ok (quotient a b)

def unsignedQuotient (quotient : Word → Word → Word) (a b : Word) : Except OperationFault Word :=
  if b = 0 then .error (.runtimeError "Divide by zero.") else .ok (quotient a b)

/-! ## Floats -/

section floats
variable {α : Type} [LinearOrder α]

def isnan (a : Option α) : Bool := a.isNone

/-- A comparison of the host fails when there is an operand that is not a number. -/
def compareNumbers (test : α → α → Bool) : Option α → Option α → Bool
  | some x, some y => test x y
  | _, _ => false

def floatEq (a b : Option α) : Bool := compareNumbers (fun x y => decide (x = y)) a b

def floatGt (a b : Option α) : Bool := compareNumbers (fun x y => decide (y < x)) a b

def floatGe (a b : Option α) : Bool := compareNumbers (fun x y => decide (y ≤ x)) a b

def floatLt (a b : Option α) : Bool := compareNumbers (fun x y => decide (x < y)) a b

def floatLe (a b : Option α) : Bool := compareNumbers (fun x y => decide (x ≤ y)) a b

/-- An ordered comparison gives zero for operands that are not numbers. -/
def ordered (test : Bool) (a b : Option α) : Word := ofBool (!isnan a && !isnan b && test)

/-- An unordered comparison gives one for operands that are not numbers. -/
def unordered (test : Bool) (a b : Option α) : Word := ofBool (isnan a || isnan b || test)

def eqf (a b : Option α) : Word := ordered (floatEq a b) a b

def equf (a b : Option α) : Word := unordered (floatEq a b) a b

def nef (a b : Option α) : Word := ordered (!floatEq a b) a b

def neuf (a b : Option α) : Word := unordered (!floatEq a b) a b

def gtf (a b : Option α) : Word := ordered (floatGt a b) a b

def gtuf (a b : Option α) : Word := unordered (floatGt a b) a b

def gef (a b : Option α) : Word := ordered (floatGe a b) a b

def geuf (a b : Option α) : Word := unordered (floatGe a b) a b

def ltf (a b : Option α) : Word := ordered (floatLt a b) a b

def ltuf (a b : Option α) : Word := unordered (floatLt a b) a b

def lef (a b : Option α) : Word := ordered (floatLe a b) a b

def leuf (a b : Option α) : Word := unordered (floatLe a b) a b

def ordf (a b : Option α) : Word := ofBool (!isnan a && !isnan b)

def uordf (a b : Option α) : Word := ofBool (isnan a || isnan b)

end floats

/-! ## Operations -/

inductive BaseOperation where
  | ADD | SUB | EQ | GT | GTU | NE | GE | GEU | LE | LEU | LT | LTU
  | SHL | SHR | ROTR | AND | IOR | XOR | NOT | ANDN | MIN | MAX | MINU | MAXU
  | SXBW | SXQW | SXHW | TRUNCWH | NEG | MUL | DIV | DIVU | MOD | MODU
  | EQF | NEF | GTF | GEF | LTF | LEF | EQUF | NEUF | GTUF | GEUF | LTUF | LEUF | ORDF | UORDF
  | CHF | EQH | NEH | GTH | GEH | LTH | LEH | NEUH
  deriving DecidableEq, Repr

namespace BaseOperation

/-- The names by which statements execute operations. -/
def ofName : String → Option BaseOperation
  | "add" => some ADD
  | "sub" => some SUB
  | "eq" => some EQ
  | "gt" => some GT
  | "gtu" => some GTU
  | "shl" => some SHL
  | "shr" => some SHR
  | "rotr" => some ROTR
  | "and" => some AND
  | "ior" => some IOR
  | "xor" => some XOR
  | "not" => some NOT
  | "min" => some MIN
  | "max" => some MAX
  | "minu" => some MINU
  | "maxu" => some MAXU
  | "sxbw" => some SXBW
  | "sxqw" => some SXQW
  | "sxhw" => some SXHW
  | "truncwh" => some TRUNCWH
  | "neg" => some NEG
  | "mul" => some MUL
  | "div" => some DIV
  | "divu" => some DIVU
  | "mod" => some MOD
  | "modu" => some MODU
  | "eqf" => some EQF
  | "nef" => some NEF
  | "gtf" => some GTF
  | "gef" => some GEF
  | "ltf" => some LTF
  | "lef" => some LEF
  | "neuf" => some NEUF
  | "chf" => some CHF
  | "eqh" => some EQH
  | "neh" => some NEH
  | "gth" => some GTH
  | "geh" => some GEH
  | "lth" => some LTH
  | "leh" => some LEH
  | _ => none

def numberOfInputs : BaseOperation → Nat
  | NOT | SXBW | SXQW | SXHW | TRUNCWH | NEG | CHF => 1
  | _ => 2

/-- The operand of the output. -/
def output (op : BaseOperation) : Nat := op.numberOfInputs + 1

def io (operand : Nat) : Parameter := .var (.io operand)

def temp (name : String) : Parameter := .var (.identifier name)

/-- The operation stands for itself. -/
def itself (name : String) : List (List Statement) := [[.EXEC_OPERATION name [io 1, io 2, io 3]]]

def itselfUnary (name : String) : List (List Statement) := [[.EXEC_OPERATION name [io 1, io 2]]]

/-- An operation of halves is done on floats. -/
def onFloats (name : String) : List Statement :=
  [.declaration ["t1", "t2", "t3"],
    .EXEC_OPERATION "chf" [io 1, temp "t1"],
    .EXEC_OPERATION "chf" [io 2, temp "t2"],
    .EXEC_OPERATION name [temp "t1", temp "t2", io 3]]

/-- An operation, and the exclusive or of its result with one. -/
def negated (name t1 : String) (a b : Parameter) : List Statement :=
  [.declaration [t1],
    .EXEC_OPERATION name [a, b, temp t1],
    .EXEC_OPERATION "xor" [temp t1, .integer 1, io 3]]

/-- The inclusive or of two operations on the operands. -/
def either (t1 t2 : String) (first second : String × Parameter × Parameter) : List Statement :=
  [.declaration [t1, t2],
    .EXEC_OPERATION first.1 [first.2.1, first.2.2, temp t1],
    .EXEC_OPERATION second.1 [second.2.1, second.2.2, temp t2],
    .EXEC_OPERATION "ior" [temp t1, temp t2, io 3]]

/-- The trigger semantics of `base.opp`. -/
def dags : BaseOperation → List (List Statement)
  | ADD => itself "add"
  | SUB => itself "sub"
  | EQ => itself "eq"
  | GT => itself "gt"
  | GTU => itself "gtu"
  | NE => [negated "eq" "t1" (io 1) (io 2), either "t1" "t2" ("gt", io 1, io 2) ("gt", io 2, io 1)]
  | GE => [negated "gt" "t1" (io 2) (io 1), either "t1" "t2" ("gt", io 1, io 2) ("eq", io 1, io 2)]
  | GEU => [negated "gtu" "t1" (io 2) (io 1), either "t1" "t2" ("gtu", io 1, io 2) ("eq", io 1, io 2)]
  | LE => [negated "gt" "t1" (io 1) (io 2), either "t1" "t2" ("eq", io 1, io 2) ("gt", io 2, io 1)]
  | LEU => [negated "gtu" "t1" (io 1) (io 2), either "t1" "t2" ("eq", io 1, io 2) ("gtu", io 2, io 1)]
  | LT => [[.EXEC_OPERATION "gt" [io 2, io 1, io 3]]]
  | LTU => [[.EXEC_OPERATION "gtu" [io 2, io 1, io 3]]]
  | SHL => itself "shl"
  | SHR => itself "shr"
  | ROTR => itself "rotr"
  | AND => itself "and"
  | IOR => itself "ior"
  | XOR => itself "xor"
  | NOT => []
  | ANDN =>
    [[.declaration ["negResult", "mulin"],
      .EXEC_OPERATION "not" [io 2, temp "negResult"],
      .EXEC_OPERATION "and" [temp "negResult", io 1, io 3]]]
  | MIN => itself "min"
  | MAX => itself "max"
  | MINU => itself "minu"
  | MAXU => itself "maxu"
  | SXBW => itselfUnary "sxbw"
  | SXQW => itselfUnary "sxqw"
  | SXHW => itselfUnary "sxhw"
  | TRUNCWH => itselfUnary "truncwh"
  | NEG => itselfUnary "neg"
  | MUL => itself "mul"
  | DIV => itself "div"
  | DIVU => itself "divu"
  | MOD => itself "mod"
  | MODU => itself "modu"
  | EQF => itself "eqf"
  | NEF => itself "nef" ++ [either "t1" "t2" ("gtf", io 1, io 2) ("gtf", io 2, io 1)]
  | GTF => itself "gtf"
  | GEF => itself "gef" ++ [either "t1" "t2" ("gtf", io 1, io 2) ("eqf", io 1, io 2)]
  | LTF => itself "ltf" ++ [[.EXEC_OPERATION "gtf" [io 2, io 1, io 3]]]
  | LEF => itself "lef" ++ [either "t1" "t2" ("eqf", io 1, io 2) ("gtf", io 2, io 1)]
  | EQUF => itself "eqf"
  | NEUF => [negated "eqf" "temp1" (io 1) (io 2)]
  | GTUF => itself "gtf"
  | GEUF => [either "temp1" "temp2" ("gtf", io 1, io 2) ("eqf", io 1, io 2)]
  | LTUF =>
    [[.declaration ["temp1", "temp2", "temp3"],
      .EXEC_OPERATION "gtf" [io 1, io 2, temp "temp1"],
      .EXEC_OPERATION "eqf" [io 1, io 2, temp "temp2"],
      .EXEC_OPERATION "ior" [temp "temp1", temp "temp2", temp "temp3"],
      .EXEC_OPERATION "xor" [temp "temp3", .integer 1, io 3]]]
  | LEUF => [negated "gtf" "temp1" (io 1) (io 2), either "t1" "t2" ("eqf", io 1, io 2) ("gtf", io 2, io 1)]
  | ORDF =>
    [[.declaration ["temp1", "temp2"],
      .EXEC_OPERATION "eqf" [io 1, io 1, temp "temp1"],
      .EXEC_OPERATION "eqf" [io 2, io 2, temp "temp2"],
      .EXEC_OPERATION "and" [temp "temp1", temp "temp2", io 3]]]
  | UORDF =>
    [[.declaration ["temp1", "temp2", "temp3"],
      .EXEC_OPERATION "eqf" [io 1, io 1, temp "temp1"],
      .EXEC_OPERATION "eqf" [io 2, io 2, temp "temp2"],
      .EXEC_OPERATION "and" [temp "temp1", temp "temp2", temp "temp3"],
      .EXEC_OPERATION "xor" [temp "temp3", .integer 1, io 3]]]
  | CHF => itselfUnary "chf"
  | EQH => onFloats "eqf" :: itself "eqh"
  | NEH => onFloats "nef" :: itself "neh" ++ [either "t1" "t2" ("gth", io 1, io 2) ("gth", io 2, io 1)]
  | GTH => onFloats "gtf" :: itself "gth"
  | GEH => onFloats "gef" :: itself "geh" ++ [either "t1" "t2" ("gth", io 1, io 2) ("eqh", io 1, io 2)]
  | LTH => onFloats "ltf" :: itself "lth" ++ [[.EXEC_OPERATION "gth" [io 2, io 1, io 3]]]
  | LEH => onFloats "lef" :: itself "leh" ++ [either "t1" "t2" ("eqh", io 1, io 2) ("gth", io 2, io 1)]
  | NEUH => [onFloats "neuf"]

end BaseOperation

/-- How words are read as floats, and what half floats are as floats. -/
structure FloatFormat (α : Type) where
  float : Word → Option α
  chf : Word → Word

namespace BaseOperation
variable {α : Type} [LinearOrder α] (format : FloatFormat α)

/-- The triggers of `base.cc`, on the values of the operands from one on. -/
def trigger (op : BaseOperation) (uint : Nat → Word) : Option (Except OperationFault Word) :=
  let flt (operand : Nat) : Option α := format.float (uint operand)
  match op with
  | ADD => some (.ok (uint 1 + uint 2))
  | SUB => some (.ok (uint 1 - uint 2))
  | EQ => some (.ok (eq (uint 1) (uint 2)))
  | GT => some (.ok (gt (uint 1) (uint 2)))
  | GTU => some (.ok (gtu (uint 1) (uint 2)))
  | SHL => some ((shiftLeft (uint 1) (uint 2).toNat).mapError (·.toOperationFault))
  | SHR => some ((shr ⟨32, uint 1⟩ ⟨32, uint 2⟩).mapError (·.toOperationFault))
  | ROTR => some ((rotr ⟨32, uint 1⟩ ⟨32, uint 2⟩).mapError (·.toOperationFault))
  | AND => some (.ok (uint 1 &&& uint 2))
  | IOR => some (.ok (uint 1 ||| uint 2))
  | XOR => some (.ok (uint 1 ^^^ uint 2))
  | NOT => some (.ok (~~~uint 1))
  | MIN => some (.ok (min (uint 1) (uint 2)))
  | MAX => some (.ok (max (uint 1) (uint 2)))
  | MINU => some (.ok (minu (uint 1) (uint 2)))
  | MAXU => some (.ok (maxu (uint 1) (uint 2)))
  | SXBW => some (.ok (signExtend (uint 1) 1))
  | SXQW => some (.ok (signExtend (uint 1) 8))
  | SXHW => some (.ok (signExtend (uint 1) 16))
  | TRUNCWH => some (.ok (zeroExtend (uint 1) 16))
  | NEG => some (.ok (-uint 1))
  | MUL => some (.ok (uint 1 * uint 2))
  | DIV => some (signedQuotient BitVec.sdiv (uint 1) (uint 2))
  | DIVU => some (unsignedQuotient BitVec.udiv (uint 1) (uint 2))
  | MOD => some (signedQuotient BitVec.srem (uint 1) (uint 2))
  | MODU => some (unsignedQuotient BitVec.umod (uint 1) (uint 2))
  | EQF => some (.ok (eqf (flt 1) (flt 2)))
  | NEF => some (.ok (nef (flt 1) (flt 2)))
  | GTF => some (.ok (gtf (flt 1) (flt 2)))
  | GEF => some (.ok (gef (flt 1) (flt 2)))
  | LTF => some (.ok (ltf (flt 1) (flt 2)))
  | LEF => some (.ok (lef (flt 1) (flt 2)))
  | EQUF => some (.ok (equf (flt 1) (flt 2)))
  | NEUF => some (.ok (neuf (flt 1) (flt 2)))
  | GTUF => some (.ok (gtuf (flt 1) (flt 2)))
  | GEUF => some (.ok (geuf (flt 1) (flt 2)))
  | LTUF => some (.ok (ltuf (flt 1) (flt 2)))
  | LEUF => some (.ok (leuf (flt 1) (flt 2)))
  | ORDF => some (.ok (ordf (flt 1) (flt 2)))
  | UORDF => some (.ok (uordf (flt 1) (flt 2)))
  | CHF => some (.ok (format.chf (uint 1)))
  | NE | GE | GEU | LE | LEU | LT | LTU | ANDN | EQH | NEH | GTH | GEH | LTH | LEH | NEUH => none

/-! ## Graphs -/

def opPool (name : String) : Option Operation :=
  (ofName name).map fun op => ⟨name, op.numberOfInputs, 1, false⟩

/-- What a trigger assigns to its output, and the fault it ends with. -/
def assigned : Option (Except OperationFault Word) → Word
  | some (.ok word) => word
  | _ => 0

def faultOf : Option (Except OperationFault Word) → Option OperationFault
  | some (.ok _) => none
  | some (.error fault) => some fault
  | none => some .undefined

/-- What a trigger gives that has assigned a word to its output. -/
def outcome (word : Word) : Option OperationFault → Except OperationFault Word
  | some fault => .error fault
  | none => .ok word

/-- A trigger that ends with a fault ends the trigger that executes it. -/
def triggerMachine (behavior : BaseOperation → (Nat → Word) → Option (Except OperationFault Word)) :
    Machine Word (Option OperationFault) where
  constant value := BitVec.ofInt 32 value
  simulateTrigger operation inputs fault :=
    let result := (ofName operation.name).bind fun op => behavior op fun operand => inputs.getD (operand - 1) 0
    ([assigned result], fault.orElse fun _ => faultOf result)

/-- `OperationDAGBehavior` of the statements, if they are accepted. -/
def dagTrigger (behavior : BaseOperation → (Nat → Word) → Option (Except OperationFault Word)) (op : BaseOperation)
    (statements : List Statement) (uint : Nat → Word) : Option (Except OperationFault Word) :=
  let operation : Operation := ⟨"", op.numberOfInputs, 1, false⟩
  match OperationDAGBuilder.parse opPool operation statements with
  | .error _ => none
  | .ok dag =>
    (OperationDAGBehavior.new dag).bind fun dagBehavior =>
      (dagBehavior.simulateTrigger (triggerMachine behavior) operation.operandCount uint none).map
        fun result => outcome (result.1 op.output) result.2

/-- An operation without a trigger of its own behaves like the first graph. -/
def behavior (op : BaseOperation) (uint : Nat → Word) : Option (Except OperationFault Word) :=
  match op.trigger format uint with
  | some result => some result
  | none => op.dags.head?.bind fun statements => dagTrigger (trigger format) op statements uint

/-- What the trigger and each of the graphs compute. -/
def alternatives (op : BaseOperation) (uint : Nat → Word) : List (Option (Except OperationFault Word)) :=
  (op.trigger format uint).toList.map some ++
    op.dags.map fun statements => dagTrigger (behavior format) op statements uint

/-- Each graph is accepted, and all of them and the trigger compute the same. -/
def AlternativesAgree (op : BaseOperation) (uint : Nat → Word) : Prop :=
  ∃ result, ∀ alternative ∈ op.alternatives format uint, alternative = some result

end BaseOperation

end Tce.OpSet
