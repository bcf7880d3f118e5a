import Mathlib.Data.List.Sort
import Tce.Base.OrderedMap

/-!
# Instruction references

`InstructionReferenceManager` and the objects it shares out. References and instructions
are named by their addresses, implementation objects by the number of their allocation.
One that was deleted is no longer in `impls`, and to use it is a fault.
-/

namespace Tce.POM

/-- What all references to one instruction share. -/
structure InstructionReferenceImpl (I R : Type) where
  ins : I
  refs : List R
  deriving DecidableEq, Repr

namespace InstructionReferenceManager

inductive Failure where
  /-- `InstanceNotFound` -/
  | instanceNotFound
  /-- A failed assertion, or the use of a deleted object. -/
  | fault
  deriving DecidableEq, Repr

end InstructionReferenceManager

/-- `references` is the map of the manager, `impl` what each alive reference has in its
field `impl_`: `none` where there is no reference, `some none` for the null pointer. -/
structure InstructionReferenceManager (I R : Type) where
  references : List (I × Nat)
  impls : Nat → Option (InstructionReferenceImpl I R)
  next : Nat
  impl : R → Option (Option Nat)

namespace InstructionReferenceManager
open Function (update update_apply)
variable {I R : Type}

def empty : InstructionReferenceManager I R where
  references := []
  impls := fun _ => none
  next := 0
  impl := fun _ => none

def implAt (s : InstructionReferenceManager I R) (p : Nat) : Except Failure (InstructionReferenceImpl I R) :=
  match s.impls p with
  | some i => .ok i
  | none => .error .fault

/-- The field of a reference that exists. -/
def implOf (s : InstructionReferenceManager I R) (r : R) : Except Failure (Option Nat) :=
  match s.impl r with
  | some p => .ok p
  | none => .error .fault

def setImplAt (s : InstructionReferenceManager I R) (p : Nat) (i : Option (InstructionReferenceImpl I R)) :
    InstructionReferenceManager I R :=
  { s with impls := update s.impls p i }

theorem setImplAt_impls (s : InstructionReferenceManager I R) (p q : Nat) (i : Option (InstructionReferenceImpl I R)) :
    (s.setImplAt p i).impls q = if q = p then i else s.impls q :=
  update_apply _ _ _ _

variable [LinearOrder I]

/-- With both assertions, the second of which is that of the destructor. -/
def referenceDied (s : InstructionReferenceManager I R) (ins : I) : Except Failure (InstructionReferenceManager I R) :=
  match OrderedMap.find s.references ins with
  | none => .error .fault
  | some p => do
    let i ← s.implAt p
    if i.refs = [] then
      return { s.setImplAt p none with references := OrderedMap.erase s.references ins }
    else throw .fault

def hasReference (s : InstructionReferenceManager I R) (ins : I) : Bool :=
  (OrderedMap.find s.references ins).isSome

def referenceCount (s : InstructionReferenceManager I R) (ins : I) : Except Failure Nat :=
  match OrderedMap.find s.references ins with
  | none => .ok 0
  | some p => do
    let i ← s.implAt p
    return i.refs.length

/-- `InstructionReference::instruction`; `none` stands for the null instruction. -/
def instruction (s : InstructionReferenceManager I R) (r : R) : Except Failure (Option I) := do
  match ← s.implOf r with
  | none => return none
  | some p => return some (← s.implAt p).ins

variable [LinearOrder R]

/-- The equality that the sets of references are looked at with. -/
local instance lawfulBEq_refs : LawfulBEq R := inferInstance

def setImplField (s : InstructionReferenceManager I R) (r : R) (p : Option (Option Nat)) :
    InstructionReferenceManager I R :=
  { s with impl := update s.impl r p }

omit [LinearOrder I] in
theorem setImplField_impl (s : InstructionReferenceManager I R) (r q : R) (p : Option (Option Nat)) :
    (s.setImplField r p).impl q = if q = r then p else s.impl q :=
  update_apply _ _ _ _

omit [LinearOrder I] in
@[simp] theorem setImplField_impls (s : InstructionReferenceManager I R) (r : R) (p : Option (Option Nat)) :
    (s.setImplField r p).impls = s.impls :=
  rfl

def addRef (s : InstructionReferenceManager I R) (p : Nat) (r : R) : Except Failure (InstructionReferenceManager I R) := do
  let i ← s.implAt p
  return s.setImplAt p (some { i with refs := if r ∈ i.refs then i.refs else i.refs.orderedInsert (· ≤ ·) r })

/-- The truth value says whether the object stays alive. -/
def removeRef (s : InstructionReferenceManager I R) (p : Nat) (r : R) :
    Except Failure (InstructionReferenceManager I R × Bool) := do
  let i ← s.implAt p
  if r ∈ i.refs then
    let refs := i.refs.erase r
    let s := s.setImplAt p (some { i with refs := refs })
    if refs = [] then
      let s ← s.referenceDied i.ins
      return (s, false)
    else return (s, true)
  else throw .fault

/-- `impl_->addRef(*this)` where the pointer is not null. -/
def attach (s : InstructionReferenceManager I R) (p : Option Nat) (r : R) :
    Except Failure (InstructionReferenceManager I R) :=
  match p with
  | none => .ok s
  | some p => s.addRef p r

/-- `impl_->removeRef(*this)` where the pointer is not null. -/
def detach (s : InstructionReferenceManager I R) (p : Option Nat) (r : R) :
    Except Failure (InstructionReferenceManager I R × Bool) :=
  match p with
  | none => .ok (s, true)
  | some p => s.removeRef p r

/-- Both constructors of `InstructionReference`. -/
def construct (s : InstructionReferenceManager I R) (r : R) (p : Option Nat) :
    Except Failure (InstructionReferenceManager I R) :=
  (s.setImplField r (some p)).attach p r

/-- What `operator=` and `setImpl` have in common. -/
def retarget (s : InstructionReferenceManager I R) (r : R) (old new : Option Nat) :
    Except Failure (InstructionReferenceManager I R × Bool) := do
  let (s, staysAlive) ← s.detach old r
  let s ← (s.setImplField r (some new)).attach new r
  return (s, staysAlive)

def setImpl (s : InstructionReferenceManager I R) (r : R) (newImpl : Option Nat) :
    Except Failure (InstructionReferenceManager I R × Bool) := do
  let p ← s.implOf r
  if newImpl = p then throw .fault else s.retarget r p newImpl

def copy (s : InstructionReferenceManager I R) (r ref : R) : Except Failure (InstructionReferenceManager I R) := do
  let p ← s.implOf ref
  s.construct r p

/-- `operator=` -/
def assign (s : InstructionReferenceManager I R) (r ref : R) : Except Failure (InstructionReferenceManager I R) := do
  let p ← s.implOf r
  let new ← s.implOf ref
  if new = p then return s
  else
    let (s, _) ← s.retarget r p new
    return s

def destroy (s : InstructionReferenceManager I R) (r : R) : Except Failure (InstructionReferenceManager I R) := do
  let p ← s.implOf r
  let (s, _) ← s.detach p r
  return s.setImplField r none

def createReference (s : InstructionReferenceManager I R) (ins : I) (r : R) :
    Except Failure (InstructionReferenceManager I R) :=
  match OrderedMap.find s.references ins with
  | some p => s.construct r (some p)
  | none =>
    construct { s.setImplAt s.next (some ⟨ins, []⟩) with
      references := OrderedMap.set s.references ins s.next, next := s.next + 1 } r (some s.next)

/-- The references of the other object are those it had when the merge began. -/
def merge (s : InstructionReferenceManager I R) (p other : Nat) : Except Failure (InstructionReferenceManager I R) := do
  let i ← s.implAt other
  i.refs.foldlM (fun s r => do
    let (s, _) ← s.setImpl r (some p)
    return s) s

def replace (s : InstructionReferenceManager I R) (insA insB : I) : Except Failure (InstructionReferenceManager I R) :=
  match OrderedMap.find s.references insA with
  | none => .error .instanceNotFound
  | some a =>
    match OrderedMap.find s.references insB with
    | none => do
      let i ← s.implAt a
      return { s.setImplAt a (some { i with ins := insB }) with
        references := OrderedMap.set (OrderedMap.erase s.references insA) insB a }
    | some b => s.merge b a

/-- The loop of `nullify`; a run that needs more rounds than it is given is a fault. -/
def nullifyRounds (s : InstructionReferenceManager I R) (p : Nat) : Nat → Except Failure (InstructionReferenceManager I R)
  | 0 => .error .fault
  | rounds + 1 => do
    match (← s.implAt p).refs with
    | [] => return s
    | r :: _ =>
      let (s, staysAlive) ← s.setImpl r none
      if staysAlive then s.nullifyRounds p rounds else return s

/-- Each round takes one reference, so that there are no more rounds than references. -/
def nullify (s : InstructionReferenceManager I R) (p : Nat) : Except Failure (InstructionReferenceManager I R) := do
  let i ← s.implAt p
  s.nullifyRounds p (i.refs.length + 1)

def clearRounds (s : InstructionReferenceManager I R) : Nat → Except Failure (InstructionReferenceManager I R)
  | 0 => .error .fault
  | rounds + 1 =>
    match s.references with
    | [] => .ok s
    | (_, p) :: _ => do
      let s ← s.nullify p
      s.clearRounds rounds

def clearReferences (s : InstructionReferenceManager I R) : Except Failure (InstructionReferenceManager I R) := do
  let s ← s.clearRounds (s.references.length + 1)
  return { s with references := [] }

end InstructionReferenceManager

end Tce.POM
