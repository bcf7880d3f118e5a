import Tce.POM.AddressRuns

/-!
# Code labels

Every scope has its labels, found by name, and the global scope lists those of all scopes,
found by address or index. Labels are taken out by address. There is one instruction memory.
-/

namespace Tce.POM

abbrev ScopeId := Nat

/-- A label has a reference to an instruction, or names a procedure. -/
inductive LabelTarget where
  | instruction (ins : InstructionId)
  | procedure (proc : SnippetId)
  deriving DecidableEq, Repr

structure CodeLabel where
  name : String
  target : LabelTarget
  deriving DecidableEq, Repr

structure LabelOwner where
  label : CodeLabel
  scope : ScopeId
  deriving DecidableEq, Repr

/-- What `CodeLabel::address` gives; none where it throws. -/
def CodeLabel.address (w : World) (label : CodeLabel) : Option InstructionAddress :=
  match label.target with
  | .instruction ins => w.addressOf ins
  | .procedure proc => (w.snippets proc).map (·.start)

/-- A program with the labels of its scopes; the global scope is 0. -/
structure LabelledProgram where
  world : World
  /-- Whether the reference manager has a reference to the instruction. -/
  hasReference : InstructionId → Bool
  codeLabels : ScopeId → List CodeLabel
  allCodeLabels : List LabelOwner

/-- The loop of the lookups by address: none where an address throws, `some none` for `KeyNotFound`. -/
def findAtAddress (w : World) (address : InstructionAddress) : (index : Nat) → List CodeLabel → Option (Option CodeLabel)
  | _, [] => some none
  | index, label :: labels =>
    match label.address w with
    | none => none
    | some a =>
      if a = address then
        match index with
        | 0 => some (some label)
        | index + 1 => findAtAddress w address index labels
      else findAtAddress w address index labels

/-- `GlobalScope::removeCodeLabels`: what was taken out before an address throws stays out. -/
def removeCodeLabels (w : World) (address : InstructionAddress) : List LabelOwner → Throwing (List LabelOwner)
  | [] => .done []
  | owner :: owners =>
    match owner.label.address w with
    | none => .threw (owner :: owners)
    | some a =>
      if a = address then removeCodeLabels w address owners
      else (removeCodeLabels w address owners).map (owner :: ·)

/-- The loop of `Program::removeProcedure`; none if it has not ended after so many rounds. -/
def removeLabelsUpTo (w : World) (lastAddress : InstructionAddress) :
    (rounds : Nat) → InstructionAddress → List LabelOwner → Option (Throwing (List LabelOwner))
  | 0, _, _ => none
  | rounds + 1, addr, owners =>
    if addr ≤ lastAddress then
      match removeCodeLabels w addr owners with
      | .done owners' => removeLabelsUpTo w lastAddress rounds (addr + 1) owners'
      | result => some result
    else some (.done owners)

namespace LabelledProgram

section Lookups
variable (lp : LabelledProgram)

/-- `Scope::codeLabel` by name. -/
def codeLabel (scope : ScopeId) (name : String) : Option CodeLabel :=
  (lp.codeLabels scope).find? fun label => label.name = name

def containsCodeLabel (scope : ScopeId) (name : String) : Bool :=
  (lp.codeLabels scope).any fun label => label.name = name

/-- `Scope::codeLabel` by address. -/
def codeLabelAt (scope : ScopeId) (address : InstructionAddress) (index : Nat) : Option (Option CodeLabel) :=
  findAtAddress lp.world address index (lp.codeLabels scope)

/-- `GlobalScope::globalCodeLabel` by address. -/
def globalCodeLabelAt (address : InstructionAddress) (index : Nat) : Option (Option CodeLabel) :=
  findAtAddress lp.world address index (lp.allCodeLabels.map (·.label))

/-- `GlobalScope::globalCodeLabel` by index. -/
def globalCodeLabel (index : Nat) : Option CodeLabel := lp.allCodeLabels[index]?.map (·.label)

end Lookups

/-- The label is one that was made for this program, which the reference manager knows. -/
def addCodeLabel (scope : ScopeId) (label : CodeLabel) (lp : LabelledProgram) : Throwing LabelledProgram :=
  if lp.containsCodeLabel scope label.name then .threw lp
  else
    .done { lp with
      hasReference := fun ins => lp.hasReference ins || label.target = .instruction ins
      codeLabels := Function.update lp.codeLabels scope (lp.codeLabels scope ++ [label])
      allCodeLabels := lp.allCodeLabels ++ [⟨label, scope⟩] }

/-- `Procedure::remove`. The instruction is out of the list, and has its parent still, when the
labels are looked at. -/
def remove (c : SnippetId) (i : InstructionId) (lp : LabelledProgram) : Throwing LabelledProgram :=
  match lp.world.snippets c, lp.world.instructions i with
  | some s, some ins =>
    let refs := s.isInProgram && lp.hasReference i
    if !s.isProcedure then .undefined
    else if ins.parent ≠ some c then .threw lp
    else if s.instructions.isEmpty then .undefined
    else if i ∈ s.instructions then
      let first : Bool := s.instructions.head? = some i
      let instructions := s.instructions.erase i
      let addr := s.start + BitVec.ofNat 32 (s.instructions.idxOf i)
      let lp' := { lp with world := lp.world.setInstructions c instructions }
      let result :=
        if !first && refs || instructions.isEmpty then
          if s.isInProgram then
            (removeCodeLabels lp'.world addr lp'.allCodeLabels).map fun owners => { lp' with allCodeLabels := owners }
          else .threw lp'
        else .done lp'
      result.andThen fun lp' =>
        ((lp'.world.setParent i none).moveFollowing c (-1)).map fun w => { lp' with world := w }
    else .done lp
  | _, _ => .undefined

/-- `Program::removeProcedure`, if the loop over its addresses ends after so many rounds. -/
def removeProcedure (rounds : Nat) (p : SnippetId) (lp : LabelledProgram) : Option (Throwing LabelledProgram) :=
  match lp.world.snippets p with
  | none => some .undefined
  | some s =>
    if !s.isInProgram then some (.threw lp)
    else
      (removeLabelsUpTo lp.world (s.endAddress - 1) rounds s.start lp.allCodeLabels).map fun result =>
        (result.map fun owners => { lp with allCodeLabels := owners }).andThen fun lp' =>
          (lp'.world.moveFollowing p (s.start - s.endAddress)).map fun w =>
            { lp' with
              world := { w.putSnippet p (some { s with isInProgram := false }) with procedures := w.procedures.erase p } }

end LabelledProgram

end Tce.POM
