import Mathlib.Data.Finset.Dedup
import Tce.Base.Intervals
import Tce.Mach.PipelineRuns
import Tce.Tools.ObjectState

/-!
# Saving, loading and comparing pipelines

A pipeline is saved as the intervals in which each resource is used and each operand is read
or written.
-/

namespace Tce.TTAMachine
open Tools

def OSNAME_PIPELINE : String := "pipeline"
def OSNAME_RESOURCE_USAGE : String := "resource_usage"
def OSNAME_OPERAND_READ : String := "op_read"
def OSNAME_OPERAND_WRITE : String := "op_write"
def OSKEY_RESOURCE_NAME : String := "res_name"
def OSKEY_OPERAND : String := "operand"
def OSKEY_START_CYCLE : String := "start_cycle"
def OSKEY_CYCLES : String := "cycles"

namespace ExecutionPipeline
variable (p : ExecutionPipeline)

/-- The cycle after the last one of a child. -/
def endCycle (child : ObjectState) : Option Int := do
  let cycles ← child.intAttribute OSKEY_CYCLES
  let start ← child.intAttribute OSKEY_START_CYCLE
  return start + cycles

/-- The loop of `saveResourceUse` and `saveOperandUse`: the first child that is about the same and ends
at the cycle gets one more, and if there is none a new one is added. -/
def saveUse (same : ObjectState → Bool) (new : ObjectState) (cycleToSave : Int) :
    List ObjectState → List ObjectState
  | [] => [new]
  | child :: children =>
    if same child ∧ endCycle child = some cycleToSave then
      child.setAttribute OSKEY_CYCLES (.int ((child.intAttribute OSKEY_CYCLES).getD 0 + 1)) :: children
    else child :: saveUse same new cycleToSave children

def isUseOfResource (elementName : String) (child : ObjectState) : Bool :=
  child.name = OSNAME_RESOURCE_USAGE && child.stringAttribute OSKEY_RESOURCE_NAME = some elementName

def isUseOfOperand (operand : Int) (osName : String) (child : ObjectState) : Bool :=
  child.name = osName && child.intAttribute OSKEY_OPERAND = some operand

def saveResourceUse (elementName : String) (cycleToSave : Int) (children : List ObjectState) : List ObjectState :=
  saveUse (isUseOfResource elementName)
    (.node OSNAME_RESOURCE_USAGE
      [(OSKEY_RESOURCE_NAME, .text elementName), (OSKEY_START_CYCLE, .int cycleToSave), (OSKEY_CYCLES, .int 1)] [])
    cycleToSave children

def saveOperandUse (operand cycleToSave : Int) (osName : String) (children : List ObjectState) : List ObjectState :=
  saveUse (isUseOfOperand operand osName)
    (.node osName
      [(OSKEY_OPERAND, .int operand), (OSKEY_START_CYCLE, .int cycleToSave), (OSKEY_CYCLES, .int 1)] [])
    cycleToSave children

/-- The loops over the rows of a table. -/
def saveRows {α : Type} (rows : Nat → List α) (latency : Nat) (save : α → Int → List ObjectState → List ObjectState)
    (children : List ObjectState) : List ObjectState :=
  (List.range latency).foldl (fun children cycle =>
    (rows cycle).foldl (fun children use => save use cycle children) children) children

def saveState : ObjectState :=
  let children := saveRows p.resources p.latency saveResourceUse []
  let children := saveRows p.reads p.latency (fun operand cycle => saveOperandUse operand cycle OSNAME_OPERAND_READ)
    children
  .node OSNAME_PIPELINE []
    (saveRows p.writes p.latency (fun operand cycle => saveOperandUse operand cycle OSNAME_OPERAND_WRITE) children)

/-- The loop of `addResourceUsage`; none when an attribute is missing. -/
def insertUsage (startCycle : Int) (usageState : ObjectState) : List ObjectState → Option (List ObjectState)
  | [] => some [usageState]
  | usage :: usages => do
    let usageStart ← usage.intAttribute OSKEY_START_CYCLE
    if startCycle < usageStart then return usageState :: usage :: usages
    let usages ← insertUsage startCycle usageState usages
    return usage :: usages

def addResourceUsage (usages : List ObjectState) (usageState : ObjectState) : Option (List ObjectState) := do
  let startCycle ← usageState.intAttribute OSKEY_START_CYCLE
  insertUsage startCycle usageState usages

def sortResourceUsages (pipelineState : ObjectState) : Option (List ObjectState) :=
  pipelineState.children.foldlM addResourceUsage []

def readOperands : Finset Int := ((List.range p.latency).flatMap p.reads).toFinset

def writtenOperands : Finset Int := ((List.range p.latency).flatMap p.writes).toFinset

end ExecutionPipeline

namespace FunctionUnit
variable (fu : FunctionUnit) (i : Nat)

def loadUse (usage : ObjectState) : CallResult FunctionUnit :=
  match usage.intAttribute OSKEY_START_CYCLE, usage.intAttribute OSKEY_CYCLES with
  | some startCycle, some cycles =>
    if usage.name = OSNAME_RESOURCE_USAGE then
      match usage.stringAttribute OSKEY_RESOURCE_NAME with
      | some resourceName => fu.addResourceUse i resourceName startCycle cycles
      | none => .threw .ObjectStateLoadingException fu
    else if usage.name = OSNAME_OPERAND_READ then
      match usage.intAttribute OSKEY_OPERAND with
      | some operand => fu.addPortRead i operand startCycle cycles
      | none => .threw .ObjectStateLoadingException fu
    else if usage.name = OSNAME_OPERAND_WRITE then
      match usage.intAttribute OSKEY_OPERAND with
      | some operand => fu.addPortWrite i operand startCycle cycles
      | none => .threw .ObjectStateLoadingException fu
    else .threw .ObjectStateLoadingException fu
  | _, _ => .threw .ObjectStateLoadingException fu

def loadUses (i : Nat) : List ObjectState → FunctionUnit → CallResult FunctionUnit
  | [], fu => .done fu
  | usage :: usages, fu =>
    match fu.loadUse i usage with
    | .done fu => loadUses i usages fu
    | .threw _ fu => .threw .ObjectStateLoadingException fu
    | .undefined => .undefined

def loadState (pipelineState : ObjectState) : CallResult FunctionUnit :=
  if pipelineState.name ≠ OSNAME_PIPELINE then .threw .ObjectStateLoadingException fu
  else
    let fu := fu.removeAllResourceUses i
    match ExecutionPipeline.sortResourceUsages pipelineState with
    | some childTable => loadUses i childTable fu
    | none => .threw .ObjectStateLoadingException fu

/-- Compares the pipelines of operations of two units. -/
def isArchitectureEqual (other : FunctionUnit) (j : Nat) : Bool :=
  let p := fu.pipeline i
  let q := other.pipeline j
  ((List.range p.latency).all fun cycle => (p.resources cycle).all fun name => other.isResourceUsed j name cycle) &&
    p.readOperands = q.readOperands && p.writtenOperands = q.writtenOperands

end FunctionUnit

end Tce.TTAMachine

/-!
## Saved intervals

The children of a saved pipeline are intervals of uses, which cover the uses of the pipeline.
-/

namespace Tce.TTAMachine
open Base Tools

/-- What is used in a cycle. -/
inductive Use where
  | resource (name : String)
  | read (operand : Int)
  | write (operand : Int)
  deriving DecidableEq, Repr

namespace ExecutionPipeline
variable {p q : ExecutionPipeline} {use : Use} {cycle : Nat} {intervals : List (Interval Use)}

def Uses (p : ExecutionPipeline) : Use → Nat → Prop
  | .resource name, cycle => name ∈ p.resources cycle
  | .read operand, cycle => operand ∈ p.reads cycle
  | .write operand, cycle => operand ∈ p.writes cycle

/-- The child that is saved for an interval. -/
def useState (i : Interval Use) : ObjectState :=
  match i.label with
  | .resource name => .node OSNAME_RESOURCE_USAGE
      [(OSKEY_RESOURCE_NAME, .text name), (OSKEY_START_CYCLE, .int i.start), (OSKEY_CYCLES, .int i.cycles)] []
  | .read operand => .node OSNAME_OPERAND_READ
      [(OSKEY_OPERAND, .int operand), (OSKEY_START_CYCLE, .int i.start), (OSKEY_CYCLES, .int i.cycles)] []
  | .write operand => .node OSNAME_OPERAND_WRITE
      [(OSKEY_OPERAND, .int operand), (OSKEY_START_CYCLE, .int i.start), (OSKEY_CYCLES, .int i.cycles)] []

@[simp] theorem start_useState (i : Interval Use) :
    (useState i).intAttribute OSKEY_START_CYCLE = some (i.start : Int) := by
  obtain ⟨label, start, cycles⟩ := i
  cases label <;> rfl

@[simp] theorem cycles_useState (i : Interval Use) :
    (useState i).intAttribute OSKEY_CYCLES = some (i.cycles : Int) := by
  obtain ⟨label, start, cycles⟩ := i
  cases label <;> rfl

theorem endCycle_useState (i : Interval Use) : endCycle (useState i) = some ((i.start + i.cycles : Nat) : Int) := by
  rw [endCycle, cycles_useState, start_useState, Int.natCast_add]
  rfl

theorem setAttribute_useState (i : Interval Use) (n : Nat) :
    (useState i).setAttribute OSKEY_CYCLES (.int n) = useState { i with cycles := n } := by
  obtain ⟨label, start, cycles⟩ := i
  cases label <;> rfl

theorem saveUse_useState {same : ObjectState → Bool} (hsame : ∀ i, same (useState i) = true ↔ i.label = use) :
    saveUse same (useState ⟨use, cycle, 1⟩) cycle (intervals.map useState) =
      (Interval.extend use cycle intervals).map useState := by
  induction intervals with
  | nil => rfl
  | cons i intervals ih =>
    have hcond : (same (useState i) = true ∧ endCycle (useState i) = some (cycle : Int)) ↔
        i.label = use ∧ i.start + i.cycles = cycle := by
      rw [hsame, endCycle_useState, Option.some.injEq, Int.natCast_inj]
    rw [List.map_cons, saveUse, Interval.extend, ih, cycles_useState, Option.getD_some]
    by_cases hi : i.label = use ∧ i.start + i.cycles = cycle
    · rw [if_pos (hcond.mpr hi), if_pos hi]
      exact congrArg (· :: intervals.map useState) (setAttribute_useState i (i.cycles + 1))
    · rw [if_neg (mt hcond.mp hi), if_neg hi, List.map_cons]

theorem isUseOfResource_useState (i : Interval Use) (name : String) :
    isUseOfResource name (useState i) = true ↔ i.label = .resource name := by
  obtain ⟨label, start, cycles⟩ := i
  cases label <;> simp [isUseOfResource, useState, ObjectState.stringAttribute, ObjectState.attributeValue,
    ObjectState.attributes, OSNAME_RESOURCE_USAGE, OSNAME_OPERAND_READ, OSNAME_OPERAND_WRITE]

theorem isUseOfOperand_read (i : Interval Use) (operand : Int) :
    isUseOfOperand operand OSNAME_OPERAND_READ (useState i) = true ↔ i.label = .read operand := by
  obtain ⟨label, start, cycles⟩ := i
  cases label <;> simp [isUseOfOperand, useState, ObjectState.intAttribute, ObjectState.attributeValue,
    ObjectState.attributes, OSNAME_RESOURCE_USAGE, OSNAME_OPERAND_READ, OSNAME_OPERAND_WRITE, AttributeValue.toInt]

theorem isUseOfOperand_write (i : Interval Use) (operand : Int) :
    isUseOfOperand operand OSNAME_OPERAND_WRITE (useState i) = true ↔ i.label = .write operand := by
  obtain ⟨label, start, cycles⟩ := i
  cases label <;> simp [isUseOfOperand, useState, ObjectState.intAttribute, ObjectState.attributeValue,
    ObjectState.attributes, OSNAME_RESOURCE_USAGE, OSNAME_OPERAND_READ, OSNAME_OPERAND_WRITE, AttributeValue.toInt]

theorem saveResourceUse_useState (name : String) (cycle : Nat) (intervals : List (Interval Use)) :
    saveResourceUse name cycle (intervals.map useState) =
      (Interval.extend (.resource name) cycle intervals).map useState :=
  @saveUse_useState (.resource name) cycle intervals _ fun i => isUseOfResource_useState i name

theorem saveOperandUse_read (operand : Int) (cycle : Nat) (intervals : List (Interval Use)) :
    saveOperandUse operand cycle OSNAME_OPERAND_READ (intervals.map useState) =
      (Interval.extend (.read operand) cycle intervals).map useState :=
  @saveUse_useState (.read operand) cycle intervals _ fun i => isUseOfOperand_read i operand

theorem saveOperandUse_write (operand : Int) (cycle : Nat) (intervals : List (Interval Use)) :
    saveOperandUse operand cycle OSNAME_OPERAND_WRITE (intervals.map useState) =
      (Interval.extend (.write operand) cycle intervals).map useState :=
  @saveUse_useState (.write operand) cycle intervals _ fun i => isUseOfOperand_write i operand

/-- The uses of a table, cycle by cycle. -/
def rowUses {α : Type} (rows : Nat → List α) (latency : Nat) (use : α → Use) : List (Use × Nat) :=
  (List.range latency).flatMap fun cycle => (rows cycle).map fun a => (use a, cycle)

def uses (p : ExecutionPipeline) : List (Use × Nat) :=
  rowUses p.resources p.latency .resource ++ (rowUses p.reads p.latency .read ++ rowUses p.writes p.latency .write)

theorem saveRows_useState {α : Type} {rows : Nat → List α} {latency : Nat}
    {save : α → Int → List ObjectState → List ObjectState} {use : α → Use}
    (hsave : ∀ a (cycle : Nat) intervals,
      save a cycle (intervals.map useState) = (Interval.extend (use a) cycle intervals).map useState) :
    saveRows rows latency save (intervals.map useState) =
      (Interval.merge (rowUses rows latency use) intervals).map useState := by
  rw [saveRows, Interval.merge, rowUses, List.foldl_flatMap]
  generalize List.range latency = cycles
  induction cycles generalizing intervals with
  | nil => rfl
  | cons cycle cycles ih =>
    have hrow (row : List α) (intervals : List (Interval Use)) :
        row.foldl (fun children a => save a cycle children) (intervals.map useState) =
          ((row.map fun a => (use a, cycle)).foldl (fun intervals use => Interval.extend use.1 use.2 intervals)
            intervals).map useState := by
      induction row generalizing intervals with
      | nil => rfl
      | cons a row ih => rw [List.foldl_cons, hsave, ih, List.map_cons, List.foldl_cons]
    rw [List.foldl_cons, hrow, ih, List.foldl_cons]

theorem saveState_eq (p : ExecutionPipeline) :
    p.saveState = .node OSNAME_PIPELINE [] ((Interval.merge p.uses []).map useState) := by
  have hmerge (u v : List (Use × Nat)) (intervals : List (Interval Use)) :
      Interval.merge (u ++ v) intervals = Interval.merge v (Interval.merge u intervals) := List.foldl_append
  have hresources := @saveRows_useState [] _ p.resources p.latency _ _ saveResourceUse_useState
  rw [List.map_nil] at hresources
  rw [saveState, uses, hmerge, hmerge]
  rw [hresources, saveRows_useState saveOperandUse_read, saveRows_useState saveOperandUse_write]

theorem mem_rowUses {α : Type} {rows : Nat → List α} {latency : Nat} {f : α → Use} :
    (use, cycle) ∈ rowUses rows latency f ↔ cycle < latency ∧ ∃ a ∈ rows cycle, f a = use := by
  simp only [rowUses, List.mem_flatMap, List.mem_range, List.mem_map, Prod.mk.injEq]
  constructor
  · rintro ⟨c, hc, a, ha, hf, rfl⟩
    exact ⟨hc, a, ha, hf⟩
  · rintro ⟨hc, a, ha, hf⟩
    exact ⟨cycle, hc, a, ha, hf, rfl⟩

theorem mem_uses (h : p.SameLengths) : (use, cycle) ∈ p.uses ↔ p.Uses use cycle := by
  rw [uses, List.mem_append, List.mem_append, mem_rowUses, mem_rowUses, mem_rowUses]
  cases use with
  | resource name =>
    simp only [Use.resource.injEq, exists_eq_right, reduceCtorEq, and_false, exists_false, or_false, Uses]
    exact and_iff_right_of_imp CycleTable.lt_of_mem_row
  | read operand =>
    simp only [Use.read.injEq, exists_eq_right, reduceCtorEq, and_false, exists_false, or_false, false_or, Uses]
    exact and_iff_right_of_imp fun hmem => h.reads ▸ CycleTable.lt_of_mem_row hmem
  | write operand =>
    simp only [Use.write.injEq, exists_eq_right, reduceCtorEq, and_false, exists_false, false_or, Uses]
    exact and_iff_right_of_imp fun hmem => h.writes ▸ CycleTable.lt_of_mem_row hmem

theorem rowUses_sorted {α : Type} {rows : Nat → List α} {latency : Nat} {f : α → Use}
    (hf : ∀ a b, f a = f b → a = b) (hsets : ∀ cycle, (rows cycle).Nodup) :
    (rowUses rows latency f).Pairwise fun u v => u.1 = v.1 → u.2 < v.2 := by
  rw [rowUses, List.pairwise_flatMap]
  constructor
  · intro cycle _
    rw [List.pairwise_map]
    exact (hsets cycle).imp fun hne hsame => absurd (hf _ _ hsame) hne
  · refine List.pairwise_lt_range.imp fun hlt => ?_
    simp only [List.mem_map]
    rintro u ⟨a, -, rfl⟩ v ⟨b, -, rfl⟩ -
    exact hlt

theorem uses_sorted (h : p.RowsAreSets) : p.uses.Pairwise fun u v => u.1 = v.1 → u.2 < v.2 := by
  have hof {α : Type} {rows : Nat → List α} {f : α → Use} {u : Use × Nat} (hu : u ∈ rowUses rows p.latency f) :
      ∃ a, f a = u.1 := (mem_rowUses.mp hu).2.imp fun _ ha => ha.2
  rw [uses, List.pairwise_append, List.pairwise_append]
  refine ⟨rowUses_sorted (fun _ _ => Use.resource.inj) h.resources,
    ⟨rowUses_sorted (fun _ _ => Use.read.inj) h.reads, rowUses_sorted (fun _ _ => Use.write.inj) h.writes, ?_⟩, ?_⟩
  · intro u hu v hv hsame
    obtain ⟨a, ha⟩ := hof hu
    obtain ⟨b, hb⟩ := hof hv
    rw [← ha, ← hb] at hsame
    cases hsame
  · intro u hu v hv hsame
    obtain ⟨a, ha⟩ := hof hu
    rcases List.mem_append.mp hv with hv | hv <;> obtain ⟨b, hb⟩ := hof hv <;> rw [← ha, ← hb] at hsame <;> cases hsame

/-- The intervals that are saved cover exactly the uses of the pipeline. -/
theorem merge_uses (hlengths : p.SameLengths) (hsets : p.RowsAreSets) :
    Interval.Separate (Interval.merge p.uses []) ∧
      ∀ use cycle, Interval.Covered (Interval.merge p.uses []) use cycle ↔ p.Uses use cycle := by
  obtain ⟨hsep, hcovered⟩ := Interval.merge_spec
    ⟨fun i hi => absurd hi List.not_mem_nil, .nil⟩ (fun u _ i hi => absurd hi List.not_mem_nil) (uses_sorted hsets)
  refine ⟨hsep, fun use cycle => (hcovered use cycle).trans ?_⟩
  rw [mem_uses hlengths, or_iff_left]
  rintro ⟨i, hi, -⟩
  exact List.not_mem_nil hi

/-! ## Sorted intervals -/

theorem insertUsage_useState (i : Interval Use) (intervals : List (Interval Use)) :
    insertUsage i.start (useState i) (intervals.map useState) =
      some ((Interval.insertByStart i intervals).map useState) := by
  induction intervals with
  | nil => rfl
  | cons j intervals ih =>
    rw [List.map_cons, insertUsage, start_useState, Interval.insertByStart]
    simp only [Option.pure_def, Option.bind_eq_bind, Option.bind_some, Int.ofNat_lt]
    by_cases hlt : i.start < j.start
    · rw [if_pos hlt, if_pos hlt]
      rfl
    · rw [if_neg hlt, if_neg hlt, ih]
      rfl

theorem sortResourceUsages_useState (name : String) (intervals : List (Interval Use)) :
    sortResourceUsages (.node name [] (intervals.map useState)) =
      some ((Interval.sortByStart intervals).map useState) := by
  have hfold (sorted : List (Interval Use)) : (intervals.map useState).foldlM addResourceUsage (sorted.map useState) =
      some ((intervals.foldl (fun sorted i => Interval.insertByStart i sorted) sorted).map useState) := by
    induction intervals generalizing sorted with
    | nil => rfl
    | cons i intervals ih =>
      have hadd : addResourceUsage (sorted.map useState) (useState i) =
          some ((Interval.insertByStart i sorted).map useState) := by
        rw [addResourceUsage, start_useState]
        exact insertUsage_useState i sorted
      rw [List.map_cons, List.foldlM_cons, hadd]
      exact ih _
  exact hfold []

end ExecutionPipeline

end Tce.TTAMachine
