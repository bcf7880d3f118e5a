import Tce.OSAL.BuiltBehavior

/-!
# What built graphs compute

The behavior of a graph does what executing the statements in order does when
no result is lost on the way.
-/

namespace Tce.OSAL

open OperationDAGBehavior (IsScript IsSimulable HasPlaces Simulates addStep runNodes)

/-- The behavior of the graph does what executing the statements in order does,
whatever the values and the behaviors of the executed operations are. A step
that reads what was not computed before would leave it without a result. -/
structure IsCorrect (opPool : String → Option Operation) (operation : Operation) (statements : List Statement)
    (dag : OperationDAG) : Prop where
  acyclic : Acyclic dag.IsEdge
  simulates : ∃ behavior, OperationDAGBehavior.new dag = some behavior ∧
    ∀ (V C : Type) (m : Machine V C), m.Lawful → ∀ (operands : Nat → V) (c : C), ∃ r operands',
      (ExecutionState.initial operation operands c).execute m opPool statements = some r ∧
      behavior.simulateTrigger m operation.operandCount operands c = some (operands', r.context) ∧
      (∀ k, operation.isOutput k = true → r.values (.io k) = some (operands' k)) ∧
      ∀ k, operation.isInput k = true → operands' k = operands k

/-- No result is lost, and what uses the context is not reordered. -/
structure KeepsResults (opPool : String → Option Operation) (operation : Operation) (statements : List Statement)
    (s : ExecutionState Origin (List OperationExecution)) : Prop where
  /-- Each result is read by an operation or is in an operand at the end. -/
  used : ∀ (i : Nat) (e : OperationExecution) (j : Nat), s.context[i]? = some e → j < e.op.numberOfOutputs →
    (∃ e' ∈ s.context, .result i j ∈ e'.inputs) ∨ ∃ k, IsWritten opPool statements s k i j
  /-- Of the operands that have the same result only the last by name is an output. -/
  last : ∀ k i j, IsWritten opPool statements s k i j →
    (operation.isOutput k = true ↔ ∀ k', IsWritten opPool statements s k' i j → ioName k' ≤ ioName k)
  /-- Outputs that do not have a result have their initial value. -/
  outputs : ∀ k, operation.isOutput k = true →
    s.values (.io k) = some (.operand k) ∨ ∃ i j, IsWritten opPool statements s k i j
  ordered : IsContextOrdered s.context

variable {opPool : String → Option Operation} {operation : Operation} {statements : List Statement}
  {s : ExecutionState Origin (List OperationExecution)} {b : OperationDAGBuilder} {outputs : List Nat}
  {dag : OperationDAG} {nodes : List Nat} {c : OperationDAGBehavior}

theorem range_of_isOutput {k : Nat} (hk : operation.isOutput k = true) : 1 ≤ k ∧ k ≤ operation.operandCount := by
  have := OperationDAGBehavior.lt_of_isOutput hk
  omega

theorem exists_realizes {V C : Type} {m : Machine V C} (hm : m.Lawful) (operands : Nat → V) (context : C)
    (hs : executeSymbolically opPool operation statements = some s) :
    ∃ r, (ExecutionState.initial operation operands context).execute m opPool statements = some r ∧
      Realizes hm operands context s r := by
  have hrel : Option.Rel (Realizes hm operands context) (executeSymbolically opPool operation statements)
      ((ExecutionState.initial operation operands context).execute m opPool statements) :=
    executeSymbolically_realizes hm operands context operation statements
  rw [hs] at hrel
  cases hr : (ExecutionState.initial operation operands context).execute m opPool statements with
  | none =>
    rw [hr] at hrel
    cases hrel
  | some r =>
    rw [hr] at hrel
    cases hrel with
    | some h => exact ⟨r, rfl, h⟩

namespace IsGraphOf

/-- The step of a result, with the operand of the result. -/
theorem exists_step (h : IsGraphOf opPool operation statements s b outputs dag)
    (hb : IsBehaviorOf operation dag s nodes c) {i j : Nat} {e : OperationExecution} (he : s.context[i]? = some e)
    (hj : j < e.op.numberOfOutputs) : ∃ n ∈ nodes, ∃ step, c.stepAt n = some step ∧ executionOf dag.nodes n = i ∧
      ∃ q, step.op.isOutput q = true ∧ q - step.op.numberOfInputs - 1 = j := by
  obtain ⟨n, hop, rfl⟩ := h.exists_node he
  have hn := (hb.mem n).2 ⟨_, hop⟩
  obtain ⟨step, hstep, hisStep⟩ := hb.simulable.script.step n hn
  have heq : e.op = step.op := OperationDAGNode.operation.inj (Option.some.inj (hop.symm.trans hisStep.op))
  refine ⟨n, hn, step, hstep, rfl, step.op.numberOfInputs + j + 1, ?_, by omega⟩
  unfold Operation.isOutput Operation.operandCount
  rw [Bool.and_eq_true, decide_eq_true_iff, decide_eq_true_iff]
  rw [heq] at hj
  omega

theorem exists_execution (h : IsGraphOf opPool operation statements s b outputs dag) {k i j : Nat}
    (hk : s.values (.io k) = some (.result i j)) : ∃ e, s.context[i]? = some e ∧ j < e.op.numberOfOutputs :=
  h.tracks.recorded.values _ _ hk

theorem hasPlaces (h : IsGraphOf opPool operation statements s b outputs dag)
    (hb : IsBehaviorOf operation dag s nodes c) (hkeeps : KeepsResults opPool operation statements s) :
    HasPlaces operation nodes c := by
  intro n hn step hstep q hq
  rw [h.isPlace_iff hb.simulable.script hn hstep hq]
  obtain ⟨step', hstep', hisStep⟩ := hb.simulable.script.step n hn
  obtain rfl := Option.some.inj (hstep.symm.trans hstep')
  constructor
  · obtain ⟨e, he, hop, -⟩ := h.execution hisStep.op
    apply hkeeps.used _ e _ he
    have := OperationDAGBehavior.lt_of_isOutput hq
    unfold Operation.operandCount at this
    rw [hop]
    omega
  · intro k hk
    obtain ⟨hwritten, hlast⟩ := (h.ios_iff hb.simulable.script hn hstep hq).1 hk
    exact range_of_isOutput ((hkeeps.last _ _ _ hwritten).2 hlast)

section values
variable {V C : Type} {m : Machine V C} {hm : m.Lawful} {operands : Nat → V} {context : C} {mem : Memory V × C}

/-- The last operand with a result gets it. -/
theorem ios_of_last (h : IsGraphOf opPool operation statements s b outputs dag)
    (hb : IsBehaviorOf operation dag s nodes c) (hmem : Simulates hm operands context dag s.context c nodes mem)
    {k i j : Nat} (hk : IsWritten opPool statements s k i j)
    (hlast : ∀ k', IsWritten opPool statements s k' i j → ioName k' ≤ ioName k) :
    mem.1.ios k = (Origin.result i j).realize m operands (runNodes hm operands context dag s.context nodes).1 := by
  obtain ⟨e, he, hj⟩ := h.exists_execution hk.2
  obtain ⟨n, hn, step, hstep, rfl, q, hq, rfl⟩ := h.exists_step hb he hj
  have hcell := (h.ios_iff hb.simulable.script hn hstep hq).2 ⟨hk, hlast⟩
  exact Option.some.inj (hmem.results n hn step hstep q _ hq hcell)

/-- Other operands keep their values. -/
theorem ios_of_not_last (h : IsGraphOf opPool operation statements s b outputs dag)
    (hb : IsBehaviorOf operation dag s nodes c) (hmem : Simulates hm operands context dag s.context c nodes mem)
    {k : Nat} (hk : ∀ i j, IsWritten opPool statements s k i j →
      ¬ ∀ k', IsWritten opPool statements s k' i j → ioName k' ≤ ioName k) : mem.1.ios k = operands k := by
  apply hmem.unwritten
  intro n hn step hstep q hq hcell
  obtain ⟨hwritten, hlast⟩ := (h.ios_iff hb.simulable.script hn hstep hq).1 hcell
  exact hk _ _ hwritten hlast

variable (hm operands context) in
theorem runNodes_eq (h : IsGraphOf opPool operation statements s b outputs dag)
    (hb : IsBehaviorOf operation dag s nodes c) (hordered : IsContextOrdered s.context) :
    runNodes hm operands context dag s.context nodes = resultsInOrder hm operands context s.context :=
  Dataflow.run_reorder _ (nodup_order hb.simulable) List.nodup_range (fun i => by rw [hb.order, List.mem_range])
    (order_ordered hm operands hb.simulable) (range_ordered operands hm h.tracks.recorded.inOrder) (hb.context hordered)

end values

/-- The behavior is correct if no result is lost. -/
theorem isCorrect (h : IsGraphOf opPool operation statements s b outputs dag)
    (hs : executeSymbolically opPool operation statements = some s)
    (hkeeps : KeepsResults opPool operation statements s) : IsCorrect opPool operation statements dag := by
  obtain ⟨nodes, c, hnew, hb⟩ := h.exists_behavior
  refine ⟨h.finished.acyclic, c, hnew, fun V C m hm operands context => ?_⟩
  obtain ⟨r, hr, hrealizes⟩ := exists_realizes hm operands context hs
  obtain ⟨mem, hrun, hmem⟩ :=
    OperationDAGBehavior.simulateTrigger_of_hasPlaces hb.simulable (h.hasPlaces hb hkeeps) hm operands context
  have hresults := h.runNodes_eq hm operands context hb hkeeps.ordered
  refine ⟨r, mem.1.ios, hr, ?_, fun k hk => ?_, fun k hk => ?_⟩
  · rw [hrun, hrealizes.context, hmem.context, hresults]
  · rw [hrealizes.values]
    rcases hkeeps.outputs k hk with hinitial | ⟨i, j, hwritten⟩
    · rw [hinitial, Option.map_some, h.ios_of_not_last hb hmem]
      · rfl
      · intro i j hwritten
        have := hinitial.symm.trans hwritten.2
        cases this
    · rw [hwritten.2, Option.map_some, ← hresults, h.ios_of_last hb hmem hwritten ((hkeeps.last k i j hwritten).1 hk)]
  · apply h.ios_of_not_last hb hmem
    intro i j hwritten hlast
    have := OperationDAGBehavior.lt_of_isOutput ((hkeeps.last k i j hwritten).2 hlast)
    have := OperationDAGBehavior.lt_of_isInput hk
    omega

end IsGraphOf

/-! ## Lost results are seen -/

/-- Values that tell how deep they are nested. -/
inductive DepthValue where
  | operand (operand : Nat)
  | constant
  | result (depth : Nat)

def DepthValue.depth : DepthValue → Nat
  | .result depth => depth
  | _ => 0

/-- Operations give their depth, and those that use the context add it there. -/
def depthMachine : Machine DepthValue (List Nat) where
  constant _ := .constant
  simulateTrigger op inputs context :=
    let depth := (inputs.map fun v => v.depth + 1).foldr max 0
    (List.replicate op.numberOfOutputs (.result depth), if op.usesContext then context ++ [depth] else context)

theorem depthMachine_lawful : depthMachine.Lawful := by
  constructor
  · intro op inputs context
    exact List.length_replicate
  · intro op hop inputs context context'
    dsimp only [depthMachine]
    rw [hop]
    rfl

/-- Executions in any order give their depths. -/
theorem run_depthMachine {executions : List OperationExecution} (hinOrder : InOrder executions) {order : List Nat}
    (hordered : (dataflow depthMachine .operand depthMachine_lawful executions).Ordered order)
    (hlt : ∀ i ∈ order, i < executions.length) :
    (∀ i ∈ order, ∀ e, executions[i]? = some e →
      ((dataflow depthMachine .operand depthMachine_lawful executions).run (fun _ => [], []) order).1 i =
        List.replicate e.op.numberOfOutputs (.result ((depths executions).getD i 0))) ∧
    ((dataflow depthMachine .operand depthMachine_lawful executions).run (fun _ => [], []) order).2 =
      (order.filter (usesContext executions)).map fun i => (depths executions).getD i 0 := by
  induction order using List.reverseRecOn with
  | nil => exact ⟨fun i hi => (List.not_mem_nil hi).elim, rfl⟩
  | append_singleton before i ih =>
    obtain ⟨hresults, hcontext⟩ := ih hordered.initial fun j hj => hlt j (List.mem_append_left _ hj)
    have hi := hlt i (List.mem_append_right _ List.mem_cons_self)
    have he := List.getElem?_eq_getElem hi
    rw [Dataflow.run_concat]
    generalize (dataflow depthMachine .operand depthMachine_lawful executions).run (fun _ => [], []) before = E at *
    -- the inputs are as deep as their origins
    have hinputs : ∀ o ∈ executions[i].inputs,
        (o.realize depthMachine .operand E.1).depth = o.depth (depths executions) := by
      intro o ho
      cases o with
      | operand k => rfl
      | constant v => rfl
      | result j index =>
        obtain ⟨e, he', hindex⟩ := (hinOrder i _ he _ ho).of_take
        have hj : j ∈ before := hordered before i [] rfl j (dataflow_reads.2 ⟨_, he, _, ho, rfl⟩)
        dsimp only [Origin.realize]
        rw [hresults j hj e he', List.getD_eq_getElem?_getD, List.getElem?_replicate, if_pos hindex]
        rfl
    have hexec : (dataflow depthMachine .operand depthMachine_lawful executions).exec i E.1 E.2 =
        (List.replicate executions[i].op.numberOfOutputs (.result ((depths executions).getD i 0)),
          if usesContext executions i then E.2 ++ [(depths executions).getD i 0] else E.2) := by
      have hdepth : ((executions[i].inputs.map (Origin.realize depthMachine .operand E.1)).map
          fun v => v.depth + 1).foldr max 0 = (depths executions).getD i 0 := by
        rw [depths_eq hinOrder he, List.map_map]
        congr 1
        exact List.map_congr_left fun o ho => congrArg (· + 1) (hinputs o ho)
      have huses : usesContext executions i = executions[i].op.usesContext := by
        unfold usesContext
        rw [he]
        rfl
      dsimp only [dataflow]
      rw [he, huses, ← hdepth]
      rfl
    unfold Dataflow.step
    dsimp only
    rw [hexec]
    constructor
    · intro j hj e hje
      by_cases hji : j = i
      · subst hji
        rw [Function.update_self]
        cases he.symm.trans hje
        rfl
      · rw [Function.update_of_ne hji]
        exact hresults j (by simpa [hji] using hj) e hje
    · rw [List.filter_append, List.map_append, ← hcontext]
      by_cases huses : usesContext executions i = true
      · rw [List.filter_cons_of_pos huses, if_pos huses]
        rfl
      · rw [List.filter_cons_of_neg huses, if_neg huses, List.filter_nil, List.map_nil, List.append_nil]

/-- The value that comes from an origin on the machine of depths. -/
def Origin.toDepthValue (executions : List OperationExecution) : Origin → DepthValue
  | .operand k => .operand k
  | .constant _ => .constant
  | .result i _ => .result ((depths executions).getD i 0)

theorem realize_depthMachine {executions : List OperationExecution} (hinOrder : InOrder executions) {order : List Nat}
    (hordered : (dataflow depthMachine .operand depthMachine_lawful executions).Ordered order)
    (horder : ∀ i, i ∈ order ↔ i < executions.length) {o : Origin} (ho : o.IsOf executions) :
    o.realize depthMachine .operand
      ((dataflow depthMachine .operand depthMachine_lawful executions).run (fun _ => [], []) order).1 =
      o.toDepthValue executions := by
  cases o with
  | operand k => rfl
  | constant v => rfl
  | result i j =>
    obtain ⟨e, he, hj⟩ := ho
    have hi := (horder i).2 (List.getElem?_eq_some_iff.1 he).1
    dsimp only [Origin.realize]
    rw [(run_depthMachine hinOrder hordered fun i => (horder i).1).1 i hi e he, List.getD_eq_getElem?_getD,
      List.getElem?_replicate, if_pos hj]
    rfl

theorem toDepthValue_eq_operand {executions : List OperationExecution} {o : Origin} {k : Nat}
    (h : o.toDepthValue executions = .operand k) : o = .operand k := by
  cases o with
  | operand => rw [DepthValue.operand.inj h]
  | constant => cases h
  | result => cases h

namespace IsGraphOf

/-- If the behavior is correct no result is lost. -/
theorem keepsResults (h : IsGraphOf opPool operation statements s b outputs dag)
    (hs : executeSymbolically opPool operation statements = some s)
    (hcorrect : IsCorrect opPool operation statements dag) : KeepsResults opPool operation statements s := by
  obtain ⟨nodes, c, hnew, hb⟩ := h.exists_behavior
  obtain ⟨c', hnew', hsimulates⟩ := hcorrect.simulates
  obtain rfl := Option.some.inj (hnew.symm.trans hnew')
  have hscript := hb.simulable.script
  obtain ⟨r, operands', hr, hrun, hout, hin⟩ :=
    hsimulates DepthValue (List Nat) depthMachine depthMachine_lawful .operand []
  obtain ⟨r', hr', hrealizes⟩ := exists_realizes depthMachine_lawful .operand [] hs
  obtain rfl := Option.some.inj (hr.symm.trans hr')
  have hplaces : HasPlaces operation nodes c := by
    by_contra hnot
    rw [OperationDAGBehavior.simulateTrigger_eq_none depthMachine_lawful hnot] at hrun
    cases hrun
  obtain ⟨mem, hmemrun, hmem⟩ :=
    OperationDAGBehavior.simulateTrigger_of_hasPlaces hb.simulable hplaces depthMachine_lawful .operand []
  obtain ⟨rfl, hcontext⟩ := Prod.ext_iff.1 (Option.some.inj (hmemrun.symm.trans hrun))
  have hinOrder := h.tracks.recorded.inOrder
  have hordered := order_ordered depthMachine_lawful .operand hb.simulable
  have hrange := range_ordered .operand depthMachine_lawful hinOrder
  -- what outputs are at the end
  have houtput : ∀ k, operation.isOutput k = true →
      ∃ o, s.values (.io k) = some o ∧ o.toDepthValue s.context = mem.1.ios k := by
    intro k hk
    have hvalue := hout k hk
    rw [hrealizes.values] at hvalue
    obtain ⟨o, ho, hreal⟩ := Option.map_eq_some_iff.1 hvalue
    refine ⟨o, ho, Eq.trans ?_ hreal⟩
    exact (realize_depthMachine hinOrder hrange (fun i => List.mem_range) (h.tracks.recorded.values _ _ ho)).symm
  have hlast : ∀ k i j, IsWritten opPool statements s k i j →
      (∀ k', IsWritten opPool statements s k' i j → ioName k' ≤ ioName k) → mem.1.ios k ≠ .operand k := by
    intro k i j hwritten hle heq
    rw [h.ios_of_last hb hmem hwritten hle] at heq
    have hreal := realize_depthMachine hinOrder hordered hb.order (h.tracks.recorded.values _ _ hwritten.2)
    cases toDepthValue_eq_operand (hreal.symm.trans heq)
  constructor
  · intro i e j he hj
    obtain ⟨n, hn, step, hstep, rfl, q, hq, rfl⟩ := h.exists_step hb he hj
    exact ((h.isPlace_iff hscript hn hstep hq).1 (hplaces n hn step hstep q hq)).1
  · intro k i j hwritten
    constructor
    · intro hk
      by_contra hnot
      obtain ⟨o, ho, hvalue⟩ := houtput k hk
      rw [h.ios_of_not_last hb hmem fun i' j' hwritten' => by
        cases hwritten.2.symm.trans hwritten'.2
        exact hnot] at hvalue
      cases ho.symm.trans hwritten.2
      cases toDepthValue_eq_operand hvalue
    · intro hle
      obtain ⟨e, he, hj⟩ := h.exists_execution hwritten.2
      obtain ⟨n, hn, step, hstep, rfl, q, hq, rfl⟩ := h.exists_step hb he hj
      have hcell := (h.ios_iff hscript hn hstep hq).2 ⟨hwritten, hle⟩
      have hk := ((h.isPlace_iff hscript hn hstep hq).1 (hplaces n hn step hstep q hq)).2 k hcell
      by_contra hnot
      apply hlast k _ _ hwritten hle
      apply hin
      unfold Operation.isOutput at hnot
      unfold Operation.isInput
      simp only [Bool.and_eq_true, decide_eq_true_iff] at hnot ⊢
      omega
  · intro k hk
    obtain ⟨o, ho, hvalue⟩ := houtput k hk
    by_cases hwritten : ∃ i j, IsWritten opPool statements s k i j
    · exact .inr hwritten
    · rw [h.ios_of_not_last hb hmem fun i j hij => absurd ⟨i, j, hij⟩ hwritten] at hvalue
      exact .inl (ho.trans (congrArg some (toDepthValue_eq_operand hvalue)))
  · -- the script adds depths to the context in ascending order
    have hdepths : (((List.range s.context.length).filter (usesContext s.context)).map
        fun i => (depths s.context).getD i 0).Pairwise (· ≤ ·) := by
      have hsame : mem.2 = _ := hcontext.trans hrealizes.context
      rw [hmem.context] at hsame
      unfold runNodes resultsInOrder at hsame
      rw [(run_depthMachine hinOrder hordered fun i => (hb.order i).1).2,
        (run_depthMachine hinOrder hrange fun i => List.mem_range.1).2] at hsame
      rw [← hsame, List.pairwise_map]
      exact hb.levels.filter _
    intro i i' hlt hi' huses huses'
    rw [List.pairwise_map, List.pairwise_filter, List.pairwise_iff_getElem] at hdepths
    have hle := hdepths i i' (by rw [List.length_range]; omega) (by rwa [List.length_range]) hlt
    rw [List.getElem_range, List.getElem_range] at hle
    exact hle huses huses'

end IsGraphOf

/-! ## Operation DAGs -/

section sums

def add : Operation := ⟨"ADD", 2, 1, false⟩

def addPool (name : String) : Option Operation := if name = "ADD" then some add else none

def addStatements : List Statement := [.EXEC_OPERATION "ADD" [.var (.io 1), .var (.io 2), .var (.io 3)]]

def addDAG : OperationDAG where
  nodes := [.operation add, .terminal 1, .terminal 2, .terminal 3]
  edges := [⟨1, 0, 1, 1⟩, ⟨2, 0, 1, 2⟩, ⟨0, 3, 3, 1⟩]

def addState : ExecutionState Origin (List OperationExecution) where
  values := Function.update
    (ExecutionState.initial add Origin.operand ([] : List OperationExecution)).values (.io 3) (some (.result 0 0))
  context := [⟨add, [.operand 1, .operand 2]⟩]

theorem isWritten_addState {k i j : Nat} :
    IsWritten addPool addStatements addState k i j ↔ k = 3 ∧ i = 0 ∧ j = 0 := by
  constructor
  · rintro ⟨-, hvalue⟩
    dsimp only [addState] at hvalue
    by_cases hk : k = 3
    · subst hk
      rw [Function.update_self] at hvalue
      cases hvalue
      exact ⟨rfl, rfl, rfl⟩
    · rw [Function.update_of_ne (fun heq => hk (Variable.io.inj heq))] at hvalue
      obtain ⟨-, heq⟩ := Option.ite_none_right_eq_some.1 hvalue
      cases heq
  · rintro ⟨rfl, rfl, rfl⟩
    exact ⟨rfl, rfl⟩

def addTwice : Operation := ⟨"ADDTWICE", 2, 2, false⟩

/-- The sum is written to both outputs. -/
def addTwiceStatements : List Statement :=
  [.declaration ["t"],
    .EXEC_OPERATION "ADD" [.var (.io 1), .var (.io 2), .var (.identifier "t")],
    .assignment (.var (.io 3)) (.var (.identifier "t")),
    .assignment (.var (.io 4)) (.var (.identifier "t"))]

def addTwiceDAG : OperationDAG where
  nodes := [.operation add, .terminal 1, .terminal 2, .terminal 3, .terminal 4]
  edges := [⟨1, 0, 1, 1⟩, ⟨2, 0, 1, 2⟩, ⟨0, 3, 3, 1⟩, ⟨0, 4, 3, 1⟩]

def sumMachine : Machine Int Unit where
  constant v := v
  simulateTrigger op inputs c := (List.replicate op.numberOfOutputs (inputs.foldl (· + ·) 0), c)

theorem sumMachine_lawful : sumMachine.Lawful := ⟨fun _ _ _ => List.length_replicate, fun _ _ _ _ _ => rfl⟩

end sums

end Tce.OSAL
