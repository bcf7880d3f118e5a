import Tce.OSAL.Script

/-!
# Running a script

A script whose results all have places gives the results that the operations
give in its order. Otherwise it does not run to the end.
-/

namespace Tce.OSAL

open Finished (edgesFrom)

namespace OperationDAGBehavior

/-- The script of a graph whose operation nodes stand for what was executed. -/
structure IsSimulable (operation : Operation) (dag : OperationDAG) (executions : List OperationExecution)
    (nodes : List Nat) (b : OperationDAGBehavior) : Prop where
  script : IsScript dag nodes b
  nodup : nodes.Nodup
  topological : IsTopological dag nodes
  operation : ∀ n ∈ nodes, ∀ op, dag.nodes[n]? = some (.operation op) →
    ∃ e, executions[executionOf dag.nodes n]? = some e ∧ e.op = op ∧ e.inputs.length = op.numberOfInputs ∧
      inputOrigins operation dag n = (e.inputs.map some).zipIdx 1
  source : ∀ e ∈ dag.edges, ∀ op, dag.nodes[e.tail]? = some (.operation op) → op.isOutput e.srcOperand = true
  head : ∀ e ∈ dag.edges, (∃ k, dag.nodes[e.head]? = some (.terminal k)) ∨ IsOperation dag.nodes e.head
  /-- Operands that are written are not read. -/
  unread : ∀ n ∈ nodes, ∀ step, b.stepAt n = some step → ∀ q k, step.op.isOutput q = true →
    step.params (q - 1) = some (.ios k) → ∀ e ∈ dag.edges, dag.nodes[e.tail]? ≠ some (.terminal k)
  /-- Each operand is written at most once. -/
  unique : ∀ n ∈ nodes, ∀ n' ∈ nodes, ∀ step step', b.stepAt n = some step → b.stepAt n' = some step' →
    ∀ q q' k, step.op.isOutput q = true → step'.op.isOutput q' = true →
      step.params (q - 1) = some (.ios k) → step'.params (q' - 1) = some (.ios k) → n = n' ∧ q = q'

/-- A place that can be written. -/
def IsPlace (operation : Operation) (cell : Option Cell) : Prop :=
  ∃ c, cell = some c ∧ ∀ k, c = .ios k → 1 ≤ k ∧ k ≤ operation.operandCount

/-- All results have places. -/
def HasPlaces (operation : Operation) (nodes : List Nat) (b : OperationDAGBehavior) : Prop :=
  ∀ n ∈ nodes, ∀ step, b.stepAt n = some step → ∀ q, step.op.isOutput q = true →
    IsPlace operation (step.params (q - 1))

/-- What is at a place. -/
def get {V : Type} (mem : Memory V) : Cell → Option V
  | .ios k => some (mem.ios k)
  | .value index => mem.values index

section memory
variable {V : Type} {operation : Operation} {mem mem' : Memory V}

theorem read_eq {cell : Cell} (hcell : ∀ k, cell = .ios k → 1 ≤ k ∧ k ≤ operation.operandCount) :
    mem.read operation.operandCount cell = get mem cell := by
  cases cell with
  | ios k => exact if_pos (hcell k rfl)
  | value index => rfl

theorem write_eq (mem : Memory V) {cell : Cell} (hcell : ∀ k, cell = .ios k → 1 ≤ k ∧ k ≤ operation.operandCount) (v : V) :
    ∃ mem', mem.write operation.operandCount v cell = some mem' ∧ get mem' cell = some v ∧
      ∀ cell', cell' ≠ cell → get mem' cell' = get mem cell' := by
  cases cell with
  | ios k =>
    refine ⟨_, if_pos (hcell k rfl), congrArg some (Function.update_self _ _ _), fun cell' hne => ?_⟩
    cases cell' with
    | ios k' => exact congrArg some (Function.update_of_ne (fun heq => hne (congrArg _ heq)) _ _)
    | value => rfl
  | value index =>
    refine ⟨_, rfl, Function.update_self _ _ _, fun cell' hne => ?_⟩
    cases cell' with
    | ios => rfl
    | value index' => exact Function.update_of_ne (fun heq => hne (congrArg _ heq)) _ _

/-- Results are written each to its own place, and nothing else is. -/
theorem writeParams_spec {step : SimulationStep} {results : List (V × Nat)} : ∀ (mem : Memory V),
    (∀ r ∈ results, IsPlace operation (step.params r.2)) → (results.map Prod.snd).Nodup →
    (∀ r ∈ results, ∀ r' ∈ results, step.params r.2 = step.params r'.2 → r.2 = r'.2) →
    ∃ mem', results.foldlM (writeParam operation.operandCount step) mem = some mem' ∧
      (∀ r ∈ results, ∀ cell, step.params r.2 = some cell → get mem' cell = some r.1) ∧
      ∀ cell, (∀ r ∈ results, step.params r.2 ≠ some cell) → get mem' cell = get mem cell := by
  induction results with
  | nil => exact fun _ _ _ _ => ⟨_, rfl, fun r hr => (List.not_mem_nil hr).elim, fun _ _ => rfl⟩
  | cons r results ih =>
    intro mem hplaces hnodup hunique
    obtain ⟨⟨cell, hcell, hios⟩, hrest⟩ := List.forall_mem_cons.1 hplaces
    obtain ⟨hnot, hnodup⟩ := List.nodup_cons.1 hnodup
    obtain ⟨mem₁, hwrite, hself, hsame⟩ := write_eq mem hios r.1
    obtain ⟨mem₂, hfold, hresults, hother⟩ := ih mem₁ hrest hnodup fun r hr r' hr' =>
      hunique r (List.mem_cons_of_mem _ hr) r' (List.mem_cons_of_mem _ hr')
    -- the place that was just written is not written again
    have hapart : ∀ r' ∈ results, step.params r'.2 ≠ some cell := by
      intro r' hr' heq
      have := hunique r List.mem_cons_self r' (List.mem_cons_of_mem _ hr') (hcell.trans heq.symm)
      exact hnot (List.mem_map.2 ⟨r', hr', this.symm⟩)
    refine ⟨mem₂, ?_, List.forall_mem_cons.2 ⟨?_, hresults⟩, ?_⟩
    · rw [List.foldlM_cons]
      unfold writeParam at hfold ⊢
      rw [hcell, Option.bind_some, hwrite]
      exact hfold
    · intro cell' hcell'
      rw [hcell] at hcell'
      cases hcell'
      rw [hother cell hapart, hself]
    · intro cell' hcell'
      obtain ⟨hne, hcell'⟩ := List.forall_mem_cons.1 hcell'
      rw [hother cell' hcell', hsame cell' fun heq => hne (heq ▸ hcell)]

theorem mapM_eq_some {α β : Type} {f : α → Option β} {g : α → β} {as : List α} (h : ∀ a ∈ as, f a = some (g a)) :
    as.mapM f = some (as.map g) := by
  induction as with
  | nil => rfl
  | cons a as ih =>
    obtain ⟨ha, has⟩ := List.forall_mem_cons.1 h
    rw [List.mapM_cons, ha, ih has]
    rfl

theorem foldlM_eq_none {α β : Type} {f : β → α → Option β} {as : List α} {a : α} (ha : a ∈ as)
    (h : ∀ b, f b a = none) : ∀ b, as.foldlM f b = none := by
  induction as with
  | nil => cases ha
  | cons a' as ih =>
    intro b
    rw [List.foldlM_cons]
    cases List.mem_cons.1 ha with
    | inl heq =>
      rw [← heq, h b]
      rfl
    | inr ha =>
      cases f b a' with
      | none => rfl
      | some b' => exact ih ha b'

end memory

section run
variable {V C : Type} {m : Machine V C} {hm : m.Lawful} {operands : Nat → V} {operation : Operation}
  {dag : OperationDAG} {executions : List OperationExecution} {nodes : List Nat} {b : OperationDAGBehavior}

/-- The results and the context when the operations of some nodes are executed. -/
def runNodes (hm : m.Lawful) (operands : Nat → V) (c : C) (dag : OperationDAG) (executions : List OperationExecution)
    (before : List Nat) : (Nat → List V) × C :=
  (dataflow m operands hm executions).run (fun _ => [], c) (before.map (executionOf dag.nodes))

/-- The memory after the steps of some nodes. -/
structure Simulates (hm : m.Lawful) (operands : Nat → V) (c : C) (dag : OperationDAG)
    (executions : List OperationExecution) (b : OperationDAGBehavior) (before : List Nat) (s : Memory V × C) : Prop where
  results : ∀ n ∈ before, ∀ step, b.stepAt n = some step → ∀ q cell, step.op.isOutput q = true →
    step.params (q - 1) = some cell → get s.1 cell = some
      (((runNodes hm operands c dag executions before).1 (executionOf dag.nodes n)).getD
        (q - step.op.numberOfInputs - 1) (operands 0))
  constants : ∀ i v, b.cleanUpTable[i]? = some (some v) → s.1.values i = some (m.constant v)
  unwritten : ∀ k, (∀ n ∈ before, ∀ step, b.stepAt n = some step → ∀ q, step.op.isOutput q = true →
    step.params (q - 1) ≠ some (.ios k)) → s.1.ios k = operands k
  context : s.2 = (runNodes hm operands c dag executions before).2

/-- An input of a step has the value of its origin. -/
theorem readParam_eq (hb : IsSimulable operation dag executions nodes b) (hplaces : HasPlaces operation nodes b)
    {before after : List Nat} {n : Nat} (hnodes : nodes = before ++ n :: after) {c : C} {s : Memory V × C}
    (hs : Simulates hm operands c dag executions b before s) {step : SimulationStep} (hisStep : IsStep dag b n step) {e : OperationDAGEdge} (he : e ∈ dag.inEdges n) {o : Origin}
    (ho : nodeOrigin operation dag.nodes e.tail e.srcOperand = some o) :
    readParam operation.operandCount step s.1 (e.dstOperand - 1) = some (o.realize m operands
      (runNodes hm operands c dag executions before).1) := by
  have hcell := hisStep.input e he
  obtain ⟨hedge, hhead⟩ := OperationDAG.mem_inEdges.1 he
  unfold readParam
  unfold IsInputCell at hcell
  unfold nodeOrigin at ho
  cases hn : dag.nodes[e.tail]? with
  | none =>
    rw [hn] at ho
    cases ho
  | some node =>
    rw [hn] at hcell ho
    cases node with
    | terminal k =>
      dsimp only at hcell ho
      obtain ⟨hrange, heq⟩ := Option.ite_none_right_eq_some.1 ho
      cases heq
      rw [hcell, Option.bind_some]
      have hread : s.1.read operation.operandCount (.ios k) = some (s.1.ios k) := if_pos hrange
      rw [hread, hs.unwritten k]
      · rfl
      · intro n' hn' step' hstep' q hq hios
        exact hb.unread n' (hnodes ▸ List.mem_append_left _ hn') step' hstep' q k hq hios e hedge hn
    | constant v =>
      dsimp only at hcell ho
      obtain ⟨i, hi, hv⟩ := hcell
      cases ho
      rw [hi]
      exact hs.constants i v hv
    | operation op =>
      dsimp only at hcell ho
      cases ho
      have htail : e.tail ∈ before :=
        hb.topological before n after hnodes e.tail (OperationDAG.mem_predecessors.2 ⟨e, hedge, rfl, hhead⟩) ⟨op, hn⟩
      have htail' : e.tail ∈ nodes := hnodes ▸ List.mem_append_left _ htail
      obtain ⟨step', hstep', hisStep'⟩ := hb.script.step e.tail htail'
      have hop : step'.op = op := by
        have := hisStep'.op.symm.trans hn
        cases this
        rfl
      have hout : step'.op.isOutput e.srcOperand = true := hop ▸ hb.source e hedge op hn
      obtain ⟨cell, hplace, hios⟩ := hplaces e.tail htail' step' hstep' e.srcOperand hout
      rw [hcell, hstep', Option.bind_some, hplace, Option.bind_some, read_eq hios,
        hs.results e.tail htail step' hstep' e.srcOperand cell hout hplace, hop]
      rfl

/-- A step gives the results of its operation. -/
theorem simulateStep_spec (hb : IsSimulable operation dag executions nodes b) (hplaces : HasPlaces operation nodes b)
    {before after : List Nat} {n : Nat} (hnodes : nodes = before ++ n :: after) {c : C} {s : Memory V × C}
    (hs : Simulates hm operands c dag executions b before s) {step : SimulationStep} (hstep : b.stepAt n = some step) :
    ∃ s', simulateStep m operation.operandCount s step = some s' ∧
      Simulates hm operands c dag executions b (before ++ [n]) s' := by
  have hn : n ∈ nodes := hnodes ▸ List.mem_append_right _ List.mem_cons_self
  have hisStep : IsStep dag b n step := by
    obtain ⟨step', hstep', hisStep⟩ := hb.script.step n hn
    exact Option.some.inj (hstep'.symm.trans hstep) ▸ hisStep
  obtain ⟨e, he, hop, hlength, horigins⟩ := hb.operation n hn step.op hisStep.op
  have hinputs : (List.range step.op.numberOfInputs).mapM (readParam operation.operandCount step s.1) =
      some (e.inputs.map (Origin.realize m operands (runNodes hm operands c dag executions before).1)) := by
    have hread : ∀ i ∈ List.range step.op.numberOfInputs, readParam operation.operandCount step s.1 i =
        some ((e.inputs.map (Origin.realize m operands (runNodes hm operands c dag executions before).1)).getD i
          (operands 0)) := by
      intro i hi
      have hi : i < e.inputs.length := hlength ▸ List.mem_range.1 hi
      have hmem : (some e.inputs[i], i + 1) ∈ (e.inputs.map some).zipIdx 1 := by
        rw [List.mem_zipIdx_iff_le_and_getElem?_sub]
        exact ⟨by omega, by simp [hi]⟩
      rw [← horigins] at hmem
      obtain ⟨edge, hedge, heq⟩ := List.mem_map.1 hmem
      have horigin := congrArg Prod.fst heq
      have hdst : edge.dstOperand = i + 1 := congrArg Prod.snd heq
      have := readParam_eq hb hplaces hnodes hs hisStep hedge horigin
      rw [hdst, Nat.add_sub_cancel] at this
      rw [this, List.getD_eq_getElem?_getD, List.getElem?_map, List.getElem?_eq_getElem hi]
      rfl
    rw [mapM_eq_some hread]
    congr 1
    apply List.ext_getElem
    · simp [hlength]
    · intro i hi hi'
      simp only [List.getElem_map, List.getElem_range]
      rw [List.getD_eq_getElem?_getD, List.getElem?_eq_getElem hi', List.getElem_map]
      rfl
  have hrun : runNodes hm operands c dag executions (before ++ [n]) =
      (Function.update (runNodes hm operands c dag executions before).1 (executionOf dag.nodes n)
        (m.simulateTrigger step.op (e.inputs.map
          (Origin.realize m operands (runNodes hm operands c dag executions before).1)) s.2).1,
        (m.simulateTrigger step.op (e.inputs.map
          (Origin.realize m operands (runNodes hm operands c dag executions before).1)) s.2).2) := by
    rw [hs.context]
    unfold runNodes
    rw [List.map_append, List.map_singleton, Dataflow.run_concat, ← hop]
    generalize (dataflow m operands hm executions).run (fun _ => [], c) (before.map (executionOf dag.nodes)) = E
    dsimp only [Dataflow.step, dataflow]
    rw [he]
  have hlen := hm.length_results step.op
    (e.inputs.map (Origin.realize m operands (runNodes hm operands c dag executions before).1)) s.2
  generalize hresults : m.simulateTrigger step.op
    (e.inputs.map (Origin.realize m operands (runNodes hm operands c dag executions before).1)) s.2 = results at hrun hlen
  -- the parameters of the results
  have hindex : ∀ r ∈ results.1.zipIdx step.op.numberOfInputs, step.op.isOutput (r.2 + 1) = true := by
    intro r hr
    obtain ⟨hle, hlt, -⟩ := List.mem_zipIdx hr
    unfold Operation.isOutput Operation.operandCount
    rw [Bool.and_eq_true, decide_eq_true_iff, decide_eq_true_iff]
    omega
  have hcells : ∀ r ∈ results.1.zipIdx step.op.numberOfInputs, IsPlace operation (step.params r.2) :=
    fun r hr => hplaces n hn step hstep (r.2 + 1) (hindex r hr)
  -- no other result has the place of one of the step
  have hapart : ∀ n' ∈ nodes, ∀ step', b.stepAt n' = some step' → ∀ q q', step.op.isOutput q = true →
      step'.op.isOutput q' = true → step'.params (q' - 1) = step.params (q - 1) → n' = n ∧ q' = q := by
    intro n' hn' step' hstep' q q' hq hq' heq
    obtain ⟨cell, hcell, -⟩ := hplaces n hn step hstep q hq
    rw [hcell] at heq
    cases cell with
    | ios k => exact hb.unique n' hn' n hn step' step hstep' hstep q' q k hq' hq heq hcell
    | value index => exact hb.script.fresh n' hn' n hn step' step hstep' hstep q' q index hq' hq heq hcell
  obtain ⟨mem', hwrite, hwritten, hother⟩ := writeParams_spec s.1 hcells
    (by rw [List.zipIdx_map_snd]; exact List.nodup_range') fun r hr r' hr' heq => by
      have := (hapart n hn step hstep (r.2 + 1) (r'.2 + 1) (hindex r hr) (hindex r' hr') heq.symm).2
      omega
  refine ⟨(mem', results.2), ?_, ?_⟩
  · unfold simulateStep
    rw [hinputs, Option.bind_some, hresults]
    dsimp only
    rw [hwrite]
    rfl
  have hbefore : ∀ n' ∈ before, n' ∈ nodes ∧ n' ≠ n := by
    intro n' hn'
    refine ⟨hnodes ▸ List.mem_append_left _ hn', fun heq => ?_⟩
    have hnodup := hnodes ▸ hb.nodup
    exact List.disjoint_of_nodup_append hnodup hn' (heq ▸ List.mem_cons_self)
  constructor
  · intro n' hn' step' hstep' q cell hq hcell
    rw [hrun]
    dsimp only
    cases List.mem_append.1 hn' with
    | inl hn' =>
      obtain ⟨hmem, hne⟩ := hbefore n' hn'
      obtain ⟨step'', hstep'', hisStep''⟩ := hb.script.step n' hmem
      obtain rfl := Option.some.inj (hstep'.symm.trans hstep'')
      have hne' : executionOf dag.nodes n' ≠ executionOf dag.nodes n :=
        fun heq => hne (executionOf_inj ⟨_, hisStep''.op⟩ ⟨_, hisStep.op⟩ heq)
      rw [Function.update_of_ne hne', ← hs.results n' hn' step' hstep' q cell hq hcell]
      apply hother
      intro r hr heq
      exact hne (hapart n' hmem step' hstep' (r.2 + 1) q (hindex r hr) hq (hcell.trans heq.symm)).1
    | inr hn' =>
      have hself := List.mem_singleton.1 hn'
      subst hself
      obtain rfl : step = step' := Option.some.inj (hstep.symm.trans hstep')
      rw [Function.update_self]
      obtain ⟨hlt, hle⟩ := lt_of_isOutput hq
      unfold Operation.operandCount at hle
      have hj : q - step.op.numberOfInputs - 1 < results.1.length := by omega
      have hmem : (results.1[q - step.op.numberOfInputs - 1], q - 1) ∈ results.1.zipIdx step.op.numberOfInputs := by
        rw [List.mem_zipIdx_iff_le_and_getElem?_sub]
        refine ⟨by omega, ?_⟩
        dsimp only
        rw [show q - 1 - step.op.numberOfInputs = q - step.op.numberOfInputs - 1 by omega, List.getElem?_eq_getElem hj]
      rw [hwritten _ hmem cell hcell, List.getD_eq_getElem?_getD, List.getElem?_eq_getElem hj]
      rfl
  · intro i v hi
    rw [← hs.constants i v hi]
    apply hother (.value i)
    intro r hr heq
    have hcell := hisStep.output (r.2 + 1) (hindex r hr)
    rw [Nat.add_sub_cancel, heq] at hcell
    unfold IsOutputCell at hcell
    cases hlast : (edgesFrom dag n (r.2 + 1)).getLast? with
    | none =>
      rw [hlast] at hcell
      cases hcell
    | some edge =>
      rw [hlast] at hcell
      have hedge := (List.mem_filter.1 (List.mem_of_getLast? hlast)).1
      rcases hb.head edge (OperationDAG.mem_outEdges.1 hedge).1 with ⟨k, hk⟩ | ⟨op, hk⟩
      · dsimp only at hcell
        rw [hk] at hcell
        cases hcell
      · dsimp only at hcell
        rw [hk] at hcell
        obtain ⟨j, hj, hnone⟩ := hcell
        cases hj
        rw [hi] at hnone
        cases hnone
  · intro k hk
    rw [← hs.unwritten k fun n' hn' => hk n' (List.mem_append_left _ hn')]
    have hsame := hother (.ios k) fun r hr =>
      hk n (List.mem_append_right _ List.mem_cons_self) step hstep (r.2 + 1) (hindex r hr)
    exact Option.some.inj hsame
  · rw [hrun]

/-- A script whose results all have places runs to the end. -/
theorem simulateTrigger_of_hasPlaces (hb : IsSimulable operation dag executions nodes b)
    (hplaces : HasPlaces operation nodes b) (hm : m.Lawful) (operands : Nat → V) (c : C) :
    ∃ s, b.simulateTrigger m operation.operandCount operands c = some (s.1.ios, s.2) ∧
      Simulates hm operands c dag executions b nodes s := by
  have hrun : ∀ {before after : List Nat} {s : Memory V × C}, nodes = before ++ after →
      Simulates hm operands c dag executions b before s → ∀ steps : List SimulationStep, steps.map some = after.map b.stepAt →
      ∃ s', steps.foldlM (simulateStep m operation.operandCount) s = some s' ∧
        Simulates hm operands c dag executions b nodes s' := by
    intro before after
    induction after generalizing before with
    | nil =>
      intro s hnodes hs steps hsteps
      rw [List.map_nil, List.map_eq_nil_iff] at hsteps
      subst hsteps
      rw [hnodes, List.append_nil]
      exact ⟨s, rfl, hs⟩
    | cons n after ih =>
      intro s hnodes hs steps hsteps
      obtain ⟨step, steps, rfl, hstep, hsteps⟩ := List.map_eq_cons_iff.1 hsteps
      obtain ⟨s₁, h₁, hs₁⟩ := simulateStep_spec hb hplaces hnodes hs hstep.symm
      obtain ⟨s', h', hs'⟩ := ih (hnodes.trans (List.append_cons before n after)) hs₁ steps hsteps
      refine ⟨s', ?_, hs'⟩
      rw [List.foldlM_cons, h₁]
      exact h'
  have hstart : Simulates hm operands c dag executions b [] (b.initialMemory m operands, c) := by
    refine ⟨fun n hn => (List.not_mem_nil hn).elim, fun i v hi => ?_, fun k _ => rfl, rfl⟩
    unfold initialMemory
    dsimp only
    rw [hi]
    rfl
  obtain ⟨s, hs, hsimulates⟩ := hrun (List.nil_append _).symm hstart b.simulationSteps hb.script.steps
  refine ⟨s, ?_, hsimulates⟩
  unfold simulateTrigger
  rw [hs]
  rfl

/-- A result without a place stops the script. -/
theorem simulateTrigger_eq_none (hm : m.Lawful) (hplaces : ¬ HasPlaces operation nodes b) (operands : Nat → V) (c : C) :
    b.simulateTrigger m operation.operandCount operands c = none := by
  unfold HasPlaces at hplaces
  push Not at hplaces
  obtain ⟨n, hn, step, hstep, q, hq, hplace⟩ := hplaces
  have hmem : step ∈ b.simulationSteps := List.mem_of_getElem? hstep
  have hwrite : ∀ (v : V) (mem : Memory V), writeParam operation.operandCount step mem (v, q - 1) = none := by
    intro v mem
    unfold writeParam
    dsimp only
    cases hcell : step.params (q - 1) with
    | none => rfl
    | some cell =>
      cases cell with
      | value index => exact absurd ⟨_, hcell, fun k hk => by cases hk⟩ hplace
      | ios k =>
        rw [Option.bind_some]
        refine if_neg fun hrange => hplace ⟨_, hcell, fun k' hk' => ?_⟩
        cases hk'
        exact hrange
  have hnone : ∀ s : Memory V × C, simulateStep m operation.operandCount s step = none := by
    intro s
    unfold simulateStep
    cases (List.range step.op.numberOfInputs).mapM (readParam operation.operandCount step s.1) with
    | none => rfl
    | some inputs =>
      rw [Option.bind_some]
      dsimp only
      have hlen := hm.length_results step.op inputs s.2
      obtain ⟨hlt, hle⟩ := lt_of_isOutput hq
      unfold Operation.operandCount at hle
      have hj : q - step.op.numberOfInputs - 1 < (m.simulateTrigger step.op inputs s.2).1.length := by omega
      have hresult : ((m.simulateTrigger step.op inputs s.2).1[q - step.op.numberOfInputs - 1], q - 1) ∈
          (m.simulateTrigger step.op inputs s.2).1.zipIdx step.op.numberOfInputs := by
        rw [List.mem_zipIdx_iff_le_and_getElem?_sub]
        refine ⟨by omega, ?_⟩
        dsimp only
        rw [show q - 1 - step.op.numberOfInputs = q - step.op.numberOfInputs - 1 by omega, List.getElem?_eq_getElem hj]
      rw [foldlM_eq_none hresult fun mem => hwrite _ mem]
      rfl
  unfold simulateTrigger
  rw [foldlM_eq_none hmem hnone]
  rfl

end run

end OperationDAGBehavior

end Tce.OSAL
