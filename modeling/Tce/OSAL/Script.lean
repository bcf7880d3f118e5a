import Tce.OSAL.GraphOutputs

/-!
# The script of a graph

Each parameter of a step points to where its edge says: inputs to operands, to
constants and to results of steps before, and each result to a place of its own.
-/

namespace Tce.OSAL

open Finished (edgesFrom)

namespace OperationDAGBehavior

/-- The step of a node. -/
def stepAt (c : OperationDAGBehavior) (n : Nat) : Option SimulationStep := c.simulationSteps[c.stepOfNode n]?

def IsInputCell (dag : OperationDAG) (c : OperationDAGBehavior) (e : OperationDAGEdge) (cell : Option Cell) : Prop :=
  match dag.nodes[e.tail]? with
  | some (.terminal k) => cell = some (.ios k)
  | some (.constant v) => ∃ i, cell = some (.value i) ∧ c.cleanUpTable[i]? = some (some v)
  | some (.operation _) => cell = (c.stepAt e.tail).bind fun step => step.params (e.srcOperand - 1)
  | none => True

/-- The last edge from a result decides where it is written. -/
def IsOutputCell (dag : OperationDAG) (c : OperationDAGBehavior) (last : Option OperationDAGEdge)
    (cell : Option Cell) : Prop :=
  match last with
  | none => cell = none
  | some e =>
    match dag.nodes[e.head]? with
    | some (.terminal k) => cell = some (.ios k)
    | some (.operation _) => ∃ i, cell = some (.value i) ∧ c.cleanUpTable[i]? = some none
    | _ => True

structure IsStep (dag : OperationDAG) (c : OperationDAGBehavior) (n : Nat) (step : SimulationStep) : Prop where
  op : dag.nodes[n]? = some (.operation step.op)
  input : ∀ e ∈ dag.inEdges n, IsInputCell dag c e (step.params (e.dstOperand - 1))
  output : ∀ q, step.op.isOutput q = true → IsOutputCell dag c (edgesFrom dag n q).getLast? (step.params (q - 1))

/-- Steps for some nodes, with places for results that are not shared. -/
structure IsScript (dag : OperationDAG) (nodes : List Nat) (c : OperationDAGBehavior) : Prop where
  steps : c.simulationSteps.map some = nodes.map c.stepAt
  step : ∀ n ∈ nodes, ∃ step, c.stepAt n = some step ∧ IsStep dag c n step
  allocated : ∀ n ∈ nodes, ∀ step, c.stepAt n = some step → ∀ i index, step.params i = some (.value index) →
    index < c.cleanUpTable.length
  fresh : ∀ n ∈ nodes, ∀ n' ∈ nodes, ∀ step step', c.stepAt n = some step → c.stepAt n' = some step' →
    ∀ q q' index, step.op.isOutput q = true → step'.op.isOutput q' = true →
      step.params (q - 1) = some (.value index) → step'.params (q' - 1) = some (.value index) → n = n' ∧ q = q'

/-! ## Setting parameters -/

/-- Only values are allocated when parameters are set. -/
structure Extends (c c' : OperationDAGBehavior) : Prop where
  simulationSteps : c'.simulationSteps = c.simulationSteps
  stepOfNode : c'.stepOfNode = c.stepOfNode
  cleanUpTable : ∃ more, c'.cleanUpTable = c.cleanUpTable ++ more

theorem Extends.refl (c : OperationDAGBehavior) : Extends c c := ⟨rfl, rfl, [], (List.append_nil _).symm⟩

theorem Extends.trans {c c' c'' : OperationDAGBehavior} (h : Extends c c') (h' : Extends c' c'') : Extends c c'' := by
  obtain ⟨more, hmore⟩ := h.cleanUpTable
  obtain ⟨more', hmore'⟩ := h'.cleanUpTable
  exact ⟨h'.simulationSteps.trans h.simulationSteps, h'.stepOfNode.trans h.stepOfNode, more ++ more',
    by rw [hmore', hmore, List.append_assoc]⟩

theorem Extends.stepAt {c c' : OperationDAGBehavior} (h : Extends c c') : c'.stepAt = c.stepAt := by
  unfold OperationDAGBehavior.stepAt
  rw [h.simulationSteps, h.stepOfNode]

theorem Extends.getElem? {c c' : OperationDAGBehavior} (h : Extends c c') {i : Nat} {v : Option Int}
    (hi : c.cleanUpTable[i]? = some v) : c'.cleanUpTable[i]? = some v := by
  obtain ⟨more, hmore⟩ := h.cleanUpTable
  rw [hmore, getElem?_append_some hi]

theorem Extends.length_le {c c' : OperationDAGBehavior} (h : Extends c c') :
    c.cleanUpTable.length ≤ c'.cleanUpTable.length := by
  obtain ⟨more, hmore⟩ := h.cleanUpTable
  rw [hmore, List.length_append]
  exact Nat.le_add_right _ _

theorem extends_allocate (c : OperationDAGBehavior) (v : Option Int) : Extends c (c.allocate v) :=
  ⟨rfl, rfl, [v], rfl⟩

theorem getElem?_allocate (c : OperationDAGBehavior) (v : Option Int) :
    (c.allocate v).cleanUpTable[c.cleanUpTable.length]? = some v := List.getElem?_concat_length

theorem IsInputCell.extends {dag : OperationDAG} {c c' : OperationDAGBehavior} {e : OperationDAGEdge}
    {cell : Option Cell} (h : IsInputCell dag c e cell) (hc : Extends c c') : IsInputCell dag c' e cell := by
  unfold IsInputCell at h ⊢
  split
  · next hn => rwa [hn] at h
  · next hn =>
    rw [hn] at h
    obtain ⟨i, hcell, hi⟩ := h
    exact ⟨i, hcell, hc.getElem? hi⟩
  · next hn =>
    rw [hn] at h
    rwa [hc.stepAt]
  · trivial

theorem IsOutputCell.extends {dag : OperationDAG} {c c' : OperationDAGBehavior} {last : Option OperationDAGEdge}
    {cell : Option Cell} (h : IsOutputCell dag c last cell) (hc : Extends c c') : IsOutputCell dag c' last cell := by
  cases last with
  | none => exact h
  | some e =>
    unfold IsOutputCell at h ⊢
    dsimp only at h ⊢
    split
    · next hn => rwa [hn] at h
    · next hn =>
      rw [hn] at h
      obtain ⟨i, hcell, hi⟩ := h
      exact ⟨i, hcell, hc.getElem? hi⟩
    · trivial

theorem setInput_spec (dag : OperationDAG) (s : OperationDAGBehavior × (Nat → Option Cell)) (e : OperationDAGEdge) :
    Extends s.1 (setInput dag s e).1 ∧ (∀ i, e.dstOperand - 1 ≠ i → (setInput dag s e).2 i = s.2 i) ∧
      IsInputCell dag (setInput dag s e).1 e ((setInput dag s e).2 (e.dstOperand - 1)) := by
  unfold setInput IsInputCell
  cases hn : dag.nodes[e.tail]? with
  | none => exact ⟨Extends.refl _, fun _ _ => rfl, trivial⟩
  | some node =>
    cases node with
    | terminal k =>
      exact ⟨Extends.refl _, fun i hi => Function.update_of_ne hi.symm _ _, Function.update_self _ _ _⟩
    | constant v =>
      exact ⟨extends_allocate _ _, fun i hi => Function.update_of_ne hi.symm _ _, _, Function.update_self _ _ _,
        getElem?_allocate _ _⟩
    | operation op =>
      exact ⟨Extends.refl _, fun i hi => Function.update_of_ne hi.symm _ _, Function.update_self _ _ _⟩

/-- Edges to distinct operands set one parameter each. -/
theorem setInputs_spec (dag : OperationDAG) (es : List OperationDAGEdge) :
    ∀ (s : OperationDAGBehavior × (Nat → Option Cell)),
      Extends s.1 (es.foldl (setInput dag) s).1 ∧
      (∀ i, (∀ e ∈ es, e.dstOperand - 1 ≠ i) → (es.foldl (setInput dag) s).2 i = s.2 i) ∧
      ((es.map fun e => e.dstOperand - 1).Nodup → ∀ e ∈ es,
        IsInputCell dag (es.foldl (setInput dag) s).1 e ((es.foldl (setInput dag) s).2 (e.dstOperand - 1))) := by
  induction es with
  | nil => exact fun s => ⟨Extends.refl _, fun _ _ => rfl, fun _ e he => (List.not_mem_nil he).elim⟩
  | cons e es ih =>
    intro s
    obtain ⟨hext, hsame, hcell⟩ := setInput_spec dag s e
    obtain ⟨hext', hsame', hcells⟩ := ih (setInput dag s e)
    refine ⟨hext.trans hext', fun i hi => ?_, fun hnodup => ?_⟩
    · obtain ⟨he, hes⟩ := List.forall_mem_cons.1 hi
      exact (hsame' i hes).trans (hsame i he)
    · obtain ⟨hnot, hnodup⟩ := List.nodup_cons.1 hnodup
      refine List.forall_mem_cons.2 ⟨?_, hcells hnodup⟩
      have hother : ∀ e' ∈ es, e'.dstOperand - 1 ≠ e.dstOperand - 1 :=
        fun e' he' heq => hnot (List.mem_map.2 ⟨e', he', heq⟩)
      rw [List.foldl_cons, hsame' _ hother]
      exact hcell.extends hext'

/-- Parameters that point to values point to allocated ones. -/
def Allocated (c : OperationDAGBehavior) (params : Nat → Option Cell) : Prop :=
  ∀ i index, params i = some (.value index) → index < c.cleanUpTable.length

theorem allocated_setInput {dag : OperationDAG} {s : OperationDAGBehavior × (Nat → Option Cell)} {e : OperationDAGEdge}
    (hs : Allocated s.1 s.2) (hsteps : ∀ n step, s.1.stepAt n = some step → Allocated s.1 step.params) :
    Allocated (setInput dag s e).1 (setInput dag s e).2 := by
  intro i index hi
  by_cases hne : e.dstOperand - 1 = i
  swap
  · rw [(setInput_spec dag s e).2.1 i hne] at hi
    exact Nat.lt_of_lt_of_le (hs i index hi) (setInput_spec dag s e).1.length_le
  subst hne
  have hcell := (setInput_spec dag s e).2.2
  rw [hi] at hcell
  unfold IsInputCell at hcell
  cases hn : dag.nodes[e.tail]? with
  | none =>
    unfold setInput at hi ⊢
    rw [hn] at hi ⊢
    exact hs _ _ hi
  | some node =>
    rw [hn] at hcell
    cases node with
    | terminal k => cases hcell
    | constant v =>
      obtain ⟨j, hj, hlt⟩ := hcell
      cases hj
      exact (List.getElem?_eq_some_iff.1 hlt).1
    | operation op =>
      dsimp only at hcell
      rw [(setInput_spec dag s e).1.stepAt] at hcell
      obtain ⟨step, hstep, hparam⟩ := Option.bind_eq_some_iff.1 hcell.symm
      exact Nat.lt_of_lt_of_le (hsteps _ step hstep _ _ hparam) (setInput_spec dag s e).1.length_le

theorem allocated_setInputs (dag : OperationDAG) (es : List OperationDAGEdge) :
    ∀ {s : OperationDAGBehavior × (Nat → Option Cell)}, Allocated s.1 s.2 →
      (∀ n step, s.1.stepAt n = some step → Allocated s.1 step.params) →
      Allocated (es.foldl (setInput dag) s).1 (es.foldl (setInput dag) s).2 := by
  induction es with
  | nil => exact fun hs _ => hs
  | cons e es ih =>
    intro s hs hsteps
    have hext := (setInput_spec dag s e).1
    apply ih (allocated_setInput hs hsteps)
    intro n step hstep i index hi
    rw [hext.stepAt] at hstep
    exact Nat.lt_of_lt_of_le (hsteps n step hstep i index hi) hext.length_le

theorem setOutput_spec (dag : OperationDAG) (s : OperationDAGBehavior × (Nat → Option Cell)) (e : OperationDAGEdge) :
    Extends s.1 (setOutput dag s e).1 ∧ (∀ i, e.srcOperand - 1 ≠ i → (setOutput dag s e).2 i = s.2 i) ∧
      IsOutputCell dag (setOutput dag s e).1 (some e) ((setOutput dag s e).2 (e.srcOperand - 1)) ∧
      (setOutput dag s e = s ∨ ∀ index, (setOutput dag s e).2 (e.srcOperand - 1) = some (.value index) →
        index = s.1.cleanUpTable.length ∧ index < (setOutput dag s e).1.cleanUpTable.length) := by
  unfold setOutput IsOutputCell
  dsimp only
  cases hn : dag.nodes[e.head]? with
  | none => exact ⟨Extends.refl _, fun _ _ => rfl, trivial, .inl rfl⟩
  | some node =>
    cases node with
    | terminal k =>
      refine ⟨Extends.refl _, fun i hi => Function.update_of_ne hi.symm _ _, Function.update_self _ _ _,
        .inr fun index hi => ?_⟩
      dsimp only at hi
      rw [Function.update_self] at hi
      cases hi
    | constant v => exact ⟨Extends.refl _, fun _ _ => rfl, trivial, .inl rfl⟩
    | operation op =>
      refine ⟨extends_allocate _ _, fun i hi => Function.update_of_ne hi.symm _ _,
        ⟨_, Function.update_self _ _ _, getElem?_allocate _ _⟩, .inr fun index hi => ?_⟩
      dsimp only at hi
      rw [Function.update_self] at hi
      cases hi
      exact ⟨rfl, (List.getElem?_eq_some_iff.1 (getElem?_allocate s.1 none)).1⟩

/-- The last edge from each result sets its parameter, to a place that no other parameter has. -/
theorem setOutputs_spec (dag : OperationDAG) (s : OperationDAGBehavior × (Nat → Option Cell))
    (hs : Allocated s.1 s.2) (es : List OperationDAGEdge) :
    Extends s.1 (es.foldl (setOutput dag) s).1 ∧
    Allocated (es.foldl (setOutput dag) s).1 (es.foldl (setOutput dag) s).2 ∧
    (∀ i, (es.filter fun e => e.srcOperand - 1 = i) = [] → (es.foldl (setOutput dag) s).2 i = s.2 i) ∧
    (∀ i, (es.filter fun e => e.srcOperand - 1 = i) ≠ [] →
      (IsOutputCell dag (es.foldl (setOutput dag) s).1 (es.filter fun e => e.srcOperand - 1 = i).getLast?
        ((es.foldl (setOutput dag) s).2 i))) ∧
    (∀ i index, (es.foldl (setOutput dag) s).2 i = some (.value index) →
      s.2 i = some (.value index) ∨ s.1.cleanUpTable.length ≤ index) ∧
    ∀ i i' index, s.1.cleanUpTable.length ≤ index → (es.foldl (setOutput dag) s).2 i = some (.value index) →
      (es.foldl (setOutput dag) s).2 i' = some (.value index) → i = i' := by
  induction es using List.reverseRecOn with
  | nil =>
    refine ⟨Extends.refl _, hs, fun _ _ => rfl, fun i h => absurd rfl h, fun i index => .inl,
      fun i i' index hle hi _ => ?_⟩
    have := hs i index hi
    omega
  | append_singleton es e ih =>
    obtain ⟨hext, hall, hsame, hcells, hplaces, hfresh⟩ := ih
    rw [List.foldl_append, List.foldl_cons, List.foldl_nil]
    generalize es.foldl (setOutput dag) s = s' at *
    obtain ⟨hext', hother, hself, hplace⟩ := setOutput_spec dag s' e
    refine ⟨hext.trans hext', ?_, ?_, ?_, ?_, ?_⟩
    · intro i index hi
      by_cases hne : e.srcOperand - 1 = i
      · subst hne
        cases hplace with
        | inl hsame' =>
          rw [hsame'] at hi ⊢
          exact hall _ index hi
        | inr hnew => exact (hnew index hi).2
      · rw [hother i hne] at hi
        exact Nat.lt_of_lt_of_le (hall i index hi) hext'.length_le
    · intro i hi
      rw [List.filter_append, List.append_eq_nil_iff, List.filter_eq_nil_iff, List.filter_eq_nil_iff] at hi
      have hne : e.srcOperand - 1 ≠ i := by simpa using hi.2
      rw [hother i hne]
      exact hsame i (List.filter_eq_nil_iff.2 hi.1)
    · intro i hi
      rw [List.filter_append] at hi ⊢
      by_cases hne : e.srcOperand - 1 = i
      · subst hne
        have hlast : [e].filter (fun e' => e'.srcOperand - 1 = e.srcOperand - 1) = [e] := by simp
        rw [hlast, List.getLast?_append]
        exact hself
      · have hnone : [e].filter (fun e' => e'.srcOperand - 1 = i) = [] := by simp [hne]
        rw [hnone, List.append_nil] at hi ⊢
        rw [hother i hne]
        exact (hcells i hi).extends hext'
    · intro i index hi
      by_cases hne : e.srcOperand - 1 = i
      · subst hne
        cases hplace with
        | inl hsame' =>
          rw [hsame'] at hi
          exact hplaces _ index hi
        | inr hnew =>
          refine .inr ?_
          rw [(hnew index hi).1]
          exact hext.length_le
      · exact hplaces i index (hother i hne ▸ hi)
    · -- a new place is not one that was there before
      have hnew : ∀ i index, s.1.cleanUpTable.length ≤ index → (setOutput dag s' e).2 (e.srcOperand - 1) = some (.value index) →
          e.srcOperand - 1 ≠ i → s'.2 i = some (.value index) → e.srcOperand - 1 = i := by
        intro i index hle hi hne hi'
        cases hplace with
        | inl hsame' =>
          rw [hsame'] at hi
          exact hfresh _ _ index hle hi hi'
        | inr hnew =>
          have := hall i index hi'
          have := (hnew index hi).1
          omega
      intro i i' index hle hi hi'
      by_cases hne : e.srcOperand - 1 = i
      · by_cases hne' : e.srcOperand - 1 = i'
        · exact hne.symm.trans hne'
        · subst hne
          exact hnew i' index hle hi hne' (hother i' hne' ▸ hi')
      · by_cases hne' : e.srcOperand - 1 = i'
        · subst hne'
          exact (hnew i index hle hi' hne (hother i hne ▸ hi)).symm
        · exact hfresh i i' index hle (hother i hne ▸ hi) (hother i' hne' ▸ hi')

/-! ## Adding steps -/

/-- An operation node with its operation, whose edges are to and from operands it has. -/
structure IsConnected (dag : OperationDAG) (n : Nat) (op : Operation) : Prop where
  node : dag.nodes[n]? = some (.operation op)
  input : ∀ e ∈ dag.inEdges n, op.isInput e.dstOperand = true
  nodup : ((dag.inEdges n).map fun e => e.dstOperand - 1).Nodup
  output : ∀ e ∈ dag.outEdges n, op.isOutput e.srcOperand = true

theorem lt_of_isOutput {op : Operation} {q : Nat} (h : op.isOutput q = true) :
    op.numberOfInputs < q ∧ q ≤ op.operandCount := by
  unfold Operation.isOutput at h
  rwa [Bool.and_eq_true, decide_eq_true_iff, decide_eq_true_iff] at h

theorem lt_of_isInput {op : Operation} {q : Nat} (h : op.isInput q = true) : 1 ≤ q ∧ q ≤ op.numberOfInputs := by
  unfold Operation.isInput at h
  rwa [Bool.and_eq_true, decide_eq_true_iff, decide_eq_true_iff] at h

theorem IsConnected.edgesFrom_eq {dag : OperationDAG} {n : Nat} {op : Operation} (h : IsConnected dag n op) {q : Nat}
    (hq : op.isOutput q = true) : edgesFrom dag n q = (dag.outEdges n).filter fun e => e.srcOperand - 1 = q - 1 := by
  unfold edgesFrom
  apply List.filter_congr
  intro e he
  have hsrc := lt_of_isOutput (h.output e he)
  have hq := lt_of_isOutput hq
  rw [decide_eq_decide]
  omega

/-- Steps are added, and values are allocated. -/
structure Grows (nodes : List Nat) (c c' : OperationDAGBehavior) : Prop where
  stepAt : ∀ n ∈ nodes, c'.stepAt n = c.stepAt n
  cleanUpTable : ∃ more, c'.cleanUpTable = c.cleanUpTable ++ more

theorem Grows.getElem? {nodes : List Nat} {c c' : OperationDAGBehavior} (h : Grows nodes c c') {i : Nat}
    {v : Option Int} (hi : c.cleanUpTable[i]? = some v) : c'.cleanUpTable[i]? = some v := by
  obtain ⟨more, hmore⟩ := h.cleanUpTable
  rw [hmore, getElem?_append_some hi]

theorem Grows.length_le {nodes : List Nat} {c c' : OperationDAGBehavior} (h : Grows nodes c c') :
    c.cleanUpTable.length ≤ c'.cleanUpTable.length := by
  obtain ⟨more, hmore⟩ := h.cleanUpTable
  rw [hmore, List.length_append]
  exact Nat.le_add_right _ _

/-- The operations that a node has edges from come before it. -/
def Precede (dag : OperationDAG) (nodes : List Nat) (n : Nat) : Prop :=
  ∀ m ∈ dag.predecessors n, IsOperation dag.nodes m → m ∈ nodes

theorem IsStep.grows {dag : OperationDAG} {nodes : List Nat} {c c' : OperationDAGBehavior} {n : Nat}
    {step : SimulationStep} (h : IsStep dag c n step) (hc : Grows nodes c c') (hpreds : Precede dag nodes n) :
    IsStep dag c' n step := by
  refine ⟨h.op, fun e he => ?_, fun q hq => ?_⟩
  · have hcell := h.input e he
    have hpred := hpreds e.tail (OperationDAG.mem_predecessors.2
      ⟨e, (OperationDAG.mem_inEdges.1 he).1, rfl, (OperationDAG.mem_inEdges.1 he).2⟩)
    unfold IsInputCell at hcell ⊢
    cases hn : dag.nodes[e.tail]? with
    | none => trivial
    | some node =>
      rw [hn] at hcell
      cases node with
      | terminal k => exact hcell
      | constant v =>
        obtain ⟨i, hi, hv⟩ := hcell
        exact ⟨i, hi, hc.getElem? hv⟩
      | operation op =>
        dsimp only at hcell ⊢
        rw [hc.stepAt e.tail (hpred ⟨op, hn⟩)]
        exact hcell
  · have hcell := h.output q hq
    cases hlast : (edgesFrom dag n q).getLast? with
    | none => rwa [hlast] at hcell
    | some e =>
      rw [hlast] at hcell
      unfold IsOutputCell at hcell ⊢
      dsimp only at hcell ⊢
      cases hn : dag.nodes[e.head]? with
      | none => trivial
      | some node =>
        rw [hn] at hcell
        cases node with
        | terminal k => exact hcell
        | constant v => trivial
        | operation op =>
          obtain ⟨i, hi, hv⟩ := hcell
          exact ⟨i, hi, hc.getElem? hv⟩

/-- A step is added for a node. -/
theorem addStep_spec {dag : OperationDAG} {nodes : List Nat} {c : OperationDAGBehavior} (h : IsScript dag nodes c)
    (hnodes : ∀ m ∈ nodes, Precede dag nodes m) {n : Nat} {op : Operation} (hn : IsConnected dag n op)
    (hnew : n ∉ nodes) (hpreds : Precede dag nodes n) : IsScript dag (nodes ++ [n]) (addStep dag c n) := by
  have hsteps : ∀ m step, c.stepAt m = some step → Allocated c step.params := by
    intro m step hm
    have hmem := List.mem_map_of_mem (f := some) (List.mem_of_getElem? hm)
    rw [h.steps] at hmem
    obtain ⟨m', hm', hstep⟩ := List.mem_map.1 hmem
    exact h.allocated m' hm' step hstep
  obtain ⟨hext₁, hsame₁, hcells₁⟩ := setInputs_spec dag (dag.inEdges n) (c, fun _ => none)
  have halloc₁ := allocated_setInputs dag (dag.inEdges n) (s := (c, fun _ => none))
    (fun i index hi => by cases hi) hsteps
  generalize hs₁ : (dag.inEdges n).foldl (setInput dag) (c, fun _ => none) = s₁ at *
  obtain ⟨hext₂, halloc₂, hsame₂, hcells₂, hplaces₂, hfresh₂⟩ := setOutputs_spec dag s₁ halloc₁ (dag.outEdges n)
  generalize hs₂ : (dag.outEdges n).foldl (setOutput dag) s₁ = s₂ at *
  have hext := hext₁.trans hext₂
  have hadd : addStep dag c n = { s₂.1 with
      stepOfNode := Function.update s₂.1.stepOfNode n s₂.1.simulationSteps.length
      simulationSteps := s₂.1.simulationSteps ++ [⟨op, s₂.2⟩] } := by
    unfold addStep
    rw [hn.node]
    dsimp only
    rw [hs₁, hs₂]
  have hself : (addStep dag c n).stepAt n = some ⟨op, s₂.2⟩ := by
    rw [hadd]
    unfold OperationDAGBehavior.stepAt
    dsimp only
    rw [Function.update_self, List.getElem?_concat_length]
  have hold : ∀ m step, m ≠ n → c.stepAt m = some step → (addStep dag c n).stepAt m = some step := by
    intro m step hne hm
    rw [hadd]
    rw [← congrFun hext.stepAt m] at hm
    unfold OperationDAGBehavior.stepAt at hm ⊢
    dsimp only
    rw [Function.update_of_ne hne]
    exact getElem?_append_some hm
  have htable : (addStep dag c n).cleanUpTable = s₂.1.cleanUpTable := by rw [hadd]
  have hgrows : Grows nodes c (addStep dag c n) := by
    refine ⟨fun m hm => ?_, htable ▸ hext.cleanUpTable⟩
    obtain ⟨step, hstep, -⟩ := h.step m hm
    rw [hstep, hold m step (ne_of_mem_of_not_mem hm hnew) hstep]
  have hgrows₂ : Grows nodes s₂.1 (addStep dag c n) :=
    ⟨fun m hm => (hgrows.stepAt m hm).trans (congrFun hext.stepAt m).symm, [], by rw [htable, List.append_nil]⟩
  -- inputs are set before outputs and are not set again
  have hinput : ∀ e ∈ dag.inEdges n, s₂.2 (e.dstOperand - 1) = s₁.2 (e.dstOperand - 1) := by
    intro e he
    apply hsame₂
    rw [List.filter_eq_nil_iff]
    intro e' he'
    have := lt_of_isInput (hn.input e he)
    have := lt_of_isOutput (hn.output e' he')
    rw [decide_eq_true_iff]
    omega
  have hunset : ∀ q, op.isOutput q = true → s₁.2 (q - 1) = none := by
    intro q hq
    apply hsame₁
    intro e he
    have := lt_of_isInput (hn.input e he)
    have := lt_of_isOutput hq
    omega
  have hstep : IsStep dag s₂.1 n ⟨op, s₂.2⟩ := by
    refine ⟨hn.node, fun e he => ?_, fun q hq => ?_⟩
    · change IsInputCell dag s₂.1 e (s₂.2 (e.dstOperand - 1))
      rw [hinput e he]
      exact (hcells₁ hn.nodup e he).extends hext₂
    · change IsOutputCell dag s₂.1 _ (s₂.2 (q - 1))
      rw [hn.edgesFrom_eq hq]
      by_cases hnil : ((dag.outEdges n).filter fun e => e.srcOperand - 1 = q - 1) = []
      · rw [hnil, hsame₂ _ hnil]
        exact hunset q hq
      · exact hcells₂ _ hnil
  have hallocated : Allocated (addStep dag c n) s₂.2 := fun i index hi => htable ▸ halloc₂ i index hi
  -- results of the new step have places that were not allocated before
  have hplace : ∀ q index, op.isOutput q = true → s₂.2 (q - 1) = some (.value index) → s₁.1.cleanUpTable.length ≤ index := by
    intro q index hq hi
    refine (hplaces₂ _ index hi).resolve_left fun hset => ?_
    rw [hunset q hq] at hset
    cases hset
  refine ⟨?_, ?_, ?_, ?_⟩
  · rw [List.map_append, List.map_singleton, hself]
    have : (addStep dag c n).simulationSteps = c.simulationSteps ++ [⟨op, s₂.2⟩] := by
      rw [hadd, ← hext.simulationSteps]
    rw [this, List.map_append, h.steps]
    congr 1
    exact List.map_congr_left fun m hm => (hgrows.stepAt m hm).symm
  · intro m hm
    cases List.mem_append.1 hm with
    | inl hm =>
      obtain ⟨step, hm', hisStep⟩ := h.step m hm
      exact ⟨step, (hgrows.stepAt m hm).trans hm', hisStep.grows hgrows (hnodes m hm)⟩
    | inr hm =>
      obtain rfl := List.mem_singleton.1 hm
      exact ⟨_, hself, hstep.grows hgrows₂ hpreds⟩
  · intro m hm step hm' i index hi
    cases List.mem_append.1 hm with
    | inl hm =>
      rw [hgrows.stepAt m hm] at hm'
      exact Nat.lt_of_lt_of_le (h.allocated m hm step hm' i index hi) hgrows.length_le
    | inr hm =>
      obtain rfl := List.mem_singleton.1 hm
      rw [hself] at hm'
      cases hm'
      exact hallocated i index hi
  · -- a place of the new step is not one of a step before
    have hother : ∀ m ∈ nodes, ∀ step, (addStep dag c n).stepAt m = some step → ∀ q q' index, op.isOutput q' = true →
        step.params (q - 1) = some (.value index) → s₂.2 (q' - 1) ≠ some (.value index) := by
      intro m hm step hstep' q q' index hq' hi hi'
      rw [hgrows.stepAt m hm] at hstep'
      have := h.allocated m hm step hstep' _ index hi
      have := hplace q' index hq' hi'
      have : c.cleanUpTable.length ≤ s₁.1.cleanUpTable.length := hext₁.length_le
      omega
    intro m hm m' hm' step step' hstep' hstep'' q q' index hq hq' hi hi'
    cases List.mem_append.1 hm with
    | inl hold =>
      cases List.mem_append.1 hm' with
      | inl hold' =>
        rw [hgrows.stepAt m hold] at hstep'
        rw [hgrows.stepAt m' hold'] at hstep''
        exact h.fresh m hold m' hold' step step' hstep' hstep'' q q' index hq hq' hi hi'
      | inr hnew' =>
        rw [List.mem_singleton.1 hnew', hself] at hstep''
        cases hstep''
        exact absurd hi' (hother m hold step hstep' q q' index hq' hi)
    | inr hnew =>
      obtain rfl := List.mem_singleton.1 hnew
      rw [hself] at hstep'
      cases hstep'
      cases List.mem_append.1 hm' with
      | inl hold' => exact absurd hi (hother m' hold' step' hstep'' q' q index hq hi')
      | inr hnew' =>
        obtain rfl := List.mem_singleton.1 hnew'
        rw [hself] at hstep''
        cases hstep''
        have := hfresh₂ _ _ index (hplace q index hq hi) hi hi'
        have := lt_of_isOutput hq
        have := lt_of_isOutput hq'
        exact ⟨rfl, by omega⟩

theorem addStep_of_not_operation {dag : OperationDAG} {n : Nat} (hn : ¬ IsOperation dag.nodes n)
    (c : OperationDAGBehavior) : addStep dag c n = c := by
  unfold addStep
  split
  · next op hop => exact absurd ⟨op, hop⟩ hn
  · rfl

/-- An order of nodes in which each comes after those it has edges from. -/
def IsTopological (dag : OperationDAG) (nodes : List Nat) : Prop :=
  ∀ before n after, nodes = before ++ n :: after → ∀ m ∈ dag.predecessors n, IsOperation dag.nodes m → m ∈ before

theorem IsTopological.initial {dag : OperationDAG} {before after : List Nat} (h : IsTopological dag (before ++ after)) :
    IsTopological dag before := by
  intro l n r heq
  apply h l n (r ++ after)
  rw [heq, List.append_assoc]
  rfl

/-- There is a script of the operation nodes in any topological order. -/
theorem isScript_foldl {dag : OperationDAG} {nodes : List Nat}
    (hnodes : ∀ n ∈ nodes, ∃ op, IsConnected dag n op) (hnodup : nodes.Nodup) (htopological : IsTopological dag nodes) :
    IsScript dag nodes (nodes.foldl (addStep dag) ⟨[], fun _ => 0, []⟩) := by
  induction nodes using List.reverseRecOn with
  | nil =>
    exact ⟨rfl, fun n hn => (List.not_mem_nil hn).elim, fun n hn => (List.not_mem_nil hn).elim,
      fun n hn => (List.not_mem_nil hn).elim⟩
  | append_singleton nodes n ih =>
    have hscript := ih (fun m hm => hnodes m (List.mem_append_left _ hm)) hnodup.of_append_left htopological.initial
    obtain ⟨op, hn⟩ := hnodes n (List.mem_append_right _ List.mem_cons_self)
    rw [List.foldl_append]
    apply addStep_spec hscript ?_ hn ?_ (htopological nodes n [] rfl)
    · intro m hm k hk hop
      obtain ⟨l, r, rfl⟩ := List.append_of_mem hm
      exact List.mem_append_left _ (htopological.initial l m r rfl k hk hop)
    · exact fun hmem => List.disjoint_of_nodup_append hnodup hmem List.mem_cons_self

end OperationDAGBehavior

end Tce.OSAL
