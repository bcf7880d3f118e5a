import Tce.Base.Dataflow
import Tce.OSAL.OperationDAG

/-!
# Symbolic execution

Statements do on any values what their symbolic execution says: the operations
that it records give the results that the values of variables come from.
-/

namespace Tce.OSAL

/-! ## Recorded operations -/

/-- A result of one of the operations that were executed, or no result. -/
def Origin.IsOf (executions : List OperationExecution) : Origin → Prop
  | .result execution index => ∃ e, executions[execution]? = some e ∧ index < e.op.numberOfOutputs
  | _ => True

/-- Operations use results of operations before them. -/
def InOrder (executions : List OperationExecution) : Prop :=
  ∀ (i : Nat) (e : OperationExecution), executions[i]? = some e → ∀ o ∈ e.inputs, o.IsOf (executions.take i)

/-- The operation whose result a value is. -/
def Origin.execution? : Origin → Option Nat
  | .result execution _ => some execution
  | _ => none

theorem Origin.IsOf.append {executions : List OperationExecution} {o : Origin} (h : o.IsOf executions)
    (more : List OperationExecution) : o.IsOf (executions ++ more) := by
  cases o with
  | operand => trivial
  | constant => trivial
  | result i j =>
    obtain ⟨e, he, hj⟩ := h
    exact ⟨e, List.getElem?_append_left (List.getElem?_eq_some_iff.1 he).1 ▸ he, hj⟩

theorem Origin.IsOf.of_take {executions : List OperationExecution} {o : Origin} {i : Nat}
    (h : o.IsOf (executions.take i)) : o.IsOf executions := by
  rw [← List.take_append_drop i executions]
  exact h.append _

theorem Origin.IsOf.lt {executions : List OperationExecution} {o : Origin} {i j : Nat} (h : o.IsOf (executions.take i))
    (hj : o.execution? = some j) : j < i := by
  cases o with
  | operand => cases hj
  | constant => cases hj
  | result k =>
    cases hj
    obtain ⟨e, he, -⟩ := h
    have := (List.getElem?_eq_some_iff.1 he).1
    rw [List.length_take] at this
    omega

section realize
variable {V C : Type} (m : Machine V C) (operands : Nat → V)

/-- The value that comes from an origin when the operations gave the results. -/
def Origin.realize (results : Nat → List V) : Origin → V
  | .operand k => operands k
  | .constant value => m.constant value
  | .result execution index => (results execution).getD index (operands 0)

variable {m operands}

theorem Origin.realize_congr {E E' : Nat → List V} {o : Origin} (h : ∀ i, o.execution? = some i → E i = E' i) :
    o.realize m operands E = o.realize m operands E' := by
  cases o with
  | operand => rfl
  | constant => rfl
  | result i j =>
    dsimp only [realize]
    rw [h i rfl]

variable (m operands)

/-- The operations that were recorded, on values. -/
def dataflow (hm : m.Lawful) (executions : List OperationExecution) : Dataflow Nat (List V) C where
  reads i := (executions[i]?.map fun e => e.inputs.filterMap Origin.execution?).getD []
  usesContext i := (executions[i]?.map fun e => e.op.usesContext).getD false
  exec i E c :=
    match executions[i]? with
    | some e => m.simulateTrigger e.op (e.inputs.map (Origin.realize m operands E)) c
    | none => ([], c)
  exec_reads {i E E'} h c := by
    cases he : executions[i]? with
    | none => rfl
    | some e =>
      rw [he] at h
      dsimp only
      congr 1
      apply List.map_congr_left
      exact fun o ho => Origin.realize_congr fun j hj => h j (List.mem_filterMap.2 ⟨o, ho, hj⟩)
  exec_pure {i} h E c c' := by
    cases he : executions[i]? with
    | none => rfl
    | some e =>
      rw [he] at h
      exact hm.pure e.op h _ c c'

variable {m operands}

theorem dataflow_reads {hm : m.Lawful} {executions : List OperationExecution} {i j : Nat} :
    j ∈ (dataflow m operands hm executions).reads i ↔
      ∃ e, executions[i]? = some e ∧ ∃ o ∈ e.inputs, o.execution? = some j := by
  dsimp only [dataflow]
  cases executions[i]? <;> simp

/-- The results and the context when the operations are executed in order. -/
def resultsInOrder (hm : m.Lawful) (operands : Nat → V) (c : C) (executions : List OperationExecution) :
    (Nat → List V) × C :=
  (dataflow m operands hm executions).run (fun _ => [], c) (List.range executions.length)

variable {hm : m.Lawful} {c : C}

variable (hm operands) in
theorem range_ordered {executions : List OperationExecution} (h : InOrder executions) :
    (dataflow m operands hm executions).Ordered (List.range executions.length) := by
  intro before i after heq j hj
  obtain ⟨e, he, o, ho, hoj⟩ := dataflow_reads.1 hj
  have hji := (h i e he o ho).lt hoj
  have hi : i < executions.length := (List.getElem?_eq_some_iff.1 he).1
  have hmem : j ∈ before ++ i :: after := heq ▸ List.mem_range.2 (by omega)
  have hsorted := heq ▸ List.pairwise_lt_range (n := executions.length)
  cases List.mem_append.1 hmem with
  | inl hb => exact hb
  | inr hafter =>
    cases List.mem_cons.1 hafter with
    | inl heq => omega
    | inr hafter =>
      have := List.rel_of_pairwise_cons (List.pairwise_append.1 hsorted).2.1 hafter
      omega

/-- One more operation adds its results and changes the context. -/
theorem resultsInOrder_concat (executions : List OperationExecution) (e : OperationExecution) :
    resultsInOrder hm operands c (executions ++ [e]) =
      let s := resultsInOrder hm operands c executions
      let r := m.simulateTrigger e.op (e.inputs.map (Origin.realize m operands s.1)) s.2
      (Function.update s.1 executions.length r.1, r.2) := by
  have hbefore : (dataflow m operands hm (executions ++ [e])).run (fun _ => [], c) (List.range executions.length) =
      resultsInOrder hm operands c executions := by
    apply List.foldl_ext
    intro s i hi
    unfold Dataflow.step dataflow
    dsimp only
    rw [List.getElem?_append_left (List.mem_range.1 hi)]
  unfold resultsInOrder at hbefore ⊢
  rw [List.length_append, List.length_singleton, List.range_succ, Dataflow.run_concat, hbefore]
  unfold Dataflow.step dataflow
  dsimp only
  rw [List.getElem?_concat_length]

end realize

/-! ## Symbolic execution is sound -/

section sound
variable {V C : Type} {m : Machine V C} (hm : m.Lawful) (operands : Nat → V) (c : C)

/-- The values of variables and the context are those that the origins say. -/
structure Realizes (s : ExecutionState Origin (List OperationExecution)) (r : ExecutionState V C) : Prop where
  values : ∀ x, r.values x =
    (s.values x).map (Origin.realize m operands (resultsInOrder hm operands c s.context).1)
  context : r.context = (resultsInOrder hm operands c s.context).2

/-- Variables have results of operations that were recorded. -/
structure IsRecorded (s : ExecutionState Origin (List OperationExecution)) : Prop where
  values : ∀ x o, s.values x = some o → o.IsOf s.context
  inOrder : InOrder s.context

variable {hm operands c} {s : ExecutionState Origin (List OperationExecution)} {r : ExecutionState V C}
  {opPool : String → Option Operation}

theorem IsRecorded.value (hs : IsRecorded s) {p : Parameter} {o : Origin} (ho : s.value symbolic p = some o) :
    o.IsOf s.context := by
  cases p with
  | var x => exact hs.values x o ho
  | integer v =>
    cases ho
    trivial

theorem IsRecorded.assign (hs : IsRecorded s) (dst : Parameter) {v : Option Origin}
    (hv : ∀ o, v = some o → o.IsOf s.context) : IsRecorded (s.assign dst v) := by
  cases dst with
  | integer => exact hs
  | var x =>
    refine ⟨fun y o ho => ?_, hs.inOrder⟩
    by_cases hyx : y = x
    · subst hyx
      exact hv o (by simpa [ExecutionState.assign] using ho)
    · exact hs.values y o (by simpa [ExecutionState.assign, hyx] using ho)

theorem IsRecorded.declare (hs : IsRecorded s) (name : String) : IsRecorded (s.declare name) :=
  hs.assign (.var (.identifier name)) fun o ho => by cases ho

theorem Realizes.value (h : Realizes hm operands c s r) (p : Parameter) : r.value m p =
    (s.value symbolic p).map (Origin.realize m operands (resultsInOrder hm operands c s.context).1) := by
  cases p with
  | var x => exact h.values x
  | integer v => rfl

theorem Realizes.assign (h : Realizes hm operands c s r) (dst : Parameter) (v : Option Origin) :
    Realizes hm operands c (s.assign dst v)
      (r.assign dst (v.map (Origin.realize m operands (resultsInOrder hm operands c s.context).1))) := by
  cases dst with
  | integer => exact h
  | var x =>
    refine ⟨fun y => ?_, h.context⟩
    by_cases hyx : y = x
    · subst hyx
      simp [ExecutionState.assign]
    · simpa [ExecutionState.assign, hyx] using h.values y

theorem Realizes.declare (h : Realizes hm operands c s r) (name : String) :
    Realizes hm operands c (s.declare name) (r.declare name) := h.assign (.var (.identifier name)) none

theorem assignResults_context (results : List (Parameter × Origin)) :
    (results.foldl ExecutionState.assignResult s).context = s.context := by
  induction results generalizing s with
  | nil => rfl
  | cons result results ih =>
    rw [List.foldl_cons, ih]
    unfold ExecutionState.assignResult ExecutionState.assign
    cases result.1 <;> rfl

theorem IsRecorded.assignResults {results : List (Parameter × Origin)} (hs : IsRecorded s)
    (hresults : ∀ result ∈ results, result.2.IsOf s.context) :
    IsRecorded (results.foldl ExecutionState.assignResult s) := by
  induction results generalizing s with
  | nil => exact hs
  | cons result results ih =>
    obtain ⟨hresult, hresults⟩ := List.forall_mem_cons.1 hresults
    have hassign := hs.assign result.1 (v := some result.2) fun o ho => Option.some.inj ho ▸ hresult
    apply ih hassign
    have hcontext : (s.assignResult result).context = s.context := assignResults_context [result]
    exact fun r hr => hcontext ▸ hresults r hr

theorem Realizes.assignResults (h : Realizes hm operands c s r) (results : List (Parameter × Origin)) :
    Realizes hm operands c (results.foldl ExecutionState.assignResult s)
      ((results.map fun result =>
        (result.1, result.2.realize m operands (resultsInOrder hm operands c s.context).1)).foldl
        ExecutionState.assignResult r) := by
  induction results generalizing s r with
  | nil => exact h
  | cons result results ih =>
    rw [List.map_cons, List.foldl_cons, List.foldl_cons]
    have hcontext : (s.assignResult result).context = s.context := assignResults_context [result]
    have := ih (h.assign result.1 (some result.2))
    unfold ExecutionState.assignResult at hcontext this ⊢
    rwa [hcontext] at this

theorem mapM_map {α β γ : Type} (f : α → Option β) (g : β → γ) (as : List α) :
    (as.mapM fun a => (f a).map g) = (as.mapM f).map (List.map g) := by
  induction as with
  | nil => rfl
  | cons a as ih =>
    rw [List.mapM_cons, List.mapM_cons, ih]
    cases f a with
    | none => rfl
    | some b => cases as.mapM f <;> rfl

theorem mem_mapM {α β : Type} {f : α → Option β} {as : List α} {bs : List β} (h : as.mapM f = some bs) :
    as.map f = bs.map some := by
  induction as generalizing bs with
  | nil =>
    cases h
    rfl
  | cons a as ih =>
    rw [List.mapM_cons] at h
    cases ha : f a with
    | none =>
      rw [ha] at h
      cases h
    | some b =>
      rw [ha] at h
      cases has : as.mapM f with
      | none =>
        rw [has] at h
        cases h
      | some bs' =>
        rw [has] at h
        cases h
        rw [List.map_cons, List.map_cons, ha, ih has]

/-- Executing an operation records it, with inputs that are recorded. -/
theorem executeOperation_symbolic (op : Operation) (parameters : List Parameter)
    {s' : ExecutionState Origin (List OperationExecution)} (hs : IsRecorded s)
    (h : s.executeOperation symbolic op parameters = some s') :
    IsRecorded s' ∧ parameters.length = op.operandCount ∧
      ∃ inputs, (parameters.take op.numberOfInputs).mapM (s.value symbolic) = some inputs ∧
      s' = ((parameters.drop op.numberOfInputs).zip ((List.range op.numberOfOutputs).map
        (.result s.context.length))).foldl ExecutionState.assignResult
        { s with context := s.context ++ [⟨op, inputs⟩] } := by
  unfold ExecutionState.executeOperation at h
  by_cases hlength : parameters.length = op.operandCount
  swap
  · rw [if_neg hlength] at h
    cases h
  rw [if_pos hlength] at h
  obtain ⟨inputs, hinputs, rfl⟩ := Option.map_eq_some_iff.1 h
  refine ⟨?_, hlength, inputs, hinputs, rfl⟩
  have hrecorded : ∀ o ∈ inputs, o.IsOf s.context := by
    intro o ho
    have hmem : some o ∈ inputs.map some := List.mem_map_of_mem ho
    rw [← mem_mapM hinputs] at hmem
    obtain ⟨p, -, hp⟩ := List.mem_map.1 hmem
    exact hs.value hp
  apply IsRecorded.assignResults
  · refine ⟨fun x o ho => (hs.values x o ho).append _, ?_⟩
    intro i e he o ho
    change (s.context ++ [_])[i]? = some e at he
    by_cases hi : i < s.context.length
    · rw [List.getElem?_append_left hi] at he
      have := hs.inOrder i e he o ho
      change o.IsOf ((s.context ++ [_]).take i)
      rwa [List.take_append_of_le_length (Nat.le_of_lt hi)]
    · obtain rfl : i = s.context.length := by
        have := (List.getElem?_eq_some_iff.1 he).1
        rw [List.length_append, List.length_singleton] at this
        omega
      rw [List.getElem?_concat_length] at he
      cases he
      change o.IsOf ((s.context ++ [_]).take s.context.length)
      rw [List.take_left]
      exact hrecorded o ho
  · rintro ⟨p, o⟩ hmem
    obtain ⟨j, hj, rfl⟩ := List.mem_map.1 (List.of_mem_zip hmem).2
    exact ⟨⟨op, inputs⟩, List.getElem?_concat_length, List.mem_range.1 hj⟩

theorem executeOperation_realizes (op : Operation) (parameters : List Parameter) (hs : IsRecorded s)
    (h : Realizes hm operands c s r) :
    Option.Rel (Realizes hm operands c) (s.executeOperation symbolic op parameters)
      (r.executeOperation m op parameters) := by
  unfold ExecutionState.executeOperation
  by_cases hlength : parameters.length = op.operandCount
  swap
  · rw [if_neg hlength, if_neg hlength]
    exact .none
  rw [if_pos hlength, if_pos hlength]
  have hvalues : (parameters.take op.numberOfInputs).mapM (r.value m) =
      ((parameters.take op.numberOfInputs).mapM (s.value symbolic)).map
        (List.map (Origin.realize m operands (resultsInOrder hm operands c s.context).1)) := by
    rw [← mapM_map]
    congr 1
    exact funext h.value
  rw [hvalues]
  cases hinputs : (parameters.take op.numberOfInputs).mapM (s.value symbolic) with
  | none => exact .none
  | some inputs =>
    apply Option.Rel.some
    dsimp only [symbolic]
    have hconcat := @resultsInOrder_concat V C m operands hm c s.context ⟨op, inputs⟩
    dsimp only at hconcat
    rw [h.context]
    generalize hresults : m.simulateTrigger op (inputs.map (Origin.realize m operands
      (resultsInOrder hm operands c s.context).1)) (resultsInOrder hm operands c s.context).2 = results at hconcat ⊢
    have hlen : results.1.length = op.numberOfOutputs := by
      rw [← hresults]
      exact hm.length_results _ _ _
    have hrealizes : Realizes hm operands c { s with context := s.context ++ [⟨op, inputs⟩] }
        { r with context := results.2 } := by
      constructor
      · intro x
        dsimp only
        rw [h.values x, hconcat]
        cases hx : s.values x with
        | none => rfl
        | some o =>
          rw [Option.map_some, Option.map_some]
          congr 1
          apply Origin.realize_congr
          intro i hi
          have := ((List.take_length (l := s.context)).symm ▸ hs.values x o hx : o.IsOf (s.context.take s.context.length)).lt hi
          exact (Function.update_of_ne (Nat.ne_of_lt this) _ _).symm
      · dsimp only
        rw [hconcat]
    have hrange : results.1 = ((List.range op.numberOfOutputs).map (Origin.result s.context.length)).map
        (Origin.realize m operands (resultsInOrder hm operands c (s.context ++ [⟨op, inputs⟩])).1) := by
      rw [List.map_map]
      apply List.ext_getElem
      · rw [List.length_map, List.length_range, hlen]
      · intro j hj _
        rw [List.getElem_map, List.getElem_range, hconcat]
        dsimp only [Function.comp_apply, Origin.realize]
        rw [Function.update_self, List.getD_eq_getElem?_getD, List.getElem?_eq_getElem hj]
        rfl
    have hassign := hrealizes.assignResults
      ((parameters.drop op.numberOfInputs).zip ((List.range op.numberOfOutputs).map (.result s.context.length)))
    have hzip : (parameters.drop op.numberOfInputs).zip results.1 = _ :=
      (congrArg _ hrange).trans (List.zip_map_right ..)
    rw [hzip]
    exact hassign

/-- Statements fail symbolically when they fail on values, and do the same otherwise. -/
theorem executeStatement_realizes (statement : Statement) (hs : IsRecorded s) (h : Realizes hm operands c s r) :
    Option.Rel (Realizes hm operands c) (s.executeStatement symbolic opPool statement)
      (r.executeStatement m opPool statement) := by
  cases statement with
  | declaration names =>
    apply Option.Rel.some
    induction names generalizing s r with
    | nil => exact h
    | cons name names ih => exact ih (hs.declare name) (h.declare name)
  | assignment dst src =>
    apply Option.Rel.some
    rw [h.value src]
    exact h.assign dst _
  | EXEC_OPERATION name parameters =>
    unfold ExecutionState.executeStatement
    dsimp only
    cases opPool name with
    | none => exact .none
    | some op => exact executeOperation_realizes op parameters hs h

theorem executeStatement_recorded {statement : Statement} {s' : ExecutionState Origin (List OperationExecution)}
    (hs : IsRecorded s) (h : s.executeStatement symbolic opPool statement = some s') : IsRecorded s' := by
  cases statement with
  | declaration names =>
    cases h
    induction names generalizing s with
    | nil => exact hs
    | cons name names ih => exact ih (hs.declare name)
  | assignment dst src =>
    cases h
    exact hs.assign dst fun o ho => hs.value ho
  | EXEC_OPERATION name parameters =>
    obtain ⟨op, -, hop⟩ := Option.bind_eq_some_iff.1 h
    exact (executeOperation_symbolic op parameters hs hop).1

theorem execute_realizes (statements : List Statement) (hs : IsRecorded s) (h : Realizes hm operands c s r) :
    Option.Rel (Realizes hm operands c) (s.execute symbolic opPool statements) (r.execute m opPool statements) := by
  induction statements generalizing s r with
  | nil => exact .some h
  | cons statement statements ih =>
    unfold ExecutionState.execute at ih ⊢
    rw [List.foldlM_cons, List.foldlM_cons]
    have hstep : Option.Rel (Realizes hm operands c) (s.executeStatement symbolic opPool statement)
        (r.executeStatement m opPool statement) := executeStatement_realizes statement hs h
    revert hstep
    cases hs' : s.executeStatement symbolic opPool statement with
    | none =>
      cases r.executeStatement m opPool statement with
      | none => exact fun _ => .none
      | some r' => exact fun hstep => by cases hstep
    | some s' =>
      cases r.executeStatement m opPool statement with
      | none => exact fun hstep => by cases hstep
      | some r' =>
        intro hstep
        cases hstep with
        | some h' => exact ih (executeStatement_recorded hs hs') h'

theorem initial_recorded (operation : Operation) : IsRecorded (ExecutionState.initial operation .operand []) := by
  constructor
  · intro x o ho
    cases x with
    | identifier => cases ho
    | io k =>
      obtain ⟨-, heq⟩ := Option.ite_none_right_eq_some.1 ho
      cases heq
      trivial
  · intro i e he
    cases he

variable (hm operands c)

theorem initial_realizes (operation : Operation) : Realizes hm operands c
    (ExecutionState.initial operation .operand []) (ExecutionState.initial operation operands c) := by
  constructor
  · intro x
    cases x with
    | identifier => rfl
    | io k =>
      dsimp only [ExecutionState.initial]
      split <;> rfl
  · rfl

/-- Statements give variables the values that their symbolic execution says. -/
theorem executeSymbolically_realizes (operation : Operation) (statements : List Statement) :
    Option.Rel (Realizes hm operands c) (executeSymbolically opPool operation statements)
      ((ExecutionState.initial operation operands c).execute m opPool statements) :=
  execute_realizes statements (initial_recorded operation) (initial_realizes hm operands c operation)

end sound

end Tce.OSAL
