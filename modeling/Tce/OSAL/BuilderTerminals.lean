import Tce.OSAL.BuilderInvariant

/-!
# Terminals

An operand has an input terminal if the statements read it first. The operands
that are only written get output terminals at the end, in the order of their
names.
-/

namespace Tce.OSAL

/-- The operand that a variable stands for. -/
def Variable.operand? : Variable → Option Nat
  | .io k => some k
  | .identifier _ => none

namespace OperationDAGBuilder

/-- The operands that are referred to have variables, except for the one that is
about to be assigned, and those that were read first have terminals. -/
structure IOMarked (b : OperationDAGBuilder) (pending : Option Nat) : Prop where
  nodup : (b.ioVariables.map Prod.fst).Nodup
  bound : ∀ k t, (k, t) ∈ b.ioVariables → pending = some k ∨ (b.variableBindings (.io k)).isSome = true
  referenced : ∀ k, pending = some k ∨ (b.variableBindings (.io k)).isSome = true → k ∈ b.ioVariables.map Prod.fst
  terminal : ∀ k t, (k, t) ∈ b.ioVariables → (t = none ↔ .terminal k ∉ b.dag.nodes)
  unbound : ∀ k, b.variableBindings (.io k) = none → .terminal k ∉ b.dag.nodes

theorem isReferenced_iff {b : OperationDAGBuilder} {k : Nat} :
    b.isReferenced k = true ↔ k ∈ b.ioVariables.map Prod.fst := by
  unfold isReferenced
  rw [List.any_eq_true, List.mem_map]
  simp only [decide_eq_true_iff]

theorem IOMarked.getVariableName {b b' : OperationDAGBuilder} (hb : b.IOMarked none) {p : Parameter} {x : Variable}
    (h : b.getVariableName p = .ok (b', x)) : b'.IOMarked x.operand? := by
  cases p with
  | integer => cases h
  | var y =>
    cases y with
    | identifier =>
      cases h
      exact hb
    | io k =>
      cases h
      have hbound : ∀ k' t, (k', t) ∈ b.ioVariables → some k = some k' ∨ (b.variableBindings (.io k')).isSome = true :=
        fun k' t hkt => (hb.bound k' t hkt).imp_left fun hnone => by cases hnone
      by_cases href : b.isReferenced k = true
      · rw [if_pos href]
        refine ⟨hb.nodup, hbound, ?_, hb.terminal, hb.unbound⟩
        rintro k' (heq | hsome)
        · cases heq
          exact isReferenced_iff.1 href
        · exact hb.referenced k' (.inr hsome)
      · rw [if_neg href]
        rw [isReferenced_iff] at href
        have hnone : b.variableBindings (.io k) = none := by
          by_contra hsome
          exact href (hb.referenced k (.inr (Option.isSome_iff_ne_none.2 hsome)))
        refine ⟨List.nodup_cons.2 ⟨href, hb.nodup⟩, ?_, ?_, ?_, hb.unbound⟩
        · intro k' t hkt
          cases List.mem_cons.1 hkt with
          | inl heq =>
            cases heq
            exact .inl rfl
          | inr hkt => exact hbound k' t hkt
        · rintro k' (heq | hsome)
          · cases heq
            exact List.mem_cons_self
          · exact List.mem_cons_of_mem _ (hb.referenced k' (.inr hsome))
        · intro k' t hkt
          cases List.mem_cons.1 hkt with
          | inl heq =>
            cases heq
            exact iff_of_true rfl (hb.unbound k hnone)
          | inr hkt => exact hb.terminal k' t hkt

theorem IOMarked.addNode {b : OperationDAGBuilder} {pending : Option Nat} (hb : b.IOMarked pending)
    (node : OperationDAGNode) (hnode : ∀ k, node ≠ .terminal k) : (b.addNode node).IOMarked pending := by
  have hmem : ∀ k, .terminal k ∈ b.dag.nodes ++ [node] ↔ .terminal k ∈ b.dag.nodes := by
    intro k
    rw [List.mem_append, List.mem_singleton]
    exact or_iff_left (hnode k).symm
  refine ⟨hb.nodup, hb.bound, hb.referenced, fun k t hkt => ?_, fun k hk => ?_⟩
  · exact (hb.terminal k t hkt).trans (not_congr (hmem k)).symm
  · exact fun h => hb.unbound k hk ((hmem k).1 h)

theorem IOMarked.bind {b : OperationDAGBuilder} {x : Variable} (hb : b.IOMarked x.operand?) (binding : VariableBinding) :
    (b.bind x binding).IOMarked none := by
  have hsome : ∀ k, ((b.bind x binding).variableBindings (.io k)).isSome = true ↔
      x.operand? = some k ∨ (b.variableBindings (.io k)).isSome = true := by
    intro k
    dsimp only [OperationDAGBuilder.bind]
    by_cases hx : Variable.io k = x
    · rw [← hx, Function.update_self]
      exact iff_of_true rfl (.inl rfl)
    · rw [Function.update_of_ne hx]
      refine (or_iff_right fun hk => hx ?_).symm
      cases x with
      | io k' => cases hk; rfl
      | identifier => cases hk
  refine ⟨hb.nodup, fun k t hkt => .inr ((hsome k).2 (hb.bound k t hkt)), ?_, hb.terminal, fun k hk => ?_⟩
  · rintro k (hnone | hk)
    · cases hnone
    · exact hb.referenced k ((hsome k).1 hk)
  · apply hb.unbound k
    by_contra hne
    have := (hsome k).2 (.inr (Option.isSome_iff_ne_none.2 hne))
    rw [hk] at this
    cases this

theorem mem_setTerminal {b : OperationDAGBuilder} {k n k' : Nat} {t : Option Nat} :
    (k', t) ∈ (b.setTerminal k n).ioVariables ↔ k' = k ∧ t = some n ∨ k' ≠ k ∧ (k', t) ∈ b.ioVariables := by
  dsimp only [setTerminal]
  rw [List.mem_cons, List.mem_filter, Prod.mk.injEq, decide_eq_true_iff, and_comm (a := (k', t) ∈ b.ioVariables)]

theorem IOMarked.getBinding {b b' : OperationDAGBuilder} {pending : Option Nat} (hb : b.IOMarked pending)
    {p : Parameter} {binding : VariableBinding} (h : b.getBinding p = .ok (b', binding)) : b'.IOMarked pending := by
  rcases getBinding_ok h with ⟨rfl, -⟩ | ⟨-, k, -, hk, rfl⟩ | ⟨rfl, -⟩ | ⟨-, v, -, -, rfl⟩
  · exact hb
  · have hvar : ∀ k', ((b.addNode (.terminal k)).bind (.io k) binding).variableBindings (.io k') =
        if k' = k then some binding else b.variableBindings (.io k') := by
      intro k'
      dsimp only [OperationDAGBuilder.bind, OperationDAGBuilder.addNode]
      by_cases heq : k' = k
      · rw [if_pos heq, heq, Function.update_self]
      · rw [if_neg heq, Function.update_of_ne (by simpa using heq)]
    constructor
    · change (k :: (b.ioVariables.filter _).map Prod.fst).Nodup
      refine List.nodup_cons.2 ⟨fun hmem => ?_, hb.nodup.sublist (List.filter_sublist.map _)⟩
      obtain ⟨⟨k', t⟩, hmem, rfl⟩ := List.mem_map.1 hmem
      exact of_decide_eq_true (List.mem_filter.1 hmem).2 rfl
    · intro k' t hkt
      change pending = some k' ∨ (((b.addNode (.terminal k)).bind (.io k) binding).variableBindings (.io k')).isSome = true
      rw [hvar]
      rcases mem_setTerminal.1 hkt with ⟨rfl, -⟩ | ⟨hne, hkt⟩
      · rw [if_pos rfl]
        exact .inr rfl
      · rw [if_neg hne]
        exact hb.bound k' t hkt
    · intro k' hk'
      change pending = some k' ∨ (((b.addNode (.terminal k)).bind (.io k) binding).variableBindings (.io k')).isSome = true at hk'
      rw [hvar] at hk'
      by_cases heq : k' = k
      · rw [heq]
        exact List.mem_cons_self
      · rw [if_neg heq] at hk'
        obtain ⟨⟨k'', t⟩, hmem, rfl⟩ := List.mem_map.1 (hb.referenced k' hk')
        exact List.mem_map_of_mem (mem_setTerminal.2 (.inr ⟨heq, hmem⟩))
    · intro k' t hkt
      change t = none ↔ .terminal k' ∉ b.dag.nodes ++ [.terminal k]
      rw [List.mem_append, List.mem_singleton]
      rcases mem_setTerminal.1 hkt with ⟨rfl, rfl⟩ | ⟨hne, hkt⟩
      · simp
      · rw [hb.terminal k' t hkt, or_iff_left (by simpa using hne)]
    · intro k' hk'
      change ((b.addNode (.terminal k)).bind (.io k) binding).variableBindings (.io k') = none at hk'
      rw [hvar] at hk'
      by_cases heq : k' = k
      · rw [if_pos heq] at hk'
        cases hk'
      · rw [if_neg heq] at hk'
        change .terminal k' ∉ b.dag.nodes ++ [.terminal k]
        rw [List.mem_append, List.mem_singleton, or_iff_left (by simpa using heq)]
        exact hb.unbound k' hk'
  · exact hb
  · have := hb.addNode (.constant v) fun k h => by cases h
    exact ⟨this.nodup, this.bound, this.referenced, this.terminal, this.unbound⟩

theorem IOMarked.assignVariable {b b' : OperationDAGBuilder} (hb : b.IOMarked none) {dst src : Parameter}
    (h : b.assignVariable dst src = .ok b') : b'.IOMarked none := by
  obtain ⟨b₁, b₂, x, binding, h₁, h₂, rfl⟩ := assignVariable_ok h
  exact ((hb.getVariableName h₁).getBinding h₂).bind binding

theorem IOMarked.connectOperandToNode {b b' : OperationDAGBuilder} {op : Operation} {n : Nat} {p : Parameter × Nat}
    (hb : b.IOMarked none) (h : connectOperandToNode op n b p = .ok b') : b'.IOMarked none := by
  rcases connectOperandToNode_ok h with ⟨-, b₁, binding, m, h₁, -, rfl⟩ | ⟨-, -, h⟩
  · have := hb.getBinding h₁
    exact ⟨this.nodup, this.bound, this.referenced, this.terminal, this.unbound⟩
  · obtain ⟨b₁, x, h₁, rfl⟩ := assignResult_ok h
    exact (hb.getVariableName h₁).bind _

variable {opPool : String → Option Operation}

theorem IOMarked.parseNode {b b' : OperationDAGBuilder} (hb : b.IOMarked none) {statement : Statement}
    (h : b.parseNode opPool statement = .ok b') : b'.IOMarked none := by
  cases statement with
  | declaration names =>
    apply foldlM_invariant (P := fun b => b.IOMarked none) ?_ hb h
    intro name _ b b' hb hname
    rw [(declareVariable_ok hname).2]
    exact IOMarked.bind (x := .identifier name) hb _
  | assignment dst src => exact hb.assignVariable h
  | EXEC_OPERATION name parameters =>
    obtain ⟨op, b₁, -, h₁, h₂⟩ := parse_EXEC_OPERATION_ok h
    have hstep : ∀ (p : Parameter × Nat) (b₁ b₂ : OperationDAGBuilder), b₁.IOMarked none →
        OperationDAGBuilder.connectOperandToNode op b.dag.nodes.length b₁ p = .ok b₂ → b₂.IOMarked none :=
      fun p b₁ b₂ hb₁ h => hb₁.connectOperandToNode h
    have hadd := hb.addNode (.operation op) fun k h => by cases h
    exact foldlM_invariant (fun p _ => hstep p) (foldlM_invariant (fun p _ => hstep p) hadd h₁) h₂

theorem ioMarked_parse {statements : List Statement} {b : OperationDAGBuilder}
    (h : statements.foldlM (OperationDAGBuilder.parseNode opPool) new = .ok b) : b.IOMarked none := by
  apply foldlM_invariant (P := fun b => b.IOMarked none) (fun _ _ _ _ hb h => hb.parseNode h) ?_ h
  refine ⟨List.nodup_nil, fun k t hkt => (List.not_mem_nil hkt).elim, ?_, fun k t hkt => (List.not_mem_nil hkt).elim,
    fun k _ => List.not_mem_nil⟩
  rintro k (hk | hk) <;> cases hk

/-! ## Operands that are read first -/

/-- Parameters are read and then others are written. -/
structure Touches (b b' : OperationDAGBuilder) (reads writes : List Parameter) : Prop where
  terminal : ∀ k, .terminal k ∈ b'.dag.nodes ↔
    .terminal k ∈ b.dag.nodes ∨ .var (.io k) ∈ reads ∧ b.variableBindings (.io k) = none
  unbound : ∀ k, b'.variableBindings (.io k) = none ↔
    b.variableBindings (.io k) = none ∧ .var (.io k) ∉ reads ∧ .var (.io k) ∉ writes

theorem Touches.refl (b : OperationDAGBuilder) : b.Touches b [] [] := ⟨fun k => by simp, fun k => by simp⟩

theorem Touches.read {b b₁ b₂ : OperationDAGBuilder} {ps qs ws : List Parameter} (h : b.Touches b₁ ps [])
    (h' : b₁.Touches b₂ qs ws) : b.Touches b₂ (ps ++ qs) ws := by
  constructor
  · intro k
    rw [h'.terminal, h.terminal, h.unbound, List.mem_append]
    by_cases hk : Parameter.var (.io k) ∈ ps <;> simp [hk]
  · intro k
    rw [h'.unbound, h.unbound, List.mem_append]
    simp only [List.not_mem_nil, not_false_eq_true, and_true]
    tauto

theorem Touches.write {b b₁ b₂ : OperationDAGBuilder} {ps ws ws' : List Parameter} (h : b.Touches b₁ ps ws)
    (h' : b₁.Touches b₂ [] ws') : b.Touches b₂ ps (ws ++ ws') := by
  constructor
  · intro k
    rw [h'.terminal, h.terminal]
    simp
  · intro k
    rw [h'.unbound, h.unbound, List.mem_append]
    simp only [List.not_mem_nil, not_false_eq_true, true_and]
    tauto

theorem touches_getBinding {b b' : OperationDAGBuilder} {p : Parameter} {binding : VariableBinding}
    (h : b.getBinding p = .ok (b', binding)) : b.Touches b' [p] [] := by
  rcases getBinding_ok h with ⟨rfl, x, rfl, hx⟩ | ⟨-, k, rfl, hk, rfl⟩ | ⟨rfl, v, rfl, -⟩ | ⟨-, v, rfl, -, rfl⟩
  · have hne : ∀ k, b'.variableBindings (.io k) = none → Parameter.var (.io k) ≠ .var x := by
      intro k hk heq
      cases heq
      rw [hx] at hk
      cases hk
    constructor
    · intro k
      rw [List.mem_singleton]
      exact (or_iff_left fun h => hne k h.2 h.1).symm
    · intro k
      rw [List.mem_singleton]
      exact ⟨fun hk => ⟨hk, hne k hk, List.not_mem_nil⟩, And.left⟩
  · constructor
    · intro k'
      change .terminal k' ∈ b.dag.nodes ++ [.terminal k] ↔ _
      rw [List.mem_append, List.mem_singleton, List.mem_singleton]
      by_cases heq : k' = k
      · subst heq
        simp [hk]
      · simp [heq]
    · intro k'
      change Function.update b.variableBindings (.io k) (some binding) (.io k') = none ↔ _
      by_cases heq : k' = k
      · subst heq
        simp
      · rw [Function.update_of_ne (by simpa using heq)]
        simp [heq]
  · exact ⟨fun k => by simp, fun k => by simp⟩
  · constructor
    · intro k
      change .terminal k ∈ b.dag.nodes ++ [.constant v] ↔ _
      simp
    · intro k
      change b.variableBindings (.io k) = none ↔ _
      simp

theorem touches_bind {b : OperationDAGBuilder} (x : Variable) (binding : VariableBinding) :
    b.Touches (b.bind x binding) [] [.var x] := by
  constructor
  · intro k
    change .terminal k ∈ b.dag.nodes ↔ _
    simp
  · intro k
    change Function.update b.variableBindings x (some binding) (.io k) = none ↔ _
    by_cases heq : Variable.io k = x
    · subst heq
      simp
    · rw [Function.update_of_ne heq]
      simp [heq]

theorem touches_of_eq (b b' : OperationDAGBuilder) (hnodes : b'.dag.nodes = b.dag.nodes)
    (hbindings : b'.variableBindings = b.variableBindings) : b.Touches b' [] [] := by
  constructor
  · intro k
    rw [hnodes]
    simp
  · intro k
    rw [hbindings]
    simp

theorem touches_assignResult {b b' : OperationDAGBuilder} {dst : Parameter} {src : VariableBinding}
    (h : b.assignResult dst src = .ok b') : b.Touches b' [] [dst] := by
  obtain ⟨b₁, x, h₁, rfl⟩ := assignResult_ok h
  obtain ⟨rfl, hdag, hbindings, -⟩ := getVariableName_ok h₁
  exact (touches_of_eq _ _ (congrArg _ hdag) hbindings).read (touches_bind x src)

theorem touches_assignVariable {b b' : OperationDAGBuilder} {dst src : Parameter}
    (h : b.assignVariable dst src = .ok b') : b.Touches b' [src] [dst] := by
  obtain ⟨b₁, b₂, x, binding, h₁, h₂, rfl⟩ := assignVariable_ok h
  obtain ⟨rfl, hdag, hbindings, -⟩ := getVariableName_ok h₁
  exact ((touches_of_eq _ _ (congrArg _ hdag) hbindings).read (touches_getBinding h₂)).write (touches_bind x binding)

theorem touches_inputs {op : Operation} {n : Nat} {ps : List (Parameter × Nat)} : ∀ {b b' : OperationDAGBuilder},
    (∀ p ∈ ps, op.isInput p.2 = true) → ps.foldlM (connectOperandToNode op n) b = .ok b' →
    b.Touches b' (ps.map Prod.fst) [] := by
  induction ps with
  | nil =>
    intro b b' _ h
    cases h
    exact Touches.refl b
  | cons p ps ih =>
    intro b b' hps h
    obtain ⟨hp, hps⟩ := List.forall_mem_cons.1 hps
    obtain ⟨b₁, h₁, h⟩ := bind_eq_ok.1 (List.foldlM_cons.symm.trans h)
    rcases connectOperandToNode_ok h₁ with ⟨-, b₂, binding, m, h₂, -, rfl⟩ | ⟨hinput, -⟩
    · have hconnect := touches_of_eq b₂ (b₂.connectNodes ⟨m, n, binding.operand, p.2⟩) rfl rfl
      exact ((touches_getBinding h₂).read hconnect).read (ih hps h)
    · rw [hp] at hinput
      cases hinput

theorem touches_outputs {op : Operation} {n : Nat} {ps : List (Parameter × Nat)} : ∀ {b b' : OperationDAGBuilder},
    (∀ p ∈ ps, op.isInput p.2 = false) → ps.foldlM (connectOperandToNode op n) b = .ok b' →
    b.Touches b' [] (ps.map Prod.fst) := by
  induction ps with
  | nil =>
    intro b b' _ h
    cases h
    exact Touches.refl b
  | cons p ps ih =>
    intro b b' hps h
    obtain ⟨hp, hps⟩ := List.forall_mem_cons.1 hps
    obtain ⟨b₁, h₁, h⟩ := bind_eq_ok.1 (List.foldlM_cons.symm.trans h)
    rcases connectOperandToNode_ok h₁ with ⟨hinput, -⟩ | ⟨-, -, h₁⟩
    · rw [hp] at hinput
      cases hinput
    · exact (touches_assignResult h₁).write (ih hps h)

/-- What a statement reads, and what it writes then. -/
def reads (opPool : String → Option Operation) : Statement → List Parameter
  | .declaration _ => []
  | .assignment _ src => [src]
  | .EXEC_OPERATION name parameters => parameters.take ((opPool name).map Operation.numberOfInputs |>.getD 0)

def writes (opPool : String → Option Operation) : Statement → List Parameter
  | .declaration _ => []
  | .assignment dst _ => [dst]
  | .EXEC_OPERATION name parameters => parameters.drop ((opPool name).map Operation.numberOfInputs |>.getD 0)

theorem touches_parseNode {b b' : OperationDAGBuilder} {statement : Statement}
    (h : b.parseNode opPool statement = .ok b') : b.Touches b' (reads opPool statement) (writes opPool statement) := by
  cases statement with
  | declaration names =>
    apply foldlM_invariant (P := fun b' => b.Touches b' [] []) ?_ (Touches.refl b) h
    intro name _ b₁ b₂ hb₁ hname
    obtain ⟨hnone, rfl⟩ := declareVariable_ok hname
    have hbind := touches_bind (b := b₁) (.identifier name) ⟨none, 0⟩
    apply hb₁.read
    exact ⟨hbind.terminal, fun k => (hbind.unbound k).trans (by simp)⟩
  | assignment dst src => exact touches_assignVariable h
  | EXEC_OPERATION name parameters =>
    obtain ⟨op, b₁, hop, h₁, h₂⟩ := parse_EXEC_OPERATION_ok h
    have hadd : b.Touches (b.addNode (.operation op)) [] [] := by
      constructor
      · intro k
        change .terminal k ∈ b.dag.nodes ++ [.operation op] ↔ _
        simp
      · intro k
        change b.variableBindings (.io k) = none ↔ _
        simp
    have hinputs := touches_inputs (fun p hp => isInput_of_mem hp) h₁
    have houtputs := touches_outputs (fun p hp => isInput_of_mem_drop hp) h₂
    rw [List.zipIdx_map_fst] at hinputs houtputs
    unfold reads writes
    dsimp only
    rw [hop, Option.map_some, Option.getD_some]
    exact (hadd.read hinputs).write houtputs

theorem isReadFirst_cons {k : Nat} {statement : Statement} {statements : List Statement} {b b' : OperationDAGBuilder}
    (h : b.parseNode opPool statement = .ok b') : isReadFirst opPool k (statement :: statements) = true ↔
      .var (.io k) ∈ reads opPool statement ∨
        .var (.io k) ∉ writes opPool statement ∧ isReadFirst opPool k statements = true := by
  cases statement with
  | declaration names => simp [isReadFirst, reads, writes]
  | assignment dst src =>
    simp only [isReadFirst, reads, writes, List.mem_singleton, eq_comm (a := Parameter.var (.io k))]
    by_cases hsrc : src = .var (.io k)
    · simp [hsrc]
    · by_cases hdst : dst = .var (.io k) <;> simp [hsrc, hdst]
  | EXEC_OPERATION name parameters =>
    obtain ⟨op, b₁, hop, -, -⟩ := parse_EXEC_OPERATION_ok h
    simp only [isReadFirst, reads, writes, hop, Option.map_some, Option.getD_some]
    have hmem : Parameter.var (.io k) ∈ parameters ↔ .var (.io k) ∈ parameters.take op.numberOfInputs ∨
        .var (.io k) ∈ parameters.drop op.numberOfInputs := by
      rw [← List.mem_append, List.take_append_drop]
    by_cases htake : .var (.io k) ∈ parameters.take op.numberOfInputs
    · simp [htake]
    · rw [if_neg htake]
      by_cases hdrop : .var (.io k) ∈ parameters.drop op.numberOfInputs
      · rw [if_pos (hmem.2 (.inr hdrop))]
        simp [htake, hdrop]
      · rw [if_neg fun h => (hmem.1 h).elim htake hdrop]
        simp [htake, hdrop]

/-- The operands with input terminals are those that are read first. -/
theorem terminal_parse {k : Nat} {statements : List Statement} : ∀ {b b' : OperationDAGBuilder},
    statements.foldlM (parseNode opPool) b = .ok b' →
    (.terminal k ∈ b'.dag.nodes ↔
      .terminal k ∈ b.dag.nodes ∨ b.variableBindings (.io k) = none ∧ isReadFirst opPool k statements = true) := by
  induction statements with
  | nil =>
    intro b b' h
    cases h
    exact (or_iff_left fun h => by cases h.2).symm
  | cons statement statements ih =>
    intro b b' h
    obtain ⟨b₁, h₁, h⟩ := bind_eq_ok.1 (List.foldlM_cons.symm.trans h)
    have htouches := touches_parseNode h₁
    rw [ih h, htouches.terminal, htouches.unbound, isReadFirst_cons h₁]
    tauto

/-! ## Output terminals -/

/-- The operands that get output terminals, in the order of their names. -/
def outputTerminals (ios : List (Nat × Option Nat)) : List Nat := (ios.filter fun io => io.2.isNone).map Prod.fst

/-- The node that an operand gets its value from, with the operand of the node. -/
def source (bindings : Variable → Option VariableBinding) (k : Nat) : Nat × Nat :=
  match bindings (.io k) with
  | some ⟨some n, operand⟩ => (n, operand)
  | _ => (0, 0)

def outputEdge (bindings : Variable → Option VariableBinding) (io : Nat × Nat) : OperationDAGEdge :=
  ⟨(source bindings io.1).1, io.2, (source bindings io.1).2, 1⟩

theorem createTerminals_ok {operation : Operation} {ios : List (Nat × Option Nat)} : ∀ {b b' : OperationDAGBuilder},
    (∀ io ∈ ios, (b.variableBindings (.io io.1)).isSome = true) →
    ios.foldlM (createTerminal operation) b = .ok b' →
    b'.dag.nodes = b.dag.nodes ++ (outputTerminals ios).map .terminal ∧
    b'.dag.edges = b.dag.edges ++ ((outputTerminals ios).zipIdx b.dag.nodes.length).map (outputEdge b.variableBindings) ∧
    ∀ k ∈ outputTerminals ios, k ≤ operation.operandCount ∧
      ∃ n operand, b.variableBindings (.io k) = some ⟨some n, operand⟩ := by
  induction ios with
  | nil =>
    intro b b' _ h
    cases h
    exact ⟨(List.append_nil _).symm, (List.append_nil _).symm, fun k hk => (List.not_mem_nil hk).elim⟩
  | cons io ios ih =>
    intro b b' hios h
    obtain ⟨hio, hrest⟩ := List.forall_mem_cons.1 hios
    obtain ⟨b₁, h₁, h⟩ := bind_eq_ok.1 (List.foldlM_cons.symm.trans h)
    obtain ⟨k, t⟩ := io
    unfold createTerminal at h₁
    dsimp only at h₁
    cases t with
    | some t =>
      cases h₁
      exact ih hrest h
    | none =>
      obtain ⟨⟨node, operand⟩, hbinding⟩ := Option.isSome_iff_exists.1 hio
      unfold getIOBinding at h₁
      dsimp only at hbinding h₁
      rw [hbinding] at h₁
      dsimp only at h₁
      by_cases hcount : k > operation.operandCount
      · rw [if_pos hcount] at h₁
        cases h₁
      rw [if_neg hcount] at h₁
      cases node with
      | none => cases h₁
      | some n =>
        cases h₁
        obtain ⟨hnodes, hedges, hall⟩ := ih (b := ((b.addNode (.terminal k)).connectNodes
          ⟨n, b.dag.nodes.length, operand, 1⟩).setTerminal k b.dag.nodes.length) hrest h
        have hfirst : outputTerminals ((k, none) :: ios) = k :: outputTerminals ios := rfl
        rw [hfirst]
        refine ⟨?_, ?_, List.forall_mem_cons.2 ⟨⟨Nat.le_of_not_lt hcount, n, operand, hbinding⟩, hall⟩⟩
        · rw [hnodes]
          exact List.append_assoc _ _ _
        · rw [hedges, List.zipIdx_cons, List.map_cons]
          have hedge : outputEdge b.variableBindings (k, b.dag.nodes.length) = ⟨n, b.dag.nodes.length, operand, 1⟩ := by
            unfold outputEdge source
            dsimp only
            rw [hbinding]
          have hlength : (((b.addNode (.terminal k)).connectNodes ⟨n, b.dag.nodes.length, operand, 1⟩).setTerminal k
              b.dag.nodes.length).dag.nodes.length = b.dag.nodes.length + 1 := List.length_append
          rw [hlength, hedge]
          exact List.append_assoc _ _ _

/-- The graph has the terminals of the operands that are only written, each with
an edge from where the operand gets its value. -/
theorem finalize_ok {operation : Operation} {b b' : OperationDAGBuilder} (hio : b.IOMarked none)
    (h : b.finalize operation = .ok b') :
    b'.dag.nodes = b.dag.nodes ++ (outputTerminals b.sortedIOVariables).map .terminal ∧
    b'.dag.edges = b.dag.edges ++
      ((outputTerminals b.sortedIOVariables).zipIdx b.dag.nodes.length).map (outputEdge b.variableBindings) ∧
    (∀ k ∈ outputTerminals b.sortedIOVariables, k ≤ operation.operandCount ∧
      ∃ n operand, b.variableBindings (.io k) = some ⟨some n, operand⟩) ∧
    ∀ k, operation.isOutput k = true → k ∈ b.ioVariables.map Prod.fst := by
  obtain ⟨b₁, h₁, h⟩ := bind_eq_ok.1 h
  dsimp only at h
  by_cases hunwritten : b.unwrittenOutputs operation = []
  swap
  · rw [if_pos hunwritten] at h
    cases h
  rw [if_neg (by simpa using hunwritten)] at h
  cases h
  have hbound : ∀ io ∈ b.sortedIOVariables, (b.variableBindings (.io io.1)).isSome = true := by
    intro io hmem
    have hmem := (List.perm_insertionSort _ _).mem_iff.1 hmem
    exact (hio.bound io.1 io.2 hmem).resolve_left fun h => by cases h
  obtain ⟨hnodes, hedges, hall⟩ := createTerminals_ok hbound h₁
  refine ⟨hnodes, hedges, hall, fun k hk => ?_⟩
  by_contra hnot
  unfold Operation.isOutput at hk
  rw [Bool.and_eq_true, decide_eq_true_iff, decide_eq_true_iff] at hk
  unfold Operation.operandCount at hk
  have hmem : k ∈ b.unwrittenOutputs operation := by
    refine List.mem_filter.2 ⟨List.mem_map.2 ⟨k - operation.numberOfInputs - 1, List.mem_range.2 (by omega), by omega⟩, ?_⟩
    rw [Bool.not_eq_true', ← Bool.not_eq_true, isReferenced_iff]
    exact hnot
  rw [hunwritten] at hmem
  cases hmem

theorem parse_ok {operation : Operation} {statements : List Statement} {dag : OperationDAG}
    (h : parse opPool operation statements = .ok dag) :
    ∃ b b', statements.foldlM (parseNode opPool) new = .ok b ∧ b.finalize operation = .ok b' ∧ b'.dag = dag := by
  obtain ⟨b, h₁, h⟩ := bind_eq_ok.1 h
  obtain ⟨b', h₂, h⟩ := bind_eq_ok.1 h
  cases h
  exact ⟨b, b', h₁, h₂, rfl⟩

end OperationDAGBuilder

end Tce.OSAL
