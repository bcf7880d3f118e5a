import Tce.DDG.AliasSoundness
import Tce.DDG.GuardExclusion

/-!
# The limit of a loop

The jump of a loop is guarded by a comparison. The move of the limit to it is
looked for from the guard on, over copies between registers and an operation that
inverts the comparison.
-/

namespace Tce.DDG

open LastWrite Relation

structure NamedOperation (N : Type) extends ProgramOperation N where
  name : String

/-- The moves to the two inputs of an operation, when there is one to each. -/
def NamedOperation.inputs {N : Type} (gdpo : NamedOperation N) : Except AliasFault (Option (N × N)) :=
  match gdpo.inputNode 1 with
  | .error fault => .error fault
  | .ok input1Set =>
    match gdpo.inputNode 2 with
    | .error fault => .error fault
    | .ok input2Set =>
      match input1Set, input2Set with
      | [input1], [input2] => .ok (some (input1, input2))
      | _, _ => .ok none

/-- A graph with the operations whose results its moves read. -/
structure LoopGraph (N : Type) extends MoveGraph N where
  sourceOperation : N → Option (NamedOperation N)

namespace LoopGraph
variable {N : Type} (g : LoopGraph N)

def isSourceOperation (n : N) : Bool := (g.sourceOperation n).isSome

def readsGPR (n : N) : Bool := (g.move n).any (·.source.isGPR)

def readsImmediate (n : N) : Bool := (g.move n).any (·.source.isImmediate)

/-- The move of an immediate that the other operand is compared with for not being equal. -/
def limit (gdpo : NamedOperation N) (inverted : Bool) : Except AliasFault (Option N) :=
  if gdpo.name = "NE" ∧ inverted = false ∨ gdpo.name = "EQ" ∧ inverted = true then
    match gdpo.inputs with
    | .error fault => .error fault
    | .ok none => .ok none
    | .ok (some (input1, input2)) =>
      if (g.readsGPR input1 || g.isSourceOperation input1) && g.readsImmediate input2 then .ok (some input2)
      else if (g.readsGPR input2 || g.isSourceOperation input2) && g.readsImmediate input1 then .ok (some input1)
      else .ok none
  else .ok none

def jumpInverted (jumpMove : N) : Bool := ((g.move jumpMove).bind (·.guard)).any (·.isInverted)

variable [DecidableEq N]

/-- The move of the operand that is not an immediate, when it reads a register. -/
def regMove (input1 input2 : N) : Option N :=
  if g.readsGPR input2 && g.readsImmediate input1 then some input2
  else if g.readsGPR input1 && g.readsImmediate input2 then some input1
  else none

/-- The operation whose result is inverted, and the condition for it. -/
def invertedOperation (inverted : Bool) (input1 input2 : N) : Option (NamedOperation N × Bool) :=
  -- bypassed directly from eq?
  if g.isSourceOperation input1 && g.readsImmediate input2 then (g.sourceOperation input1).map fun gdpo => (gdpo, inverted)
  else if g.isSourceOperation input2 && g.readsImmediate input1 then
    (g.sourceOperation input2).map fun gdpo => (gdpo, inverted)
  else (((g.regMove input1 input2).bind g.onlyRegisterRawSource).bind g.sourceOperation).map fun gdpo => (gdpo, !inverted)

/-- The operation that makes the condition; it may come after one that inverts it. -/
def comparison (inverted : Bool) (gdpo : NamedOperation N) : Except AliasFault (Option (NamedOperation N × Bool)) :=
  if gdpo.name = "XOR" then
    match gdpo.inputs with
    | .error fault => .error fault
    | .ok none => .ok none
    | .ok (some (input1, input2)) => .ok (g.invertedOperation inverted input1 input2)
  else .ok (some (gdpo, inverted))

def limitOfGuard (inverted : Bool) : Option N → Except AliasFault (Option N)
  | none => .ok none
  | some guardDef =>
    match g.sourceOperation guardDef with
    | none => .ok none
    | some gdpo =>
      match g.comparison inverted gdpo with
      | .error fault => .error fault
      | .ok none => .ok none
      | .ok (some (gdpo, inverted)) => g.limit gdpo inverted

/-- `none` when the definition of the guard is still traced after `fuel` tests. -/
def findLoopLimit (fuel : Nat) (jumpMove : N) : Option (Except AliasFault (Option N)) :=
  match (g.guardRawPredecessors jumpMove).dedup with
  | [guardDef] =>
    (WhileLoop.run g.copiesRegister g.previousSource fuel (some guardDef)).map (g.limitOfGuard (g.jumpInverted jumpMove))
  | _ => some (.ok none)

/-! ## Runs with operations -/

/-- The value that an event moves, if it is of this move. -/
def moved (e : Event N) (n : N) : Option (BitVec 32) := if e.node = n ∧ e.executed = true then some e.value else none

omit [DecidableEq N] in
/-- What the operations of a comparison compute. -/
def computes : String → Option (BitVec 32 → BitVec 32 → BitVec 32)
  | "EQ" => some fun a b => if a = b then 1 else 0
  | "NE" => some fun a b => if a = b then 0 else 1
  | "XOR" => some fun a b => a ^^^ b
  | _ => none

/-- A result is of the values that were moved last to the inputs of its operation. -/
def ComputesResults (run : List (Event N)) : Prop :=
  ∀ before e after gdpo input1 input2 f, run = before ++ e :: after → e.executed = true →
    g.sourceOperation e.node = some gdpo → gdpo.inputs = .ok (some (input1, input2)) → computes gdpo.name = some f →
      ∃ earlier1 d1 earlier2 d2, IsLast moved before input1 earlier1 d1 ∧ IsLast moved before input2 earlier2 d2 ∧
        e.value = f d1.value d2.value

/-- From a read of a register, or of the result of an inversion, to the event that its value comes from. -/
def Flow (s t : List (Event N) × Event N) : Prop :=
  g.RegisterFlow s t ∨ ∃ gdpo input1 input2 input, g.sourceOperation s.2.node = some gdpo ∧ gdpo.name = "XOR" ∧
    gdpo.inputs = .ok (some (input1, input2)) ∧ (input = input1 ∨ input = input2) ∧ IsLast moved s.1 input t.1 t.2

/-- The value of the guard comes from the event `result` after `past`. -/
def GuardFrom (before : List (Event N)) (jumpMove : N) (past : List (Event N)) (result : Event N) : Prop :=
  ∃ m c r earlier d, g.move jumpMove = some m ∧ m.guard = some c ∧ c.registerName = some r ∧
    IsLast g.writes before r earlier d ∧ ReflTransGen g.Flow (earlier, d) (past, result)

/-- The event reads the result of a comparison of the values that `l` and `o` moved to its inputs. -/
structure Compares (past : List (Event N)) (result : Event N) (gdpo : NamedOperation N) (l o : Event N) : Prop where
  operation : g.sourceOperation result.node = some gdpo
  name : gdpo.name = "EQ" ∨ gdpo.name = "NE"
  inputs : gdpo.inputs = .ok (some (l.node, o.node)) ∨ gdpo.inputs = .ok (some (o.node, l.node))
  limit : ∃ earlier, IsLast moved past l.node earlier l
  other : ∃ earlier, IsLast moved past o.node earlier o

/-- The jump is taken when the limit differs from the value that it was compared with. -/
def TakenOnDifference (before : List (Event N)) (j : Event N) (limitMove : N) : Prop :=
  ∃ past result gdpo l o, g.GuardFrom before j.node past result ∧ g.Compares past result gdpo l o ∧
    l.node = limitMove ∧ (j.executed = true ↔ l.value ≠ o.value)

/-! ## When the limit is found -/

/-- The trace of the definition of the guard comes back to a move. -/
def GuardCopiedInCircle (jumpMove : N) : Prop :=
  ∃ guardDef, (g.guardRawPredecessors jumpMove).dedup = [guardDef] ∧
    ∃ s, ReflTransGen g.TraceStep (some guardDef) s ∧ TransGen g.TraceStep s s

def movesImmediate (n : N) (value : BitVec 32) : Prop := ∃ m, g.move n = some m ∧ m.source = .immediate value

/-- The register that a move reads is written in the run before. -/
def ReadsWritten (run : List (Event N)) (n : N) : Prop :=
  ∀ before e after m r, run = before ++ e :: after → e.node = n → e.executed = true → g.move n = some m →
    m.source = .GPR r → ∃ d ∈ before, (g.writes d r).isSome

/-- A result in a register is inverted with 1, and a bypassed one is not inverted. -/
structure InvertsOnce (run : List (Event N)) (operand immediate : N) : Prop where
  bypassed : g.isSourceOperation operand = true → g.movesImmediate immediate 0
  copied : g.isSourceOperation operand = false → g.movesImmediate immediate 1 ∧ g.ReadsWritten run operand

/-- The registers that the value of the guard comes by are written before they are read, and not by a call. -/
structure GuardTraced (run before : List (Event N)) (jumpMove : N) : Prop where
  register : ∃ m c r, g.move jumpMove = some m ∧ m.guard = some c ∧ c.registerName = some r ∧
    ∃ d ∈ before, (g.writes d r).isSome
  notCall : ∀ n ∈ g.guardRawPredecessors jumpMove, g.isCall n = false
  sources : ∀ n ∈ g.guardRawPredecessors jumpMove, g.SourcesWritten run n
  inverted : ∀ n ∈ g.guardRawPredecessors jumpMove, ∀ last gdpo input1 input2,
    ReflTransGen g.TraceStep (some n) (some last) → g.sourceOperation last = some gdpo → gdpo.name = "XOR" →
    gdpo.inputs = .ok (some (input1, input2)) →
      (g.readsImmediate input2 = true → g.InvertsOnce run input1 input2) ∧
      (g.readsImmediate input1 = true → g.InvertsOnce run input2 input1)

variable {g} {initial : String → BitVec 32} {run before after past earlier : List (Event N)} {j e d result : Event N}
  {guardDef last limitMove n jumpMove : N} {gdpo gdpo' : NamedOperation N} {inverted inverted' : Bool} {fuel : Nat}

theorem findLoopLimit_ends_iff : (∃ fuel, (g.findLoopLimit fuel jumpMove).isSome) ↔ ¬ g.GuardCopiedInCircle jumpMove := by
  cases hdefs : (g.guardRawPredecessors jumpMove).dedup with
  | nil => simp [GuardCopiedInCircle, findLoopLimit, hdefs]
  | cons guardDef others =>
    cases others with
    | cons other others => simp [GuardCopiedInCircle, findLoopLimit, hdefs]
    | nil =>
      have hends : WhileLoop.Ends g.copiesRegister g.previousSource (some guardDef) ↔ _ :=
        WhileLoop.ends_iff g.finite_sources fun s _ => g.previousSource_mem s
      simpa [GuardCopiedInCircle, findLoopLimit, hdefs, WhileLoop.Ends] using hends

/-- What was found on the way to the limit. -/
theorem found_of_findLoopLimit (h : g.findLoopLimit fuel jumpMove = some (.ok (some limitMove))) :
    ∃ guardDef last gdpo gdpo' inverted', (∀ n, n ∈ g.guardRawPredecessors jumpMove ↔ n = guardDef) ∧
      ReflTransGen g.TraceStep (some guardDef) (some last) ∧ g.copiesRegister (some last) = false ∧
      g.sourceOperation last = some gdpo ∧ g.comparison (g.jumpInverted jumpMove) gdpo = .ok (some (gdpo', inverted')) ∧
      g.limit gdpo' inverted' = .ok (some limitMove) := by
  unfold findLoopLimit at h
  split at h
  · rename_i guardDef hdefs
    obtain ⟨last, hlast, hlimit⟩ := Option.map_eq_some_iff.1 h
    obtain ⟨hpath, hexit⟩ := WhileLoop.exit_of_run hlast
    cases last with
    | none => cases hlimit
    | some last =>
      cases hgdpo : g.sourceOperation last with
      | none =>
        simp only [limitOfGuard, hgdpo] at hlimit
        cases hlimit
      | some gdpo =>
        simp only [limitOfGuard, hgdpo] at hlimit
        cases hcomparison : g.comparison (g.jumpInverted jumpMove) gdpo with
        | error fault => simp [hcomparison] at hlimit
        | ok found =>
          cases found with
          | none => simp [hcomparison] at hlimit
          | some found =>
            rw [hcomparison] at hlimit
            refine ⟨guardDef, last, gdpo, found.1, found.2, fun n => ?_, hpath, hexit, hgdpo, hcomparison, hlimit⟩
            rw [← List.mem_dedup, hdefs, List.mem_singleton]
  · cases h

omit [DecidableEq N] in
/-- The comparison that the limit is of, and the result for which the jump is taken. -/
theorem spec_of_limit (h : g.limit gdpo inverted = .ok (some limitMove)) :
    ∃ other, (gdpo.inputs = .ok (some (limitMove, other)) ∨ gdpo.inputs = .ok (some (other, limitMove))) ∧
      (gdpo.name = "NE" ∧ inverted = false ∨ gdpo.name = "EQ" ∧ inverted = true) := by
  unfold limit at h
  split at h
  · rename_i hname
    split at h
    · cases h
    · cases h
    · rename_i input1 input2 hinputs
      split at h
      · obtain rfl := Option.some.inj (Except.ok.inj h)
        exact ⟨input1, .inr hinputs, hname⟩
      · split at h
        · obtain rfl := Option.some.inj (Except.ok.inj h)
          exact ⟨input2, .inl hinputs, hname⟩
        · cases h
  · cases h

theorem of_isLast_moved (h : IsLast moved before n earlier e) : e.node = n ∧ e.executed = true := by
  have hsome := h.1
  unfold moved at hsome
  split at hsome
  · assumption
  · cases hsome

/-- A value comes from earlier in the run. -/
theorem Flow.subset {s t : List (Event N) × Event N} (h : g.Flow s t) : t.1 ⊆ s.1 := by
  rcases h with ⟨_, _, _, _, hlast⟩ | ⟨_, _, _, _, _, _, _, _, hlast⟩
  all_goals
    obtain ⟨later, hs⟩ := hlast.split
    rw [hs]
    exact List.subset_append_left ..

theorem GuardFrom.subset (h : g.GuardFrom before jumpMove past result) : past ⊆ before := by
  obtain ⟨_, _, _, earlier, d, -, -, -, hlast, hflow⟩ := h
  obtain ⟨later, rfl⟩ := hlast.split
  have hpast : ∀ s, ReflTransGen g.Flow (earlier, d) s → s.1 ⊆ earlier := by
    intro s hs
    induction hs with
    | refl => exact List.Subset.refl _
    | tail _ hstep ih => exact List.Subset.trans hstep.subset ih
  exact List.Subset.trans (hpast _ hflow) (List.subset_append_left ..)

/-! ## The value of the guard -/

/-- What a run has to be, for the moves of the graph and their operations. -/
structure IsOperationRun (g : LoopGraph N) (initial : String → BitVec 32) (run : List (Event N)) : Prop where
  moves : g.IsRun initial run
  shows : g.ShowsDependences run
  results : g.ComputesResults run

/-- The operand of an inversion is where its result comes from. -/
theorem flow_operand {operand immediate : N} (hgdpo : g.sourceOperation e.node = some gdpo) (hname : gdpo.name = "XOR")
    (hinputs : gdpo.inputs = .ok (some (operand, immediate)) ∨ gdpo.inputs = .ok (some (immediate, operand)))
    (hoperand : IsLast moved before operand earlier d) : g.Flow (before, e) (earlier, d) := by
  rcases hinputs with hinputs | hinputs
  · exact .inr ⟨gdpo, operand, immediate, operand, hgdpo, hname, hinputs, .inl rfl, hoperand⟩
  · exact .inr ⟨gdpo, immediate, operand, operand, hgdpo, hname, hinputs, .inr rfl, hoperand⟩

omit [DecidableEq N] in
theorem invert_condition {a b : BitVec 32} {c : Bool} (ha : a = 0 ∨ a = 1) (hb : b = a ^^^ 1) :
    ((b != 0) ^^ c) = ((a != 0) ^^ !c) := by
  subst hb
  rcases ha with rfl | rfl <;> cases c <;> decide

section Run
variable (hrun : IsOperationRun g initial run)

include hrun

theorem IsOperationRun.value_of_movesImmediate {v : BitVec 32} (before after : List (Event N))
    (hsplit : run = before ++ e :: after) (h : g.movesImmediate e.node v) : e.value = v := by
  obtain ⟨m, hm, hsource⟩ := h
  obtain ⟨m', hexec⟩ := (hsplit ▸ hrun.moves).executes
  obtain rfl := Option.some.inj (hm.symm.trans hexec.move)
  exact hexec.immediate v hsource

section Operand
variable {operand immediate : N} {dOperand dImmediate : Event N} {eOperand eImmediate : List (Event N)}
  (hsplit : run = before ++ e :: after) (hgdpo : g.sourceOperation e.node = some gdpo) (hname : gdpo.name = "XOR")
  (hinputs : gdpo.inputs = .ok (some (operand, immediate)) ∨ gdpo.inputs = .ok (some (immediate, operand)))
  (hinverts : g.InvertsOnce run operand immediate) (hOperand : IsLast moved before operand eOperand dOperand)
  (hImmediate : IsLast moved before immediate eImmediate dImmediate) (hvalue : e.value = dOperand.value ^^^ dImmediate.value)

include hsplit hgdpo hname hinputs hinverts hOperand hImmediate hvalue

/-- A bypassed operand goes through. -/
theorem IsOperationRun.bypassed (hsource : g.isSourceOperation operand = true) :
    ∃ later, run = eOperand ++ dOperand :: later ∧ g.Flow (before, e) (eOperand, dOperand) ∧ dOperand.node = operand ∧
      dOperand.executed = true ∧ e.value = dOperand.value := by
  obtain ⟨hnode, hexec⟩ := of_isLast_moved hOperand
  obtain ⟨later, rfl⟩ := hOperand.split
  obtain ⟨between, hbetween⟩ := hImmediate.split
  have hzero : dImmediate.value = 0 := by
    refine hrun.value_of_movesImmediate eImmediate (between ++ e :: after) ?_ ?_
    · rw [hsplit, hbetween, List.append_assoc, List.cons_append]
    · rw [(of_isLast_moved hImmediate).1]
      exact hinverts.bypassed hsource
  refine ⟨later ++ e :: after, by simp [hsplit], flow_operand hgdpo hname hinputs hOperand, hnode, hexec, ?_⟩
  rw [hvalue, hzero]
  exact BitVec.xor_zero

/-- An operand in a register is that of its only definition, and is inverted. -/
theorem IsOperationRun.copied (hsource : g.isSourceOperation operand = false) (hGPR : g.readsGPR operand = true)
    (honly : g.onlyRegisterRawSource operand = some n) :
    ∃ past result later, run = past ++ result :: later ∧ ReflTransGen g.Flow (before, e) (past, result) ∧
      result.node = n ∧ result.executed = true ∧ e.value = result.value ^^^ 1 := by
  obtain ⟨rfl, hexec⟩ := of_isLast_moved hOperand
  obtain ⟨himmediate, hwritten⟩ := hinverts.copied hsource
  obtain ⟨later, hlater⟩ := hOperand.split
  obtain ⟨between, hbetween⟩ := hImmediate.split
  have hone : dImmediate.value = 1 := by
    refine hrun.value_of_movesImmediate eImmediate (between ++ e :: after) ?_ ?_
    · rw [hsplit, hbetween, List.append_assoc, List.cons_append]
    · rw [(of_isLast_moved hImmediate).1]
      exact himmediate
  have hsplit' : run = eOperand ++ dOperand :: (later ++ e :: after) := by simp [hsplit, hlater]
  obtain ⟨m, hm⟩ := (hsplit' ▸ hrun.moves).executes
  obtain ⟨m', r, hm', hread⟩ := MoveGraph.source_of_copiesRegister (g := g.toMoveGraph) hGPR
  obtain rfl : m = m' := Option.some.inj (hm.move.symm.trans hm')
  obtain ⟨past, result, hlast⟩ := exists_isLast (hwritten _ _ _ m r hsplit' rfl hexec hm' hread)
  obtain ⟨rfl, hresult, hsame⟩ :=
    hrun.moves.eq_of_onlyRegisterRawSource hrun.shows hsplit' hm hread hexec hlast honly
  obtain ⟨rest, hrest⟩ := hlast.split
  refine ⟨past, result, rest ++ dOperand :: (later ++ e :: after), by simp [hsplit', hrest],
    .tail (.single (flow_operand hgdpo hname hinputs hOperand)) (.inl ⟨m, r, hm', hread, hlast⟩), rfl, hresult, ?_⟩
  rw [hvalue, hone, hsame]

end Operand

/-- The result that is inverted makes the condition. -/
theorem IsOperationRun.of_invertedOperation {input1 input2 : N} (hsplit : run = before ++ e :: after)
    (hgdpo : g.sourceOperation e.node = some gdpo) (hname : gdpo.name = "XOR")
    (hinputs : gdpo.inputs = .ok (some (input1, input2)))
    (hinverts : (g.readsImmediate input2 = true → g.InvertsOnce run input1 input2) ∧
      (g.readsImmediate input1 = true → g.InvertsOnce run input2 input1))
    (hfound : g.invertedOperation inverted input1 input2 = some (gdpo', inverted')) (he : e.executed = true) :
    ∃ past result later, run = past ++ result :: later ∧ ReflTransGen g.Flow (before, e) (past, result) ∧
      result.executed = true ∧ g.sourceOperation result.node = some gdpo' ∧
      (result.value = 0 ∨ result.value = 1 → ((e.value != 0) ^^ inverted) = ((result.value != 0) ^^ inverted')) := by
  obtain ⟨e1, d1, e2, d2, h1, h2, hvalue⟩ := hrun.results before e after gdpo input1 input2 (fun a b => a ^^^ b) hsplit he hgdpo
    hinputs (by rw [hname]; rfl)
  have hvalue' : e.value = d2.value ^^^ d1.value := hvalue.trans (BitVec.xor_comm ..)
  unfold invertedOperation at hfound
  split at hfound
  · rename_i hcase
    obtain ⟨hsource, himm⟩ := Bool.and_eq_true_iff.1 hcase
    obtain ⟨_, hop, heq⟩ := Option.map_eq_some_iff.1 hfound
    obtain ⟨rfl, rfl⟩ := Prod.mk.inj heq
    obtain ⟨later, hrest, hflow, hnode, hexec, hsame⟩ :=
      hrun.bypassed hsplit hgdpo hname (.inl hinputs) (hinverts.1 himm) h1 h2 hvalue hsource
    exact ⟨e1, d1, later, hrest, .single hflow, hexec, hnode ▸ hop, fun _ => by rw [hsame]⟩
  · rename_i hnot1
    split at hfound
    · rename_i hcase
      obtain ⟨hsource, himm⟩ := Bool.and_eq_true_iff.1 hcase
      obtain ⟨_, hop, heq⟩ := Option.map_eq_some_iff.1 hfound
      obtain ⟨rfl, rfl⟩ := Prod.mk.inj heq
      obtain ⟨later, hrest, hflow, hnode, hexec, hsame⟩ :=
        hrun.bypassed hsplit hgdpo hname (.inr hinputs) (hinverts.2 himm) h2 h1 hvalue' hsource
      exact ⟨e2, d2, later, hrest, .single hflow, hexec, hnode ▸ hop, fun _ => by rw [hsame]⟩
    · rename_i hnot2
      obtain ⟨_, hop, heq⟩ := Option.map_eq_some_iff.1 hfound
      obtain ⟨rfl, rfl⟩ := Prod.mk.inj heq
      obtain ⟨n, hn, hop⟩ := Option.bind_eq_some_iff.1 hop
      obtain ⟨operand, hoperand, honly⟩ := Option.bind_eq_some_iff.1 hn
      unfold regMove at hoperand
      split at hoperand
      · rename_i hcase
        obtain rfl := Option.some.inj hoperand
        obtain ⟨hGPR, himm⟩ := Bool.and_eq_true_iff.1 hcase
        have hsource : g.isSourceOperation input2 = false := by simpa [himm] using hnot2
        obtain ⟨past, result, later, hrest, hflow, rfl, hexec, hsame⟩ :=
          hrun.copied hsplit hgdpo hname (.inr hinputs) (hinverts.2 himm) h2 h1 hvalue' hsource hGPR honly
        exact ⟨past, result, later, hrest, hflow, hexec, hop, fun hbit => invert_condition hbit hsame⟩
      · split at hoperand
        · rename_i hcase
          obtain rfl := Option.some.inj hoperand
          obtain ⟨hGPR, himm⟩ := Bool.and_eq_true_iff.1 hcase
          have hsource : g.isSourceOperation input1 = false := by simpa [himm] using hnot1
          obtain ⟨past, result, later, hrest, hflow, rfl, hexec, hsame⟩ :=
            hrun.copied hsplit hgdpo hname (.inl hinputs) (hinverts.1 himm) h1 h2 hvalue hsource hGPR honly
          exact ⟨past, result, later, hrest, hflow, hexec, hop, fun hbit => invert_condition hbit hsame⟩
        · cases hoperand

/-- The comparison, past an inversion if there is one. -/
theorem IsOperationRun.of_comparison (hsplit : run = before ++ e :: after) (hgdpo : g.sourceOperation e.node = some gdpo)
    (hinverted : ∀ input1 input2, gdpo.name = "XOR" → gdpo.inputs = .ok (some (input1, input2)) →
      (g.readsImmediate input2 = true → g.InvertsOnce run input1 input2) ∧
      (g.readsImmediate input1 = true → g.InvertsOnce run input2 input1))
    (hfound : g.comparison inverted gdpo = .ok (some (gdpo', inverted'))) (he : e.executed = true) :
    ∃ past result later, run = past ++ result :: later ∧ ReflTransGen g.Flow (before, e) (past, result) ∧
      result.executed = true ∧ g.sourceOperation result.node = some gdpo' ∧
      (result.value = 0 ∨ result.value = 1 → ((e.value != 0) ^^ inverted) = ((result.value != 0) ^^ inverted')) := by
  unfold comparison at hfound
  split at hfound
  · rename_i hname
    match hinputs : gdpo.inputs, hfound with
    | .ok (some (input1, input2)), hfound =>
      exact hrun.of_invertedOperation hsplit hgdpo hname hinputs (hinverted input1 input2 hname hinputs)
        (Except.ok.inj hfound) he
  · obtain ⟨rfl, rfl⟩ := Prod.mk.inj (Option.some.inj (Except.ok.inj hfound))
    exact ⟨before, e, after, hsplit, .refl, he, hgdpo, fun _ => rfl⟩

/-- The definition of the guard, and its value. -/
theorem IsOperationRun.guard_eq (hsplit : run = before ++ j :: after) (htraced : g.GuardTraced run before j.node) :
    ∃ m c r earlier d later, g.move j.node = some m ∧ m.guard = some c ∧ c.registerName = some r ∧
      IsLast g.writes before r earlier d ∧ run = earlier ++ d :: later ∧ d.executed = true ∧
      d.node ∈ g.guardRawPredecessors j.node ∧ j.executed = ((d.value != 0) ^^ g.jumpInverted j.node) := by
  obtain ⟨m, c, r, hm, hguard, hr, hwritten⟩ := htraced.register
  obtain ⟨earlier, d, hlast⟩ := exists_isLast hwritten
  obtain ⟨m', hexec⟩ := (hsplit ▸ hrun.moves).executes
  obtain rfl := Option.some.inj (hm.symm.trans hexec.move)
  obtain ⟨edge, hedge⟩ := hrun.shows.guard before j after m c r hsplit hm hguard hr earlier d hlast
  have hdef := hedge.mem_guardRawPredecessors
  obtain ⟨between, hbetween⟩ := hlast.split
  have hsplit' : run = earlier ++ d :: (between ++ j :: after) := by simp [hsplit, hbetween]
  obtain ⟨md, hmd⟩ := (hsplit' ▸ hrun.moves).executes
  have hcall : md.isCall = false := by simpa [MoveGraph.isCall, hmd.move] using htraced.notCall _ hdef
  obtain ⟨hdexec, -, hwrites⟩ := MoveGraph.writes_eq_some hmd.move hcall hlast.1
  have hstate : some (stateAfter g.writes initial before r) = g.writes d r := hlast.stateAfter
  rw [hwrites, Option.some.injEq] at hstate
  refine ⟨m, c, r, earlier, d, _, hm, hguard, hr, hlast, hsplit', hdexec, hdef, ?_⟩
  rw [hexec.guard c r hguard hr, hstate]
  simp [jumpInverted, hm, hguard]

/-- The result of a comparison says whether its operands differ. -/
theorem IsOperationRun.compares (hsplit : run = past ++ result :: after) (hresult : result.executed = true)
    (hgdpo : g.sourceOperation result.node = some gdpo) (hlimit : g.limit gdpo inverted = .ok (some limitMove)) :
    ∃ l o, g.Compares past result gdpo l o ∧ l.node = limitMove ∧ (result.value = 0 ∨ result.value = 1) ∧
      (((result.value != 0) ^^ inverted) = true ↔ l.value ≠ o.value) := by
  obtain ⟨other, hinputs, hname⟩ := spec_of_limit hlimit
  have hcompares : ∃ e1 l e2 o, IsLast moved past limitMove e1 l ∧ IsLast moved past other e2 o ∧
      (gdpo.name = "EQ" → result.value = if l.value = o.value then 1 else 0) ∧
      (gdpo.name = "NE" → result.value = if l.value = o.value then 0 else 1) := by
    have hcomputes : computes gdpo.name = some (fun a b => if a = b then 1 else 0) ∧ gdpo.name = "EQ" ∨
        computes gdpo.name = some (fun a b => if a = b then 0 else 1) ∧ gdpo.name = "NE" := by
      rcases hname with ⟨hname, -⟩ | ⟨hname, -⟩
      · exact .inr ⟨by rw [hname]; rfl, hname⟩
      · exact .inl ⟨by rw [hname]; rfl, hname⟩
    rcases hinputs with hinputs | hinputs <;> rcases hcomputes with ⟨hf, hname⟩ | ⟨hf, hname⟩ <;>
      obtain ⟨e1, d1, e2, d2, h1, h2, hvalue⟩ := hrun.results _ _ _ _ _ _ _ hsplit hresult hgdpo hinputs hf
    · exact ⟨e1, d1, e2, d2, h1, h2, fun _ => hvalue, by simp [hname]⟩
    · exact ⟨e1, d1, e2, d2, h1, h2, by simp [hname], fun _ => hvalue⟩
    · exact ⟨e2, d2, e1, d1, h2, h1, fun _ => by simp only [hvalue, eq_comm], by simp [hname]⟩
    · exact ⟨e2, d2, e1, d1, h2, h1, by simp [hname], fun _ => by simp only [hvalue, eq_comm]⟩
  obtain ⟨e1, l, e2, o, hl, ho, heq, hne⟩ := hcompares
  obtain ⟨rfl, -⟩ := of_isLast_moved hl
  obtain ⟨rfl, -⟩ := of_isLast_moved ho
  refine ⟨l, o, ⟨hgdpo, hname.elim (fun h => .inr h.1) (fun h => .inl h.1), hinputs, ⟨e1, hl⟩, ⟨e2, ho⟩⟩, rfl, ?_⟩
  rcases hname with ⟨hname, rfl⟩ | ⟨hname, rfl⟩
  · rw [hne hname]
    by_cases hvalues : l.value = o.value <;> simp [hvalues]
  · rw [heq hname]
    by_cases hvalues : l.value = o.value <;> simp [hvalues]

end Run

/-- The limit is looked for to an end unless registers are copied in a circle. A jump is taken when the limit
differs from what it is compared with, in each run in which the guard is traced as it comes about. -/
theorem findLoopLimit_sound (g : LoopGraph N) (jumpMove : N) :
    ((∃ fuel, (g.findLoopLimit fuel jumpMove).isSome) ↔ ¬ g.GuardCopiedInCircle jumpMove) ∧
      ∀ initial run, g.IsOperationRun initial run → ∀ fuel limitMove,
        g.findLoopLimit fuel jumpMove = some (.ok (some limitMove)) → ∀ before j after, run = before ++ j :: after →
          j.node = jumpMove → g.GuardTraced run before jumpMove → g.TakenOnDifference before j limitMove := by
  refine ⟨findLoopLimit_ends_iff, ?_⟩
  rintro initial run hrun fuel limitMove hfound before j after hsplit rfl htraced
  obtain ⟨guardDef, last, gdpo, gdpo', inverted', hdefs, hpath, hlast, hgdpo, hcomparison, hlimit⟩ :=
    found_of_findLoopLimit hfound
  obtain ⟨m, c, r, earlier, d, later, hm, hguard, hr, hwriter, hdsplit, hdexec, hdef, hexecuted⟩ :=
    hrun.guard_eq hsplit htraced
  obtain rfl := (hdefs _).1 hdef
  obtain ⟨first, e, rest, hcopies, hesplit, rfl, hexec, hvalue⟩ := MoveGraph.event_of_trace hrun.moves hrun.shows
    (htraced.sources _ hdef) hlast hdsplit hdexec .refl hpath
  obtain ⟨past, result, tail, hrsplit, hflow, hresult, hop, hsame⟩ := hrun.of_comparison hesplit hgdpo
    (fun input1 input2 hname hinputs => htraced.inverted _ hdef _ _ _ _ hpath hgdpo hname hinputs) hcomparison hexec
  obtain ⟨l, o, hcompares, hnode, hbit, htaken⟩ := hrun.compares hrsplit hresult hop hlimit
  have hcopies' : ReflTransGen g.Flow (earlier, d) (first, e) := ReflTransGen.mono (fun _ _ h => Or.inl h) _ _ hcopies
  refine ⟨past, result, gdpo', l, o, ⟨m, c, r, earlier, d, hm, hguard, hr, hwriter, hcopies'.trans hflow⟩, hcompares,
    hnode, ?_⟩
  rw [hexecuted, ← hvalue, hsame hbit, htaken]

/-! ## An inversion that is bypassed -/

def twoInputs (name : String) (input1 input2 : Nat) : NamedOperation Nat where
  operation := .mk false [⟨false, 0⟩, ⟨false, 0⟩] []
  inputMoves index := if index = 1 then some [input1] else if index = 2 then some [input2] else none
  name := name

/-- `r1 -> eq.1; 10 -> eq.2; eq.3 -> xor.1; k -> xor.2; xor.3 -> g; !g loop -> jump`. -/
def bypassedLoop (k : BitVec 32) : LoopGraph Nat where
  move
    | 0 => some ⟨.GPR "r1", none, none, false⟩
    | 1 => some ⟨.immediate 10, none, none, false⟩
    | 2 => some ⟨.other, none, none, false⟩
    | 3 => some ⟨.immediate k, none, none, false⟩
    | 4 => some ⟨.other, some "g", none, false⟩
    | 5 => some ⟨.immediate 0, none, some ⟨some "g", true⟩, false⟩
    | _ => none
  edges := [MoveGraph.guardEdge 4 5 0]
  sourceOperation
    | 2 => some (twoInputs "EQ" 0 1)
    | 4 => some (twoInputs "XOR" 2 3)
    | _ => none

/-- The loop comes to its end. -/
def lastRound (k : BitVec 32) : List (Event Nat) :=
  [⟨0, true, 10, []⟩, ⟨1, true, 10, []⟩, ⟨2, true, 1, []⟩, ⟨3, true, k, []⟩, ⟨4, true, 1 ^^^ k, []⟩]

def lastJump (k : BitVec 32) : Event Nat := ⟨5, (1 ^^^ k != 0) ^^ true, 0, []⟩

theorem findLoopLimit_bypassedLoop (k : BitVec 32) : (bypassedLoop k).findLoopLimit 1 5 = some (.ok (some 1)) := rfl

theorem isRun_bypassedLoop (k : BitVec 32) : (bypassedLoop k).IsRun (fun _ => 10) (lastRound k ++ [lastJump k]) := by
  refine ⟨⟨_, rfl, ?_, ?_, ?_, ?_⟩, ⟨_, rfl, ?_, ?_, ?_, ?_⟩, ⟨_, rfl, ?_, ?_, ?_, ?_⟩, ⟨_, rfl, ?_, ?_, ?_, ?_⟩,
    ⟨_, rfl, ?_, ?_, ?_, ?_⟩, ⟨_, rfl, ?_, fun c r hc hr => ?_, ?_, ?_⟩, trivial⟩
  case refine_22 =>
    obtain rfl := Option.some.inj hc
    obtain rfl := Option.some.inj hr
    rfl
  all_goals simp [stateAfter, MoveGraph.writes, bypassedLoop, lastJump]

theorem node_of_writes {k : BitVec 32} {d : Event Nat} {r : String} (h : ((bypassedLoop k).writes d r).isSome) :
    d.node = 4 ∧ r = "g" := by
  obtain ⟨node, executed, value, results⟩ := d
  match node, executed with
  | 4, true =>
    by_cases hr : r = "g"
    · exact ⟨rfl, hr⟩
    · simp [MoveGraph.writes, bypassedLoop, Ne.symm hr] at h
  | 0, true | 1, true | 2, true | 3, true | 5, true | n + 6, true => simp [MoveGraph.writes, bypassedLoop] at h
  | n, false => simp [MoveGraph.writes] at h

/-- Only the guard is written. -/
theorem showsDependences_bypassedLoop (k : BitVec 32) (run : List (Event Nat)) :
    (bypassedLoop k).ShowsDependences run := by
  refine ⟨fun before e after m r _ hm _ hsource earlier d hd => ?_,
    fun before e after m c r _ hm hc hr earlier d hd => ?_⟩
  · obtain ⟨-, hr⟩ := node_of_writes hd.1
    match e.node, hm with
    | 0, hm =>
      cases hm
      cases hsource
      exact absurd hr (by decide)
    | 1, hm | 2, hm | 3, hm | 4, hm | 5, hm => cases hm; cases hsource
  · obtain ⟨hnode, -⟩ := node_of_writes hd.1
    obtain ⟨node, executed, value, results⟩ := e
    match node, hm with
    | 0, hm | 1, hm | 2, hm | 3, hm | 4, hm => cases hm; cases hc
    | 5, hm =>
      exact ⟨MoveGraph.guardEdge 4 5 0, by simp [MoveGraph.inEdges, bypassedLoop, MoveGraph.guardEdge], hnode.symm,
        rfl, rfl, rfl, rfl, by rw [hnode]; rfl⟩

theorem computesResults_bypassedLoop (k : BitVec 32) :
    (bypassedLoop k).ComputesResults (lastRound k ++ [lastJump k]) := by
  intro before e after gdpo input1 input2 f hrun _ hgdpo hinputs hf
  simp only [lastRound, List.cons_append, List.nil_append, List.cons_eq_append_iff, List.cons.injEq] at hrun
  rcases hrun with ⟨rfl, rfl, -⟩ | ⟨_, rfl, ⟨rfl, rfl, -⟩ | ⟨_, rfl, ⟨rfl, rfl, -⟩ | ⟨_, rfl, ⟨rfl, rfl, -⟩ |
    ⟨_, rfl, ⟨rfl, rfl, -⟩ | ⟨_, rfl, ⟨rfl, rfl, -⟩ | ⟨_, rfl, hrun⟩⟩⟩⟩⟩⟩
  · cases hgdpo
  · cases hgdpo
  · cases hgdpo
    cases hinputs
    cases hf
    exact ⟨[], _, [_], _, ⟨rfl, _, rfl, by simp [moved]⟩, ⟨rfl, _, rfl, by simp⟩, rfl⟩
  · cases hgdpo
  · cases hgdpo
    cases hinputs
    cases hf
    exact ⟨[_, _], _, [_, _, _], _, ⟨rfl, _, rfl, by simp [moved]⟩, ⟨rfl, _, rfl, by simp⟩, rfl⟩
  · cases hgdpo
  · simp at hrun

theorem isOperationRun_bypassedLoop (k : BitVec 32) :
    (bypassedLoop k).IsOperationRun (fun _ => 10) (lastRound k ++ [lastJump k]) :=
  ⟨isRun_bypassedLoop k, showsDependences_bypassedLoop .., computesResults_bypassedLoop k⟩

theorem mem_guardRawPredecessors_bypassedLoop {k : BitVec 32} {n : Nat}
    (h : n ∈ (bypassedLoop k).guardRawPredecessors 5) : n = 4 := by
  simpa [MoveGraph.guardRawPredecessors, MoveGraph.inEdges, bypassedLoop, MoveGraph.guardEdge] using h

/-- The result that inverts the comparison reads no register. -/
theorem eq_of_traceStep_bypassedLoop {k : BitVec 32} {s : Option Nat}
    (h : ReflTransGen (bypassedLoop k).TraceStep (some 4) s) : s = some 4 := by
  rcases h.cases_head with heq | ⟨_, hstep, -⟩
  · exact heq.symm
  · cases hstep.1

/-- The values that are compared. -/
theorem value_of_mem_lastRound {k : BitVec 32} {e : Event Nat} (h : e ∈ lastRound k) (hnode : e.node = 0 ∨ e.node = 1) :
    e.value = 10 := by
  simp only [lastRound, List.mem_cons, List.not_mem_nil, or_false] at h
  rcases h with rfl | rfl | rfl | rfl | rfl <;> simp at hnode ⊢

theorem guardTraced_bypassedLoop : (bypassedLoop 0).GuardTraced (lastRound 0 ++ [lastJump 0]) (lastRound 0) 5 := by
  refine ⟨⟨_, _, _, rfl, rfl, rfl, ⟨4, true, 1, []⟩, by simp [lastRound], rfl⟩, fun n hn => ?_, fun n hn => ?_,
    fun n hn last gdpo input1 input2 hpath hgdpo _ hinputs => ?_⟩ <;>
    obtain rfl := mem_guardRawPredecessors_bypassedLoop hn
  · rfl
  · intro before e after m r _ hpath _ hm hsource
    have hnode := Option.some.inj (eq_of_traceStep_bypassedLoop hpath)
    obtain rfl := Option.some.inj (hm.symm.trans (congrArg _ hnode))
    cases hsource
  · obtain rfl := Option.some.inj (eq_of_traceStep_bypassedLoop hpath)
    cases hgdpo
    cases hinputs
    exact ⟨fun _ => ⟨fun _ => ⟨_, rfl, rfl⟩, fun hsource => by cases hsource⟩, fun himmediate => by cases himmediate⟩

theorem findLoopLimit_sound_bypassedLoop : (bypassedLoop 0).TakenOnDifference (lastRound 0) (lastJump 0) 1 :=
  (findLoopLimit_sound (bypassedLoop 0) 5).2 (fun _ => 10) _ (isOperationRun_bypassedLoop 0) 1 1
    (findLoopLimit_bypassedLoop 0) (lastRound 0) (lastJump 0) [] rfl rfl guardTraced_bypassedLoop

/-- `r1 -> r2; r2 -> r1; r2 -> g; ?g loop -> jump`. -/
def guardOfCopies : LoopGraph Nat where
  move
    | 0 => some ⟨.GPR "r1", some "r2", none, false⟩
    | 1 => some ⟨.GPR "r2", some "r1", none, false⟩
    | 2 => some ⟨.GPR "r2", some "g", none, false⟩
    | 3 => some ⟨.immediate 0, none, some ⟨some "g", false⟩, false⟩
    | _ => none
  edges := [MoveGraph.readEdge 0 1 0 "r2", MoveGraph.readEdge 0 2 0 "r2", MoveGraph.readEdge 1 0 1 "r1",
    MoveGraph.guardEdge 2 3 0]
  sourceOperation _ := none

theorem guardCopiedInCircle_guardOfCopies : guardOfCopies.GuardCopiedInCircle 3 :=
  ⟨2, rfl, some 0, .single ⟨rfl, rfl⟩, .tail (.single ⟨rfl, rfl⟩) ⟨rfl, rfl⟩⟩

/-- Tracing does not end where registers are copied in a circle, and a bypassed comparison counts as
not inverted. -/
theorem not_findLoopLimit_sound :
    (¬ ∀ (g : LoopGraph Nat) (jumpMove : Nat), ∃ fuel, (g.findLoopLimit fuel jumpMove).isSome) ∧
      ¬ ∀ (g : LoopGraph Nat) (jumpMove : Nat) initial run, g.IsOperationRun initial run → ∀ fuel limitMove,
        g.findLoopLimit fuel jumpMove = some (.ok (some limitMove)) → ∀ before j after, run = before ++ j :: after →
          j.node = jumpMove → g.TakenOnDifference before j limitMove := by
  refine ⟨fun h => findLoopLimit_ends_iff.1 (h guardOfCopies 3) guardCopiedInCircle_guardOfCopies, fun h => ?_⟩
  obtain ⟨past, result, gdpo, l, o, hfrom, hcompares, hlimit, htaken⟩ := h (bypassedLoop 1) 5 (fun _ => 10) _
    (isOperationRun_bypassedLoop 1) 1 1 (findLoopLimit_bypassedLoop 1) (lastRound 1) (lastJump 1) [] rfl rfl
  have hother : o.node = 0 := by
    have hoperation := hcompares.operation
    match hresult : result.node, hoperation with
    | 2, hoperation =>
      cases hoperation
      have hinputs := hcompares.inputs
      have heq : (twoInputs "EQ" 0 1).inputs = .ok (some (0, 1)) := rfl
      rw [hlimit, heq] at hinputs
      simpa [eq_comm] using hinputs
    | 4, hoperation =>
      cases hoperation
      rcases hcompares.name with hname | hname <;> exact absurd hname (by decide)
  obtain ⟨_, hl⟩ := hcompares.limit
  obtain ⟨_, ho⟩ := hcompares.other
  refine htaken.1 (by decide) ?_
  rw [value_of_mem_lastRound (hfrom.subset hl.mem) (.inr hlimit), value_of_mem_lastRound (hfrom.subset ho.mem) (.inl hother)]

end LoopGraph

end Tce.DDG
