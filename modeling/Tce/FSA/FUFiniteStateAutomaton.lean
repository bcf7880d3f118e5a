import Tce.Mach.CollisionMatrix

/-!
# The automaton of a function unit

States are collision matrices, transitions are the operations of the unit and
NOP. A transition is resolved when it is first needed, or all of them are
resolved in advance by `buildStateMachine`.
-/

namespace Tce

/-- A state, `ILLEGAL_STATE` or `UNKNOWN_STATE`. -/
inductive FSAStateIndex where
  | illegalState
  | unknownState
  | index (n : Nat)
  deriving DecidableEq, Repr

/-- States are numbered in the order they are added; `stateCount_` is the
number of transition vectors. -/
structure FUFiniteStateAutomaton where
  operationCollisionMatrices : List BitMatrix
  transitionTypeCount : Nat
  nopTransition : Nat
  transitions : List (List FSAStateIndex)
  stateCollisionMatrices : List BitMatrix
  collisionMatrixStates : List (BitMatrix × Nat)
  deriving Repr

namespace FUFiniteStateAutomaton

/-- An element of `transitions_`. -/
def transition (fsa : FUFiniteStateAutomaton) (source transition : Nat) : Option FSAStateIndex :=
  (fsa.transitions[source]?).bind fun row => row[transition]?

def addState (fsa : FUFiniteStateAutomaton) : Nat × FUFiniteStateAutomaton :=
  (fsa.transitions.length,
    { fsa with transitions := fsa.transitions ++ [List.replicate fsa.transitionTypeCount .unknownState] })

/-- The matrix of the state that was added last. -/
def addCollisionMatrixForState (fsa : FUFiniteStateAutomaton) (state : Nat) (matrix : BitMatrix) :
    FUFiniteStateAutomaton :=
  { fsa with
    stateCollisionMatrices := fsa.stateCollisionMatrices ++ [matrix]
    collisionMatrixStates := (matrix, state) :: fsa.collisionMatrixStates }

/-- `collisionMatrixStates_.find`: the key that is neither smaller nor greater. -/
def findState (fsa : FUFiniteStateAutomaton) (matrix : BitMatrix) : Option Nat :=
  (fsa.collisionMatrixStates.find? fun entry => !entry.1.lt matrix && !matrix.lt entry.1).map (·.2)

def setTransition (fsa : FUFiniteStateAutomaton) (source : Nat) (destination : FSAStateIndex)
    (transition : Nat) : FUFiniteStateAutomaton :=
  { fsa with transitions := fsa.transitions.modify source fun row => row.set transition destination }

/-- Whether the operation collides in the next cycle, column 1. Column 0 is for
a start in the same cycle, which a unit does not do. NOP never collides. -/
def isIllegal (fsa : FUFiniteStateAutomaton) (stateMatrix : BitMatrix) (transition : Nat) : Option Bool :=
  if transition = fsa.nopTransition then some false
  else CollisionMatrix.isCollision stateMatrix transition 1

def resolveState (fsa : FUFiniteStateAutomaton) (source transition : Nat) :
    Option (FSAStateIndex × FUFiniteStateAutomaton) := do
  let operationCollisionMatrix ← fsa.operationCollisionMatrices[transition]?
  let stateMatrix ← fsa.stateCollisionMatrices[source]?
  if ← fsa.isIllegal stateMatrix transition then
    some (.illegalState, fsa.setTransition source .illegalState transition)
  else
    let newMatrix := stateMatrix.shiftLeft.orWith operationCollisionMatrix
    match fsa.findState newMatrix with
    | some targetState =>
      some (.index targetState, fsa.setTransition source (.index targetState) transition)
    | none =>
      let (targetState, grown) := fsa.addState
      some (.index targetState,
        (grown.addCollisionMatrixForState targetState newMatrix).setTransition source
          (.index targetState) transition)

/-- The automaton before its first transition is resolved. -/
def create (fu : FunctionUnit) : FUFiniteStateAutomaton :=
  let empty : FUFiniteStateAutomaton :=
    { operationCollisionMatrices := collisionMatrices fu
      transitionTypeCount := fu.operationCount + 1
      nopTransition := fu.operationCount
      transitions := []
      stateCollisionMatrices := []
      collisionMatrixStates := [] }
  let (start, grown) := empty.addState
  grown.addCollisionMatrixForState start
    ((collisionMatrices fu).get ⟨fu.operationCount, by simp [collisionMatrices_length]⟩)

/-! ## Valid automata -/

/-- What issuing by a transition adds to a state: the collisions of the
operation, nothing for NOP. -/
def stepBits (fu : FunctionUnit) (t : Nat) (r : fu.OperationID) (column : Nat) : Bool :=
  if h : t < fu.operations.length then fu.clash ⟨t, h⟩ r column else false

/-- A matrix that can belong to a state. -/
structure Shaped (fu : FunctionUnit) (m : BitMatrix) : Prop where
  rows : m.rows = fu.operationCount
  columns : m.columns = fu.maxLatency
  clean : m.Clean

/-- The entry of the transition table says what the matrices say. -/
def Correct (fu : FunctionUnit) (fsa : FUFiniteStateAutomaton) (s t : Nat) : FSAStateIndex → Prop
  | .unknownState => True
  | .illegalState => ∃ (r : fu.OperationID) (m : BitMatrix), t = r ∧
      fsa.stateCollisionMatrices[s]? = some m ∧ m.get r 1 = true
  | .index d => ∃ m m', fsa.stateCollisionMatrices[s]? = some m ∧
      fsa.stateCollisionMatrices[d]? = some m' ∧ (∀ r : fu.OperationID, t = r → m.get r 1 = false) ∧
      ∀ (r : fu.OperationID) column, m'.get r column = (m.get r (column + 1) || stepBits fu t r column)

structure Valid (fu : FunctionUnit) (fsa : FUFiniteStateAutomaton) : Prop where
  matrices : fsa.operationCollisionMatrices = collisionMatrices fu
  types : fsa.transitionTypeCount = fu.operationCount + 1
  nop : fsa.nopTransition = fu.operationCount
  count : fsa.transitions.length = fsa.stateCollisionMatrices.length
  width : ∀ row ∈ fsa.transitions, row.length = fu.operationCount + 1
  shaped : ∀ m ∈ fsa.stateCollisionMatrices, Shaped fu m
  indexed : ∀ entry ∈ fsa.collisionMatrixStates, fsa.stateCollisionMatrices[entry.2]? = some entry.1
  found : ∀ s m, fsa.stateCollisionMatrices[s]? = some m → (m, s) ∈ fsa.collisionMatrixStates
  distinct : ∀ (s s' : Nat) (m m' : BitMatrix), fsa.stateCollisionMatrices[s]? = some m →
    fsa.stateCollisionMatrices[s']? = some m' → m.SameBits m' → s = s'
  start : ∃ m, fsa.stateCollisionMatrices[0]? = some m ∧ ∀ (r : fu.OperationID) column, m.get r column = false
  correct : ∀ s t target, fsa.transition s t = some target → Correct fu fsa s t target

section setTransition
variable {fu : FunctionUnit} {fsa : FUFiniteStateAutomaton}

theorem transition_setTransition (s t : Nat) (destination : FSAStateIndex) (s' t' : Nat) :
    (fsa.setTransition s destination t).transition s' t' =
      if s' = s ∧ t' = t then (fsa.transition s t).map fun _ => destination else fsa.transition s' t' := by
  simp only [transition, setTransition, List.getElem?_modify]
  by_cases hs : s = s'
  · subst hs
    cases hrow : fsa.transitions[s]? with
    | none => simp
    | some row =>
      by_cases ht : t' = t
      · subst ht
        cases hcell : row[t']? with
        | none => simp [List.getElem?_eq_none_iff.1 hcell]
        | some old => simp [(List.getElem?_eq_some_iff.1 hcell).1]
      · simp [ht, Ne.symm ht]
  · simp [hs, Ne.symm hs]

theorem transition_isSome (hv : Valid fu fsa) {s t : Nat} (hs : s < fsa.stateCollisionMatrices.length)
    (ht : t ≤ fu.operationCount) : ∃ target, fsa.transition s t = some target := by
  have hs' : s < fsa.transitions.length := hv.count ▸ hs
  have hrow := hv.width _ (List.getElem_mem hs')
  have ht' : t < fsa.transitions[s].length := by omega
  exact ⟨fsa.transitions[s][t], by simp [transition, List.getElem?_eq_getElem hs', List.getElem?_eq_getElem ht']⟩

theorem valid_setTransition (hv : Valid fu fsa) {s t : Nat} {destination : FSAStateIndex}
    (hc : Correct fu fsa s t destination) : Valid fu (fsa.setTransition s destination t) where
  matrices := hv.matrices
  types := hv.types
  nop := hv.nop
  count := by simpa [setTransition] using hv.count
  width row hrow := by
    obtain ⟨i, hi⟩ := List.mem_iff_getElem?.1 hrow
    simp only [setTransition, List.getElem?_modify] at hi
    cases hold : fsa.transitions[i]? with
    | none => simp [hold] at hi
    | some old =>
      have hlen := hv.width old (List.mem_of_getElem? hold)
      simp only [hold, Option.map_eq_map, Option.map_some, Option.some.injEq] at hi
      subst hi
      split <;> simp [hlen]
  shaped := hv.shaped
  indexed := hv.indexed
  found := hv.found
  distinct := hv.distinct
  start := hv.start
  correct s' t' target htarget := by
    rw [transition_setTransition] at htarget
    split at htarget
    · next h =>
      obtain ⟨rfl, rfl⟩ := h
      obtain ⟨old, -, rfl⟩ := Option.map_eq_some_iff.1 htarget
      exact hc
    · exact hv.correct s' t' target htarget

/-- A new state with a matrix that no state has yet. -/
theorem valid_addState (hv : Valid fu fsa) {m : BitMatrix} (hm : Shaped fu m)
    (hnew : ∀ (s : Nat) (m' : BitMatrix), fsa.stateCollisionMatrices[s]? = some m' → ¬m'.SameBits m) :
    Valid fu (fsa.addState.2.addCollisionMatrixForState fsa.addState.1 m) := by
  have hold {s : Nat} {m' : BitMatrix} (h : fsa.stateCollisionMatrices[s]? = some m') :
      (fsa.stateCollisionMatrices ++ [m])[s]? = some m' := by
    rw [List.getElem?_append_left (List.getElem?_eq_some_iff.1 h).1, h]
  have hcases {s : Nat} {m' : BitMatrix} (h : (fsa.stateCollisionMatrices ++ [m])[s]? = some m') :
      fsa.stateCollisionMatrices[s]? = some m' ∨ (s = fsa.stateCollisionMatrices.length ∧ m' = m) := by
    rcases Nat.lt_trichotomy s fsa.stateCollisionMatrices.length with hlt | heq | hgt
    · rw [List.getElem?_append_left hlt] at h
      exact .inl h
    · subst heq
      rw [List.getElem?_append_right (Nat.le_refl _), Nat.sub_self, List.getElem?_cons_zero] at h
      exact .inr ⟨rfl, (Option.some.inj h).symm⟩
    · rw [List.getElem?_append_right (by omega), List.getElem?_eq_none (by simp; omega)] at h
      cases h
  refine ⟨hv.matrices, hv.types, hv.nop, ?_, ?_, ?_, ?_, ?_, ?_, ?_, ?_⟩
  case refine_1 => simpa [addState, addCollisionMatrixForState] using hv.count
  case refine_2 =>
    intro row hrow
    rcases List.mem_append.1 hrow with h | h
    · exact hv.width row h
    · rw [List.mem_singleton.1 h, List.length_replicate, hv.types]
  case refine_3 =>
    intro m' hm'
    rcases List.mem_append.1 hm' with h | h
    · exact hv.shaped m' h
    · exact List.mem_singleton.1 h ▸ hm
  case refine_4 =>
    intro entry hentry
    rcases List.mem_cons.1 hentry with rfl | h
    · change (fsa.stateCollisionMatrices ++ [m])[fsa.transitions.length]? = some m
      rw [hv.count, List.getElem?_append_right (Nat.le_refl _), Nat.sub_self, List.getElem?_cons_zero]
    · exact hold (hv.indexed entry h)
  case refine_5 =>
    intro s m' h
    rcases hcases h with h | ⟨rfl, rfl⟩
    · exact List.mem_cons_of_mem _ (hv.found s m' h)
    · change _ ∈ (m', fsa.transitions.length) :: fsa.collisionMatrixStates
      rw [hv.count]
      exact List.mem_cons_self
  case refine_6 =>
    intro s s' m₁ m₂ h₁ h₂ hsame
    rcases hcases h₁ with hs | ⟨rfl, rfl⟩
    · rcases hcases h₂ with hs' | ⟨rfl, rfl⟩
      · exact hv.distinct s s' m₁ m₂ hs hs' hsame
      · exact absurd hsame (hnew s m₁ hs)
    · rcases hcases h₂ with hs' | ⟨rfl, rfl⟩
      · exact absurd hsame.symm (hnew s' m₂ hs')
      · rfl
  case refine_7 =>
    obtain ⟨m₀, h₀, hzero⟩ := hv.start
    exact ⟨m₀, hold h₀, hzero⟩
  case refine_8 =>
    intro s t target htarget
    rcases Nat.lt_trichotomy s fsa.transitions.length with hlt | heq | hgt
    · have hsame : fsa.transition s t = some target := by
        simpa [transition, addState, addCollisionMatrixForState, List.getElem?_append_left hlt] using htarget
      have hc := hv.correct s t target hsame
      cases target with
      | unknownState => trivial
      | illegalState =>
        obtain ⟨r, m', ht, hs, hbit⟩ := hc
        exact ⟨r, m', ht, hold hs, hbit⟩
      | index d =>
        obtain ⟨m₁, m₂, h₁, h₂, hrest⟩ := hc
        exact ⟨m₁, m₂, hold h₁, hold h₂, hrest⟩
    · have hunknown : target = .unknownState := by
        simp only [transition, addState, addCollisionMatrixForState, heq, List.getElem?_concat_length,
          Option.bind_some, List.getElem?_replicate] at htarget
        split at htarget
        · exact (Option.some.inj htarget).symm
        · cases htarget
      subst hunknown
      trivial
    · simp [transition, addState, addCollisionMatrixForState,
        List.getElem?_eq_none (l := fsa.transitions ++ [_]) (i := s) (by simp; omega)] at htarget

/-- What resolving the transition `t` of `s` does to the automaton. -/
structure Resolved (fu : FunctionUnit) (fsa : FUFiniteStateAutomaton) (s t : Nat) (target : FSAStateIndex)
    (fsa' : FUFiniteStateAutomaton) : Prop where
  valid : Valid fu fsa'
  grows : ∀ (s : Nat) (m : BitMatrix), fsa.stateCollisionMatrices[s]? = some m →
    fsa'.stateCollisionMatrices[s]? = some m
  frame : ∀ s' t', s' < fsa.stateCollisionMatrices.length → (s', t') ≠ (s, t) →
    fsa'.transition s' t' = fsa.transition s' t'
  here : fsa'.transition s t = some target
  known : target ≠ .unknownState

theorem resolved_set (hv : Valid fu fsa) {s t : Nat}
    (hs : s < fsa.stateCollisionMatrices.length) (ht : t ≤ fu.operationCount) {target : FSAStateIndex}
    (hc : Correct fu fsa s t target) (hknown : target ≠ .unknownState) :
    Resolved fu fsa s t target (fsa.setTransition s target t) where
  valid := valid_setTransition hv hc
  grows _ _ h := h
  frame s' t' _ hne := by
    rw [transition_setTransition, if_neg (fun h => hne (by rw [h.1, h.2]))]
  here := by
    obtain ⟨old, hold⟩ := transition_isSome hv hs ht
    rw [transition_setTransition, if_pos ⟨rfl, rfl⟩, hold]
    rfl
  known := hknown

/-- The bits of the target of a legal transition. -/
theorem target_bits {m om : BitMatrix} (hm : Shaped fu m) (hom : Shaped fu om) :
    Shaped fu (m.shiftLeft.orWith om) ∧ ∀ (r : fu.OperationID) column,
      (m.shiftLeft.orWith om).get r column = (m.get r (column + 1) || om.get r column) := by
  have hcols : m.shiftLeft.columns = om.columns := hm.columns.trans hom.columns.symm
  have hrows : m.shiftLeft.rows = om.rows := hm.rows.trans hom.rows.symm
  refine ⟨⟨hm.rows, hm.columns, ?_⟩, fun r column => ?_⟩
  · exact BitMatrix.clean_orWith hcols hrows (BitMatrix.clean_shiftLeft hm.clean) hom.clean
  · rw [BitMatrix.get_orWith hcols hrows, BitMatrix.get_shiftLeft (by rw [hm.rows]; exact r.isLt)]

end setTransition

section resolve
variable {fu : FunctionUnit} (hh : BitMatrix.Holds fu.maxLatency)
include hh

/-- The matrix of a transition, whether an operation or NOP. -/
theorem transition_matrix {t : Nat} (ht : t ≤ fu.operationCount) :
    ∃ m, (collisionMatrices fu)[t]? = some m ∧ Shaped fu m ∧
      ∀ (r : fu.OperationID) column, m.get r column = stepBits fu t r column := by
  by_cases hlt : t < fu.operations.length
  · obtain ⟨hr, hc, hclean, hget⟩ := collisions_spec hh ⟨t, hlt⟩
    refine ⟨fu.collisions ⟨t, hlt⟩, collisionMatrices_op ⟨t, hlt⟩, ⟨hr, hc, hclean⟩, fun r column => ?_⟩
    rw [hget, stepBits, dif_pos hlt]
  · have heq : t = fu.operationCount := Nat.le_antisymm ht (Nat.not_lt.1 hlt)
    subst heq
    refine ⟨fu.nopMatrix, collisionMatrices_nop hh, ⟨rfl, rfl, BitMatrix.clean_create _ _⟩, fun r column => ?_⟩
    rw [stepBits, dif_neg hlt]
    exact BitMatrix.get_create_false _ _ _ _

/-- The ordered map finds the state with the wanted matrix, if there is one. -/
theorem findState_eq {fsa : FUFiniteStateAutomaton} (hv : Valid fu fsa) {m : BitMatrix} (hm : Shaped fu m) :
    (∃ d m', fsa.findState m = some d ∧ fsa.stateCollisionMatrices[d]? = some m' ∧ m'.SameBits m) ∨
      (fsa.findState m = none ∧
        ∀ (s : Nat) (m' : BitMatrix), fsa.stateCollisionMatrices[s]? = some m' → ¬m'.SameBits m) := by
  have hequiv {s : Nat} {m' : BitMatrix} (h : fsa.stateCollisionMatrices[s]? = some m') :
      (!m'.lt m && !m.lt m') = true ↔ m'.SameBits m := by
    have hm' := hv.shaped m' (List.mem_of_getElem? h)
    rw [← BitMatrix.lt_equiv_iff (hm'.columns.trans hm.columns.symm) (hm'.rows.trans hm.rows.symm)
      (by rw [hm'.columns]; exact hh) hm'.clean hm.clean]
    simp
  rw [findState]
  cases hfind : fsa.collisionMatrixStates.find? fun entry => !entry.1.lt m && !m.lt entry.1 with
  | some entry =>
    have hindexed := hv.indexed entry (List.mem_of_find?_eq_some hfind)
    have hequal := List.find?_some hfind
    exact .inl ⟨entry.2, entry.1, rfl, hindexed, (hequiv hindexed).1 hequal⟩
  | none =>
    refine .inr ⟨rfl, fun s m' h hsame => ?_⟩
    have := List.find?_eq_none.1 hfind (m', s) (hv.found s m' h)
    exact this ((hequiv h).2 hsame)

theorem resolveState_spec {fsa : FUFiniteStateAutomaton} (hv : Valid fu fsa)
    (hpos : ∀ _ : fu.OperationID, 0 < fu.maxLatency) {s t : Nat}
    (hs : s < fsa.stateCollisionMatrices.length) (ht : t ≤ fu.operationCount) :
    ∃ target fsa', fsa.resolveState s t = some (target, fsa') ∧ Resolved fu fsa s t target fsa' := by
  obtain ⟨om, hom, hoshape, hobits⟩ := transition_matrix hh ht
  obtain ⟨m, hm⟩ : ∃ m, fsa.stateCollisionMatrices[s]? = some m := ⟨_, List.getElem?_eq_getElem hs⟩
  have hmshape := hv.shaped m (List.mem_of_getElem? hm)
  obtain ⟨hnshape, hnbits⟩ := target_bits hmshape hoshape
  -- what the test of column 1 finds
  obtain ⟨collision, hcollision, hlegal⟩ : ∃ collision, fsa.isIllegal m t = some collision ∧
        if collision then ∃ r : fu.OperationID, t = r ∧ m.get r 1 = true
        else ∀ r : fu.OperationID, t = r → m.get r 1 = false := by
    by_cases hnop : t = fsa.nopTransition
    · refine ⟨false, if_pos hnop, fun r hr => ?_⟩
      rw [hv.nop] at hnop
      exact absurd (hr ▸ hnop) (Nat.ne_of_lt r.isLt)
    · have hlt : t < fu.operations.length := by
        rw [hv.nop] at hnop
        exact Nat.lt_of_le_of_ne ht hnop
      have hword : 1 < 32 * wordsPerRow m.columns := by
        have := hpos ⟨t, hlt⟩
        have hholds := hh
        rw [BitMatrix.Holds] at hholds
        rw [hmshape.columns]
        omega
      refine ⟨m.get t 1, ?_, ?_⟩
      · rw [isIllegal, if_neg hnop, CollisionMatrix.isCollision, BitMatrix.bitAt_eq (by rw [hmshape.rows]; exact hlt) hword]
      · cases hbit : m.get t 1 with
        | true => exact ⟨⟨t, hlt⟩, rfl, hbit⟩
        | false => exact fun r hr => hr ▸ hbit
  cases collision with
  | true =>
    obtain ⟨r, hr, hbit⟩ := hlegal
    refine ⟨.illegalState, fsa.setTransition s .illegalState t, ?_, ?_⟩
    · simp [resolveState, hv.matrices, hom, hm, hcollision]
    · exact resolved_set hv hs ht ⟨r, m, hr, hm, hbit⟩ (by simp)
  | false =>
    have hlegal' : ∀ r : fu.OperationID, t = r → m.get r 1 = false := hlegal
    rcases findState_eq hh hv hnshape with ⟨d, m', hfind, hd, hsame⟩ | ⟨hfind, hnew⟩
    · refine ⟨.index d, fsa.setTransition s (.index d) t, ?_, ?_⟩
      · simp [resolveState, hv.matrices, hom, hm, hcollision, hfind]
      · refine resolved_set hv hs ht ⟨m, m', hm, hd, hlegal', fun r column => ?_⟩ (by simp)
        rw [hsame.2.2 r (by rw [hsame.1, hnshape.rows]; exact r.isLt), hnbits, hobits]
    · have hvalid := valid_addState hv hnshape hnew
      have hgrows (s : Nat) (m' : BitMatrix) (h : fsa.stateCollisionMatrices[s]? = some m') :
          (fsa.stateCollisionMatrices ++ [m.shiftLeft.orWith om])[s]? = some m' := by
        rw [List.getElem?_append_left (List.getElem?_eq_some_iff.1 h).1, h]
      have hd : (fsa.stateCollisionMatrices ++ [m.shiftLeft.orWith om])[fsa.transitions.length]? =
          some (m.shiftLeft.orWith om) := by
        rw [hv.count, List.getElem?_append_right (Nat.le_refl _), Nat.sub_self, List.getElem?_cons_zero]
      have hcorrect : Correct fu (fsa.addState.2.addCollisionMatrixForState fsa.addState.1 (m.shiftLeft.orWith om))
          s t (.index fsa.transitions.length) :=
        ⟨m, _, hgrows s m hm, hd, hlegal', fun r column => by rw [hnbits, hobits]⟩
      have hset := resolved_set hvalid (by simp [addState, addCollisionMatrixForState]; omega) ht hcorrect (by simp)
      refine ⟨.index fsa.transitions.length, _, ?_, hset.valid, ?_, ?_, hset.here, hset.known⟩
      · simp [resolveState, hv.matrices, hom, hm, hcollision, hfind, addState]
      · exact fun s m' h => hset.grows s m' (hgrows s m' h)
      · intro s' t' hs' hne
        rw [hset.frame s' t' (by simp [addState, addCollisionMatrixForState]; omega) hne]
        simp [transition, addState, addCollisionMatrixForState,
          List.getElem?_append_left (hv.count ▸ hs')]

/-- The automaton with only its start state. -/
theorem valid_create : Valid fu (create fu) := by
  have hnop : (collisionMatrices fu).get ⟨fu.operationCount, by simp [collisionMatrices_length]⟩ = fu.nopMatrix := by
    have := collisionMatrices_nop hh
    exact (List.getElem?_eq_some_iff.1 this).2
  have honly {s : Nat} {m : BitMatrix} (h : [fu.nopMatrix][s]? = some m) : s = 0 ∧ m = fu.nopMatrix := by
    cases s with
    | zero => exact ⟨rfl, (Option.some.inj h).symm⟩
    | succ s => cases h
  simp only [create, addState, addCollisionMatrixForState, hnop, List.nil_append, List.length_nil]
  refine ⟨rfl, rfl, rfl, rfl, ?_, ?_, ?_, ?_, ?_, ?_, ?_⟩
  case refine_1 =>
    intro row hrow
    rw [List.mem_singleton.1 hrow, List.length_replicate]
  case refine_2 =>
    intro m hm
    rw [List.mem_singleton.1 hm]
    exact ⟨rfl, rfl, BitMatrix.clean_create _ _⟩
  case refine_3 =>
    intro entry hentry
    rw [List.mem_singleton.1 hentry]
    rfl
  case refine_4 =>
    intro s m h
    obtain ⟨rfl, rfl⟩ := honly h
    exact List.mem_singleton_self _
  case refine_5 =>
    intro s s' m m' h h' _
    rw [(honly h).1, (honly h').1]
  case refine_6 => exact ⟨fu.nopMatrix, rfl, fun r column => BitMatrix.get_create_false _ _ _ _⟩
  case refine_7 =>
    intro s t target htarget
    have hunknown : target = .unknownState := by
      cases s with
      | zero =>
        simp only [transition, List.getElem?_cons_zero, Option.bind_some, List.getElem?_replicate] at htarget
        split at htarget
        · exact (Option.some.inj htarget).symm
        · cases htarget
      | succ s => simp [transition] at htarget
    subst hunknown
    trivial

end resolve

end FUFiniteStateAutomaton
end Tce
