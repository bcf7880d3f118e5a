import Tce.Base.Monitor
import Tce.FSA.BuildStateMachine

/-!
# Conflict detectors

Three ways to tell whether an operation can be issued in a cycle: the
reservation table of everything issued so far, the collision matrix of it
(DCM), and the automaton whose states are such matrices (FSA).
-/

namespace Tce

section tables
variable (fu : FunctionUnit)

namespace ReservationTableDetector

def issueOperation (globalReservationTable : BitMatrix) (id : fu.OperationID) : Option (Bool × BitMatrix) := do
  let issued ← (reservationTables fu)[id.val]?
  if globalReservationTable.conflictsWith issued then some (false, globalReservationTable)
  else some (true, globalReservationTable.orWith issued)

def monitor : Monitor fu.OperationID BitMatrix where
  issue := issueOperation fu
  advance globalReservationTable := some globalReservationTable.shiftLeft

def reset (globalReservationTable : BitMatrix) : BitMatrix := globalReservationTable.setAllToZero

/-- The tables a detector can hold. -/
abbrev Used : BitMatrix → Prop :=
  (monitor fu).Used (ReservationTable.ofUnit fu) fun table table' => table' = reset table

end ReservationTableDetector

namespace DCMDetector

def issueOperation (globalCollisionMatrix : BitMatrix) (id : fu.OperationID) : Option (Bool × BitMatrix) := do
  if ← globalCollisionMatrix.bitAt 0 id then some (false, globalCollisionMatrix)
  else
    let issued ← (collisionMatrices fu)[id.val]?
    some (true, globalCollisionMatrix.orWith issued)

def monitor : Monitor fu.OperationID BitMatrix where
  issue := issueOperation fu
  advance globalCollisionMatrix := some globalCollisionMatrix.shiftLeft

/-- The matrix is as large as the one at index 0, of an operation or of NOP. -/
def create : BitMatrix :=
  let first := (collisionMatrices fu).get ⟨0, by simp [collisionMatrices_length]⟩
  .create first.columns first.rows false

def reset (globalCollisionMatrix : BitMatrix) : BitMatrix := globalCollisionMatrix.setAllToZero

abbrev Used : BitMatrix → Prop :=
  (monitor fu).Used (create fu) fun matrix matrix' => matrix' = reset matrix

end DCMDetector
end tables

/-- `FSAFUResourceConflictDetectorPimpl`. -/
structure FSADetector where
  fsa : FUFiniteStateAutomaton
  currentState : FSAStateIndex
  nextState : FSAStateIndex
  deriving Repr

namespace FSADetector

/-- `transitions_[state][transition]`, which a negative state reads outside of
the table. -/
def target (d : FSADetector) (state : FSAStateIndex) (transition : Nat) : Option FSAStateIndex :=
  match state with
  | .index n => d.fsa.transition n transition
  | _ => none

/-- A conflict leads to state 0. -/
def enter (d : FSADetector) (nextState : FSAStateIndex) : Bool × FSADetector :=
  if nextState = .illegalState then (false, { d with nextState := .index 0 })
  else (true, { d with nextState := nextState })

/-- The transition, resolved if it is not known. -/
def resolve (d : FSADetector) (transition : Nat) : Option (FSAStateIndex × FSADetector) := do
  let nextState ← d.target d.currentState transition
  match d.currentState, nextState with
  | .index n, .unknownState => do
    let (resolved, fsa) ← d.fsa.resolveState n transition
    some (resolved, { d with fsa := fsa })
  | _, _ => some (nextState, d)

def issueOperationLazyInline (d : FSADetector) (id : Nat) : Option (Bool × FSADetector) := do
  let (nextState, d') ← d.resolve id
  some (d'.enter nextState)

/-- NOP is issued for the case that nothing else is in the next cycle. -/
def advanceCycleLazyInline (d : FSADetector) : Option FSADetector := do
  let advanced := { d with currentState := d.nextState }
  let (nextState, d') ← advanced.resolve d.fsa.nopTransition
  some { d' with nextState := nextState }

def issueOperationInline (d : FSADetector) (id : Nat) : Option (Bool × FSADetector) := do
  let nextState ← d.target d.currentState id
  some (d.enter nextState)

def advanceCycleInline (d : FSADetector) : Option FSADetector := do
  let nextState ← d.target d.nextState d.fsa.nopTransition
  some { d with currentState := d.nextState, nextState := nextState }

/-- `reset`, and the constructor on a new automaton. -/
def reset (d : FSADetector) : Option FSADetector :=
  (issueOperationLazyInline { d with currentState := .index 0 } d.fsa.nopTransition).map (·.2)

/-- The constructor; `nextState_` gets its first value from the issue of NOP. -/
def create (fu : FunctionUnit) : Option FSADetector :=
  reset { fsa := FUFiniteStateAutomaton.create fu, currentState := .index 0, nextState := .unknownState }

def initializeAllStates (d : FSADetector)
    (first : (states : List Nat) → states ≠ [] → {state // state ∈ states}) (fuel : Nat) : Option FSADetector :=
  (d.fsa.buildStateMachine first fuel).map fun fsa => { d with fsa := fsa }

/-- The detector that resolves transitions when they are needed. -/
def lazyMonitor (fu : FunctionUnit) : Monitor fu.OperationID FSADetector where
  issue d id := d.issueOperationLazyInline id
  advance d := d.advanceCycleLazyInline

/-- The detector of the compiled simulation, which only reads transitions. -/
def fullMonitor (fu : FunctionUnit) : Monitor fu.OperationID FSADetector where
  issue d id := d.issueOperationInline id
  advance d := d.advanceCycleInline

/-- The state matrix at the row of an operation and the column of the next cycle. -/
def rejects (d : FSADetector) (id : Nat) : Option Bool :=
  match d.currentState with
  | .index n => (d.fsa.stateCollisionMatrices[n]?).bind fun m => CollisionMatrix.isCollision m id 1
  | _ => none

/-- The detectors that calls of the interface lead to. -/
def Used (fu : FunctionUnit) (d : FSADetector) : Prop :=
  ∃ created, create fu = some created ∧ (lazyMonitor fu).Used created
    (fun d d' => d.reset = some d' ∨ ∃ first fuel, d.initializeAllStates first fuel = some d') d

end FSADetector
/-! ## What the detectors keep of the past -/

open Monitor

section past
variable {fu : FunctionUnit}

/-- Some operation of the past, `column` cycles from now, clashes with `r`. -/
def Reads (fu : FunctionUnit) (past : Past fu.OperationID) (r : fu.OperationID) (column : Nat) : Prop :=
  ∃ p ∈ past, fu.clash p.2 r (column + p.1) = true

theorem not_reads_nil (r : fu.OperationID) (column : Nat) : ¬Reads fu [] r column := by
  rintro ⟨p, hp, -⟩
  cases hp

theorem reads_cons {past : Past fu.OperationID} {op r : fu.OperationID} {column : Nat} :
    Reads fu ((0, op) :: past) r column ↔ fu.clash op r column = true ∨ Reads fu past r column := by
  simp [Reads]

theorem reads_older {past : Past fu.OperationID} {r : fu.OperationID} {column : Nat} :
    Reads fu past.older r column ↔ Reads fu past r (column + 1) := by
  constructor
  · rintro ⟨p, hp, hc⟩
    obtain ⟨q, hq, rfl⟩ := Past.mem_older.1 hp
    exact ⟨q, hq, by simpa [Nat.add_assoc, Nat.add_comm 1] using hc⟩
  · rintro ⟨q, hq, hc⟩
    exact ⟨_, Past.mem_older.2 ⟨q, hq, rfl⟩, by simpa [Nat.add_assoc, Nat.add_comm 1] using hc⟩

theorem clashes_iff {past : Past fu.OperationID} {op : fu.OperationID} :
    Clashes fu.clash past op ↔ Reads fu past op 0 := by
  simp [Clashes, Reads]

/-- The table holds what the tables of the past, shifted by their ages, hold. -/
structure TableOf (fu : FunctionUnit) (m : BitMatrix) (past : Past fu.OperationID) : Prop where
  rows : m.rows = ReservationTable.rowCount fu
  columns : m.columns = fu.maxLatency
  bits : ∀ row < ReservationTable.rowCount fu, ∀ cycle, m.get row cycle = true ↔
    ∃ p ∈ past, (fu.table p.2).get row (cycle + p.1) = true

/-- The matrix holds the collisions with the past, column by column. -/
structure CollisionsOf (fu : FunctionUnit) (m : BitMatrix) (past : Past fu.OperationID) : Prop where
  rows : m.rows = fu.operationCount
  columns : m.columns = fu.maxLatency
  bits : ∀ (r : fu.OperationID) column, m.get r column = true ↔ Reads fu past r column

variable (hh : BitMatrix.Holds fu.maxLatency)
include hh

theorem TableOf.conflictsWith_iff {m : BitMatrix} {past : Past fu.OperationID} (hm : TableOf fu m past)
    (op : fu.OperationID) : m.conflictsWith (fu.table op) = true ↔ Clashes fu.clash past op := by
  obtain ⟨hr, hc, -, hget⟩ := table_spec hh op
  rw [BitMatrix.conflictsWith_iff (hm.columns.trans hc.symm) (hm.rows.trans hr.symm), hm.rows]
  constructor
  · rintro ⟨row, hrow, cycle, h1, h2⟩
    obtain ⟨p, hp, hbit⟩ := (hm.bits row hrow cycle).1 h1
    obtain ⟨-, -, -, hget'⟩ := table_spec hh p.2
    rw [hget' row hrow] at hbit
    rw [hget row hrow] at h2
    exact ⟨p, hp, (clash_iff hh p.2 op p.1).2 ⟨row, hrow, cycle, hbit, h2⟩⟩
  · rintro ⟨p, hp, hclash⟩
    obtain ⟨row, hrow, cycle, h1, h2⟩ := (clash_iff hh p.2 op p.1).1 hclash
    obtain ⟨-, -, -, hget'⟩ := table_spec hh p.2
    refine ⟨row, hrow, cycle, (hm.bits row hrow cycle).2 ⟨p, hp, ?_⟩, ?_⟩
    · rw [hget' row hrow, h1]
    · rw [hget row hrow, h2]

/-- The reservation-table detector remembers the past as a table. -/
theorem reservationTable_tracks : (ReservationTableDetector.monitor fu).Tracks (pastMonitor fu.clash)
    (fun _ _ => True) (TableOf fu) (TableOf fu) := by
  have hissue (m : BitMatrix) (op : fu.OperationID) : (ReservationTableDetector.monitor fu).issue m op =
      if m.conflictsWith (fu.table op) then some (false, m) else some (true, m.orWith (fu.table op)) := by
    simp [ReservationTableDetector.monitor, ReservationTableDetector.issueOperation, reservationTables_getElem?]
  refine tracks_past _ _ _ (fun _ _ h => h) ?_ ?_ ?_
  · intro m past op hm hclash
    exact ⟨m, by rw [hissue, if_pos ((hm.conflictsWith_iff hh op).2 hclash)]⟩
  · intro m past op hm hclash
    obtain ⟨hr, hc, -, -⟩ := table_spec hh op
    refine ⟨m.orWith (fu.table op), ?_, hm.rows, hm.columns, fun row hrow cycle => ?_⟩
    · rw [hissue, if_neg (fun h => hclash ((hm.conflictsWith_iff hh op).1 h))]
    · rw [BitMatrix.get_orWith (hm.columns.trans hc.symm) (hm.rows.trans hr.symm), Bool.or_eq_true,
        hm.bits row hrow, or_comm]
      simp
  · intro m past hm
    refine ⟨m.shiftLeft, rfl, hm.rows, hm.columns, fun row hrow cycle => ?_⟩
    rw [BitMatrix.get_shiftLeft (by rw [hm.rows]; exact hrow), hm.bits row hrow]
    constructor
    · rintro ⟨q, hq, hbit⟩
      exact ⟨_, Past.mem_older.2 ⟨q, hq, rfl⟩, by simpa [Nat.add_assoc, Nat.add_comm 1] using hbit⟩
    · rintro ⟨p, hp, hbit⟩
      obtain ⟨q, hq, rfl⟩ := Past.mem_older.1 hp
      exact ⟨q, hq, by simpa [Nat.add_assoc, Nat.add_comm 1] using hbit⟩

/-- The DCM detector remembers the past as a collision matrix. -/
theorem dcm_tracks (hpos : ∀ _ : fu.OperationID, 0 < fu.maxLatency) :
    (DCMDetector.monitor fu).Tracks (pastMonitor fu.clash) (fun _ _ => True)
      (CollisionsOf fu) (CollisionsOf fu) := by
  have hissue {m : BitMatrix} {past : Past fu.OperationID} (hm : CollisionsOf fu m past) (op : fu.OperationID) :
      (DCMDetector.monitor fu).issue m op =
        if m.get op 0 then some (false, m) else some (true, m.orWith (fu.collisions op)) := by
    have hword : 0 < 32 * wordsPerRow m.columns := by
      have := hpos op
      have hholds := hh
      rw [BitMatrix.Holds] at hholds
      rw [hm.columns]
      omega
    have hbit := BitMatrix.bitAt_eq (show op.val < m.rows by rw [hm.rows]; exact op.isLt) hword
    simp [DCMDetector.monitor, DCMDetector.issueOperation, hbit, collisionMatrices_op]
  refine tracks_past _ _ _ (fun _ _ h => h) ?_ ?_ ?_
  · intro m past op hm hclash
    exact ⟨m, by rw [hissue hm, if_pos ((hm.bits op 0).2 (clashes_iff.1 hclash))]⟩
  · intro m past op hm hclash
    obtain ⟨hr, hc, -, hget⟩ := collisions_spec hh op
    refine ⟨m.orWith (fu.collisions op), ?_, hm.rows, hm.columns, fun r column => ?_⟩
    · rw [hissue hm, if_neg (fun h => hclash (clashes_iff.2 ((hm.bits op 0).1 h)))]
    · rw [BitMatrix.get_orWith (hm.columns.trans hc.symm) (hm.rows.trans hr.symm), Bool.or_eq_true,
        hm.bits, hget, or_comm, reads_cons]
  · intro m past hm
    refine ⟨m.shiftLeft, rfl, hm.rows, hm.columns, fun r column => ?_⟩
    rw [BitMatrix.get_shiftLeft (by rw [hm.rows]; exact r.isLt), hm.bits, reads_older]

/-! ## The automaton -/

open FUFiniteStateAutomaton

/-- State `n` stands for the past. -/
def StateOf (fu : FunctionUnit) (fsa : FUFiniteStateAutomaton) (n : Nat) (past : Past fu.OperationID) : Prop :=
  ∃ m, fsa.stateCollisionMatrices[n]? = some m ∧ CollisionsOf fu m past

omit hh in
theorem StateOf.lt {fsa : FUFiniteStateAutomaton} {n : Nat} {past : Past fu.OperationID}
    (h : StateOf fu fsa n past) : n < fsa.stateCollisionMatrices.length := by
  obtain ⟨m, hm, -⟩ := h
  exact (List.getElem?_eq_some_iff.1 hm).1

omit hh in
theorem StateOf.mono {fsa fsa' : FUFiniteStateAutomaton} {n : Nat} {past : Past fu.OperationID}
    (h : StateOf fu fsa n past) (hgrows : ∀ (s : Nat) (m : BitMatrix), fsa.stateCollisionMatrices[s]? = some m →
      fsa'.stateCollisionMatrices[s]? = some m) : StateOf fu fsa' n past := by
  obtain ⟨m, hm, hbits⟩ := h
  exact ⟨m, hgrows n m hm, hbits⟩

omit hh in
theorem stateOf_start {fsa : FUFiniteStateAutomaton} (hv : Valid fu fsa) : StateOf fu fsa 0 [] := by
  obtain ⟨m, hm, hzero⟩ := hv.start
  have hshape := hv.shaped m (List.mem_of_getElem? hm)
  refine ⟨m, hm, hshape.rows, hshape.columns, fun r column => ?_⟩
  simp [hzero, not_reads_nil]

omit hh in
/-- A transition of an operation is illegal exactly when the operation clashes
with the past; a legal one leads to the past with the operation added. -/
theorem correct_op {fsa : FUFiniteStateAutomaton} (hv : Valid fu fsa) {s : Nat} {past : Past fu.OperationID}
    (hs : StateOf fu fsa s past) {op : fu.OperationID} {target : FSAStateIndex} (hknown : target ≠ .unknownState)
    (hc : Correct fu fsa s op target) :
    (target = .illegalState ∧ Clashes fu.clash past.older op) ∨
      ∃ n, target = .index n ∧ ¬Clashes fu.clash past.older op ∧ StateOf fu fsa n ((0, op) :: past.older) := by
  obtain ⟨m, hm, hbits⟩ := hs
  have hcolumn : Clashes fu.clash past.older op ↔ m.get op 1 = true := by
    rw [clashes_iff, reads_older, hbits.bits]
  cases target with
  | unknownState => exact absurd rfl hknown
  | illegalState =>
    obtain ⟨r, m', hr, hm', hbit⟩ := hc
    obtain rfl : op = r := Fin.ext hr
    obtain rfl : m = m' := Option.some.inj (hm.symm.trans hm')
    exact .inl ⟨rfl, hcolumn.2 hbit⟩
  | index n =>
    obtain ⟨m₁, m', hm₁, hm', hlegal, hget⟩ := hc
    obtain rfl : m = m₁ := Option.some.inj (hm.symm.trans hm₁)
    have hshape := hv.shaped m' (List.mem_of_getElem? hm')
    refine .inr ⟨n, rfl, ?_, m', hm', hshape.rows, hshape.columns, fun r column => ?_⟩
    · rw [hcolumn, hlegal op rfl]
      simp
    · rw [hget, stepBits, dif_pos op.isLt, Bool.or_eq_true, hbits.bits, reads_cons, reads_older, or_comm]

omit hh in
theorem correct_nop {fsa : FUFiniteStateAutomaton} (hv : Valid fu fsa) {s : Nat} {past : Past fu.OperationID}
    (hs : StateOf fu fsa s past) {target : FSAStateIndex} (hknown : target ≠ .unknownState)
    (hc : Correct fu fsa s fu.operationCount target) :
    ∃ n, target = .index n ∧ StateOf fu fsa n past.older := by
  obtain ⟨m, hm, hbits⟩ := hs
  cases target with
  | unknownState => exact absurd rfl hknown
  | illegalState =>
    obtain ⟨r, -, hr, -⟩ := hc
    exact absurd hr (Nat.ne_of_gt r.isLt)
  | index n =>
    obtain ⟨m₁, m', hm₁, hm', -, hget⟩ := hc
    obtain rfl : m = m₁ := Option.some.inj (hm.symm.trans hm₁)
    have hshape := hv.shaped m' (List.mem_of_getElem? hm')
    refine ⟨n, rfl, m', hm', hshape.rows, hshape.columns, fun r column => ?_⟩
    rw [hget, stepBits, dif_neg (by simp [FunctionUnit.operationCount]), Bool.or_false, hbits.bits, reads_older]

/-- After the request of a cycle: the next state stands for the past. -/
structure Issued (fu : FunctionUnit) (d : FSADetector) (past : Past fu.OperationID) : Prop where
  valid : Valid fu d.fsa
  next : ∃ n, d.nextState = .index n ∧ StateOf fu d.fsa n past

/-- Before it: the current state stands for the past as it was a cycle ago. -/
structure Ready (fu : FunctionUnit) (d : FSADetector) (past : Past fu.OperationID) : Prop
    extends Issued fu d past where
  current : ∃ s before, past = before.older ∧ d.currentState = .index s ∧ StateOf fu d.fsa s before

variable (hpos : ∀ _ : fu.OperationID, 0 < fu.maxLatency)
include hpos

theorem resolve_spec {d : FSADetector} (hv : Valid fu d.fsa) {s : Nat} (hcurrent : d.currentState = .index s)
    (hs : s < d.fsa.stateCollisionMatrices.length) {t : Nat} (ht : t ≤ fu.operationCount) :
    ∃ target fsa, d.resolve t = some (target, { d with fsa := fsa }) ∧ Valid fu fsa ∧
      (∀ (s : Nat) (m : BitMatrix), d.fsa.stateCollisionMatrices[s]? = some m →
        fsa.stateCollisionMatrices[s]? = some m) ∧
      target ≠ .unknownState ∧ Correct fu fsa s t target := by
  obtain ⟨old, hold⟩ := transition_isSome hv hs ht
  have htarget : d.target (.index s) t = some old := hold
  by_cases hunknown : old = .unknownState
  · obtain ⟨target, fsa, hresolve, hr⟩ := resolveState_spec hh hv hpos hs ht
    refine ⟨target, fsa, ?_, hr.valid, hr.grows, hr.known, hr.valid.correct _ _ _ hr.here⟩
    simp [FSADetector.resolve, htarget, hunknown, hcurrent, hresolve]
  · refine ⟨old, d.fsa, ?_, hv, fun _ _ h => h, hunknown, hv.correct _ _ _ hold⟩
    cases old with
    | unknownState => exact absurd rfl hunknown
    | illegalState =>
      simp only [FSADetector.resolve, htarget, hcurrent, Option.bind_eq_bind, Option.bind_some]
      rw [← hcurrent]
    | index n =>
      simp only [FSADetector.resolve, htarget, hcurrent, Option.bind_eq_bind, Option.bind_some]
      rw [← hcurrent]

/-- Entering a cycle from a state that stands for the past. -/
theorem advance_ready {d : FSADetector} {past : Past fu.OperationID} (hi : Issued fu d past) :
    ∃ d', d.advanceCycleLazyInline = some d' ∧ Ready fu d' past.older := by
  obtain ⟨n, hnext, hn⟩ := hi.next
  obtain ⟨target, fsa, hresolve, hv, hgrows, hknown, hc⟩ := resolve_spec hh hpos
    (d := { d with currentState := d.nextState }) hi.valid hnext hn.lt (Nat.le_of_eq hi.valid.nop)
  have hs := hn.mono hgrows
  rw [hi.valid.nop] at hc
  obtain ⟨n', rfl, hn'⟩ := correct_nop hv hs hknown hc
  refine ⟨_, by simp only [FSADetector.advanceCycleLazyInline, hresolve]; rfl, ⟨hv, n', rfl, hn'⟩, n, past, rfl, hnext, hs⟩

/-- The lazily built automaton remembers the past as a state. -/
theorem lazy_tracks : (FSADetector.lazyMonitor fu).Tracks (pastMonitor fu.clash) (fun _ _ => True)
    (Ready fu) (Issued fu) := by
  refine tracks_past _ _ _ (fun _ _ h => h.toIssued) ?_ ?_ ?_
  · intro d past op hr hclash
    obtain ⟨s, before, rfl, hcurrent, hs⟩ := hr.current
    obtain ⟨target, fsa, hresolve, hv, hgrows, hknown, hc⟩ := resolve_spec hh hpos hr.valid hcurrent hs.lt
      (Nat.le_of_lt op.isLt)
    rcases correct_op hv (hs.mono hgrows) hknown hc with ⟨rfl, -⟩ | ⟨n, -, hno, -⟩
    · exact ⟨_, by simp only [FSADetector.lazyMonitor, FSADetector.issueOperationLazyInline, hresolve]; rfl⟩
    · exact absurd hclash hno
  · intro d past op hr hclash
    obtain ⟨s, before, rfl, hcurrent, hs⟩ := hr.current
    obtain ⟨target, fsa, hresolve, hv, hgrows, hknown, hc⟩ := resolve_spec hh hpos hr.valid hcurrent hs.lt
      (Nat.le_of_lt op.isLt)
    rcases correct_op hv (hs.mono hgrows) hknown hc with ⟨-, hyes⟩ | ⟨n, rfl, -, hn⟩
    · exact absurd hyes hclash
    · exact ⟨_, by simp only [FSADetector.lazyMonitor, FSADetector.issueOperationLazyInline, hresolve]; rfl,
        hv, n, rfl, hn⟩
  · exact fun d past hi => advance_ready hh hpos hi

/-- In a built automaton the states that are visited have known transitions. -/
structure BuiltIssued (fu : FunctionUnit) (d : FSADetector) (past : Past fu.OperationID) : Prop
    extends Issued fu d past where
  next_built : ∃ states, Resolves fu d.fsa states states ∧ ∀ n, d.nextState = .index n → states n

structure BuiltReady (fu : FunctionUnit) (d : FSADetector) (past : Past fu.OperationID) : Prop
    extends Ready fu d past where
  built : ∃ states, Resolves fu d.fsa states states ∧ (∀ n, d.nextState = .index n → states n) ∧
    ∀ n, d.currentState = .index n → states n

omit hh hpos in
theorem target_built {d : FSADetector} {states : Nat → Prop} (hb : Resolves fu d.fsa states states)
    (hv : Valid fu d.fsa) {s t : Nat} (hs : states s) (ht : t ≤ fu.operationCount) :
    ∃ target, d.target (.index s) t = some target ∧ target ≠ .unknownState ∧ Correct fu d.fsa s t target ∧
      ∀ n, target = .index n → states n := by
  obtain ⟨target, htarget, hknown, hnext⟩ := hb.targets s hs t ht
  exact ⟨target, htarget, hknown, hv.correct s t target htarget, hnext⟩

omit hh hpos in
/-- The automaton built in advance does the same without resolving anything. -/
theorem full_tracks : (FSADetector.fullMonitor fu).Tracks (pastMonitor fu.clash) (fun _ _ => True)
    (BuiltReady fu) (BuiltIssued fu) := by
  refine tracks_past _ _ _ ?_ ?_ ?_ ?_
  · rintro d past h
    obtain ⟨states, hb, hnext, -⟩ := h.built
    exact ⟨h.toIssued, states, hb, hnext⟩
  · intro d past op hr hclash
    obtain ⟨s, before, rfl, hcurrent, hs⟩ := hr.current
    obtain ⟨states, hb, -, hin⟩ := hr.built
    obtain ⟨target, htarget, hknown, hc, -⟩ := target_built hb hr.valid (hin s hcurrent) (Nat.le_of_lt op.isLt)
    rw [← hcurrent] at htarget
    rcases correct_op hr.valid hs hknown hc with ⟨rfl, -⟩ | ⟨n, -, hno, -⟩
    · exact ⟨_, by simp only [FSADetector.fullMonitor, FSADetector.issueOperationInline, htarget]; rfl⟩
    · exact absurd hclash hno
  · intro d past op hr hclash
    obtain ⟨s, before, rfl, hcurrent, hs⟩ := hr.current
    obtain ⟨states, hb, -, hin⟩ := hr.built
    obtain ⟨target, htarget, hknown, hc, hnext⟩ := target_built hb hr.valid (hin s hcurrent) (Nat.le_of_lt op.isLt)
    rw [← hcurrent] at htarget
    rcases correct_op hr.valid hs hknown hc with ⟨-, hyes⟩ | ⟨n, rfl, -, hn⟩
    · exact absurd hyes hclash
    · exact ⟨{ d with nextState := .index n },
        by simp only [FSADetector.fullMonitor, FSADetector.issueOperationInline, htarget]; rfl,
        ⟨hr.valid, n, rfl, hn⟩, states, hb, hnext⟩
  · intro d past hi
    obtain ⟨n, hcurrent, hn⟩ := hi.next
    obtain ⟨states, hb, hin⟩ := hi.next_built
    obtain ⟨target, htarget, hknown, hc, hnext⟩ := target_built hb hi.valid (hin n hcurrent) (Nat.le_refl _)
    obtain ⟨n', rfl, hn'⟩ := correct_nop hi.valid hn hknown hc
    rw [← hcurrent] at htarget
    refine ⟨{ d with currentState := d.nextState, nextState := .index n' },
      by simp only [FSADetector.fullMonitor, FSADetector.advanceCycleInline, hi.valid.nop, htarget]; rfl,
      ⟨⟨hi.valid, n', rfl, hn'⟩, n, past, rfl, hcurrent, hn⟩, states, hb, hnext, hin⟩

/-! ## Detectors that have been used before -/

omit hh hpos in
theorem reservationTable_used {m : BitMatrix} (h : ReservationTableDetector.Used fu m) :
    m.rows = ReservationTable.rowCount fu ∧ m.columns = fu.maxLatency := by
  induction h with
  | start => exact ⟨rfl, rfl⟩
  | @issue m m' op accepted _ hissue ih =>
    simp only [ReservationTableDetector.monitor, ReservationTableDetector.issueOperation,
      reservationTables_getElem?, Option.bind_eq_bind, Option.bind_some] at hissue
    split at hissue
    · cases hissue; exact ih
    · cases hissue; exact ih
  | advance _ hadvance ih => cases hadvance; exact ih
  | other _ hreset ih => cases hreset; exact ih

omit hh hpos in
theorem reservationTable_reset {m : BitMatrix} (h : ReservationTableDetector.Used fu m) :
    TableOf fu (ReservationTableDetector.reset m) [] := by
  obtain ⟨hr, hc⟩ := reservationTable_used h
  exact ⟨hr, hc, fun row _ cycle => by simp [ReservationTableDetector.reset]⟩

omit hpos in
theorem dcm_create : (DCMDetector.create fu).rows = fu.operationCount ∧
    (DCMDetector.create fu).columns = fu.maxLatency := by
  obtain ⟨m, hm, hshape, -⟩ := transition_matrix hh (Nat.zero_le fu.operationCount)
  have hfirst := (List.getElem?_eq_some_iff.1 hm).2
  simp only [DCMDetector.create, List.get_eq_getElem, hfirst]
  exact ⟨hshape.rows, hshape.columns⟩

omit hpos in
theorem dcm_used {m : BitMatrix} (h : DCMDetector.Used fu m) :
    m.rows = fu.operationCount ∧ m.columns = fu.maxLatency := by
  induction h with
  | start => exact dcm_create hh
  | @issue m m' op accepted _ hissue ih =>
    simp only [DCMDetector.monitor, DCMDetector.issueOperation, collisionMatrices_op,
      Option.bind_eq_bind, Option.bind_some] at hissue
    obtain ⟨bit, -, hissue⟩ := Option.bind_eq_some_iff.1 hissue
    split at hissue
    · cases hissue; exact ih
    · cases hissue; exact ih
  | advance _ hadvance ih => cases hadvance; exact ih
  | other _ hreset ih => cases hreset; exact ih

omit hpos in
theorem dcm_reset {m : BitMatrix} (h : DCMDetector.Used fu m) : CollisionsOf fu (DCMDetector.reset m) [] := by
  obtain ⟨hr, hc⟩ := dcm_used hh h
  exact ⟨hr, hc, fun r column => by simp [DCMDetector.reset, not_reads_nil]⟩

/-- Whatever the states stand for, they are states of a valid automaton. -/
structure Sound (fu : FunctionUnit) (d : FSADetector) : Prop where
  valid : Valid fu d.fsa
  current : ∃ s, d.currentState = .index s ∧ s < d.fsa.stateCollisionMatrices.length
  next : ∃ n, d.nextState = .index n ∧ n < d.fsa.stateCollisionMatrices.length

omit hh hpos in
theorem Ready.sound {d : FSADetector} {past : Past fu.OperationID} (h : Ready fu d past) : Sound fu d := by
  obtain ⟨n, hnext, hn⟩ := h.next
  obtain ⟨s, before, -, hcurrent, hs⟩ := h.current
  exact ⟨h.valid, ⟨s, hcurrent, hs.lt⟩, ⟨n, hnext, hn.lt⟩⟩

theorem sound_issue {d d' : FSADetector} (hd : Sound fu d) {t : Nat} (ht : t ≤ fu.operationCount)
    {accepted : Bool} (hissue : d.issueOperationLazyInline t = some (accepted, d')) : Sound fu d' := by
  obtain ⟨s, hcurrent, hs⟩ := hd.current
  obtain ⟨target, fsa, hresolve, hv, hgrows, hknown, hc⟩ := resolve_spec hh hpos hd.valid hcurrent hs ht
  have hlt {n : Nat} (hn : n < d.fsa.stateCollisionMatrices.length) : n < fsa.stateCollisionMatrices.length :=
    (List.getElem?_eq_some_iff.1 (hgrows n _ (List.getElem?_eq_getElem hn))).1
  simp only [FSADetector.issueOperationLazyInline, hresolve, Option.bind_eq_bind, Option.bind_some] at hissue
  cases target with
  | unknownState => exact absurd rfl hknown
  | illegalState =>
    cases hissue
    obtain ⟨m, hm, -⟩ := hv.start
    exact ⟨hv, ⟨s, hcurrent, hlt hs⟩, ⟨0, rfl, (List.getElem?_eq_some_iff.1 hm).1⟩⟩
  | index n =>
    cases hissue
    obtain ⟨_, m', -, hm', -⟩ := hc
    exact ⟨hv, ⟨s, hcurrent, hlt hs⟩, ⟨n, rfl, (List.getElem?_eq_some_iff.1 hm').1⟩⟩

theorem sound_advance {d d' : FSADetector} (hd : Sound fu d)
    (hadvance : d.advanceCycleLazyInline = some d') : Sound fu d' := by
  obtain ⟨s, hcurrent, hs⟩ := hd.next
  obtain ⟨target, fsa, hresolve, hv, hgrows, hknown, hc⟩ := resolve_spec hh hpos
    (d := { d with currentState := d.nextState }) hd.valid hcurrent hs (Nat.le_of_eq hd.valid.nop)
  have hlt : s < fsa.stateCollisionMatrices.length :=
    (List.getElem?_eq_some_iff.1 (hgrows s _ (List.getElem?_eq_getElem hs))).1
  simp only [FSADetector.advanceCycleLazyInline, hresolve, Option.bind_eq_bind, Option.bind_some] at hadvance
  cases hadvance
  cases target with
  | unknownState => exact absurd rfl hknown
  | illegalState =>
    obtain ⟨r, -, hr, -⟩ := hc
    exact absurd (hd.valid.nop.symm.trans hr) (Nat.ne_of_gt r.isLt)
  | index n =>
    obtain ⟨_, m', -, hm', -⟩ := hc
    exact ⟨hv, ⟨s, hcurrent, hlt⟩, ⟨n, rfl, (List.getElem?_eq_some_iff.1 hm').1⟩⟩

/-- After a reset the automaton remembers nothing but keeps its states. -/
theorem reset_spec {d : FSADetector} (hv : Valid fu d.fsa) :
    ∃ d', d.reset = some d' ∧ Ready fu d' [] := by
  have hstart := stateOf_start hv
  obtain ⟨target, fsa, hresolve, hv', hgrows, hknown, hc⟩ := resolve_spec hh hpos
    (d := { d with currentState := .index 0 }) hv rfl hstart.lt (Nat.le_of_eq hv.nop)
  have hs := hstart.mono hgrows
  rw [hv.nop] at hc
  obtain ⟨n, rfl, hn⟩ := correct_nop hv' hs hknown hc
  refine ⟨_, by simp only [FSADetector.reset, FSADetector.issueOperationLazyInline, hresolve]; rfl,
    ⟨hv', n, rfl, hn⟩, 0, [], rfl, rfl, hs⟩

theorem sound_build {d d' : FSADetector} (hd : Sound fu d)
    {first : (states : List Nat) → states ≠ [] → {state // state ∈ states}} {fuel : Nat}
    (hbuild : d.initializeAllStates first fuel = some d') : Sound fu d' := by
  obtain ⟨fsa, hfsa, rfl⟩ := Option.map_eq_some_iff.1 hbuild
  obtain ⟨hv, -, hle⟩ := buildStateMachine_valid hh hpos hd.valid hfsa
  obtain ⟨s, hcurrent, hs⟩ := hd.current
  obtain ⟨n, hnext, hn⟩ := hd.next
  exact ⟨hv, ⟨s, hcurrent, Nat.lt_of_lt_of_le hs hle⟩, ⟨n, hnext, Nat.lt_of_lt_of_le hn hle⟩⟩

theorem sound_used {d : FSADetector} (h : FSADetector.Used fu d) : Sound fu d := by
  obtain ⟨created, hcreate, hused⟩ := h
  induction hused with
  | start =>
    obtain ⟨d', hreset, hready⟩ := reset_spec hh hpos
      (d := ⟨FUFiniteStateAutomaton.create fu, .index 0, .unknownState⟩) (valid_create hh)
    obtain rfl : d' = created := Option.some.inj (hreset.symm.trans hcreate)
    exact hready.sound
  | @issue d d' op accepted _ hissue ih => exact sound_issue hh hpos ih (Nat.le_of_lt op.isLt) hissue
  | advance _ hadvance ih => exact sound_advance hh hpos ih hadvance
  | other _ hother ih =>
    rcases hother with hreset | ⟨first, fuel, hbuild⟩
    · obtain ⟨d', hreset', hready⟩ := reset_spec hh hpos ih.valid
      obtain rfl := Option.some.inj (hreset'.symm.trans hreset)
      exact hready.sound
    · exact sound_build hh hpos ih hbuild

/-- A built automaton that is reset needs nothing resolved any more. -/
theorem built_reset {d d' : FSADetector} (hv : Valid fu d.fsa)
    {first : (states : List Nat) → states ≠ [] → {state // state ∈ states}} {fuel : Nat}
    (hbuild : d.initializeAllStates first fuel = some d') : ∃ s, d'.reset = some s ∧ BuiltReady fu s [] := by
  obtain ⟨fsa, hfsa, rfl⟩ := Option.map_eq_some_iff.1 hbuild
  obtain ⟨hv', ⟨states, h0, hb⟩, -⟩ := buildStateMachine_valid hh hpos hv hfsa
  have hstart := stateOf_start hv'
  obtain ⟨target, htarget, hknown, hnext⟩ := hb.targets 0 h0 fu.operationCount (Nat.le_refl _)
  obtain ⟨n, rfl, hn⟩ := correct_nop hv' hstart hknown (hv'.correct _ _ _ htarget)
  have hread : ({ d with fsa := fsa, currentState := .index 0 } : FSADetector).resolve fu.operationCount =
      some (.index n, { d with fsa := fsa, currentState := .index 0 }) := by
    simp [FSADetector.resolve, FSADetector.target, htarget]
  refine ⟨{ fsa := fsa, currentState := .index 0, nextState := .index n }, ?_,
    ⟨⟨hv', n, rfl, hn⟩, 0, [], rfl, rfl, hstart⟩, states, hb, hnext, ?_⟩
  · simp only [FSADetector.reset, FSADetector.issueOperationLazyInline, hv'.nop, hread]
    rfl
  · rintro s hs
    cases hs
    exact h0

/-- The current state rejects what clashes with the past. -/
theorem Ready.rejects_eq {d : FSADetector} {past : Past fu.OperationID} (h : Ready fu d past)
    {m : BitMatrix} (hm : TableOf fu m past) (op : fu.OperationID) :
    d.rejects op = some (m.conflictsWith (fu.table op)) := by
  obtain ⟨s, before, rfl, hcurrent, matrix, hmatrix, hbits⟩ := h.current
  have hword : 1 < 32 * wordsPerRow matrix.columns := by
    have := hpos op
    have hholds := hh
    rw [BitMatrix.Holds] at hholds
    rw [hbits.columns]
    omega
  have hbit := BitMatrix.bitAt_eq (show op.val < matrix.rows by rw [hbits.rows]; exact op.isLt) hword
  have hread : d.rejects op = some (matrix.get op 1) := by
    simp only [FSADetector.rejects, hcurrent, hmatrix, Option.bind_some, CollisionMatrix.isCollision, hbit]
  rw [hread, Option.some.injEq, Bool.eq_iff_iff, hm.conflictsWith_iff hh, clashes_iff, reads_older, hbits.bits]

/-- All detectors of a unit, reset after any use, answer alike in every run. The
state the automaton is in rejects what overlaps with the tables issued so far. -/
theorem detectors_agree {rt dcm : BitMatrix} {lazy : FSADetector} (hrt : ReservationTableDetector.Used fu rt)
    (hdcm : DCMDetector.Used fu dcm) (hlazy : FSADetector.Used fu lazy)
    (first : (states : List Nat) → states ≠ [] → {state // state ∈ states}) {fuel : Nat}
    (hfuel : stateBound fu ≤ fuel) (run : List (Option fu.OperationID)) :
    ∃ answers s built t,
      (ReservationTableDetector.monitor fu).answers (ReservationTableDetector.reset rt) run = some answers ∧
      (DCMDetector.monitor fu).answers (DCMDetector.reset dcm) run = some answers ∧
      lazy.reset = some s ∧ (FSADetector.lazyMonitor fu).answers s run = some answers ∧
      lazy.initializeAllStates first fuel = some built ∧ built.reset = some t ∧
      (FSADetector.fullMonitor fu).answers t run = some answers ∧
      ∀ table, (ReservationTableDetector.monitor fu).after (ReservationTableDetector.reset rt) run = some table →
        ∃ d e, (FSADetector.lazyMonitor fu).after s run = some d ∧ (FSADetector.fullMonitor fu).after t run = some e ∧
          ∀ op : fu.OperationID, d.rejects op = some (table.conflictsWith (fu.table op)) ∧
            e.rejects op = some (table.conflictsWith (fu.table op)) := by
  have hv := (sound_used hh hpos hlazy).valid
  obtain ⟨s, hs, hready⟩ := reset_spec hh hpos hv
  obtain ⟨fsa, hbuild⟩ := buildStateMachine_ends hh hpos hv first hfuel
  have hinit : lazy.initializeAllStates first fuel = some { lazy with fsa := fsa } := by
    simp [FSADetector.initializeAllStates, hbuild]
  obtain ⟨t, ht, hbuilt⟩ := built_reset hh hpos hv hinit
  have hrt₀ := reservationTable_reset hrt
  -- all four follow the monitor that remembers the past, from the empty past
  have htrue {σ : Type} (m : Monitor fu.OperationID σ) (s : σ) := m.meets_true s run
  obtain ⟨answers, h1, hpast⟩ := (reservationTable_tracks hh).answers_eq run _ _ hrt₀ (htrue _ _)
  obtain ⟨_, h2, h2'⟩ := (dcm_tracks hh hpos).answers_eq run _ _ (dcm_reset hh hdcm) (htrue _ _)
  obtain ⟨_, h3, h3'⟩ := (lazy_tracks hh hpos).answers_eq run _ _ hready (htrue _ _)
  obtain ⟨_, h4, h4'⟩ := full_tracks.answers_eq run _ _ hbuilt (htrue _ _)
  obtain rfl := Option.some.inj (hpast.symm.trans h2')
  obtain rfl := Option.some.inj (hpast.symm.trans h3')
  obtain rfl := Option.some.inj (hpast.symm.trans h4')
  refine ⟨answers, s, _, t, h1, h2, hs, h3, hinit, ht, h4, fun table htable => ?_⟩
  rcases (reservationTable_tracks hh).after run _ _ hrt₀ (htrue _ _) with
    ⟨m, past, hm, hafter, htab⟩ | ⟨hnone, -⟩
  · obtain rfl : m = table := Option.some.inj (hm.symm.trans htable)
    rcases (lazy_tracks hh hpos).after run _ _ hready (htrue _ _) with ⟨d, _, hd, hd', hdready⟩ | ⟨-, hno⟩
    · rcases full_tracks.after run _ _ hbuilt (htrue _ _) with ⟨e, _, he, he', heready⟩ | ⟨-, hno⟩
      · obtain rfl := Option.some.inj (hafter.symm.trans hd')
        obtain rfl := Option.some.inj (hafter.symm.trans he')
        exact ⟨d, e, hd, he, fun op =>
          ⟨hdready.rejects_eq hh hpos htab op, heready.toReady.rejects_eq hh hpos htab op⟩⟩
      · exact absurd (hafter.symm.trans hno) (by simp)
    · exact absurd (hafter.symm.trans hno) (by simp)
  · exact absurd (hnone.symm.trans htable) (by simp)

end past

/-- A unit with one operation that uses the only resource as given. -/
def oneOperation (resourceUsage : List (List String)) (h : ∀ usages ∈ resourceUsage, ∀ r ∈ usages, r ∈ ["r"]) :
    FunctionUnit where
  operationPorts := []
  pipelineElements := ["r"]
  operations := [⟨"op", ⟨resourceUsage, resourceUsage.map fun _ => [], resourceUsage.map fun _ => [],
    by simp, by simp⟩, []⟩]
  elements_nodup := by simp
  names_nodup := by simp
  names_lower := by simp
  elements_used := by simpa using h
  ports_bound := by simp

/-- The operation cannot be issued again in the next cycle. -/
theorem detectors_agree_twoCycles :
    let fu := oneOperation [["r"], ["r"]] (by simp)
    ∃ answers s,
      (ReservationTableDetector.monitor fu).answers (ReservationTableDetector.reset (ReservationTable.ofUnit fu))
        [some ⟨0, by decide⟩, none, some ⟨0, by decide⟩, some ⟨0, by decide⟩] = some answers ∧
      (FSADetector.create fu).bind FSADetector.reset = some s ∧
      (FSADetector.lazyMonitor fu).answers s
        [some ⟨0, by decide⟩, none, some ⟨0, by decide⟩, some ⟨0, by decide⟩] = some answers ∧
      answers = [true, true, false] := by
  intro fu
  have hh : BitMatrix.Holds fu.maxLatency := by decide
  have hpos : ∀ _ : fu.OperationID, 0 < fu.maxLatency := fun _ => by decide
  obtain ⟨created, hcreated, -⟩ := reset_spec hh hpos
    (d := ⟨FUFiniteStateAutomaton.create fu, .index 0, .unknownState⟩) (FUFiniteStateAutomaton.valid_create hh)
  obtain ⟨answers, s, -, -, h1, -, h2, h3, -⟩ := detectors_agree hh hpos .start .start ⟨created, hcreated, .start⟩
    (fun states h => ⟨states.head h, List.head_mem h⟩) (Nat.le_refl _)
    [some ⟨0, by decide⟩, none, some ⟨0, by decide⟩, some ⟨0, by decide⟩]
  refine ⟨answers, s, h1, ?_, h3, ?_⟩
  · rw [show FSADetector.create fu = some created from hcreated]
    exact h2
  · exact Option.some.inj (h1.symm.trans (by decide))

/-- When no operation has a pipeline, the collision matrices have no storage and
DCM reads outside of it. -/
theorem detectors_disagree :
    ¬∀ (fu : FunctionUnit) (run : List (Option fu.OperationID)),
      (ReservationTableDetector.monitor fu).answers (ReservationTable.ofUnit fu) run =
        (DCMDetector.monitor fu).answers (DCMDetector.create fu) run := by
  intro h
  have := h (oneOperation [] (by simp)) [some ⟨0, by decide⟩]
  revert this
  decide

end Tce
