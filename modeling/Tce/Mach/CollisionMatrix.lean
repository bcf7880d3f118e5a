import Tce.Mach.BitMatrix
import Tce.Mach.FunctionUnit

/-!
# Reservation tables and collision matrices

A reservation table has one row for each port and each pipeline resource of the
unit and one column for each cycle of its longest operation. The collision
matrix of an operation has one row for each operation of the unit; column `c`
of a row tells whether that operation collides when issued `c` cycles later.
-/

namespace Tce

namespace ReservationTable

/-- The rows of the ports come first, then those of the pipeline resources. -/
def rowUsed (fu : FunctionUnit) (op : HWOperation) (row cycle : Nat) : Bool :=
  if row < fu.operationPortCount then op.isPortUsed row cycle
  else
    match fu.pipelineElements[row - fu.operationPortCount]? with
    | some element => op.isResourceUsed element cycle
    | none => false

def rowCount (fu : FunctionUnit) : Nat := fu.operationPortCount + fu.pipelineElementCount

/-- The empty table of a unit. -/
def ofUnit (fu : FunctionUnit) : BitMatrix := .create fu.maxLatency (rowCount fu) false

/-- The table of one operation. -/
def ofOperation (fu : FunctionUnit) (op : HWOperation) : BitMatrix :=
  .fill fu.maxLatency (rowCount fu) (rowUsed fu op)

/-- `this` moved `cycle` columns to the left, against `another`. -/
def conflictsWith (this another : BitMatrix) (cycle : Nat) : Bool :=
  another.conflictsWith (Nat.repeat BitMatrix.shiftLeft cycle this)

end ReservationTable

/-- `FUReservationTableIndex`: the tables of all operations of the unit. -/
def reservationTables (fu : FunctionUnit) : List BitMatrix :=
  fu.operations.map (ReservationTable.ofOperation fu)

namespace CollisionMatrix

def ofTable (tables : List BitMatrix) (thisOperation : BitMatrix) : BitMatrix :=
  .fill thisOperation.columns tables.length fun row column =>
    match tables[row]? with
    | some other => ReservationTable.conflictsWith thisOperation other column
    | none => false

def isCollision (m : BitMatrix) (row column : Nat) : Option Bool := m.bitAt column row

end CollisionMatrix

/-- `FUCollisionMatrixIndex`: one matrix for each operation, then the empty
matrix of the pseudo operation NOP, as large as the first one. -/
def collisionMatrices (fu : FunctionUnit) : List BitMatrix :=
  let matrices := (reservationTables fu).map (CollisionMatrix.ofTable (reservationTables fu))
  let nop := match matrices.head? with
    | some first => .create first.columns first.rows false
    | none => .create 0 0 false
  matrices ++ [nop]

/-! ## What the tables say -/

namespace BitMatrix

/-- Shifting left `n` times reads `n` columns further right. -/
theorem repeat_shiftLeft (m : BitMatrix) (n : Nat) :
    (Nat.repeat shiftLeft n m).rows = m.rows ∧ (Nat.repeat shiftLeft n m).columns = m.columns ∧
      ∀ row < m.rows, ∀ column, (Nat.repeat shiftLeft n m).get row column = m.get row (column + n) := by
  induction n with
  | zero => exact ⟨rfl, rfl, fun _ _ _ => rfl⟩
  | succ n ih =>
    obtain ⟨hr, hc, hget⟩ := ih
    refine ⟨hr, hc, fun row hrow column => ?_⟩
    rw [Nat.repeat, get_shiftLeft (by rw [hr]; exact hrow), hget row hrow]
    congr 1
    omega

end BitMatrix

section tables
variable (fu : FunctionUnit)

/-- The reservation table of an operation of the unit. -/
def FunctionUnit.table (id : fu.OperationID) : BitMatrix := ReservationTable.ofOperation fu (fu.operation id)

/-- `r` cannot be issued `age` cycles after `i`: their tables overlap. -/
def FunctionUnit.clash (i r : fu.OperationID) (age : Nat) : Bool :=
  ReservationTable.conflictsWith (fu.table i) (fu.table r) age

/-- The collision matrix of an operation of the unit. -/
def FunctionUnit.collisions (id : fu.OperationID) : BitMatrix :=
  CollisionMatrix.ofTable (reservationTables fu) (fu.table id)

/-- The matrix of the pseudo operation NOP. -/
def FunctionUnit.nopMatrix : BitMatrix := .create fu.maxLatency fu.operationCount false

variable {fu}

theorem rowUsed_past_latency {op : HWOperation} {row cycle : Nat} (h : op.latency ≤ cycle) :
    ReservationTable.rowUsed fu op row cycle = false := by
  have hu := ExecutionPipeline.resourceUsages_past (p := op.pipeline) h
  have hr := ExecutionPipeline.readOperands_past (p := op.pipeline) h
  have hw := ExecutionPipeline.writtenOperands_past (p := op.pipeline) h
  unfold ReservationTable.rowUsed
  split
  · simp [HWOperation.isPortUsed, HWOperation.isOperandBound, hr, hw]
  · split
    · simp [HWOperation.isResourceUsed, hu]
    · rfl

theorem reservationTables_getElem? (id : fu.OperationID) :
    (reservationTables fu)[id.val]? = some (fu.table id) := by
  simp [reservationTables, FunctionUnit.table, FunctionUnit.operation]

theorem collisionMatrices_op (id : fu.OperationID) :
    (collisionMatrices fu)[id.val]? = some (fu.collisions id) := by
  have hlt : id.val < ((reservationTables fu).map (CollisionMatrix.ofTable (reservationTables fu))).length := by
    simp [reservationTables]
  rw [collisionMatrices, List.getElem?_append_left hlt, List.getElem?_map, reservationTables_getElem? id]
  rfl

theorem collisionMatrices_length : (collisionMatrices fu).length = fu.operationCount + 1 := by
  simp [collisionMatrices, reservationTables, FunctionUnit.operationCount]

variable (hh : BitMatrix.Holds fu.maxLatency)
include hh

theorem table_spec (id : fu.OperationID) :
    (fu.table id).rows = ReservationTable.rowCount fu ∧ (fu.table id).columns = fu.maxLatency ∧
      (fu.table id).Clean ∧ ∀ row < ReservationTable.rowCount fu, ∀ cycle,
        (fu.table id).get row cycle = ReservationTable.rowUsed fu (fu.operation id) row cycle := by
  obtain ⟨hr, hc, hclean, hget⟩ := BitMatrix.fill_spec fu.maxLatency (ReservationTable.rowCount fu)
    (ReservationTable.rowUsed fu (fu.operation id)) hh
  refine ⟨hr, hc, hclean, fun row hrow cycle => (hget row hrow cycle).trans ?_⟩
  by_cases hlt : cycle < fu.maxLatency
  · simp [hlt]
  · have hle := Nat.le_trans (fu.latency_le id) (Nat.not_lt.1 hlt)
    simp [hlt, rowUsed_past_latency hle]

/-- The operations clash when some row is used by both in one cycle. -/
theorem clash_iff (i r : fu.OperationID) (age : Nat) :
    fu.clash i r age = true ↔ ∃ row < ReservationTable.rowCount fu, ∃ cycle,
      ReservationTable.rowUsed fu (fu.operation i) row (cycle + age) = true ∧
        ReservationTable.rowUsed fu (fu.operation r) row cycle = true := by
  obtain ⟨hr, hc, -, hget⟩ := table_spec hh i
  obtain ⟨hr', hc', -, hget'⟩ := table_spec hh r
  obtain ⟨hsr, hsc, hshift⟩ := BitMatrix.repeat_shiftLeft (fu.table i) age
  rw [FunctionUnit.clash, ReservationTable.conflictsWith,
    BitMatrix.conflictsWith_iff (by rw [hc', hsc, hc]) (by rw [hr', hsr, hr]), hr']
  constructor
  · rintro ⟨row, hrow, cycle, h1, h2⟩
    rw [hget' row hrow] at h1
    rw [hshift row (by rw [hr]; exact hrow), hget row hrow] at h2
    exact ⟨row, hrow, cycle, h2, h1⟩
  · rintro ⟨row, hrow, cycle, h1, h2⟩
    refine ⟨row, hrow, cycle, ?_, ?_⟩
    · rw [hget' row hrow, h2]
    · rw [hshift row (by rw [hr]; exact hrow), hget row hrow, h1]

theorem clash_past_latency {i r : fu.OperationID} {age : Nat} (h : fu.maxLatency ≤ age) :
    fu.clash i r age = false := by
  rw [Bool.eq_false_iff, Ne, clash_iff hh]
  rintro ⟨row, -, cycle, h1, -⟩
  have hle := Nat.le_trans (fu.latency_le i) h
  rw [rowUsed_past_latency (by omega)] at h1
  cases h1

/-- Column `c` of row `r`: `r` clashes when it is issued `c` cycles later. -/
theorem collisions_spec (id : fu.OperationID) :
    (fu.collisions id).rows = fu.operationCount ∧ (fu.collisions id).columns = fu.maxLatency ∧
      (fu.collisions id).Clean ∧ ∀ (r : fu.OperationID) column,
        (fu.collisions id).get r column = fu.clash id r column := by
  obtain ⟨hr, hc, -, -⟩ := table_spec hh id
  obtain ⟨h1, h2, h3, hget⟩ := BitMatrix.fill_spec (fu.table id).columns (reservationTables fu).length
    (fun row column => match (reservationTables fu)[row]? with
      | some other => ReservationTable.conflictsWith (fu.table id) other column
      | none => false) (by rw [hc]; exact hh)
  have hlen : (reservationTables fu).length = fu.operationCount := by
    simp [reservationTables, FunctionUnit.operationCount]
  refine ⟨h1.trans hlen, h2.trans hc, h3, fun r column => ?_⟩
  have hrow : r.val < (reservationTables fu).length := by rw [hlen]; exact r.isLt
  refine (hget r hrow column).trans ?_
  rw [reservationTables_getElem? r, hc]
  by_cases hlt : column < fu.maxLatency
  · simp [hlt, FunctionUnit.clash]
  · simp [hlt, clash_past_latency hh (Nat.not_lt.1 hlt)]

theorem collisionMatrices_nop : (collisionMatrices fu)[fu.operationCount]? = some fu.nopMatrix := by
  have hlen : ((reservationTables fu).map (CollisionMatrix.ofTable (reservationTables fu))).length =
      fu.operationCount := by
    simp [reservationTables, FunctionUnit.operationCount]
  rw [collisionMatrices, List.getElem?_append_right (Nat.le_of_eq hlen), hlen, Nat.sub_self,
    List.getElem?_cons_zero]
  congr 1
  cases hops : fu.operations with
  | nil =>
    simp [reservationTables, hops, FunctionUnit.nopMatrix, FunctionUnit.maxLatency, FunctionUnit.operationCount]
  | cons op ops =>
    have hpos : 0 < fu.operations.length := by simp [hops]
    have hhead := collisionMatrices_op ⟨0, hpos⟩
    obtain ⟨hr, hc, -, -⟩ := collisions_spec hh ⟨0, hpos⟩
    rw [collisionMatrices, List.getElem?_append_left (by rw [hlen]; exact hpos)] at hhead
    rw [List.head?_eq_getElem?, hhead, FunctionUnit.nopMatrix]
    simp only [hr, hc]

end tables
end Tce
