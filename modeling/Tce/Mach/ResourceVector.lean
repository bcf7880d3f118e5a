import Tce.Base.MapM
import Tce.Base.Names
import Tce.Mach.CollisionMatrix

/-!
# Resource vectors

The resources an operation uses, cycle by cycle, as sets of names: the pipeline
resources and the ports its operands are bound to. Ports go by their binding
strings.
-/

namespace Tce

/-- One resource set for each cycle. -/
structure ResourceVector where
  resources : List (List String)
  deriving DecidableEq, Repr

namespace ResourceVector

def width (v : ResourceVector) : Nat := v.resources.length

/-- The set at a column, empty past the width. -/
def resourcesUsedAtCycle (v : ResourceVector) (cycle : Nat) : List String := v.resources.getD cycle []

/-- The port of an operand. `none` is the null pointer of an operand that is not
bound, which the constructor dereferences. -/
def portResource (fu : FunctionUnit) (op : HWOperation) (operand : Nat) : Option String := do
  let port ← op.port operand
  let fuPort ← fu.operationPorts[port]?
  some ("port:" ++ fuPort.bindingString)

def ofCycle (fu : FunctionUnit) (op : HWOperation) (cycle : Nat) : Option (List String) := do
  let readPorts ← (op.pipeline.readOperands cycle).mapM (portResource fu op)
  let writtenPorts ← (op.pipeline.writtenOperands cycle).mapM (portResource fu op)
  some ((op.pipeline.resourceUsages cycle).map ("res:" ++ ·) ++ readPorts ++ writtenPorts)

def ofPipeline (fu : FunctionUnit) (op : HWOperation) : Option ResourceVector :=
  ((List.range op.latency).mapM (ofCycle fu op)).map ResourceVector.mk

/-- The columns from `c` on, until one of them decides. -/
def scan (this other : ResourceVector) (cycle : Nat) : List Nat → Bool
  | [] => false
  | c :: cs =>
    if other.width ≤ c - cycle then false
    else if (this.resourcesUsedAtCycle c).length = 0 ∨ (other.resourcesUsedAtCycle (c - cycle)).length = 0 then false
    else if (this.resourcesUsedAtCycle c).any (other.resourcesUsedAtCycle (c - cycle)).contains then true
    else scan this other cycle cs

def conflictsWith (this other : ResourceVector) (cycle : Nat) : Bool :=
  scan this other cycle (List.range' cycle (this.width - cycle))

def mergeWith (this other : ResourceVector) (cycle : Nat) : ResourceVector where
  resources := (List.range (max this.width (cycle + other.width))).map fun c =>
    if cycle ≤ c then this.resourcesUsedAtCycle c ∪ other.resourcesUsedAtCycle (c - cycle)
    else this.resourcesUsedAtCycle c

def shiftLeft (v : ResourceVector) : ResourceVector := ⟨v.resources.tail⟩

def clear (_ : ResourceVector) : ResourceVector := ⟨[]⟩

/-! ## What the scan finds -/

/-- A resource is used by `this` at `c` and by `other` at `c - cycle`. -/
def SharesAt (this other : ResourceVector) (cycle c : Nat) : Prop :=
  cycle ≤ c ∧ ∃ r ∈ this.resourcesUsedAtCycle c, r ∈ other.resourcesUsedAtCycle (c - cycle)

/-- No cycle without resources comes before the first shared one. -/
def NoGapFirst (this other : ResourceVector) (cycle : Nat) : Prop :=
  ∀ shared, SharesAt this other cycle shared → ∃ c ≤ shared, SharesAt this other cycle c ∧
    ∀ c', cycle ≤ c' → c' < c →
      this.resourcesUsedAtCycle c' ≠ [] ∧ other.resourcesUsedAtCycle (c' - cycle) ≠ []

theorem resourcesUsedAtCycle_past {v : ResourceVector} {c : Nat} (h : v.width ≤ c) :
    v.resourcesUsedAtCycle c = [] := by
  rw [resourcesUsedAtCycle, List.getD_eq_getElem?_getD, List.getElem?_eq_none h]
  rfl

theorem SharesAt.lt {this other : ResourceVector} {cycle c : Nat} (h : SharesAt this other cycle c) :
    c < this.width ∧ c - cycle < other.width := by
  obtain ⟨-, r, hr, hr'⟩ := h
  constructor
  · refine Nat.lt_of_not_le fun hle => ?_
    rw [resourcesUsedAtCycle_past hle] at hr
    cases hr
  · refine Nat.lt_of_not_le fun hle => ?_
    rw [resourcesUsedAtCycle_past hle] at hr'
    cases hr'

/-- The scan stops at the first column that is empty in one of the vectors. -/
theorem scan_iff (this other : ResourceVector) (cycle n : Nat) : ∀ start, cycle ≤ start →
    (scan this other cycle (List.range' start n) = true ↔ ∃ c, start ≤ c ∧ c < start + n ∧
      SharesAt this other cycle c ∧ ∀ c', start ≤ c' → c' < c →
        this.resourcesUsedAtCycle c' ≠ [] ∧ other.resourcesUsedAtCycle (c' - cycle) ≠ []) := by
  induction n with
  | zero =>
    intro start _
    simp only [List.range'_zero, scan, Bool.false_eq_true, false_iff]
    rintro ⟨c, h1, h2, -⟩
    omega
  | succ n ih =>
    intro start hstart
    rw [List.range'_succ, scan]
    -- the column `start` either decides, or it is not empty and not shared
    by_cases hgap : this.resourcesUsedAtCycle start = [] ∨ other.resourcesUsedAtCycle (start - cycle) = []
    · have hleft : (if other.width ≤ start - cycle then false
          else if (this.resourcesUsedAtCycle start).length = 0 ∨
            (other.resourcesUsedAtCycle (start - cycle)).length = 0 then false
          else if (this.resourcesUsedAtCycle start).any (other.resourcesUsedAtCycle (start - cycle)).contains then true
          else scan this other cycle (List.range' (start + 1) n)) = false := by
        simp only [List.length_eq_zero_iff, if_pos hgap, ite_self]
      rw [hleft]
      simp only [Bool.false_eq_true, false_iff]
      rintro ⟨c, h1, -, ⟨-, r, hr, hr'⟩, hbefore⟩
      rcases Nat.eq_or_lt_of_le h1 with rfl | hlt
      · rcases hgap with h | h
        · rw [h] at hr
          cases hr
        · rw [h] at hr'
          cases hr'
      · obtain ⟨h, h'⟩ := hbefore start (Nat.le_refl _) hlt
        exact hgap.elim h h'
    · obtain ⟨hne, hne'⟩ := not_or.1 hgap
      have hwidth : ¬other.width ≤ start - cycle := fun h => hne' (resourcesUsedAtCycle_past h)
      simp only [List.length_eq_zero_iff, if_neg hwidth, if_neg hgap]
      by_cases hshare : (this.resourcesUsedAtCycle start).any
          (other.resourcesUsedAtCycle (start - cycle)).contains = true
      · rw [if_pos hshare]
        obtain ⟨r, hr, hr'⟩ := List.any_eq_true.1 hshare
        refine iff_of_true rfl ⟨start, Nat.le_refl _, by omega, ⟨hstart, r, hr, by simpa using hr'⟩, ?_⟩
        intro c' h1 h2
        omega
      · rw [if_neg hshare, ih (start + 1) (by omega)]
        constructor
        · rintro ⟨c, h1, h2, hc, hbefore⟩
          refine ⟨c, by omega, by omega, hc, fun c' h3 h4 => ?_⟩
          rcases Nat.eq_or_lt_of_le h3 with rfl | hlt
          · exact ⟨hne, hne'⟩
          · exact hbefore c' hlt h4
        · rintro ⟨c, h1, h2, hc, hbefore⟩
          have hlt : start ≠ c := by
            rintro rfl
            obtain ⟨-, r, hr, hr'⟩ := hc
            exact hshare (List.any_eq_true.2 ⟨r, hr, by simpa using hr'⟩)
          exact ⟨c, by omega, by omega, hc, fun c' h3 h4 => hbefore c' (by omega) h4⟩

theorem conflictsWith_iff (this other : ResourceVector) (cycle : Nat) :
    this.conflictsWith other cycle = true ↔ ∃ c, SharesAt this other cycle c ∧
      ∀ c', cycle ≤ c' → c' < c →
        this.resourcesUsedAtCycle c' ≠ [] ∧ other.resourcesUsedAtCycle (c' - cycle) ≠ [] := by
  rw [conflictsWith, scan_iff this other cycle _ cycle (Nat.le_refl _)]
  constructor
  · rintro ⟨c, -, -, hc, hbefore⟩
    exact ⟨c, hc, hbefore⟩
  · rintro ⟨c, hc, hbefore⟩
    have := hc.lt.1
    have := hc.1
    exact ⟨c, by omega, by omega, hc, hbefore⟩

/-- The answer is right exactly when no gap comes before the first shared cycle. -/
theorem conflictsWith_right_iff (this other : ResourceVector) (cycle : Nat) :
    (this.conflictsWith other cycle = true ↔ ∃ c, SharesAt this other cycle c) ↔ NoGapFirst this other cycle := by
  rw [conflictsWith_iff]
  constructor
  · intro h shared hshared
    obtain ⟨c, hc, hbefore⟩ := h.2 ⟨shared, hshared⟩
    by_cases hle : c ≤ shared
    · exact ⟨c, hle, hc, hbefore⟩
    · exact ⟨shared, Nat.le_refl _, hshared, fun c' h1 h2 => hbefore c' h1 (by omega)⟩
  · intro h
    constructor
    · rintro ⟨c, hc, -⟩
      exact ⟨c, hc⟩
    · rintro ⟨shared, hshared⟩
      obtain ⟨c, -, hc, hbefore⟩ := h shared hshared
      exact ⟨c, hc, hbefore⟩

theorem mem_mergeWith {this other : ResourceVector} {cycle c : Nat} (hc : cycle ≤ c) (r : String) :
    r ∈ (this.mergeWith other cycle).resourcesUsedAtCycle c ↔
      r ∈ this.resourcesUsedAtCycle c ∨ r ∈ other.resourcesUsedAtCycle (c - cycle) := by
  have hread : (this.mergeWith other cycle).resourcesUsedAtCycle c =
      if c < max this.width (cycle + other.width) then
        this.resourcesUsedAtCycle c ∪ other.resourcesUsedAtCycle (c - cycle)
      else [] := by
    simp only [resourcesUsedAtCycle, mergeWith, List.getD_eq_getElem?_getD, List.getElem?_map]
    by_cases hlt : c < max this.width (cycle + other.width)
    · simp [hlt, hc]
    · rw [List.getElem?_eq_none (by simpa using Nat.not_lt.1 hlt), if_neg hlt]
      rfl
  rw [hread]
  by_cases hlt : c < max this.width (cycle + other.width)
  · rw [if_pos hlt, List.mem_union_iff]
  · rw [if_neg hlt, resourcesUsedAtCycle_past (v := this) (by omega),
      resourcesUsedAtCycle_past (v := other) (by omega)]
    simp

theorem resourcesUsedAtCycle_shiftLeft (v : ResourceVector) (c : Nat) :
    v.shiftLeft.resourcesUsedAtCycle c = v.resourcesUsedAtCycle (c + 1) := by
  simp [shiftLeft, resourcesUsedAtCycle, List.getD_eq_getElem?_getD, List.getElem?_tail]

@[simp] theorem resourcesUsedAtCycle_clear (v : ResourceVector) (c : Nat) :
    v.clear.resourcesUsedAtCycle c = [] := rfl

end ResourceVector

/-- `ResourceVectorSet`: the vectors of a unit's operations by upper-case name,
in the order of the names. -/
abbrev ResourceVectorSet := List (String × ResourceVector)

namespace ResourceVectorSet

/-- `vectors_[name] = vector` in a `std::map`. -/
def insert (name : String) (vector : ResourceVector) : ResourceVectorSet → ResourceVectorSet
  | [] => [(name, vector)]
  | (key, value) :: rest =>
    if name = key then (key, vector) :: rest
    else if name < key then (name, vector) :: (key, value) :: rest
    else (key, value) :: insert name vector rest

/-- The constructor. -/
def ofUnit (fu : FunctionUnit) : Option ResourceVectorSet :=
  fu.operations.foldlM (fun vectors op => do
    let vector ← ResourceVector.ofPipeline fu op
    some (insert (Names.stringToUpper op.name) vector vectors)) []

def operationIndex (vectors : ResourceVectorSet) (operationName : String) : Option Nat :=
  vectors.findIdx? fun entry => entry.1 = operationName

def resourceVector (vectors : ResourceVectorSet) (index : Nat) : Option ResourceVector :=
  vectors[index]?.map (·.2)

/-- The vector found by name. -/
def find (vectors : ResourceVectorSet) (operationName : String) : Option ResourceVector :=
  (operationIndex vectors operationName).bind (resourceVector vectors)

theorem find_eq (vectors : ResourceVectorSet) (operationName : String) :
    vectors.find operationName = (vectors.find? fun entry => entry.1 = operationName).map (·.2) := by
  rw [List.find?_eq_bind_findIdx?_getElem?, Option.map_bind]
  rfl

theorem find_insert (name key : String) (vector : ResourceVector) (vectors : ResourceVectorSet) :
    find (insert name vector vectors) key = if key = name then some vector else find vectors key := by
  simp only [find_eq]
  induction vectors with
  | nil =>
    by_cases h : key = name
    · simp [insert, h]
    · simp [insert, h, Ne.symm h]
  | cons entry rest ih =>
    obtain ⟨other, value⟩ := entry
    rw [insert]
    by_cases h : name = other
    · subst h
      rw [if_pos rfl]
      by_cases hk : key = name
      · simp [hk]
      · simp [hk, Ne.symm hk]
    · rw [if_neg h]
      by_cases hlt : name < other
      · rw [if_pos hlt]
        by_cases hk : key = name
        · simp [hk]
        · simp [hk, Ne.symm hk, List.find?_cons]
      · rw [if_neg hlt]
        by_cases hk : other = key
        · subst hk
          simp [Ne.symm h]
        · simp only [List.find?_cons, hk, decide_false]
          exact ih

/-- Adding the vectors of operations with different upper-case names. -/
theorem foldlM_insert (fu : FunctionUnit) (ops : List HWOperation) :
    ∀ vectors : ResourceVectorSet, (ops.map fun op => Names.stringToUpper op.name).Nodup →
      (∀ vectors', ops.foldlM (fun vectors op => do
          let vector ← ResourceVector.ofPipeline fu op
          some (insert (Names.stringToUpper op.name) vector vectors)) vectors = some vectors' →
        (∀ op ∈ ops, ∃ v, ResourceVector.ofPipeline fu op = some v ∧ find vectors' (Names.stringToUpper op.name) = some v) ∧
        ∀ key, key ∉ (ops.map fun op => Names.stringToUpper op.name) → find vectors' key = find vectors key) ∧
      ((∀ op ∈ ops, (ResourceVector.ofPipeline fu op).isSome) →
        ∃ vectors', ops.foldlM (fun vectors op => do
          let vector ← ResourceVector.ofPipeline fu op
          some (insert (Names.stringToUpper op.name) vector vectors)) vectors = some vectors') := by
  induction ops with
  | nil => exact fun vectors _ => ⟨by simp, fun _ => ⟨vectors, rfl⟩⟩
  | cons op ops ih =>
    intro vectors hnodup
    rw [List.map_cons, List.nodup_cons] at hnodup
    constructor
    · intro vectors' h
      simp only [List.foldlM_cons, Option.bind_eq_bind] at h
      obtain ⟨vectors₁, h₁, hrest⟩ := Option.bind_eq_some_iff.1 h
      obtain ⟨v, hv, hinsert⟩ := Option.bind_eq_some_iff.1 h₁
      cases hinsert
      obtain ⟨hops, hkeys⟩ := (ih _ hnodup.2).1 vectors' hrest
      refine ⟨fun other hother => ?_, fun key hkey => ?_⟩
      · rcases List.mem_cons.1 hother with rfl | hother
        · exact ⟨v, hv, by rw [hkeys _ hnodup.1, find_insert, if_pos rfl]⟩
        · exact hops other hother
      · rw [List.map_cons, List.mem_cons, not_or] at hkey
        rw [hkeys key hkey.2, find_insert, if_neg hkey.1]
    · intro hall
      obtain ⟨v, hv⟩ := Option.isSome_iff_exists.1 (hall op List.mem_cons_self)
      obtain ⟨vectors', h⟩ := (ih (insert (Names.stringToUpper op.name) v vectors) hnodup.2).2
        fun other hother => hall other (List.mem_cons_of_mem _ hother)
      exact ⟨vectors', by simpa [List.foldlM_cons, hv] using h⟩

/-- Upper-case names keep the operations apart. -/
theorem upper_nodup (fu : FunctionUnit) : (fu.operations.map fun op => Names.stringToUpper op.name).Nodup := by
  have hnames := fu.names_nodup
  rw [List.Nodup, List.pairwise_map] at hnames ⊢
  refine hnames.imp_of_mem fun {op other} hop hother hne heq => ?_
  exact hne (Names.stringToUpper_inj (fu.names_lower op hop) (fu.names_lower other hother) heq)

theorem ofUnit_find {fu : FunctionUnit} {vectors : ResourceVectorSet} (h : ofUnit fu = some vectors)
    (id : fu.OperationID) : ∃ v, ResourceVector.ofPipeline fu (fu.operation id) = some v ∧
      find vectors (Names.stringToUpper (fu.operation id).name) = some v :=
  (((foldlM_insert fu fu.operations [] (upper_nodup fu)).1 vectors h).1 _ (List.getElem_mem _))

/-- Every operand a pipeline reads or writes is bound to a port. -/
def AllBound (fu : FunctionUnit) : Prop :=
  ∀ op ∈ fu.operations, ∀ cycle, ∀ operand ∈ op.pipeline.readOperands cycle ++ op.pipeline.writtenOperands cycle,
    (op.port operand).isSome

end ResourceVectorSet

/-! ## The names an operation uses -/

namespace ResourceVector
open MapM

/-- The entries of the resource set of a cycle. -/
def UsesName (fu : FunctionUnit) (op : HWOperation) (cycle : Nat) (r : String) : Prop :=
  (∃ resource ∈ op.pipeline.resourceUsages cycle, "res:" ++ resource = r) ∨
    ∃ operand ∈ op.pipeline.readOperands cycle ++ op.pipeline.writtenOperands cycle,
      portResource fu op operand = some r

section names
variable {fu : FunctionUnit}

theorem mem_ofCycle {op : HWOperation} {cycle : Nat} {names : List String} (h : ofCycle fu op cycle = some names)
    (r : String) : r ∈ names ↔ UsesName fu op cycle r := by
  obtain ⟨readPorts, hread, h⟩ := Option.bind_eq_some_iff.1 h
  obtain ⟨writtenPorts, hwritten, h⟩ := Option.bind_eq_some_iff.1 h
  cases h
  simp only [List.mem_append, List.mem_map, mem_of_mapM hread, mem_of_mapM hwritten, UsesName, or_and_right,
    exists_or, or_assoc]

theorem usesName_past {op : HWOperation} {cycle : Nat} (h : op.latency ≤ cycle) (r : String) :
    ¬UsesName fu op cycle r := by
  have hu := ExecutionPipeline.resourceUsages_past (p := op.pipeline) h
  have hr := ExecutionPipeline.readOperands_past (p := op.pipeline) h
  have hw := ExecutionPipeline.writtenOperands_past (p := op.pipeline) h
  simp [UsesName, hu, hr, hw]

theorem mem_ofPipeline {op : HWOperation} {v : ResourceVector} (h : ofPipeline fu op = some v) (cycle : Nat)
    (r : String) : r ∈ v.resourcesUsedAtCycle cycle ↔ UsesName fu op cycle r := by
  obtain ⟨resources, hres, rfl⟩ := Option.map_eq_some_iff.1 h
  have hall := mapM_eq_some_iff.1 hres
  have hlen : resources.length = op.latency := by
    rw [← hall.length_eq, List.length_range]
  by_cases hlt : cycle < op.latency
  · have hcycle := hall.get (by simpa using hlt) (by rw [hlen]; exact hlt)
    simp only [List.get_eq_getElem, List.getElem_range] at hcycle
    rw [← mem_ofCycle hcycle, resourcesUsedAtCycle, List.getD_eq_getElem?_getD,
      List.getElem?_eq_getElem (by rw [hlen]; exact hlt), Option.getD_some]
  · have hle := Nat.not_lt.1 hlt
    rw [resourcesUsedAtCycle_past (by rw [width, hlen]; exact hle)]
    simpa using usesName_past hle r

theorem portResource_isSome {op : HWOperation} (hop : op ∈ fu.operations) {operand : Nat} :
    (portResource fu op operand).isSome ↔ (op.port operand).isSome := by
  cases hport : op.port operand with
  | none => simp [portResource, hport]
  | some port =>
    obtain ⟨_, _, hlookup, -⟩ := List.lookup_eq_some_iff.1 hport
    have hlt := fu.ports_bound op hop (operand, port) (by rw [hlookup]; simp)
    simp [portResource, hport, List.getElem?_eq_getElem hlt]

/-- The constructor of a vector follows no null pointer when all operands are bound. -/
theorem ofPipeline_isSome {op : HWOperation} (hop : op ∈ fu.operations) :
    (ofPipeline fu op).isSome ↔ ∀ cycle,
      ∀ operand ∈ op.pipeline.readOperands cycle ++ op.pipeline.writtenOperands cycle,
        (op.port operand).isSome := by
  have hcycle (cycle : Nat) : (ofCycle fu op cycle).isSome ↔
      ∀ operand ∈ op.pipeline.readOperands cycle ++ op.pipeline.writtenOperands cycle,
        (op.port operand).isSome := by
    simp only [List.mem_append, or_imp, forall_and, ← portResource_isSome hop, ← mapM_isSome_iff, ofCycle]
    cases (op.pipeline.readOperands cycle).mapM (portResource fu op) with
    | none => simp
    | some _ => cases (op.pipeline.writtenOperands cycle).mapM (portResource fu op) <;> simp
  rw [ofPipeline, Option.isSome_map, mapM_isSome_iff]
  simp only [List.mem_range, hcycle]
  constructor
  · intro h cycle operand hoperand
    by_cases hlt : cycle < op.latency
    · exact h cycle hlt operand hoperand
    · have hr := ExecutionPipeline.readOperands_past (p := op.pipeline) (Nat.not_lt.1 hlt)
      have hw := ExecutionPipeline.writtenOperands_past (p := op.pipeline) (Nat.not_lt.1 hlt)
      simp [hr, hw] at hoperand
  · exact fun h cycle _ => h cycle

/-- The binding strings of two ports that operands are bound to differ. -/
def DistinctBindings (fu : FunctionUnit) : Prop :=
  ∀ op ∈ fu.operations, ∀ other ∈ fu.operations, ∀ b ∈ op.operandBinding, ∀ b' ∈ other.operandBinding,
    (fu.operationPorts[b.2]?).map (·.bindingString) = (fu.operationPorts[b'.2]?).map (·.bindingString) → b.2 = b'.2

theorem isPortUsed_iff {op : HWOperation} {port cycle : Nat} : op.isPortUsed port cycle = true ↔
    ∃ operand ∈ op.pipeline.readOperands cycle ++ op.pipeline.writtenOperands cycle, op.port operand = some port := by
  simp only [HWOperation.isPortUsed, HWOperation.isOperandBound, Bool.or_eq_true, List.any_eq_true,
    beq_iff_eq, List.mem_append, or_and_right, exists_or]

theorem portResource_eq {op : HWOperation} {operand : Nat} {r : String} :
    portResource fu op operand = some r ↔
      ∃ port fuPort, op.port operand = some port ∧ fu.operationPorts[port]? = some fuPort ∧
        "port:" ++ fuPort.bindingString = r := by
  simp only [portResource, Option.bind_eq_bind, Option.bind_eq_some_iff, Option.some.injEq]
  constructor
  · rintro ⟨port, hport, fuPort, hfu, h⟩; exact ⟨port, fuPort, hport, hfu, h⟩
  · rintro ⟨port, fuPort, hport, hfu, h⟩; exact ⟨port, hport, fuPort, hfu, h⟩

theorem port_ne_res (a b : String) : "port:" ++ a ≠ "res:" ++ b := by
  intro h
  have := congrArg String.toList h
  simp at this

/-- The two operations share a name in their cycles exactly when they share a
row of the reservation tables. -/
theorem shares_iff (hdist : DistinctBindings fu) {op other : HWOperation} (hop : op ∈ fu.operations)
    (hother : other ∈ fu.operations) (cycle cycle' : Nat) :
    (∃ r, UsesName fu op cycle r ∧ UsesName fu other cycle' r) ↔ ∃ row < ReservationTable.rowCount fu,
      ReservationTable.rowUsed fu op row cycle = true ∧ ReservationTable.rowUsed fu other row cycle' = true := by
  have hbound {op : HWOperation} {operand port : Nat} (h : op.port operand = some port) :
      (operand, port) ∈ op.operandBinding := by
    obtain ⟨_, _, hlookup, -⟩ := List.lookup_eq_some_iff.1 h
    simp [hlookup]
  constructor
  · rintro ⟨r, ⟨resource, hres, rfl⟩ | ⟨operand, hin, hr⟩, h'⟩
    · rcases h' with ⟨resource', hres', heq⟩ | ⟨operand', -, hr'⟩
      · obtain rfl : resource' = resource := by simpa using heq
        have hlt : cycle < op.latency := Nat.lt_of_not_le fun hle => by
          rw [ExecutionPipeline.resourceUsages_past hle] at hres
          cases hres
        have hmem := fu.elements_used op hop _ (List.getElem_mem hlt) resource' (by
          simpa [ExecutionPipeline.resourceUsages, List.getD_eq_getElem?_getD, List.getElem?_eq_getElem hlt] using hres)
        obtain ⟨k, hk⟩ := List.mem_iff_getElem?.1 hmem
        have hklt := (List.getElem?_eq_some_iff.1 hk).1
        refine ⟨fu.operationPortCount + k, Nat.add_lt_add_left hklt _, ?_, ?_⟩
        · simp [ReservationTable.rowUsed, hk, HWOperation.isResourceUsed, hres]
        · simp [ReservationTable.rowUsed, hk, HWOperation.isResourceUsed, hres']
      · obtain ⟨_, _, -, -, heq⟩ := portResource_eq.1 hr'
        exact absurd heq (port_ne_res _ _)
    · obtain ⟨port, fuPort, hport, hfu, rfl⟩ := portResource_eq.1 hr
      rcases h' with ⟨resource', -, heq⟩ | ⟨operand', hin', hr'⟩
      · exact absurd heq.symm (port_ne_res _ _)
      · obtain ⟨port', fuPort', hport', hfu', heq⟩ := portResource_eq.1 hr'
        have hsame : port = port' := hdist op hop other hother _ (hbound hport) _ (hbound hport') (by
          simpa [hfu, hfu'] using heq.symm)
        subst hsame
        have hlt : port < fu.operationPortCount := (List.getElem?_eq_some_iff.1 hfu).1
        refine ⟨port, Nat.lt_add_right _ hlt, ?_, ?_⟩
        · rw [ReservationTable.rowUsed, if_pos hlt, isPortUsed_iff]
          exact ⟨operand, hin, hport⟩
        · rw [ReservationTable.rowUsed, if_pos hlt, isPortUsed_iff]
          exact ⟨operand', hin', hport'⟩
  · rintro ⟨row, hrow, h, h'⟩
    by_cases hlt : row < fu.operationPortCount
    · rw [ReservationTable.rowUsed, if_pos hlt, isPortUsed_iff] at h h'
      obtain ⟨operand, hin, hport⟩ := h
      obtain ⟨operand', hin', hport'⟩ := h'
      have hfu := List.getElem?_eq_getElem (l := fu.operationPorts) hlt
      exact ⟨_, .inr ⟨operand, hin, portResource_eq.2 ⟨row, _, hport, hfu, rfl⟩⟩,
        .inr ⟨operand', hin', portResource_eq.2 ⟨row, _, hport', hfu, rfl⟩⟩⟩
    · have hk : row - fu.operationPortCount < fu.pipelineElements.length := by
        simp only [ReservationTable.rowCount, FunctionUnit.pipelineElementCount] at hrow
        omega
      simp only [ReservationTable.rowUsed, if_neg hlt, List.getElem?_eq_getElem hk,
        HWOperation.isResourceUsed, List.contains_iff_mem] at h h'
      exact ⟨_, .inl ⟨_, h, rfl⟩, .inl ⟨_, h', rfl⟩⟩

end names
end ResourceVector

namespace ResourceVectorSet
variable {fu : FunctionUnit}

theorem allBound_of_ofUnit {vectors : ResourceVectorSet} (h : ofUnit fu = some vectors) : AllBound fu := by
  intro op hop
  obtain ⟨v, hv, -⟩ := ((foldlM_insert fu fu.operations [] (upper_nodup fu)).1 vectors h).1 op hop
  exact (ResourceVector.ofPipeline_isSome hop).1 (by simp [hv])

theorem ofUnit_of_allBound (h : AllBound fu) : ∃ vectors, ofUnit fu = some vectors :=
  (foldlM_insert fu fu.operations [] (upper_nodup fu)).2 fun op hop =>
    (ResourceVector.ofPipeline_isSome hop).2 (h op hop)

end ResourceVectorSet
end Tce
