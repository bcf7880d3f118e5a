import Tce.Simulator.ConflictDetectors
import Tce.Mach.ResourceVector

/-!
# The resource vector detector

`ResourceVectorFUResourceConflictDetector` keeps one composite vector. Column 0
is the cycle before the current one, so operations are tested and merged at
offset 1.
-/

namespace Tce

open Monitor

namespace ResourceVectorDetector

def issueOperation (vectors : ResourceVectorSet) (compositeVector : ResourceVector) (id : Nat) :
    Option (Bool × ResourceVector) := do
  let operationVector ← vectors.resourceVector id
  if compositeVector.conflictsWith operationVector 1 then some (false, compositeVector)
  else some (true, compositeVector.mergeWith operationVector 1)

def advanceCycle (compositeVector : ResourceVector) : ResourceVector := compositeVector.shiftLeft

def operationID (vectors : ResourceVectorSet) (operationName : String) : Option Nat :=
  vectors.operationIndex (Names.stringToUpper operationName)

def reset (compositeVector : ResourceVector) : ResourceVector := compositeVector.clear

/-- The identifiers of this detector are looked up by name. -/
def monitor (fu : FunctionUnit) (vectors : ResourceVectorSet) : Monitor fu.OperationID ResourceVector where
  issue compositeVector op :=
    (operationID vectors (fu.operation op).name).bind (issueOperation vectors compositeVector)
  advance compositeVector := some (advanceCycle compositeVector)

end ResourceVectorDetector

section vectors
variable {fu : FunctionUnit}

/-- The vector keeps the names used by the past, from column 1 on. -/
def VectorOf (fu : FunctionUnit) (v : ResourceVector) (past : Past fu.OperationID) : Prop :=
  ∀ cycle r, r ∈ v.resourcesUsedAtCycle (cycle + 1) ↔
    ∃ p ∈ past, ResourceVector.UsesName fu (fu.operation p.2) (cycle + p.1) r

/-- No cycle without resources comes before the first one that the composite
vector shares with the operation. -/
def NoGapFirst (fu : FunctionUnit) (composite : ResourceVector) (op : fu.OperationID) : Prop :=
  ∀ v, ResourceVector.ofPipeline fu (fu.operation op) = some v → composite.NoGapFirst v 1

variable (hh : BitMatrix.Holds fu.maxLatency) (hdist : ResourceVector.DistinctBindings fu)
include hh hdist

/-- What the composite vector shares with an operation is a clash with the past. -/
theorem VectorOf.shares_iff {composite v : ResourceVector} {past : Past fu.OperationID}
    (hc : VectorOf fu composite past) {op : fu.OperationID}
    (hv : ResourceVector.ofPipeline fu (fu.operation op) = some v) :
    (∃ c, composite.SharesAt v 1 c) ↔ Clashes fu.clash past op := by
  have hmem (id : fu.OperationID) : fu.operation id ∈ fu.operations := List.getElem_mem _
  constructor
  · rintro ⟨c, hle, r, hr, hr'⟩
    obtain ⟨cycle, rfl⟩ : ∃ cycle, c = cycle + 1 := ⟨c - 1, by omega⟩
    obtain ⟨p, hp, huses⟩ := (hc cycle r).1 hr
    rw [Nat.add_sub_cancel, ResourceVector.mem_ofPipeline hv] at hr'
    obtain ⟨row, hrow, h1, h2⟩ := (ResourceVector.shares_iff hdist (hmem p.2) (hmem op) _ _).1 ⟨r, huses, hr'⟩
    exact ⟨p, hp, (clash_iff hh p.2 op p.1).2 ⟨row, hrow, cycle, h1, h2⟩⟩
  · rintro ⟨p, hp, hclash⟩
    obtain ⟨row, hrow, cycle, h1, h2⟩ := (clash_iff hh p.2 op p.1).1 hclash
    obtain ⟨r, huses, huses'⟩ := (ResourceVector.shares_iff hdist (hmem p.2) (hmem op) _ _).2 ⟨row, hrow, h1, h2⟩
    refine ⟨cycle + 1, by omega, r, (hc cycle r).2 ⟨p, hp, huses⟩, ?_⟩
    rw [Nat.add_sub_cancel, ResourceVector.mem_ofPipeline hv]
    exact huses'

/-- The composite vector follows the past and answers rightly exactly when no
gap comes first. -/
theorem resourceVector_tracks {vectors : ResourceVectorSet} (hvectors : ResourceVectorSet.ofUnit fu = some vectors) :
    (ResourceVectorDetector.monitor fu vectors).Tracks (pastMonitor fu.clash) (NoGapFirst fu)
      (VectorOf fu) (VectorOf fu) where
  idle _ _ h := h
  issue composite past op hc := by
    obtain ⟨v, hv, hfind⟩ := ResourceVectorSet.ofUnit_find hvectors op
    have hissue : (ResourceVectorDetector.monitor fu vectors).issue composite op =
        if composite.conflictsWith v 1 then some (false, composite)
        else some (true, composite.mergeWith v 1) := by
      obtain ⟨id, hid, hget⟩ := Option.bind_eq_some_iff.1 hfind
      simp [ResourceVectorDetector.monitor, ResourceVectorDetector.operationID, hid,
        ResourceVectorDetector.issueOperation, hget]
    have hcond : (composite.conflictsWith v 1 = true ↔ Clashes fu.clash past op) ↔ NoGapFirst fu composite op := by
      rw [← hc.shares_iff hh hdist hv, ResourceVector.conflictsWith_right_iff]
      exact ⟨fun h w hw => Option.some.inj (hv.symm.trans hw) ▸ h, fun h => h v hv⟩
    have hmerged : VectorOf fu (composite.mergeWith v 1) ((0, op) :: past) := by
      intro cycle r
      rw [ResourceVector.mem_mergeWith (by omega), hc, Nat.add_sub_cancel, ResourceVector.mem_ofPipeline hv, or_comm]
      simp
    by_cases hclash : Clashes fu.clash past op
    · rw [pastMonitor_issue_reject hclash, hissue, ← hcond]
      cases hconf : composite.conflictsWith v 1 with
      | true => exact ⟨false, _, false, _, rfl, rfl, by simp [hclash], by simp⟩
      | false => exact ⟨true, _, false, _, rfl, rfl, by simp [hclash], by simp⟩
    · rw [pastMonitor_issue_accept hclash, hissue, ← hcond]
      cases hconf : composite.conflictsWith v 1 with
      | true => exact ⟨false, _, true, _, rfl, rfl, by simp [hclash], by simp⟩
      | false => exact ⟨true, _, true, _, rfl, rfl, by simp [hclash], fun _ _ => hmerged⟩
  advance composite past hc := by
    refine ⟨_, _, rfl, rfl, fun cycle r => ?_⟩
    rw [ResourceVectorDetector.advanceCycle, ResourceVector.resourcesUsedAtCycle_shiftLeft, hc]
    constructor
    · rintro ⟨p, hp, huses⟩
      exact ⟨_, Past.mem_older.2 ⟨p, hp, rfl⟩, by simpa [Nat.add_assoc, Nat.add_comm 1] using huses⟩
    · rintro ⟨p, hp, huses⟩
      obtain ⟨q, hq, rfl⟩ := Past.mem_older.1 hp
      exact ⟨q, hq, by simpa [Nat.add_assoc, Nat.add_comm 1] using huses⟩

/-- The detector agrees with the reservation tables in exactly the runs in which
no cycle without resources comes before the first shared one, and its vectors
can be built exactly when all operands are bound. -/
theorem resourceVector_agrees_iff (composite : ResourceVector) {rt : BitMatrix}
    (hrt : ReservationTableDetector.Used fu rt) (run : List (Option fu.OperationID)) :
    (∀ (this other : ResourceVector) cycle,
      (this.conflictsWith other cycle = true ↔ ∃ c, this.SharesAt other cycle c) ↔ this.NoGapFirst other cycle) ∧
    ((∃ vectors, ResourceVectorSet.ofUnit fu = some vectors ∧
        (ResourceVectorDetector.monitor fu vectors).answers (ResourceVectorDetector.reset composite) run =
          (ReservationTableDetector.monitor fu).answers (ReservationTableDetector.reset rt) run) ↔
      ResourceVectorSet.AllBound fu ∧ ∀ vectors, ResourceVectorSet.ofUnit fu = some vectors →
        (ResourceVectorDetector.monitor fu vectors).Meets (NoGapFirst fu)
          (ResourceVectorDetector.reset composite) run) := by
  refine ⟨ResourceVector.conflictsWith_right_iff, ?_⟩
  obtain ⟨as, hrt_answers, hpast⟩ := (reservationTable_tracks hh).answers_eq run _ _ (reservationTable_reset hrt)
    (meets_true _ _ run)
  have hstart : VectorOf fu (ResourceVectorDetector.reset composite) [] := by
    intro cycle r
    simp [ResourceVectorDetector.reset]
  have hiff {vectors : ResourceVectorSet} (hvectors : ResourceVectorSet.ofUnit fu = some vectors) :=
    (resourceVector_tracks hh hdist hvectors).answers_eq_iff hstart run
  rw [hpast] at hiff
  rw [hrt_answers]
  constructor
  · rintro ⟨vectors, hvectors, heq⟩
    refine ⟨ResourceVectorSet.allBound_of_ofUnit hvectors, fun vectors' hvectors' => ?_⟩
    obtain rfl := Option.some.inj (hvectors.symm.trans hvectors')
    exact (hiff hvectors).1 heq
  · rintro ⟨hbound, hmeets⟩
    obtain ⟨vectors, hvectors⟩ := ResourceVectorSet.ofUnit_of_allBound hbound
    exact ⟨vectors, hvectors, (hiff hvectors).2 (hmeets vectors hvectors)⟩

end vectors

/-- Issued in two cycles one after the other, the operation shares its second cycle at once. -/
theorem resourceVector_agrees_iff_twoCycles :
    let fu := oneOperation [["r"], ["r"]] (by simp)
    ResourceVectorSet.AllBound fu ∧ ∀ vectors, ResourceVectorSet.ofUnit fu = some vectors →
      (ResourceVectorDetector.monitor fu vectors).Meets (NoGapFirst fu) (ResourceVectorDetector.reset ⟨[]⟩)
        [some ⟨0, by decide⟩, some ⟨0, by decide⟩] := by
  intro fu
  have hdist : ResourceVector.DistinctBindings fu := by
    intro op hop _ _ b hb
    rw [List.mem_singleton.1 hop] at hb
    cases hb
  exact (resourceVector_agrees_iff (by decide : BitMatrix.Holds fu.maxLatency) hdist ⟨[]⟩ .start
    [some ⟨0, by decide⟩, some ⟨0, by decide⟩]).2.1 ⟨_, rfl, by decide⟩

/-- The first cycle of the operation uses nothing: the scan gives up there and
misses the resource that both issues use later. -/
theorem resourceVector_misses :
    ¬∀ fu : FunctionUnit, ResourceVector.DistinctBindings fu → ResourceVectorSet.AllBound fu →
      ∀ vectors, ResourceVectorSet.ofUnit fu = some vectors → ∀ run,
        (ResourceVectorDetector.monitor fu vectors).answers ⟨[]⟩ run =
          (ReservationTableDetector.monitor fu).answers (ReservationTable.ofUnit fu) run := by
  intro h
  have hdist : ResourceVector.DistinctBindings (oneOperation [[], ["r"], ["r"]] (by simp)) := by
    intro op hop _ _ b hb
    rw [List.mem_singleton.1 hop] at hb
    cases hb
  have hvectors : ∃ vectors, ResourceVectorSet.ofUnit (oneOperation [[], ["r"], ["r"]] (by simp)) = some vectors :=
    ⟨_, rfl⟩
  have hbound := ResourceVectorSet.allBound_of_ofUnit hvectors.choose_spec
  have := h _ hdist hbound _ rfl [some ⟨0, by decide⟩, some ⟨0, by decide⟩]
  revert this
  decide

end Tce
