import Tce.Scheduler.PipelineUsageRuns

/-!
# Use of a cycle

`isInUse` takes entries that are left over for writes, does not see the last read of a port,
and fails at rows that are missing. When it is right about a cycle is a matter of what is recorded.
-/

namespace Tce.ExecutionPipeline
open ResourceReservationTable

namespace PipelineUsage
variable {unit : UnitPorts} {u u' : PipelineUsage} {resources : ResourceTable} {initiationInterval maxCycle : Nat}
  {ddg : Option DataDependenceGraph}

/-- A read from the port is assigned at the instruction index. -/
def ReadAt (unit : UnitPorts) (u : PipelineUsage) (port m : Nat) : Prop :=
  ∃ entry ∈ u.ep.assignedSourceNodes, unit.resultPort entry.2 = port ∧ u.index entry.1 = m

/-- A slot of the pipeline is held at the instruction index. -/
def Held (u : PipelineUsage) (m : Nat) : Prop := ∃ j, u.ep.fuExecutionPipeline.slot m j ≠ .free

/-- An operand write, a result read or a reservation is there at the instruction index. -/
def Recorded (u : PipelineUsage) (m : Nat) : Prop :=
  (∃ entry ∈ u.ep.assignedDestinationNodes, u.index entry.1 = m) ∨
    (∃ entry ∈ u.ep.assignedSourceNodes, u.index entry.1 = m) ∨ u.Held m

/-- `isInUse` returns, and finds what is recorded. -/
def Correct (unit : UnitPorts) (u : PipelineUsage) (cycle : Nat) : Prop :=
  ∃ inUse, u.isInUse unit cycle = .returned inUse ∧ (inUse = true ↔ u.Recorded (u.index cycle))

/-- An entry of an operand port, which may be left of a write that is unassigned. -/
def HasWriteEntry (unit : UnitPorts) (u : PipelineUsage) (m : Nat) : Prop :=
  ∃ port ∈ unit.ports, ((u.operandsWriten port).find m).isSome = true

/-- A port that reads were recorded of, and of which none is assigned any more. -/
def Emptied (unit : UnitPorts) (u : PipelineUsage) (port : Nat) : Prop :=
  u.resultRead port ≠ none ∧ ∀ m, ¬u.ReadAt unit port m

/-- The port is read at the instruction index and at a later one. -/
def ReadBeforeLast (unit : UnitPorts) (u : PipelineUsage) (m port : Nat) : Prop :=
  u.ReadAt unit port m ∧ ∃ m', m < m' ∧ u.ReadAt unit port m'

/-- A port that is read later, too, comes before those that are emptied. -/
def ReadSeen (unit : UnitPorts) (u : PipelineUsage) (m : Nat) (ports : List Nat) : Prop :=
  ∃ before port after, ports = before ++ port :: after ∧ u.ReadBeforeLast unit m port ∧
    ∀ p ∈ before, ¬u.Emptied unit p

/-- What `isInUse` finds of the reservations and of the last reads is all there is. -/
def SlotsTell (u : PipelineUsage) (m : Nat) : Prop :=
  (m < u.ep.size u.ep.fuExecutionPipeline ∧
    (u.ep.fuExecutionPipeline.row m).length = u.ep.resources.numberOfResources ∧
    (u.Held m ∨ ∀ entry ∈ u.ep.assignedSourceNodes, u.index entry.1 ≠ m)) ∨
  (u.ep.size u.ep.fuExecutionPipeline ≤ m ∧ ¬u.Held m ∧ ∀ entry ∈ u.ep.assignedSourceNodes, u.index entry.1 ≠ m)

def Answers (unit : UnitPorts) (u : PipelineUsage) (m : Nat) : Prop :=
  (u.HasWriteEntry unit m ∧ u.Recorded m) ∨
  (¬u.HasWriteEntry unit m ∧ (u.ReadSeen unit m unit.ports ∨
    ((∀ port ∈ unit.ports, ¬u.Emptied unit port) ∧ u.SlotsTell m)))

theorem not_readSeen_nil {m : Nat} : ¬u.ReadSeen unit m [] := by
  rintro ⟨before, port, after, heq, -⟩
  exact List.append_ne_nil_of_right_ne_nil before (List.cons_ne_nil port after) heq.symm

theorem readSeen_cons {m port : Nat} {ports : List Nat} : u.ReadSeen unit m (port :: ports) ↔
    u.ReadBeforeLast unit m port ∨ (¬u.Emptied unit port ∧ u.ReadSeen unit m ports) := by
  constructor
  · rintro ⟨before, port', after, heq, hread, hbefore⟩
    cases before with
    | nil =>
      cases heq
      exact .inl hread
    | cons p before =>
      cases heq
      exact .inr ⟨hbefore _ List.mem_cons_self, before, port', after, rfl, hread,
        fun p hp => hbefore p (List.mem_cons_of_mem _ hp)⟩
  · rintro (hread | ⟨hkept, before, port', after, rfl, hread, hbefore⟩)
    · exact ⟨[], port, ports, rfl, hread, nofun⟩
    · refine ⟨port :: before, port', after, rfl, hread, fun p hp => ?_⟩
      obtain rfl | hp := List.mem_cons.1 hp
      · exact hkept
      · exact hbefore p hp

namespace Kept

theorem emptied_iff (h : Kept unit u) {port : Nat} {v : SparseVector ResultHelperPair}
    (hv : u.resultRead port = some v) : u.Emptied unit port ↔ v.size = 0 := by
  have hof : u.readsOf port = v := by rw [readsOf, hv, Option.getD_some]
  constructor
  · intro hemptied
    by_contra hne
    have hlast := SparseVector.find_last hne
    rw [← hof] at hlast
    exact hemptied.2 _ (h.find_isSome_iff.1 hlast)
  · intro hsize
    refine ⟨by rw [hv]; exact Option.some_ne_none v, fun m hread => ?_⟩
    have hsome := h.find_isSome_iff.2 hread
    rw [hof] at hsome
    have := SparseVector.lt_size (Option.isSome_iff_ne_none.1 hsome)
    omega

theorem readBeforeLast_iff (h : Kept unit u) {m port : Nat} {v : SparseVector ResultHelperPair}
    (hv : u.resultRead port = some v) :
    (m < v.size - 1 ∧ ((v.find m).getD (.free 0)).first.po.isSome = true) ↔ u.ReadBeforeLast unit m port := by
  have hof : u.readsOf port = v := by rw [readsOf, hv, Option.getD_some]
  constructor
  · rintro ⟨hlt, hsome⟩
    have hlast := SparseVector.find_last (show v.size ≠ 0 by omega)
    rw [← hof] at hlast
    refine ⟨h.find_isSome_iff.1 ?_, _, hlt, hof ▸ h.find_isSome_iff.1 hlast⟩
    rw [hof]
    cases hfind : v.find m with
    | none =>
      rw [hfind] at hsome
      cases hsome
    | some rhp => rfl
  · rintro ⟨hread, m', hlt, hlater⟩
    have hsome := h.find_isSome_iff.2 hread
    have hlater := h.find_isSome_iff.2 hlater
    rw [hof] at hsome hlater
    have := SparseVector.lt_size (Option.isSome_iff_ne_none.1 hlater)
    obtain ⟨rhp, hrhp⟩ := Option.isSome_iff_exists.1 hsome
    refine ⟨by omega, ?_⟩
    rw [hrhp, Option.getD_some]
    exact (h.reads_filled port m rhp (hof ▸ hrhp)).isSome

/-- A port that is not in the map is not read. -/
theorem not_readAt (h : Kept unit u) {m port : Nat} (hnone : u.resultRead port = none) : ¬u.ReadAt unit port m := by
  intro hread
  have hsome := h.find_isSome_iff.2 hread
  rw [readsOf, hnone] at hsome
  cases hsome

/-- The loop over the ports ends at an emptied port, or at the first that is read later, too. -/
theorem readBeforeLast_spec (h : Kept unit u) (m : Nat) (ports : List Nat) :
    match u.readBeforeLast m ports with
    | none => ¬u.ReadSeen unit m ports ∧ ∃ port ∈ ports, u.Emptied unit port
    | some true => u.ReadSeen unit m ports
    | some false => ¬u.ReadSeen unit m ports ∧ ∀ port ∈ ports, ¬u.Emptied unit port := by
  induction ports with
  | nil => exact ⟨not_readSeen_nil, nofun⟩
  | cons port ports ih =>
    rw [readBeforeLast]
    simp only [readSeen_cons, List.mem_cons, exists_eq_or_imp, forall_eq_or_imp]
    cases hv : u.resultRead port with
    | none =>
      have hread : ¬u.ReadBeforeLast unit m port := fun hread => h.not_readAt hv hread.1
      have hkept : ¬u.Emptied unit port := fun hemptied => hemptied.1 hv
      simp only [hread, hkept, not_false_eq_true, true_and, false_or]
      exact ih
    | some v =>
      dsimp only
      by_cases hsize : v.size = 0
      · have hemptied := (h.emptied_iff hv).2 hsize
        rw [if_pos hsize]
        exact ⟨fun hor => hor.elim (fun hread => hemptied.2 m hread.1) fun hand => hand.1 hemptied, .inl hemptied⟩
      · have hkept : ¬u.Emptied unit port := fun hemptied => hsize ((h.emptied_iff hv).1 hemptied)
        rw [if_neg hsize]
        by_cases hlast : m < v.size - 1 ∧ ((v.find m).getD (.free 0)).first.po.isSome = true
        · rw [if_pos hlast]
          exact .inl ((h.readBeforeLast_iff hv).1 hlast)
        · have hread : ¬u.ReadBeforeLast unit m port := fun hread => hlast ((h.readBeforeLast_iff hv).2 hread)
          rw [if_neg hlast]
          simp only [hread, hkept, not_false_eq_true, true_and, false_or]
          exact ih

/-- A slot with a first trigger is held. -/
theorem held_iff (h : Kept unit u) {m : Nat}
    (hlength : (u.ep.fuExecutionPipeline.row m).length = u.ep.resources.numberOfResources) :
    ((List.range u.ep.resources.numberOfResources).any fun j =>
      (u.ep.fuExecutionPipeline.slot m j).first.isSome) = true ↔ u.Held m := by
  rw [List.any_eq_true]
  constructor
  · rintro ⟨j, -, hfirst⟩
    refine ⟨j, fun hfree => ?_⟩
    rw [hfree] at hfirst
    cases hfirst
  · rintro ⟨j, hheld⟩
    have hlt : j < (u.ep.fuExecutionPipeline.row m).length := by
      by_contra hge
      apply hheld
      rw [slot, List.getElem?_eq_none (Nat.not_lt.1 hge)]
      rfl
    refine ⟨j, List.mem_range.2 (hlength ▸ hlt), ?_⟩
    rw [Option.isSome_iff_ne_none]
    intro hfirst
    have hsecond : (u.ep.fuExecutionPipeline.slot m j).second = none := by
      by_contra hne
      exact h.table m j hne hfirst
    exact hheld (by
      cases hslot : u.ep.fuExecutionPipeline.slot m j with
      | mk first second =>
        rw [hslot] at hfirst hsecond
        rw [ResourceReservation.free, show first = none from hfirst, show second = none from hsecond])

/-- The part of `isInUse` after the loops. -/
theorem slotsTell_iff (h : Kept unit u) (m : Nat) :
    (∃ inUse, (if u.ep.size u.ep.fuExecutionPipeline ≤ m then Answer.returned false
      else if u.ep.resources.numberOfResources ≠ (u.ep.fuExecutionPipeline.row m).length then
        .thrown "Execution pipeline is missing resources!"
      else .returned ((List.range u.ep.resources.numberOfResources).any fun j =>
        (u.ep.fuExecutionPipeline.slot m j).first.isSome)) = .returned inUse ∧
      (inUse = true ↔ (∃ entry ∈ u.ep.assignedSourceNodes, u.index entry.1 = m) ∨ u.Held m)) ↔ u.SlotsTell m := by
  have hnoRead : (∀ entry ∈ u.ep.assignedSourceNodes, u.index entry.1 ≠ m) ↔
      ¬∃ entry ∈ u.ep.assignedSourceNodes, u.index entry.1 = m := by
    simp only [ne_eq, not_exists, not_and]
  unfold SlotsTell
  rw [hnoRead]
  by_cases hsize : u.ep.size u.ep.fuExecutionPipeline ≤ m
  · rw [if_pos hsize]
    constructor
    · rintro ⟨inUse, heq, hiff⟩
      cases heq
      have hnone := fun hrecorded => Bool.false_ne_true (hiff.2 hrecorded)
      exact .inr ⟨hsize, fun hheld => hnone (.inr hheld), fun hread => hnone (.inl hread)⟩
    · rintro (⟨hlt, -⟩ | ⟨-, hheld, hread⟩)
      · exact absurd hsize (Nat.not_le.2 hlt)
      · exact ⟨false, rfl, nofun, fun hrecorded => absurd hrecorded (not_or.2 ⟨hread, hheld⟩)⟩
  · rw [if_neg hsize]
    by_cases hlength : u.ep.resources.numberOfResources = (u.ep.fuExecutionPipeline.row m).length
    · rw [if_neg (not_not.2 hlength)]
      constructor
      · rintro ⟨inUse, heq, hiff⟩
        cases heq
        rw [h.held_iff hlength.symm] at hiff
        refine .inl ⟨Nat.not_le.1 hsize, hlength.symm, ?_⟩
        by_cases hread : ∃ entry ∈ u.ep.assignedSourceNodes, u.index entry.1 = m
        · exact .inl (hiff.2 (.inl hread))
        · exact .inr hread
      · rintro (⟨-, -, hor⟩ | ⟨hle, -⟩)
        · refine ⟨_, rfl, ?_⟩
          rw [h.held_iff hlength.symm]
          exact ⟨.inr, fun hrecorded => hor.elim id fun hread => hrecorded.resolve_left hread⟩
        · exact absurd hle hsize
    · rw [if_pos hlength]
      constructor
      · rintro ⟨inUse, heq, -⟩
        cases heq
      · rintro (⟨-, hsame, -⟩ | ⟨hle, -⟩)
        · exact absurd hsame.symm hlength
        · exact absurd hle hsize

/-- An operand write is in an entry. -/
theorem hasWriteEntry (h : Kept unit u) {entry : Nat × MoveNode} (hmem : entry ∈ u.ep.assignedDestinationNodes) :
    u.HasWriteEntry unit (u.index entry.1) := by
  refine ⟨_, unit.operandPort_mem entry.2, ?_⟩
  have hhas := (h.writes_has _ _ entry.2).2 ⟨entry.1, hmem, rfl, rfl⟩
  by_contra hnone
  rw [Bool.not_eq_true, Option.isSome_eq_false_iff, Option.isNone_iff_eq_none] at hnone
  rw [writes, hnone] at hhas
  exact OperandWrites.not_has_free hhas

end Kept

/-- In every run `isInUse` is right about a cycle exactly if a write entry is not
left over, or else the ports of the results and the slots of the pipeline tell. -/
theorem answers_of_reached (h : Reached unit resources initiationInterval maxCycle ddg u) (cycle : Nat) :
    u.Correct unit cycle ↔ u.Answers unit (u.index cycle) := by
  have hkept := kept_of_reached h
  unfold Correct Answers isInUse
  generalize u.index cycle = m
  dsimp only
  by_cases hentry : u.HasWriteEntry unit m
  · rw [if_pos (List.any_eq_true.2 hentry)]
    simp only [hentry, not_true, false_and, or_false, true_and]
    constructor
    · rintro ⟨inUse, heq, hiff⟩
      cases heq
      exact hiff.1 rfl
    · exact fun hrecorded => ⟨true, rfl, fun _ => hrecorded, fun _ => rfl⟩
  · rw [if_neg fun hany => hentry (List.any_eq_true.1 hany)]
    simp only [hentry, not_false_eq_true, false_and, false_or, true_and]
    have hrecorded : u.Recorded m ↔ (∃ entry ∈ u.ep.assignedSourceNodes, u.index entry.1 = m) ∨ u.Held m := by
      refine or_iff_right fun ⟨entry, hmem, hindex⟩ => hentry ?_
      rw [← hindex]
      exact hkept.hasWriteEntry hmem
    have hspec := hkept.readBeforeLast_spec m unit.ports
    cases hloop : u.readBeforeLast m unit.ports with
    | none =>
      rw [hloop] at hspec
      obtain ⟨hseen, port, hport, hemptied⟩ := hspec
      constructor
      · rintro ⟨inUse, heq, -⟩
        cases heq
      · rintro (hread | ⟨hnone, -⟩)
        · exact absurd hread hseen
        · exact absurd hemptied (hnone port hport)
    | some seen =>
      cases seen with
      | true =>
        rw [hloop] at hspec
        refine ⟨fun _ => .inl hspec, fun _ => ⟨true, rfl, fun _ => ?_, fun _ => rfl⟩⟩
        obtain ⟨-, port, -, -, ⟨⟨entry, hmem, -, hindex⟩, -⟩, -⟩ := hspec
        exact hrecorded.2 (.inl ⟨entry, hmem, hindex⟩)
      | false =>
        rw [hloop] at hspec
        have hslots := hkept.slotsTell_iff m
        rw [← hrecorded] at hslots
        exact hslots.trans ⟨fun h => .inr ⟨hspec.2, h⟩, fun h => (h.resolve_left hspec.1).2⟩

/-! ## A division -/

def dividerPorts : UnitPorts where
  ports := [1, 2, 3]
  operandPort node := if node.isTriggering then 1 else 2
  resultPort _ := 3
  sourceOperation _ := 0
  operandPort_mem node := by split <;> decide
  resultPort_mem _ := by decide

def quotient : MoveNode := ⟨1, true, none, false, false, false, "", ""⟩

/-- The division is triggered in cycle 0, and its result is read in cycle 3. -/
theorem reached_division : ∃ u, Reached dividerPorts ExecutionPipelineResource.divider 0 intMax none u ∧
    u.isInUse dividerPorts 3 = .returned false ∧
    u.ep.initiationInterval = 0 ∧ u.ep.assignedSourceNodes = [(3, quotient)] ∧
    u.ep.resources = ExecutionPipelineResource.divider ∧ u.ep.size u.ep.fuExecutionPipeline = 3 ∧
    u.ep.fuExecutionPipeline.row 1 = [⟨some ExecutionPipelineResource.division, none⟩] ∧
    ∀ port ∈ dividerPorts.ports, (u.operandsWriten port).find 1 = none ∧ (u.resultRead port = none ∨ port = 3) := by
  refine ⟨_, .next (.next .start (.assignDestination (fun _ => none) 0 ExecutionPipelineResource.division _
    List.not_mem_nil rfl)) (.assignSource 3 quotient (some 3) _ List.not_mem_nil rfl), rfl, rfl, rfl, rfl, rfl, rfl, ?_⟩
  decide

/-- In the cycle after the trigger only the pipeline is held. -/
theorem correct_division : ∃ u, Reached dividerPorts ExecutionPipelineResource.divider 0 intMax none u ∧
    u.Correct dividerPorts 1 := by
  obtain ⟨u, hreached, -, hinterval, hsources, hresources, hsize, hrow, hports⟩ := reached_division
  have hindex : u.index 1 = 1 := by
    rw [index, ExecutionPipelineResource.index, hinterval]
    rfl
  refine ⟨u, hreached, (answers_of_reached hreached 1).2 (.inr ⟨?_, .inr ⟨?_, .inl ⟨?_, ?_, .inl ⟨0, ?_⟩⟩⟩⟩)⟩
  · rintro ⟨port, hport, hsome⟩
    rw [hindex, (hports port hport).1] at hsome
    cases hsome
  · rintro port hport ⟨hread, hnone⟩
    obtain rfl := (hports port hport).2.resolve_left hread
    exact hnone (u.index 3) ⟨_, by rw [hsources]; exact List.mem_singleton_self _, rfl, rfl⟩
  · rw [hindex, hsize]
    decide
  · rw [hindex, hrow, hresources]
    rfl
  · rw [hindex, slot, hrow]
    intro h
    cases h

/-- The last read is not in use. -/
theorem not_correct_lastRead : ¬∀ u, Reached dividerPorts ExecutionPipelineResource.divider 0 intMax none u →
    ∀ cycle, u.Correct dividerPorts cycle := by
  intro h
  obtain ⟨u, hreached, hunused, -, hsources, -⟩ := reached_division
  obtain ⟨inUse, hinUse, hiff⟩ := h u hreached 3
  rw [hunused] at hinUse
  cases hinUse
  exact Bool.false_ne_true (hiff.2 (.inr (.inl ⟨_, by rw [hsources]; exact List.mem_singleton_self _, rfl⟩)))

end PipelineUsage

end Tce.ExecutionPipeline
