import Mathlib.Algebra.Order.BigOperators.Group.List
import Tce.Scheduler.RegisterCopyMoves

/-!
# The choice of a unit

With clear transports the unit chosen is one of those with the fewest copies, its
copies are added, and the units that need no more become candidates.
-/

namespace Tce.RegisterCopyAdder

namespace Adder
variable {adder : Adder}

/-! ## The fewest copies -/

/-- The first entry with the least finite count, if there is one. -/
theorem minimum_spec (entries : List (FunctionUnit × ℕ∞)) (best : Option (FunctionUnit × ℕ∞))
    (hbest : ∀ b, best = some b → b.2 ≠ ⊤) :
    (minimum entries best = none ∧ best = none ∧ ∀ entry ∈ entries, entry.2 = ⊤) ∨
      ∃ chosen, minimum entries best = some chosen ∧ (chosen ∈ entries ∨ best = some chosen) ∧ chosen.2 ≠ ⊤ ∧
        (∀ entry ∈ entries, chosen.2 ≤ entry.2) ∧ ∀ b, best = some b → chosen.2 ≤ b.2 := by
  induction entries generalizing best with
  | nil =>
    cases best with
    | none => exact .inl ⟨rfl, rfl, fun entry hentry => absurd hentry List.not_mem_nil⟩
    | some b =>
      refine .inr ⟨b, rfl, .inr rfl, hbest b rfl, fun entry hentry => absurd hentry List.not_mem_nil, fun b' hb' => ?_⟩
      rw [Option.some.inj hb']
  | cons entry entries ih =>
    obtain ⟨unit, copies⟩ := entry
    rw [minimum]
    by_cases hless : copies < (best.map (·.2)).getD ⊤
    · rw [if_pos hless]
      have hbefore (b : FunctionUnit × ℕ∞) (hb : best = some b) : copies ≤ b.2 := by
        rw [hb] at hless
        exact hless.le
      by_cases hzero : copies = 0
      · rw [if_pos hzero, hzero]
        exact .inr ⟨(unit, 0), rfl, .inl List.mem_cons_self, ENat.zero_ne_top, fun _ _ => zero_le,
          fun _ _ => zero_le⟩
      · rw [if_neg hzero]
        have hfinite (b : FunctionUnit × ℕ∞) (hb : some (unit, copies) = some b) : b.2 ≠ ⊤ := by
          rw [← Option.some.inj hb]
          exact hless.ne_top
        rcases ih _ hfinite with ⟨-, hnone, -⟩ | ⟨chosen, hchosen, hmem, hne, hall, hle⟩
        · cases hnone
        · have hle' := hle (unit, copies) rfl
          refine .inr ⟨chosen, hchosen, .inl ?_, hne, List.forall_mem_cons.2 ⟨hle', hall⟩, fun b hb => ?_⟩
          · rcases hmem with hmem | heq
            · exact List.mem_cons_of_mem _ hmem
            · rw [← Option.some.inj heq]
              exact List.mem_cons_self
          · exact hle'.trans (hbefore b hb)
    · rw [if_neg hless]
      rcases ih best hbest with ⟨hnone, hbest', hall⟩ | ⟨chosen, hchosen, hmem, hne, hall, hle⟩
      · refine .inl ⟨hnone, hbest', List.forall_mem_cons.2 ⟨?_, hall⟩⟩
        rw [hbest'] at hless
        exact not_lt_top_iff.1 hless
      · refine .inr ⟨chosen, hchosen, hmem.imp_left (List.mem_cons_of_mem _), hne,
          List.forall_mem_cons.2 ⟨?_, hall⟩, hle⟩
        cases best with
        | none =>
          rw [not_lt_top_iff.1 hless]
          exact le_top
        | some b => exact (hle b rfl).trans (not_lt.1 hless)

/-! ## Copies of an operation -/

theorem fewestMoveCopies_le {unit : FunctionUnit} {move : Move} {moves : List Move} (h : move ∈ moves) :
    adder.fewestMoveCopies unit move ≤ adder.fewestUnitCopies unit moves :=
  List.single_le_sum (fun _ _ => zero_le) _ (List.mem_map_of_mem h)

/-- A move with its copies. -/
def Inserted (adder : Adder) (unit : FunctionUnit) (neededCopies : Nat) (move : Move) (insertion : Insertion) : Prop :=
  (insertion.count : ℕ∞) ≤ adder.fewestMoveCopies unit move ∧ adder.Rewritten neededCopies move insertion.move

def addedCopies (insertions : List Insertion) : Nat := (insertions.map (·.count)).sum

theorem addedCopies_le {unit : FunctionUnit} {neededCopies : Nat} {moves : List Move} {insertions : List Insertion}
    (h : List.Forall₂ (adder.Inserted unit neededCopies) moves insertions) :
    (addedCopies insertions : ℕ∞) ≤ adder.fewestUnitCopies unit moves := by
  induction h with
  | nil => exact le_refl _
  | cons hmove _ ih =>
    rw [addedCopies, List.map_cons, List.sum_cons, fewestUnitCopies_cons, Nat.cast_add]
    exact add_le_add hmove.1 ih

theorem addRegisterCopies_clear {unit : FunctionUnit} {operation : ProgramOperation}
    (h : ∀ move ∈ operation.moves, adder.ClearMove unit move) {copies : Nat}
    (hcopies : adder.fewestUnitCopies unit operation.moves = copies) :
    ∃ added, adder.addRegisterCopies unit copies operation = .ok added ∧
      List.Forall₂ (adder.Inserted unit copies) operation.inputMoves added.1 ∧
      List.Forall₂ (adder.Inserted unit copies) operation.outputMoves added.2 := by
  have hmove (move : Move) (hmove : move ∈ operation.moves) :
      ∃ insertion, adder.addMoveCopies unit copies move = .ok insertion ∧
        adder.Inserted unit copies move insertion := by
    have hle : adder.fewestMoveCopies unit move ≤ copies := hcopies ▸ fewestMoveCopies_le hmove
    apply addMoveCopies_clear (h move hmove) (ne_top_of_le_ne_top (ENat.natCast_ne_top copies) hle)
    intro hne hzero
    rw [hzero] at hle
    exact hne (le_antisymm hle zero_le)
  obtain ⟨inputs, hinputs, hall⟩ := MapM.mapM_ok fun move h => hmove move (List.mem_append_left _ h)
  obtain ⟨outputs, houtputs, hall'⟩ := MapM.mapM_ok fun move h => hmove move (List.mem_append_right _ h)
  refine ⟨(inputs, outputs), ?_, hall, hall'⟩
  rw [addRegisterCopies, hinputs, houtputs]
  rfl

theorem Rewritten.allowedUnits {neededCopies : Nat} {move move' : Move} (h : adder.Rewritten neededCopies move move') :
    move'.allowedUnits = move.allowedUnits := by
  cases h <;> rfl

/-- The parts at the unit allow the units that the moves did. -/
theorem units_inserted {unit : FunctionUnit} {neededCopies : Nat} {operation inserted : ProgramOperation}
    {insertions : List Insertion} (hname : inserted.name = operation.name)
    (hmoves : inserted.moves = insertions.map (·.move))
    (h : List.Forall₂ (adder.Inserted unit neededCopies) operation.moves insertions) :
    adder.units inserted = adder.units operation := by
  rw [units, units, hname]
  have hallowed (other : FunctionUnit) : isAllowedUnit other inserted = isAllowedUnit other operation := by
    rw [isAllowedUnit, isAllowedUnit, hmoves]
    clear hmoves
    generalize operation.moves = moves at h
    induction h with
    | nil => rfl
    | cons hmove _ ih => rw [List.map_cons, List.all_cons, List.all_cons, ih, hmove.2.allowedUnits]
  simp only [hallowed]

/-! ## Candidates -/

def annotated (operation : ProgramOperation) (candidates : List String) : ProgramOperation :=
  let annotate (move : Move) := { move with candidateUnits := move.candidateUnits ++ candidates }
  { operation with
    inputMoves := operation.inputMoves.map annotate
    outputMoves := operation.outputMoves.map annotate }

/-- The units that need no copies become candidates, unless all units are such. -/
def Annotated (adder : Adder) (operation after : ProgramOperation) : Prop :=
  if ∀ unit ∈ adder.units operation, adder.fewestUnitCopies unit operation.moves = 0 then after = operation
  else ∃ candidates, after = annotated operation candidates ∧ ∀ name, name ∈ candidates ↔
    ∃ unit ∈ adder.units operation, adder.fewestUnitCopies unit operation.moves = 0 ∧ unit.name = name

theorem addCandidateSetAnnotations_spec {operation : ProgramOperation}
    (h : ∀ unit ∈ adder.units operation, ∀ move ∈ operation.moves, adder.Counted unit move) :
    ∃ after, adder.addCandidateSetAnnotations operation = .ok after ∧ adder.Annotated operation after := by
  obtain ⟨required, hrequired, hall⟩ := requiredRegisterCopies_spec
    fun unit hunit => countRegisterCopies_counted (h unit hunit)
  have hunit (unit : FunctionUnit) (h : unit ∈ adder.units operation) : ∃ entry ∈ required, entry.1 = unit ∧
      (entry.2 = 0 ↔ adder.fewestUnitCopies unit operation.moves = 0) := MapM.forall₂_mem hall h
  have hentry (entry : FunctionUnit × ℕ∞) (h : entry ∈ required) : ∃ unit ∈ adder.units operation, entry.1 = unit ∧
      (entry.2 = 0 ↔ adder.fewestUnitCopies unit operation.moves = 0) := MapM.forall₂_mem hall.flip h
  have hzeros : (required.all (·.2 == 0)) = true ↔
      ∀ unit ∈ adder.units operation, adder.fewestUnitCopies unit operation.moves = 0 := by
    rw [List.all_eq_true]
    constructor
    · intro hzero unit h
      obtain ⟨entry, hmem, -, hiff⟩ := hunit unit h
      exact hiff.1 (beq_iff_eq.1 (hzero entry hmem))
    · intro hzero entry hmem
      obtain ⟨unit, h, -, hiff⟩ := hentry entry hmem
      exact beq_iff_eq.2 (hiff.2 (hzero unit h))
  rw [addCandidateSetAnnotations, hrequired]
  dsimp only [bind, Except.bind]
  by_cases hzero : (required.all (·.2 == 0)) = true
  · rw [if_pos hzero]
    refine ⟨operation, rfl, ?_⟩
    rw [Annotated, if_pos (hzeros.1 hzero)]
  · rw [if_neg hzero]
    refine ⟨_, rfl, ?_⟩
    rw [Annotated, if_neg fun h => hzero (hzeros.2 h)]
    refine ⟨_, rfl, fun name => ?_⟩
    constructor
    · intro hname
      obtain ⟨entry, hmem, rfl⟩ := List.mem_map.1 hname
      obtain ⟨hmem, hentryZero⟩ := List.mem_filter.1 hmem
      obtain ⟨unit, h, heq, hiff⟩ := hentry entry hmem
      exact ⟨unit, h, hiff.1 (beq_iff_eq.1 hentryZero), heq ▸ rfl⟩
    · rintro ⟨unit, h, hunitZero, rfl⟩
      obtain ⟨entry, hmem, heq, hiff⟩ := hunit unit h
      refine List.mem_map.2 ⟨entry, List.mem_filter.2 ⟨hmem, beq_iff_eq.2 (hiff.2 hunitZero)⟩, ?_⟩
      rw [heq]

/-! ## The choice -/

/-- The operation's moves are clear at all its units; where one copy is enough and its source can be
bypassed, so are the ports of the bypass. -/
structure Clear (adder : Adder) (operation : ProgramOperation) : Prop where
  moves : ∀ unit ∈ adder.units operation, ∀ move ∈ operation.moves, adder.ClearMove unit move
  bypasses : (∃ unit ∈ adder.units operation, adder.fewestUnitCopies unit operation.moves = 1) →
    ∀ move ∈ operation.moves, ∀ register, adder.rawSource move = some register →
    ∀ unit ∈ adder.units operation, ∀ dstPorts, adder.destinationPorts unit move = .ok dstPorts →
    adder.Passes ((register.file.ports.filter (·.outputSocket.isSome)).product dstPorts)

/-- The unit is one with the fewest copies, and no more are added. -/
structure Chosen (adder : Adder) (operation : ProgramOperation) (result : AddedRegisterCopies) : Prop where
  allowed : result.unit ∈ adder.units operation
  finite : adder.fewestUnitCopies result.unit operation.moves ≠ ⊤
  least : ∀ unit ∈ adder.units operation,
    adder.fewestUnitCopies result.unit operation.moves ≤ adder.fewestUnitCopies unit operation.moves
  copies : (addedCopies result.copies : ℕ∞) ≤ adder.fewestUnitCopies result.unit operation.moves
  annotated : adder.Annotated result.inserted result.operation

/-- Searches end, the counts are the fewest copies, and the unit with the least count is chosen. -/
structure Correct (adder : Adder) (operation : ProgramOperation) : Prop where
  terminates : ∀ sourcePort destinationPort, (adder.routing sourcePort destinationPort).search ≠ none
  counts : ∀ unit ∈ adder.units operation,
    adder.countRegisterCopies unit operation.moves = .ok (adder.fewestUnitCopies unit operation.moves)
  insertion : ∀ unit ∈ adder.units operation, ∀ copies : Nat,
    adder.fewestUnitCopies unit operation.moves = copies →
    ∃ added, adder.addRegisterCopies unit copies operation = .ok added ∧ addedCopies (added.1 ++ added.2) ≤ copies
  unreachable : (∀ unit ∈ adder.units operation, adder.fewestUnitCopies unit operation.moves = ⊤) →
    adder.addMinimumRegisterCopies operation = .error .illegalMachine
  reachable : (∃ unit ∈ adder.units operation, adder.fewestUnitCopies unit operation.moves ≠ ⊤) →
    ∃ result, adder.addMinimumRegisterCopies operation = .ok result ∧ adder.Chosen operation result

/-- The minimum over the units is chosen and gets its copies. -/
theorem addMinimumRegisterCopies_clear {operation : ProgramOperation} (h : adder.Clear operation) :
    (adder.addMinimumRegisterCopies operation = .error .illegalMachine ∧
      ∀ unit ∈ adder.units operation, adder.fewestUnitCopies unit operation.moves = ⊤) ∨
    ∃ result, adder.addMinimumRegisterCopies operation = .ok result ∧ adder.Chosen operation result := by
  obtain ⟨required, hrequired, hall⟩ := requiredRegisterCopies_spec
    fun unit hunit => ⟨_, countRegisterCopies_clear (h.moves unit hunit), rfl⟩
  have hentry (entry : FunctionUnit × ℕ∞) (h : entry ∈ required) : entry.1 ∈ adder.units operation ∧
      entry.2 = adder.fewestUnitCopies entry.1 operation.moves := by
    obtain ⟨unit, hmem, rfl, heq⟩ := MapM.forall₂_mem hall.flip h
    exact ⟨hmem, heq.symm⟩
  have hunit (unit : FunctionUnit) (h : unit ∈ adder.units operation) :
      (unit, adder.fewestUnitCopies unit operation.moves) ∈ required := by
    obtain ⟨entry, hmem, rfl, heq⟩ := MapM.forall₂_mem hall h
    rw [heq]
    exact hmem
  rw [addMinimumRegisterCopies, hrequired]
  dsimp only [bind, Except.bind]
  rcases minimum_spec required none (fun _ h => (Option.some_ne_none _ h.symm).elim) with
    ⟨hnone, -, htop⟩ | ⟨⟨unit, count⟩, hchosen, hmem, hne, hle, -⟩
  · rw [hnone]
    exact .inl ⟨rfl, fun unit hmem => htop _ (hunit unit hmem)⟩
  · refine .inr ?_
    have hmem : (unit, count) ∈ required := hmem.resolve_right (Option.some_ne_none _).symm
    obtain ⟨hallowed, hcount⟩ := hentry (unit, count) hmem
    dsimp only at hallowed hcount hne
    have hleast (other : FunctionUnit) (hother : other ∈ adder.units operation) := hle _ (hunit other hother)
    dsimp only at hleast
    rw [hchosen]
    dsimp only
    by_cases hzero : count = 0
    · rw [if_pos hzero]
      obtain ⟨after, hafter, hannotated⟩ := addCandidateSetAnnotations_spec
        fun unit hunit move hmove => (h.moves unit hunit move hmove).counted
      rw [hafter]
      refine ⟨_, rfl, hallowed, hcount ▸ hne, hcount ▸ hleast, ?_, hannotated⟩
      exact zero_le
    · rw [if_neg hzero]
      have hneeded : adder.fewestUnitCopies unit operation.moves = (count.toNat : ℕ∞) := by
        rw [← hcount, ENat.natCast_toNat hne]
      obtain ⟨added, hadded, hinputs, houtputs⟩ := addRegisterCopies_clear (h.moves unit hallowed) hneeded
      have hinsertions := List.rel_append hinputs houtputs
      rw [hadded]
      dsimp only
      generalize hinserted : ProgramOperation.mk operation.name (added.1.map (·.move)) (added.2.map (·.move)) = inserted
      have hunits : adder.units inserted = adder.units operation := by
        apply units_inserted _ _ hinsertions
        · rw [← hinserted]
        · rw [← hinserted]
          exact (List.map_append).symm
      have hcounted : ∀ other ∈ adder.units inserted, ∀ move ∈ inserted.moves, adder.Counted other move := by
        intro other hother move hmove
        rw [hunits] at hother
        have hmem' : move ∈ (added.1 ++ added.2).map (·.move) := by
          rw [← hinserted] at hmove
          rw [List.map_append]
          exact hmove
        obtain ⟨insertion, hinsertion, rfl⟩ := List.mem_map.1 hmem'
        obtain ⟨before, hbefore, -, hrewritten⟩ := MapM.forall₂_mem hinsertions.flip hinsertion
        apply hrewritten.counted (h.moves other hother before hbefore)
        intro hone register hregister
        rw [hone] at hneeded
        exact h.bypasses ⟨unit, hallowed, hneeded⟩ before hbefore register hregister other hother
      obtain ⟨after, hafter, hannotated⟩ := addCandidateSetAnnotations_spec hcounted
      rw [hafter]
      refine ⟨_, rfl, hallowed, hcount ▸ hne, hcount ▸ hleast, ?_, hannotated⟩
      exact addedCopies_le hinsertions

section shallow

open ResourceManager (Port Bus)

def readPort (file socket : String) (width : Nat) : Port :=
  ⟨"r", .registerFile file, width, none, some ⟨socket, .OUTPUT⟩⟩

def writePort (unit : ResourceManager.MachineUnit) (socket : String) (width : Nat) : Port :=
  ⟨"w", unit, width, some ⟨socket, .INPUT⟩, none⟩

def sourceFile : RegisterFile where
  name := "RF"
  width := 32
  ports := [readPort "RF" "RF_out" 32]
  width_eq := by decide

def wideScratch : RegisterFile where
  name := "T32"
  width := 32
  ports := [readPort "T32" "T32_out" 32, writePort (.registerFile "T32") "T32_in" 32]
  width_eq := by decide

def narrowScratch : RegisterFile where
  name := "T8"
  width := 8
  ports := [readPort "T8" "T8_out" 8, writePort (.registerFile "T8") "T8_in" 8]
  width_eq := by decide

def connection (source destination : String) : Bus :=
  ⟨source, 32, 0, false, [], [⟨source, .OUTPUT⟩, ⟨destination, .INPUT⟩]⟩

def apart : FunctionUnit := ⟨"U1", [⟨"NOT", [(1, writePort (.functionUnit "U1") "U1_in" 32)]⟩]⟩

def joined : FunctionUnit := ⟨"U2", [⟨"NOT", [(1, writePort (.functionUnit "U2") "U2_in" 8)]⟩]⟩

/-- No bus leads to the first unit. The second one takes two copies, through both scratch registers. -/
def shallow : Adder where
  machine := {
    buses := [connection "RF_out" "T32_in", connection "T32_out" "T8_in", connection "T8_out" "U2_in"]
    units := [apart, joined]
    returnAddressPort := ⟨"ra", .functionUnit "GCU", 32, none, none⟩
    immediateUnits := []
    instructionEnd := 255
    dataEnd := 255 }
  tempRegs := [⟨wideScratch, 0⟩, ⟨narrowScratch, 0⟩]
  canTransportImmediate _ := false
  rawSource _ := none

def notOperation (allowedUnits : List String) : ProgramOperation :=
  ⟨"NOT", [⟨.register ⟨sourceFile, 0⟩, .unitPort "NOT" 1, allowedUnits, []⟩], []⟩

theorem clear_shallow : shallow.Clear (notOperation ["U2"]) where
  moves := by
    intro unit hunit move hmove
    obtain rfl := List.mem_singleton.1 (show unit ∈ [joined] from hunit)
    obtain rfl := List.mem_singleton.1 (show move ∈ [_] from hmove)
    have hroutable : (shallow.routing (readPort "RF" "RF_out" 32)
        (writePort (.functionUnit "U2") "U2_in" 8)).Routable :=
      ⟨2, 1, .step (.first (i := 0) ⟨by decide, by decide, by decide⟩) ⟨by decide, by decide, by decide⟩,
        show _ = true by decide⟩
    exact .inr ⟨.inr ⟨hroutable.hasWide, trivial⟩, .inr fun pair hpair => by
      obtain rfl := List.mem_singleton.1 hpair
      exact hroutable⟩
  bypasses := fun _ _ _ _ h => nomatch h

end shallow

end Adder

end Tce.RegisterCopyAdder
