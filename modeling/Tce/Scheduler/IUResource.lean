import Mathlib.Data.List.Pairwise
import Tce.Scheduler.SchedulingResource
import Tce.Tools.SimValue

/-!
# Immediate units

`IUResource` of the resource model keeps, for each long-immediate register, the
records of the values written to it: the cycle of the write and the cycle of
the read. A register is given to a value when the range between the two meets
no range recorded for it.

Cycles are natural numbers: the broker counts the cycles of a definition down
to 0.
-/

namespace Tce

/-- The sources of a move as far as immediate units tell them apart. -/
inductive Terminal where
  | immediate (value : SimValue)
  | immediateRegister (index : Nat)
  | other
  deriving DecidableEq, Repr

structure MoveNode where
  source : Terminal
  cycle : Nat
  deriving DecidableEq, Repr

inductive SchedulingError where
  | moduleRunTimeError (message : String)
  | keyNotFound (message : String)
  | outOfRange
  | nullPointer
  deriving DecidableEq, Repr

/-- A related resource, by the two questions `canAssign` asks it. -/
structure RelatedResource where
  isOutputPSocketResource : Bool
  isInUse : Nat → Bool

structure ResourceRecord where
  definition : Nat
  use : Nat
  immediateValue : Terminal
  deriving DecidableEq, Repr

/-- `resourceRecord` has the records of each register, `registerCount_` of them. -/
structure IUResource where
  name : String
  width : Nat
  latency : Nat
  signExtension : Bool
  initiationInterval : Nat
  resourceRecord : List (List ResourceRecord)
  deriving Repr

namespace IUResource

/-- A unit as the constructor makes it. -/
def create (name : String) (registers width latency : Nat) (signExtension : Bool) (initiationInterval : Nat) :
    IUResource :=
  { name, width, latency, signExtension, initiationInterval, resourceRecord := List.replicate registers [] }

def registerCount (iu : IUResource) : Nat := iu.resourceRecord.length

/-- The comparisons of `findAvailable` with one record. -/
def marks (initiationInterval defCycle useCycle : Nat) (other : ResourceRecord) : Bool :=
  let modDef := instructionIndex initiationInterval defCycle
  let modUse := instructionIndex initiationInterval useCycle
  let modOtherDef := instructionIndex initiationInterval other.definition
  let modOtherUse := instructionIndex initiationInterval other.use
  (if modOtherUse > modOtherDef then
    decide (modUse > modOtherDef ∧ modUse ≤ modOtherUse) || decide (modDef ≥ modOtherDef ∧ modDef < modOtherUse)
  else
    decide (modUse > modOtherDef ∨ modUse ≤ modOtherUse) || decide (modDef ≥ modOtherDef ∨ modDef < modOtherUse)) ||
  -- the other range may be inside this one
  (if modDef < modUse then decide (modOtherDef ≥ modDef ∧ modOtherDef < modUse)
  else decide (modOtherDef ≥ modDef ∨ modOtherDef < modUse))

/-- The first register without a marked record; -1 is `none`. -/
def findAvailable (iu : IUResource) (defCycle useCycle : Nat) : Option Nat :=
  iu.resourceRecord.findIdx? fun resVec => !resVec.any (marks iu.initiationInterval defCycle useCycle)

def canAssign (iu : IUResource) (related : List (List RelatedResource)) (defCycle useCycle : Nat)
    (node : MoveNode) : Bool :=
  if defCycle > useCycle then false
  else if useCycle - defCycle < iu.latency then false
  else
    match node.source with
    | .immediate value =>
      if iu.findAvailable defCycle useCycle ≠ none then
        if value.width > 32 ∧ value.width > iu.width then false
        else if iu.signExtension ∧ MathTools.requiredBitsSigned value.intValue > iu.width then false
        else if MathTools.requiredBits value.unsignedValue > iu.width then false
        else related.any fun group => group.any fun relRes =>
          relRes.isOutputPSocketResource && !relRes.isInUse (instructionIndex iu.initiationInterval useCycle)
      else false
    | _ => false

/-- The unit after the assignment, and the register assigned. The record keeps
the source of the move. -/
def assign (iu : IUResource) (defCycle useCycle : Nat) (node : MoveNode) :
    Except SchedulingError (IUResource × Nat) :=
  if defCycle > useCycle then
    .error (.moduleRunTimeError ("Long immediate definition cycle later than use cycle: " ++
      toString defCycle ++ " > " ++ toString useCycle ++ "!"))
  else if useCycle - defCycle < iu.latency then
    .error (.moduleRunTimeError ("Definition and use too close(" ++ toString (useCycle - defCycle) ++ "). " ++
      iu.name ++ " has latency of " ++ toString iu.latency))
  else
    match iu.findAvailable defCycle useCycle with
    | some i =>
      .ok ({ iu with
        resourceRecord := iu.resourceRecord.modify i (· ++ [⟨defCycle, useCycle, node.source⟩]) }, i)
    | none => .error (.keyNotFound "Assignment for immediate impossible!")

/-- The unit without the record, and the move with its immediate again. -/
def unassign (iu : IUResource) (node : MoveNode) : Except SchedulingError (IUResource × MoveNode) :=
  match node.source with
  | .immediateRegister regIndex =>
    match iu.resourceRecord[regIndex]? with
    | none => .error .outOfRange
    | some records =>
      if records.length = 0 then .error (.keyNotFound "The register is not assigned!")
      else
        match records.find? fun rc => node.cycle = rc.use with
        | some rc =>
          match rc.immediateValue with
          | .immediate value =>
            let remaining := records.eraseP fun rc => node.cycle = rc.use
            .ok ({ iu with resourceRecord := iu.resourceRecord.set regIndex remaining },
              { node with source := .immediate value })
          | _ => .error .nullPointer
        | none => .error (.keyNotFound "Register is not assigned for given cycle!")
  | _ =>
    .error (.keyNotFound "Trying to unassign move that is not immediate            register read!")

/-! ## The comparisons are exact -/

/-- The live range of a record: the register holds the value in these cycles. -/
def Live (initiationInterval : Nat) (rc : ResourceRecord) (k : Nat) : Prop :=
  Arcs.OnArc initiationInterval rc.definition rc.use k

/-- The live ranges have no cycle in common. -/
def Apart (initiationInterval : Nat) (rc other : ResourceRecord) : Prop :=
  ∀ k, ¬(Live initiationInterval rc k ∧ Live initiationInterval other k)

/-- A range that is not empty and no longer than the initiation interval. -/
def Proper (initiationInterval : Nat) (rc : ResourceRecord) : Prop :=
  Arcs.Proper initiationInterval rc.definition rc.use

theorem marks_iff {initiationInterval defCycle useCycle : Nat} {value : Terminal} {other : ResourceRecord}
    (h : Proper initiationInterval ⟨defCycle, useCycle, value⟩) (h' : Proper initiationInterval other) :
    marks initiationInterval defCycle useCycle other = true ↔
      ∃ k, Live initiationInterval ⟨defCycle, useCycle, value⟩ k ∧ Live initiationInterval other k := by
  rw [show (∃ k, Live initiationInterval ⟨defCycle, useCycle, value⟩ k ∧ Live initiationInterval other k) ↔ _ from
    Arcs.meet_iff h h']
  simp only [marks, instructionIndex_eq, Arcs.Between, Arcs.Begins]
  split_ifs <;> simp only [Bool.or_eq_true, decide_eq_true_eq]

/-- A register is found unavailable only for a record whose range meets the new one. -/
theorem findAvailable_eq_none_iff {iu : IUResource} {defCycle useCycle : Nat} {value : Terminal}
    (h : Proper iu.initiationInterval ⟨defCycle, useCycle, value⟩)
    (hproper : ∀ records ∈ iu.resourceRecord, ∀ rc ∈ records, Proper iu.initiationInterval rc) :
    iu.findAvailable defCycle useCycle = none ↔ ∀ records ∈ iu.resourceRecord, ∃ rc ∈ records,
      ∃ k, Live iu.initiationInterval ⟨defCycle, useCycle, value⟩ k ∧ Live iu.initiationInterval rc k := by
  rw [findAvailable, List.findIdx?_eq_none_iff]
  constructor
  · intro hall records hrecords
    have hany : records.any (marks iu.initiationInterval defCycle useCycle) = true := by
      simpa using hall records hrecords
    obtain ⟨rc, hrc, hmarks⟩ := List.any_eq_true.1 hany
    exact ⟨rc, hrc, (marks_iff h (hproper records hrecords rc hrc)).1 hmarks⟩
  · intro hall records hrecords
    obtain ⟨rc, hrc, hmeet⟩ := hall records hrecords
    have hany := List.any_eq_true.2 ⟨rc, hrc, (marks_iff h (hproper records hrecords rc hrc)).2 hmeet⟩
    simp [hany]

/-- The register that is found has only ranges apart from the new one. -/
theorem findAvailable_apart {iu : IUResource} {defCycle useCycle i : Nat} {value : Terminal}
    (h : Proper iu.initiationInterval ⟨defCycle, useCycle, value⟩)
    (hproper : ∀ records ∈ iu.resourceRecord, ∀ rc ∈ records, Proper iu.initiationInterval rc)
    (hfind : iu.findAvailable defCycle useCycle = some i) : ∃ records, iu.resourceRecord[i]? = some records ∧
      ∀ rc ∈ records, Apart iu.initiationInterval rc ⟨defCycle, useCycle, value⟩ := by
  obtain ⟨hlt, hfree, -⟩ := List.findIdx?_eq_some_iff_getElem.1 hfind
  refine ⟨iu.resourceRecord[i], List.getElem?_eq_getElem hlt, fun rc hrc k hk => ?_⟩
  have hmarks := (marks_iff h (hproper _ (List.getElem_mem hlt) rc hrc)).2 ⟨k, hk.2, hk.1⟩
  have hnone : (iu.resourceRecord[i]).any (marks iu.initiationInterval defCycle useCycle) = false := by
    simpa using hfree
  exact absurd (List.any_eq_true.2 ⟨rc, hrc, hmarks⟩) (by simp [hnone])

theorem canAssign_range {iu : IUResource} {related : List (List RelatedResource)} {defCycle useCycle : Nat}
    {node : MoveNode} (h : iu.canAssign related defCycle useCycle node = true) :
    defCycle ≤ useCycle ∧ iu.latency ≤ useCycle - defCycle ∧ ∃ value, node.source = .immediate value := by
  unfold canAssign at h
  by_cases h1 : defCycle > useCycle
  · simp [h1] at h
  by_cases h2 : useCycle - defCycle < iu.latency
  · simp [h1, h2] at h
  simp only [if_neg h1, if_neg h2] at h
  cases hsource : node.source with
  | immediate value => exact ⟨Nat.not_lt.1 h1, Nat.not_lt.1 h2, value, rfl⟩
  | immediateRegister index => simp [hsource] at h
  | other => simp [hsource] at h

theorem assign_eq {iu iu' : IUResource} {defCycle useCycle index : Nat} {node : MoveNode}
    (h : iu.assign defCycle useCycle node = .ok (iu', index)) :
    iu.findAvailable defCycle useCycle = some index ∧
      iu' = { iu with resourceRecord := iu.resourceRecord.modify index (· ++ [⟨defCycle, useCycle, node.source⟩]) } := by
  unfold assign at h
  split_ifs at h
  cases hfind : iu.findAvailable defCycle useCycle with
  | none => simp [hfind] at h
  | some i =>
    simp only [hfind, Except.ok.injEq, Prod.mk.injEq] at h
    obtain ⟨rfl, rfl⟩ := h
    exact ⟨rfl, rfl⟩

/-- A register is live in the cycle of the use. -/
theorem live_use {initiationInterval : Nat} {rc : ResourceRecord} (h : Proper initiationInterval rc) :
    Live initiationInterval rc (Arcs.position initiationInterval rc.use) :=
  ⟨rc.use, h.1, Nat.le_refl _, rfl⟩

instance (initiationInterval : Nat) : Std.Symm (Apart initiationInterval) :=
  ⟨fun _ _ h k hk => h k ⟨hk.2, hk.1⟩⟩

theorem not_apart_self {initiationInterval : Nat} {rc : ResourceRecord} (h : Proper initiationInterval rc) :
    ¬Apart initiationInterval rc rc := fun hapart => hapart _ ⟨live_use h, live_use h⟩

section records
variable {initiationInterval : Nat} {records : List ResourceRecord}
  (hproper : ∀ rc ∈ records, Proper initiationInterval rc) (hapart : records.Pairwise (Apart initiationInterval))
include hproper hapart

theorem records_nodup : records.Nodup := by
  apply hapart.imp_of_mem
  rintro rc other hrc - h rfl
  exact not_apart_self (hproper rc hrc) h

/-- No two records of a register have one cycle of use. -/
theorem record_eq {rc other : ResourceRecord} (hrc : rc ∈ records) (hother : other ∈ records)
    (huse : rc.use = other.use) : rc = other := by
  by_contra hne
  have h := hapart.forall hrc hother hne
  apply h (Arcs.position initiationInterval rc.use)
  exact ⟨live_use (hproper rc hrc), huse ▸ live_use (hproper other hother)⟩

theorem find_use {rc : ResourceRecord} (hrc : rc ∈ records) :
    (records.find? fun other => rc.use = other.use) = some rc := by
  cases hfind : records.find? fun other => rc.use = other.use with
  | none =>
    have := List.find?_eq_none.1 hfind rc hrc
    simp at this
  | some other =>
    have huse : rc.use = other.use := by simpa using List.find?_some hfind
    rw [record_eq hproper hapart hrc (List.mem_of_find?_eq_some hfind) huse]

theorem mem_remaining {rc : ResourceRecord} (hrc : rc ∈ records) (other : ResourceRecord) :
    other ∈ records.eraseP (fun other => rc.use = other.use) ↔ other ∈ records ∧ other ≠ rc := by
  obtain ⟨first, before, after, -, huse, hrecords, herase⟩ :=
    List.exists_of_eraseP (p := fun other => decide (rc.use = other.use)) hrc (by simp)
  have hfirst : rc = first :=
    record_eq hproper hapart hrc (by rw [hrecords]; simp) (by simpa using huse)
  subst hfirst
  have hnodup := records_nodup hproper hapart
  rw [hrecords, List.nodup_middle, List.nodup_cons] at hnodup
  rw [herase, hrecords]
  constructor
  · intro hmem
    refine ⟨?_, fun heq => hnodup.1 (heq ▸ hmem)⟩
    rcases List.mem_append.1 hmem with h | h
    · exact List.mem_append_left _ h
    · exact List.mem_append_right _ (List.mem_cons_of_mem _ h)
  · rintro ⟨hmem, hne⟩
    simpa [hne] using hmem

end records

/-- The move that holds a record gets its value back, and only its record goes. -/
theorem unassign_eq {iu : IUResource} {i : Nat} {records : List ResourceRecord}
    (hget : iu.resourceRecord[i]? = some records)
    (hproper : ∀ rc ∈ records, Proper iu.initiationInterval rc)
    (hapart : records.Pairwise (Apart iu.initiationInterval)) {rc : ResourceRecord} (hrc : rc ∈ records)
    {value : SimValue} (hvalue : rc.immediateValue = .immediate value) :
    iu.unassign ⟨.immediateRegister i, rc.use⟩ = .ok
      ({ iu with resourceRecord := iu.resourceRecord.set i (records.eraseP fun other => rc.use = other.use) },
        ⟨.immediate value, rc.use⟩) := by
  have hne : records.length ≠ 0 := fun h => by
    rw [List.length_eq_zero_iff.1 h] at hrc
    cases hrc
  simp only [unassign, hget, if_neg hne, find_use hproper hapart hrc, hvalue]

end IUResource

/-! ## Runs -/

/-- A unit, the moves, and for each move the register and the record that the
assignment it holds has made. -/
structure IUState (ν : Type) where
  iu : IUResource
  nodes : ν → MoveNode
  made : ν → Option (Nat × ResourceRecord)

namespace IUState
open IUResource
variable {ν : Type}

/-- `assign` is called for a move after a true `canAssign`, with a range no
longer than the initiation interval, and the move is then placed in the cycle of
the use and reads the register. Between the calls other parts of the scheduler
place moves and set sources that are not registers of the unit. -/
inductive Step [DecidableEq ν] (s : IUState ν) : IUState ν → Prop
  | assign (n : ν) (defCycle useCycle index : Nat) (related : List (List RelatedResource)) (iu' : IUResource) :
    s.iu.canAssign related defCycle useCycle (s.nodes n) = true →
    (s.iu.initiationInterval = 0 ∨ useCycle - defCycle ≤ s.iu.initiationInterval) →
    s.iu.assign defCycle useCycle (s.nodes n) = .ok (iu', index) →
    Step s ⟨iu', Function.update s.nodes n ⟨.immediateRegister index, useCycle⟩,
      Function.update s.made n (some (index, ⟨defCycle, useCycle, (s.nodes n).source⟩))⟩
  | unassign (n : ν) (iu' : IUResource) (node' : MoveNode) :
    s.iu.unassign (s.nodes n) = .ok (iu', node') →
    Step s ⟨iu', Function.update s.nodes n node', Function.update s.made n none⟩
  | other (n : ν) (node' : MoveNode) : (∀ i, (s.nodes n).source ≠ .immediateRegister i) →
    (∀ i, node'.source ≠ .immediateRegister i) →
    Step s ⟨s.iu, Function.update s.nodes n node', s.made⟩

/-- States of a unit as the constructor makes it, with moves that read none of
its registers. -/
inductive Reachable [DecidableEq ν] (iu : IUResource) : IUState ν → Prop
  | start (nodes : ν → MoveNode) : (∀ n i, (nodes n).source ≠ .immediateRegister i) →
    Reachable iu ⟨iu, nodes, fun _ => none⟩
  | step {s s' : IUState ν} : Reachable iu s → Step s s' → Reachable iu s'

/-- The records of a register are apart, and each of them is the one that one
move has made. -/
structure Inv (s : IUState ν) : Prop where
  proper : ∀ records ∈ s.iu.resourceRecord, ∀ rc ∈ records, Proper s.iu.initiationInterval rc
  apart : ∀ records ∈ s.iu.resourceRecord, records.Pairwise (Apart s.iu.initiationInterval)
  recorded : ∀ i records rc, s.iu.resourceRecord[i]? = some records →
    (rc ∈ records ↔ ∃ n, s.made n = some (i, rc))
  holds : ∀ n i rc, s.made n = some (i, rc) → i < s.iu.resourceRecord.length ∧
    s.nodes n = ⟨.immediateRegister i, rc.use⟩ ∧ ∃ value, rc.immediateValue = .immediate value
  idle : ∀ n, s.made n = none → ∀ i, (s.nodes n).source ≠ .immediateRegister i
  inj : ∀ n n' held, s.made n = some held → s.made n' = some held → n = n'

theorem inv_start {iu : IUResource} (hempty : ∀ records ∈ iu.resourceRecord, records = []) {nodes : ν → MoveNode}
    (hnodes : ∀ n i, (nodes n).source ≠ .immediateRegister i) : Inv ⟨iu, nodes, fun _ => none⟩ where
  proper records hrecords rc hrc := by
    rw [hempty records hrecords] at hrc
    cases hrc
  apart records hrecords := by
    rw [hempty records hrecords]
    exact List.Pairwise.nil
  recorded i records rc hget := by
    rw [hempty records (List.mem_of_getElem? hget)]
    simp
  holds n i rc h := by cases h
  idle n _ := hnodes n
  inj n n' held h := by cases h

variable [DecidableEq ν]

/-- Giving the found register to a move keeps the records apart. -/
theorem inv_assign {s : IUState ν} (hs : Inv s) (hlatency : 1 ≤ s.iu.latency) {n : ν}
    {defCycle useCycle index : Nat} {related : List (List RelatedResource)} {iu' : IUResource}
    (hcan : s.iu.canAssign related defCycle useCycle (s.nodes n) = true)
    (hturn : s.iu.initiationInterval = 0 ∨ useCycle - defCycle ≤ s.iu.initiationInterval)
    (hassign : s.iu.assign defCycle useCycle (s.nodes n) = .ok (iu', index)) :
    Inv ⟨iu', Function.update s.nodes n ⟨.immediateRegister index, useCycle⟩,
      Function.update s.made n (some (index, ⟨defCycle, useCycle, (s.nodes n).source⟩))⟩ := by
  obtain ⟨-, hlat, value, hvalue⟩ := canAssign_range hcan
  obtain ⟨hfind, rfl⟩ := assign_eq hassign
  have hnew : Proper s.iu.initiationInterval ⟨defCycle, useCycle, (s.nodes n).source⟩ :=
    ⟨by dsimp only; omega, hturn⟩
  obtain ⟨old, hold, hfree⟩ := findAvailable_apart hnew hs.proper hfind
  have hnone : s.made n = none := by
    cases hmade : s.made n with
    | none => rfl
    | some held =>
      have := (hs.holds n held.1 held.2 hmade).2.1
      rw [this] at hvalue
      cases hvalue
  have hfresh : (⟨defCycle, useCycle, (s.nodes n).source⟩ : ResourceRecord) ∉ old :=
    fun hmem => not_apart_self hnew (hfree _ hmem)
  -- the records of a register after the assignment
  have hrecords {i : Nat} {records : List ResourceRecord}
      (hget : (s.iu.resourceRecord.modify index (· ++ [⟨defCycle, useCycle, (s.nodes n).source⟩]))[i]? = some records) :
      (i = index ∧ records = old ++ [⟨defCycle, useCycle, (s.nodes n).source⟩]) ∨
        (i ≠ index ∧ s.iu.resourceRecord[i]? = some records) := by
    rw [List.getElem?_modify] at hget
    by_cases hi : index = i
    · subst hi
      simp only [hold, Option.map_eq_map, Option.map_some, if_true, Option.some.injEq] at hget
      exact .inl ⟨rfl, hget.symm⟩
    · simp only [hi, if_false, Option.map_eq_map, Option.map_id'] at hget
      exact .inr ⟨fun h => hi h.symm, by simpa using hget⟩
  refine ⟨?_, ?_, ?_, ?_, ?_, ?_⟩
  case refine_1 =>
    intro records hmem rc hrc
    obtain ⟨i, hget⟩ := List.mem_iff_getElem?.1 hmem
    rcases hrecords hget with ⟨-, rfl⟩ | ⟨-, hget⟩
    · rcases List.mem_append.1 hrc with h | h
      · exact hs.proper old (List.mem_of_getElem? hold) rc h
      · exact List.mem_singleton.1 h ▸ hnew
    · exact hs.proper records (List.mem_of_getElem? hget) rc hrc
  case refine_2 =>
    intro records hmem
    obtain ⟨i, hget⟩ := List.mem_iff_getElem?.1 hmem
    rcases hrecords hget with ⟨-, rfl⟩ | ⟨-, hget⟩
    · refine List.pairwise_append.2 ⟨hs.apart old (List.mem_of_getElem? hold), List.pairwise_singleton _ _, ?_⟩
      intro rc hrc other hother
      rw [List.mem_singleton.1 hother]
      exact hfree rc hrc
    · exact hs.apart records (List.mem_of_getElem? hget)
  case refine_3 =>
    intro i records rc hget
    have hothers (hne : ¬(i = index ∧ rc = ⟨defCycle, useCycle, (s.nodes n).source⟩)) :
        (∃ m, Function.update s.made n (some (index, ⟨defCycle, useCycle, (s.nodes n).source⟩)) m = some (i, rc)) ↔
          ∃ m, s.made m = some (i, rc) := by
      constructor
      · rintro ⟨m, hm⟩
        by_cases hmn : m = n
        · subst hmn
          simp only [Function.update_self, Option.some.injEq, Prod.mk.injEq] at hm
          exact absurd ⟨hm.1.symm, hm.2.symm⟩ hne
        · rw [Function.update_of_ne hmn] at hm
          exact ⟨m, hm⟩
      · rintro ⟨m, hm⟩
        have hmn : m ≠ n := by
          rintro rfl
          rw [hnone] at hm
          cases hm
        exact ⟨m, by rw [Function.update_of_ne hmn, hm]⟩
    rcases hrecords hget with ⟨rfl, rfl⟩ | ⟨hi, hget⟩
    · by_cases hrc : rc = ⟨defCycle, useCycle, (s.nodes n).source⟩
      · subst hrc
        exact iff_of_true (by simp) ⟨n, by simp⟩
      · rw [hothers (fun h => hrc h.2), List.mem_append, List.mem_singleton, or_iff_left hrc]
        exact hs.recorded i old rc hold
    · rw [hothers (fun h => hi h.1)]
      exact hs.recorded i records rc hget
  case refine_4 =>
    intro m i rc hm
    dsimp only at hm ⊢
    by_cases hmn : m = n
    · subst hmn
      simp only [Function.update_self, Option.some.injEq, Prod.mk.injEq] at hm ⊢
      obtain ⟨rfl, rfl⟩ := hm
      exact ⟨by simpa using (List.getElem?_eq_some_iff.1 hold).1, rfl, value, hvalue⟩
    · rw [Function.update_of_ne hmn] at hm
      obtain ⟨h1, h2, h3⟩ := hs.holds m i rc hm
      exact ⟨by simpa using h1, by simpa [Function.update_of_ne hmn] using h2, h3⟩
  case refine_5 =>
    intro m hm i
    dsimp only at hm
    have hmn : m ≠ n := by
      rintro rfl
      simp at hm
    rw [Function.update_of_ne hmn] at hm
    simpa [Function.update_of_ne hmn] using hs.idle m hm i
  case refine_6 =>
    -- no move holds the new record yet, since it would have to be apart from itself
    have hnot (m : ν) : s.made m ≠ some (index, ⟨defCycle, useCycle, (s.nodes n).source⟩) := by
      intro hm
      exact hfresh ((hs.recorded index old _ hold).2 ⟨m, hm⟩)
    intro m m' held hm hm'
    dsimp only at hm hm'
    by_cases hmn : m = n <;> by_cases hmn' : m' = n
    · rw [hmn, hmn']
    · subst hmn
      rw [Function.update_self] at hm
      rw [Function.update_of_ne hmn'] at hm'
      exact absurd (hm'.trans hm.symm) (hnot m')
    · subst hmn'
      rw [Function.update_self] at hm'
      rw [Function.update_of_ne hmn] at hm
      exact absurd (hm.trans hm'.symm) (hnot m)
    · rw [Function.update_of_ne hmn] at hm
      rw [Function.update_of_ne hmn'] at hm'
      exact hs.inj m m' held hm hm'

omit [DecidableEq ν] in
/-- A successful `unassign` is for a move that holds a record, and takes that
record away. -/
theorem unassign_held {s : IUState ν} (hs : Inv s) {n : ν} {iu' : IUResource} {node' : MoveNode}
    (hunassign : s.iu.unassign (s.nodes n) = .ok (iu', node')) : ∃ i rc records value, s.made n = some (i, rc) ∧
      s.iu.resourceRecord[i]? = some records ∧ rc ∈ records ∧ rc.immediateValue = .immediate value ∧
      iu' = { s.iu with
        resourceRecord := s.iu.resourceRecord.set i (records.eraseP fun other => rc.use = other.use) } ∧
      node' = ⟨.immediate value, rc.use⟩ := by
  cases hmade : s.made n with
  | none =>
    have hidle := hs.idle n hmade
    unfold unassign at hunassign
    cases hsource : (s.nodes n).source with
    | immediateRegister i => exact absurd hsource (hidle i)
    | immediate value => simp [hsource] at hunassign
    | other => simp [hsource] at hunassign
  | some held =>
    obtain ⟨i, rc⟩ := held
    obtain ⟨hlt, hnode, value, hvalue⟩ := hs.holds n i rc hmade
    have hget := List.getElem?_eq_getElem hlt
    have hmem := List.getElem_mem hlt
    have hrc := (hs.recorded i _ rc hget).2 ⟨n, hmade⟩
    rw [hnode, unassign_eq hget (hs.proper _ hmem) (hs.apart _ hmem) hrc hvalue, Except.ok.injEq,
      Prod.mk.injEq] at hunassign
    exact ⟨i, rc, _, value, rfl, hget, hrc, hvalue, hunassign.1.symm, hunassign.2.symm⟩

theorem inv_unassign {s : IUState ν} (hs : Inv s) {n : ν} {iu' : IUResource} {node' : MoveNode}
    (hunassign : s.iu.unassign (s.nodes n) = .ok (iu', node')) :
    Inv ⟨iu', Function.update s.nodes n node', Function.update s.made n none⟩ := by
  obtain ⟨i, rc, old, value, hmade, hold, hrc, -, rfl, rfl⟩ := unassign_held hs hunassign
  have hmemold := List.mem_of_getElem? hold
  have hrecords {j : Nat} {records : List ResourceRecord}
      (hget : (s.iu.resourceRecord.set i (old.eraseP fun other => rc.use = other.use))[j]? = some records) :
      (j = i ∧ records = old.eraseP fun other => rc.use = other.use) ∨
        (j ≠ i ∧ s.iu.resourceRecord[j]? = some records) := by
    by_cases hj : i = j
    · subst hj
      rw [List.getElem?_set_self (List.getElem?_eq_some_iff.1 hold).1] at hget
      exact .inl ⟨rfl, (Option.some.inj hget).symm⟩
    · rw [List.getElem?_set_ne hj] at hget
      exact .inr ⟨Ne.symm hj, hget⟩
  have hupdate {m : ν} {held : Nat × ResourceRecord} (hm : Function.update s.made n none m = some held) :
      m ≠ n ∧ s.made m = some held := by
    have hmn : m ≠ n := by
      rintro rfl
      simp at hm
    exact ⟨hmn, by rwa [Function.update_of_ne hmn] at hm⟩
  refine ⟨?_, ?_, ?_, ?_, ?_, ?_⟩
  case refine_1 =>
    intro records hmem other hother
    obtain ⟨j, hget⟩ := List.mem_iff_getElem?.1 hmem
    rcases hrecords hget with ⟨-, rfl⟩ | ⟨-, hget⟩
    · exact hs.proper old hmemold other (List.mem_of_mem_eraseP hother)
    · exact hs.proper records (List.mem_of_getElem? hget) other hother
  case refine_2 =>
    intro records hmem
    obtain ⟨j, hget⟩ := List.mem_iff_getElem?.1 hmem
    rcases hrecords hget with ⟨-, rfl⟩ | ⟨-, hget⟩
    · exact (hs.apart old hmemold).sublist List.eraseP_sublist
    · exact hs.apart records (List.mem_of_getElem? hget)
  case refine_3 =>
    intro j records other hget
    rcases hrecords hget with ⟨rfl, rfl⟩ | ⟨hj, hget⟩
    · rw [mem_remaining (hs.proper old hmemold) (hs.apart old hmemold) hrc, hs.recorded j old other hold]
      constructor
      · rintro ⟨⟨m, hm⟩, hne⟩
        refine ⟨m, ?_⟩
        have hmn : m ≠ n := by
          rintro rfl
          rw [hmade] at hm
          cases hm
          exact hne rfl
        exact (Function.update_of_ne hmn none s.made).trans hm
      · rintro ⟨m, hm⟩
        obtain ⟨hmn, hheld⟩ := hupdate hm
        refine ⟨⟨m, hheld⟩, fun heq => ?_⟩
        rw [heq] at hheld
        exact hmn (hs.inj m n _ hheld hmade)
    · rw [hs.recorded j records other hget]
      constructor
      · rintro ⟨m, hm⟩
        have hmn : m ≠ n := by
          rintro rfl
          rw [hmade] at hm
          cases hm
          exact hj rfl
        exact ⟨m, (Function.update_of_ne hmn none s.made).trans hm⟩
      · rintro ⟨m, hm⟩
        exact ⟨m, (hupdate hm).2⟩
  case refine_4 =>
    intro m j other hm
    obtain ⟨hmn, hm⟩ := hupdate hm
    obtain ⟨h1, h2, h3⟩ := hs.holds m j other hm
    exact ⟨by simpa using h1, by simpa [Function.update_of_ne hmn] using h2, h3⟩
  case refine_5 =>
    intro m hm j
    by_cases hmn : m = n
    · simp [hmn]
    · dsimp only at hm
      rw [Function.update_of_ne hmn] at hm
      simpa [Function.update_of_ne hmn] using hs.idle m hm j
  case refine_6 =>
    intro m m' held hm hm'
    exact hs.inj m m' held (hupdate hm).2 (hupdate hm').2

theorem inv_other {s : IUState ν} (hs : Inv s) {n : ν} {node' : MoveNode}
    (hnode : ∀ i, (s.nodes n).source ≠ .immediateRegister i) (hnode' : ∀ i, node'.source ≠ .immediateRegister i) :
    Inv ⟨s.iu, Function.update s.nodes n node', s.made⟩ := by
  refine ⟨hs.proper, hs.apart, hs.recorded, ?_, ?_, hs.inj⟩
  · intro m i rc hm
    obtain ⟨h1, h2, h3⟩ := hs.holds m i rc hm
    have hmn : m ≠ n := by
      rintro rfl
      exact hnode i (by rw [h2])
    exact ⟨h1, by simpa [Function.update_of_ne hmn] using h2, h3⟩
  · intro m hm i
    by_cases hmn : m = n
    · simpa [hmn] using hnode' i
    · simpa [Function.update_of_ne hmn] using hs.idle m hm i

/-- The interval and the latency of a unit do not change. -/
theorem step_keeps {s s' : IUState ν} (h : Step s s') :
    s'.iu.latency = s.iu.latency ∧ s'.iu.initiationInterval = s.iu.initiationInterval := by
  cases h with
  | assign n defCycle useCycle index related iu' _ _ hassign =>
    obtain ⟨-, rfl⟩ := assign_eq hassign
    exact ⟨rfl, rfl⟩
  | unassign n iu' node' hunassign =>
    unfold IUResource.unassign at hunassign
    dsimp only
    split at hunassign
    · split at hunassign
      · cases hunassign
      · split_ifs at hunassign
        split at hunassign
        · split at hunassign
          · cases hunassign
            exact ⟨rfl, rfl⟩
          · cases hunassign
        · cases hunassign
    · cases hunassign
  | other => exact ⟨rfl, rfl⟩

theorem step_inv {s s' : IUState ν} (hlatency : 1 ≤ s.iu.latency) (hs : Inv s) (h : Step s s') : Inv s' := by
  cases h with
  | assign n defCycle useCycle index related iu' hcan hturn hassign =>
    exact inv_assign hs hlatency hcan hturn hassign
  | unassign n iu' node' hunassign => exact inv_unassign hs hunassign
  | other n node' hnode hnode' => exact inv_other hs hnode hnode'

theorem reachable_inv {iu : IUResource} (hempty : ∀ records ∈ iu.resourceRecord, records = [])
    (hlatency : 1 ≤ iu.latency) {s : IUState ν} (h : Reachable iu s) :
    Inv s ∧ s.iu.latency = iu.latency ∧ s.iu.initiationInterval = iu.initiationInterval := by
  induction h with
  | start nodes hnodes => exact ⟨inv_start hempty hnodes, rfl, rfl⟩
  | step _ hstep ih =>
    obtain ⟨hinv, hlat, hinterval⟩ := ih
    obtain ⟨hlat', hinterval'⟩ := step_keeps hstep
    exact ⟨step_inv (by rw [hlat]; exact hlatency) hinv hstep, hlat'.trans hlat, hinterval'.trans hinterval⟩

/-- Every run keeps the live ranges of a register apart, so that no value is
written while another one is live; a move gives back the record it has made and
gets its immediate back; and a value finds no register only if every register
holds a range that meets the wanted one. -/
theorem immediates_safe (name : String) (registers width latency : Nat) (signExtension : Bool)
    (initiationInterval : Nat) (hlatency : 1 ≤ latency) {s : IUState ν}
    (h : Reachable (IUResource.create name registers width latency signExtension initiationInterval) s) :
    (∀ records ∈ s.iu.resourceRecord, records.Pairwise fun rc other =>
      Apart initiationInterval rc other ∧
        ¬Live initiationInterval rc (instructionIndex initiationInterval (other.definition + 1)) ∧
        ¬Live initiationInterval other (instructionIndex initiationInterval (rc.definition + 1))) ∧
    (∀ n i rc, s.made n = some (i, rc) → ∃ iu' value before after,
      s.iu.unassign (s.nodes n) = .ok (iu', ⟨.immediate value, rc.use⟩) ∧ rc.immediateValue = .immediate value ∧
        s.iu.resourceRecord[i]? = some (before ++ rc :: after) ∧ iu'.resourceRecord[i]? = some (before ++ after) ∧
        ∀ j, j ≠ i → iu'.resourceRecord[j]? = s.iu.resourceRecord[j]?) ∧
    (∀ n iu' node', s.iu.unassign (s.nodes n) = .ok (iu', node') → (s.made n).isSome) ∧
    ∀ defCycle useCycle value, Proper initiationInterval ⟨defCycle, useCycle, value⟩ →
      (s.iu.findAvailable defCycle useCycle = none ↔ ∀ records ∈ s.iu.resourceRecord, ∃ rc ∈ records,
        ∃ k, Live initiationInterval ⟨defCycle, useCycle, value⟩ k ∧ Live initiationInterval rc k) := by
  obtain ⟨hs, -, hinterval⟩ := reachable_inv
    (fun records hrecords => List.eq_of_mem_replicate hrecords) hlatency h
  have hinterval' : s.iu.initiationInterval = initiationInterval := hinterval
  have hproper := hs.proper
  have hapart := hs.apart
  rw [hinterval'] at hproper hapart
  refine ⟨fun records hrecords => ?_, fun n i rc hmade => ?_, fun n iu' node' hunassign => ?_,
    fun defCycle useCycle value hrange => ?_⟩
  · apply (hapart records hrecords).imp_of_mem
    intro rc other hrc hother hne
    have hfirst {rc : ResourceRecord} (hrc : rc ∈ records) :
        Live initiationInterval rc (instructionIndex initiationInterval (rc.definition + 1)) := by
      rw [instructionIndex_eq]
      exact ⟨rc.definition + 1, by omega, (hproper records hrecords rc hrc).1, rfl⟩
    exact ⟨hne, fun hlive => hne _ ⟨hlive, hfirst hother⟩, fun hlive => hne _ ⟨hfirst hrc, hlive⟩⟩
  · obtain ⟨hlt, hnode, value, hvalue⟩ := hs.holds n i rc hmade
    have hget := List.getElem?_eq_getElem hlt
    have hmem := List.getElem_mem hlt
    have hrc := (hs.recorded i _ rc hget).2 ⟨n, hmade⟩
    obtain ⟨first, before, after, -, huse, hsplit, herase⟩ :=
      List.exists_of_eraseP (p := fun other => decide (rc.use = other.use)) hrc (by simp)
    have hfirst : rc = first :=
      record_eq (hs.proper _ hmem) (hs.apart _ hmem) hrc (by rw [hsplit]; simp) (by simpa using huse)
    subst hfirst
    refine ⟨_, value, before, after, by
      rw [hnode]
      exact unassign_eq hget (hs.proper _ hmem) (hs.apart _ hmem) hrc hvalue, hvalue, ?_, ?_, fun j hj => ?_⟩
    · rw [hget, hsplit]
    · rw [List.getElem?_set_self hlt, herase]
    · exact List.getElem?_set_ne (Ne.symm hj)
  · obtain ⟨i, rc, -, -, hmade, -⟩ := unassign_held hs hunassign
    simp [hmade]
  · rw [← hinterval'] at hrange ⊢
    exact findAvailable_eq_none_iff hrange hs.proper

/-- With one register that is live from cycle 2 to 3, a value for the cycles 4 to
6 finds no register when the interval is 4. -/
theorem immediates_safe_wraps :
    ∃ rc ∈ [(⟨1, 3, .immediate ⟨32, 5⟩⟩ : ResourceRecord)],
      ∃ k, Live 4 ⟨3, 6, .immediate ⟨32, 7⟩⟩ k ∧ Live 4 rc k := by
  let node : MoveNode := ⟨.immediate ⟨32, 5⟩, 0⟩
  have hstep := Step.assign (s := (⟨IUResource.create "IMM" 1 32 1 false 4, fun _ => node, fun _ => none⟩ : IUState Unit))
    () 1 3 0 [[⟨true, fun _ => false⟩]] _ (by decide) (.inr (by decide)) rfl
  have hreach := Reachable.step (.start _ (by simp [node])) hstep
  exact ((immediates_safe "IMM" 1 32 1 false 4 (by decide) hreach).2.2.2 3 6 (.immediate ⟨32, 7⟩)
    ⟨by decide, .inr (by decide)⟩).1 (by decide) _ List.mem_cons_self

end IUState
end Tce
