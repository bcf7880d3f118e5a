import Tce.Mach.PipelineIntervals

/-!
# Loading and comparing pipelines

Intervals in the order of their starts pass all checks when they are added again. The
comparison overlooks further resource uses of the other pipeline, and when operands are used.
-/

namespace Tce.TTAMachine
open Base Tools

/-- Uses that count for the first cycle. -/
def Use.Counts : Use → Prop
  | .resource _ | .read _ => True
  | .write _ => False

namespace ExecutionPipeline
variable {p q : ExecutionPipeline} {i : Interval Use} {use : Use} {cycle : Nat}

/-- The name or the operand of a use passes its checks. -/
def Allowed (p : ExecutionPipeline) : Use → Prop
  | .resource name => MachineTester.isValidComponentName name = true
  | .read operand => 1 ≤ operand ∧ ∀ c, operand ∉ p.writes c
  | .write operand => 1 ≤ operand ∧ ∀ c, operand ∉ p.reads c

/-- An interval that can be added. -/
structure Addable (p : ExecutionPipeline) (i : Interval Use) : Prop where
  nonempty : 0 < i.cycles
  bounded : ((i.start + i.cycles : Nat) : Int) ≤ intMax
  allowed : p.Allowed i.label
  free : ∀ c, InCycles i.start i.cycles c → ¬p.Uses i.label c
  timely : i.label.Counts → i.start ≤ 1 ∨ p.Starts 0 ∨ p.Starts 1

/-- The end of an interval that can be added is an `int`, and the interval is not empty. -/
theorem Addable.range {start n : Nat} (h : p.Addable ⟨use, start, n⟩) : ¬intMax < (start : Int) + n ∧ (1 : Int) ≤ n := by
  have hbounded := h.bounded
  have hnonempty := h.nonempty
  simp only at hbounded hnonempty
  omega

theorem Uses.lt_latency (h : p.SameLengths) (huses : p.Uses use cycle) : cycle < p.latency := by
  cases use with
  | resource name => exact CycleTable.lt_of_mem_row huses
  | read operand => exact h.reads ▸ CycleTable.lt_of_mem_row huses
  | write operand => exact h.writes ▸ CycleTable.lt_of_mem_row huses

theorem Uses.starts (huses : p.Uses use cycle) (hcounts : use.Counts) : p.Starts cycle := by
  cases use with
  | resource name => exact .inl (List.ne_nil_of_mem huses)
  | read operand => exact .inr (List.ne_nil_of_mem huses)
  | write operand => exact hcounts.elim

theorem Starts.exists_uses (h : p.Starts cycle) : ∃ use, p.Uses use cycle ∧ use.Counts := by
  rcases h with hres | hread
  · obtain ⟨name, hname⟩ := List.exists_mem_of_ne_nil _ hres
    exact ⟨.resource name, hname, trivial⟩
  · obtain ⟨operand, hoperand⟩ := List.exists_mem_of_ne_nil _ hread
    exact ⟨.read operand, hoperand, trivial⟩

theorem checkStartCycle_eq_none {start : Nat} (h : p.SameLengths) (hstart : start ≤ 1 ∨ p.Starts 0 ∨ p.Starts 1) :
    p.checkStartCycle start = none := by
  rw [checkStartCycle, if_neg (by omega)]
  by_cases hlate : 1 < (start : Int)
  · have hstarts := hstart.resolve_left (by omega)
    have hpos : p.latency ≠ 0 := by
      rcases hstarts with hzero | hone
      · have := hzero.lt_latency h
        omega
      · have := hone.lt_latency h
        omega
    rw [if_pos hlate, if_neg hpos, if_neg, if_neg]
    · rintro ⟨-, hr0, hr1, ho0, ho1⟩
      rcases hstarts with hzero | hone
      · exact hzero.elim (· hr0) (· ho0)
      · exact hone.elim (· hr1) (· ho1)
    · rintro ⟨hlatency, hr0, ho0⟩
      rcases hstarts with hzero | hone
      · exact hzero.elim (· hr0) (· ho0)
      · have := hone.lt_latency h
        omega
  · exact if_neg hlate

theorem checkDuration_eq_none {n : Nat} (h : 0 < n) : checkDuration n = none := if_neg (by omega)

theorem inCycles_of_mem {start n : Nat} (h : cycle ∈ p.cyclesAt start n) : InCycles start n cycle := by
  obtain ⟨hle, hlt⟩ := List.mem_range'_1.mp h
  constructor <;> omega

theorem checkOperandAvailability_eq_none {operand : Int} {start n : Nat}
    (hfree : ∀ c, InCycles start n c → operand ∉ p.reads c ∧ operand ∉ p.writes c) :
    p.checkOperandAvailability operand start n = none := by
  refine if_neg ?_
  simp only [List.any_eq_true, Bool.or_eq_true, decide_eq_true_eq, not_exists, not_and, not_or]
  exact fun c hc => hfree c (inCycles_of_mem hc)

theorem checkInputOperand_eq_none {operand : Int} (h : p.SameLengths) (hallowed : p.Allowed (.read operand)) :
    p.checkInputOperand operand = none := by
  rw [checkInputOperand, if_neg (Int.not_lt.mpr hallowed.1), if_neg]
  intro hwritten
  obtain ⟨c, hc⟩ := (isOperandWritten_iff h).mp hwritten
  exact hallowed.2 c hc

theorem checkOutputOperand_eq_none {operand : Int} (h : p.SameLengths) (hallowed : p.Allowed (.write operand)) :
    p.checkOutputOperand operand = none := by
  rw [checkOutputOperand, if_neg (Int.not_lt.mpr hallowed.1), if_neg]
  intro hread
  obtain ⟨c, hc⟩ := (isOperandRead_iff h).mp hread
  exact hallowed.2 c hc

theorem sameUses_resource (hrows : SameRows q p) (b : String) : b ∈ q.resources cycle ↔ b ∈ p.resources cycle := by
  rw [hrows.resources]

theorem sameUses_read (hrows : SameRows q p) (o : Int) : o ∈ q.reads cycle ↔ o ∈ p.reads cycle := by
  rw [hrows.reads]

theorem sameUses_write (hrows : SameRows q p) (o : Int) : o ∈ q.writes cycle ↔ o ∈ p.writes cycle := by
  rw [hrows.writes]

/-- The uses of a pipeline that an interval was added to. -/
def Gains (p : ExecutionPipeline) (i : Interval Use) (q : ExecutionPipeline) : Prop :=
  ∀ use cycle, q.Uses use cycle ↔ (use = i.label ∧ InCycles i.start i.cycles cycle) ∨ p.Uses use cycle

section Gains
variable {r : ExecutionPipeline} {start n : Nat} (h : Adjusted p (start + n) r)
include h

theorem gains_insertResource (name : String) : p.Gains ⟨.resource name, start, n⟩ (r.insertResource name start n) := by
  intro use cycle
  cases use with
  | resource b => exact h.mem_resources.trans (by rw [Use.resource.injEq]; rfl)
  | read o => exact (sameUses_read h.rows o).trans (by simp [Uses])
  | write o => exact (sameUses_write h.rows o).trans (by simp [Uses])

theorem gains_insertRead (operand : Int) : p.Gains ⟨.read operand, start, n⟩ (r.insertRead operand start n) := by
  intro use cycle
  cases use with
  | resource b => exact (sameUses_resource h.rows b).trans (by simp [Uses])
  | read o => exact h.mem_reads.trans (by rw [Use.read.injEq]; rfl)
  | write o => exact (sameUses_write h.rows o).trans (by simp [Uses])

theorem gains_insertWrite (operand : Int) : p.Gains ⟨.write operand, start, n⟩ (r.insertWrite operand start n) := by
  intro use cycle
  cases use with
  | resource b => exact (sameUses_resource h.rows b).trans (by simp [Uses])
  | read o => exact (sameUses_read h.rows o).trans (by simp [Uses])
  | write o => exact h.mem_writes.trans (by rw [Use.write.injEq]; rfl)

end Gains

end ExecutionPipeline

namespace FunctionUnit
open ExecutionPipeline
variable {fu t : FunctionUnit} {j : Nat} {i : Interval Use}

/-- The interval of the child is added, and nothing else changes. -/
structure Loaded (fu : FunctionUnit) (j : Nat) (i : Interval Use) (t : FunctionUnit) : Prop where
  valid : t.Valid
  length : t.pipelines.length = fu.pipelines.length
  gains : (fu.pipeline j).Gains i (t.pipeline j)

theorem EndsValid.of_done {result : CallResult FunctionUnit} (h : fu.EndsValid result) (hdone : result = .done t) :
    t.Valid ∧ t.pipelines.length = fu.pipelines.length := by
  rcases h with ⟨e, hthrew⟩ | ⟨u, hu, hvalid, hlength⟩
  · rw [hthrew] at hdone
    cases hdone
  · rw [hu] at hdone
    cases hdone
    exact ⟨hvalid, hlength⟩

theorem addResourceUse_done {name : String} {start n : Nat} (h : fu.Valid) (hj : j < fu.pipelines.length)
    (hadd : (fu.pipeline j).Addable ⟨.resource name, start, n⟩) :
    ∃ t, fu.addResourceUse j name start n = .done t ∧ fu.Loaded j ⟨.resource name, start, n⟩ t := by
  have hp := h.pipelines j
  have hno := hadd.range.1
  have hname : checkResourceName name = none := if_pos hadd.allowed
  have havailable : fu.checkResourceAvailability j name start n = none := by
    rw [checkResourceAvailability]
    split
    · rfl
    · refine if_neg ?_
      simp only [List.any_eq_true, List.contains_iff_mem, not_exists, not_and]
      exact fun c hc => hadd.free c (inCycles_of_mem hc)
  have hdone : fu.addResourceUse j name start n = .done (fu.internalAddResourceUse j name start n) := by
    rw [FunctionUnit.addResourceUse, orThrow_none, unlessOverflow, if_neg hno, orThrow_none]
    · rfl
    · simp [havailable]
    · simp [checkStartCycle_eq_none hp.lengths (hadd.timely trivial), checkDuration_eq_none hadd.nonempty, hname]
  have hends : fu.EndsValid (fu.addResourceUse j name start n) := h.addResourceUse hj (fun hover => hno hover.2.2.2)
  obtain ⟨hvalid, hlength⟩ := hends.of_done hdone
  refine ⟨_, hdone, hvalid, hlength, ?_⟩
  rw [internalAddResourceUse, pipeline_setPipeline (by rwa [pipelines_addPipelineElement]), if_pos rfl]
  exact gains_insertResource (adjusted_adjustLatency hp.lengths) name

theorem addPortRead_done {operand : Int} {start n : Nat} (h : fu.Valid) (hj : j < fu.pipelines.length)
    (hadd : (fu.pipeline j).Addable ⟨.read operand, start, n⟩) :
    ∃ t, fu.addPortRead j operand start n = .done t ∧ fu.Loaded j ⟨.read operand, start, n⟩ t := by
  have hp := h.pipelines j
  obtain ⟨hno, hpos⟩ := hadd.range
  have havailable := checkOperandAvailability_eq_none fun c hc => ⟨hadd.free c hc, hadd.allowed.2 c⟩
  have hdone : ∃ q, (fu.pipeline j).Adjusted (start + n) q ∧
      fu.addPortRead j operand start n = .done (fu.setPipeline j (q.insertRead operand start n)) := by
    refine ⟨_, adjusted_ite hp (Int.natCast_nonneg start) hpos, ?_⟩
    rw [FunctionUnit.addPortRead, orThrow_none, unlessOverflow, if_neg hno, orThrow_none]
    · rfl
    · simp [havailable]
    · simp [checkStartCycle_eq_none hp.lengths (hadd.timely trivial), checkDuration_eq_none hadd.nonempty,
        checkInputOperand_eq_none hp.lengths hadd.allowed]
  obtain ⟨q, hq, hdone⟩ := hdone
  have hends : fu.EndsValid (fu.addPortRead j operand start n) := h.addPortRead hj (fun hover => hno hover.2.2.2)
  obtain ⟨hvalid, hlength⟩ := hends.of_done hdone
  refine ⟨_, hdone, hvalid, hlength, ?_⟩
  rw [pipeline_setPipeline hj, if_pos rfl]
  exact gains_insertRead hq operand

theorem addPortWrite_done {operand : Int} {start n : Nat} (h : fu.Valid) (hj : j < fu.pipelines.length)
    (hadd : (fu.pipeline j).Addable ⟨.write operand, start, n⟩) :
    ∃ t, fu.addPortWrite j operand start n = .done t ∧ fu.Loaded j ⟨.write operand, start, n⟩ t := by
  have hp := h.pipelines j
  obtain ⟨hno, hpos⟩ := hadd.range
  have havailable := checkOperandAvailability_eq_none fun c hc => ⟨hadd.allowed.2 c, hadd.free c hc⟩
  have hdone : ∃ q, (fu.pipeline j).Adjusted (start + n) q ∧
      fu.addPortWrite j operand start n = .done (fu.setPipeline j (q.insertWrite operand start n)) := by
    refine ⟨_, adjusted_ite hp (Int.natCast_nonneg start) hpos, ?_⟩
    rw [FunctionUnit.addPortWrite, orThrow_none, unlessOverflow, if_neg hno, orThrow_none]
    · rfl
    · simp [havailable]
    · simp [checkDuration_eq_none hadd.nonempty, checkOutputOperand_eq_none hp.lengths hadd.allowed]
  obtain ⟨q, hq, hdone⟩ := hdone
  have hends : fu.EndsValid (fu.addPortWrite j operand start n) := h.addPortWrite hj (fun hover => hno hover.2.2.2)
  obtain ⟨hvalid, hlength⟩ := hends.of_done hdone
  refine ⟨_, hdone, hvalid, hlength, ?_⟩
  rw [pipeline_setPipeline hj, if_pos rfl]
  exact gains_insertWrite hq operand

theorem loadUse_done (h : fu.Valid) (hj : j < fu.pipelines.length) (hadd : (fu.pipeline j).Addable i) :
    ∃ t, fu.loadUse j (useState i) = .done t ∧ fu.Loaded j i t := by
  rw [loadUse, start_useState, cycles_useState]
  obtain ⟨label, start, n⟩ := i
  cases label with
  | resource name => exact addResourceUse_done h hj hadd
  | read operand => exact addPortRead_done h hj hadd
  | write operand => exact addPortWrite_done h hj hadd

/-! ## All intervals -/

variable {p : ExecutionPipeline} {loaded rest : List (Interval Use)}

/-- The intervals of a valid pipeline in order, of which some are loaded. -/
structure Loading (p : ExecutionPipeline) (loaded rest : List (Interval Use)) (fu : FunctionUnit) (j : Nat) : Prop where
  valid : p.Valid
  separate : Interval.Separate (loaded ++ rest)
  sorted : (loaded ++ rest).Pairwise fun i k => i.start ≤ k.start
  covered : ∀ use cycle, Interval.Covered (loaded ++ rest) use cycle ↔ p.Uses use cycle
  unit : fu.Valid
  exists_pipeline : j < fu.pipelines.length
  uses : ∀ use cycle, (fu.pipeline j).Uses use cycle ↔ Interval.Covered loaded use cycle

theorem Loading.uses_of_loaded {use : Use} {cycle : Nat} (h : Loading p loaded rest fu j)
    (huses : (fu.pipeline j).Uses use cycle) : p.Uses use cycle := by
  obtain ⟨k, hk, hhas⟩ := (h.uses use cycle).mp huses
  exact (h.covered use cycle).mp ⟨k, List.mem_append_left _ hk, hhas⟩

/-- The next interval can be added. -/
theorem Loading.addable (h : Loading p loaded (i :: rest) fu j) : (fu.pipeline j).Addable i := by
  have hmem : i ∈ loaded ++ i :: rest := List.mem_append_right _ List.mem_cons_self
  have hnonempty := h.separate.nonempty i hmem
  have huses {c : Nat} (hc : InCycles i.start i.cycles c) : p.Uses i.label c :=
    (h.covered i.label c).mp ⟨i, hmem, rfl, hc.1, hc.2⟩
  have hfirst : p.Uses i.label i.start := huses ⟨Nat.le_refl _, by omega⟩
  constructor
  case nonempty => exact hnonempty
  case bounded =>
    have hlast := (huses (c := i.start + i.cycles - 1) ⟨by omega, by omega⟩).lt_latency h.valid.lengths
    have := h.valid.bounded
    omega
  case allowed =>
    cases hlabel : i.label with
    | resource name =>
      rw [hlabel] at hfirst
      exact h.valid.names _ name hfirst
    | read operand =>
      rw [hlabel] at hfirst
      refine ⟨h.valid.positive operand _ (.inl hfirst), fun c hc => ?_⟩
      exact h.valid.operands operand _ c hfirst (@Loading.uses_of_loaded _ _ _ _ _ (.write operand) c h hc)
    | write operand =>
      rw [hlabel] at hfirst
      refine ⟨h.valid.positive operand _ (.inr hfirst), fun c hc => ?_⟩
      exact h.valid.operands operand c _ (@Loading.uses_of_loaded _ _ _ _ _ (.read operand) c h hc) hfirst
  case free =>
    intro c hc hused
    obtain ⟨k, hk, hlabel, hle, hlt⟩ := (h.uses _ c).mp hused
    have hapart := (List.pairwise_append.mp h.separate.apart).2.2 k hk i List.mem_cons_self hlabel
    have := hc.1
    have := hc.2
    omega
  case timely =>
    intro hcounts
    by_cases hle : i.start ≤ 1
    · exact .inl hle
    -- An interval that starts in time comes before.
    have hearly {k : Nat} (hk : k ≤ 1) (hstarts : p.Starts k) : (fu.pipeline j).Starts k := by
      obtain ⟨use, hu, hc⟩ := hstarts.exists_uses
      obtain ⟨m, hm, hhas⟩ := (h.covered use k).mpr hu
      have hloaded : m ∈ loaded := by
        rcases List.mem_append.mp hm with hloaded | hrest
        · exact hloaded
        · have hsorted := (List.pairwise_append.mp h.sorted).2.1
          have hmle := hhas.2.1
          rcases List.mem_cons.mp hrest with rfl | hrest
          · omega
          · have := (List.pairwise_cons.mp hsorted).1 m hrest
            omega
      exact ((h.uses use k).mpr ⟨m, hloaded, hhas⟩).starts hc
    exact .inr ((h.valid.start ⟨i.start, hfirst.starts hcounts⟩).imp (hearly (by decide)) (hearly (by decide)))

theorem Loading.next (h : Loading p loaded (i :: rest) fu j) (hloaded : fu.Loaded j i t) :
    Loading p (loaded ++ [i]) rest t j := by
  have happend : loaded ++ [i] ++ rest = loaded ++ i :: rest := List.append_cons .. |>.symm
  constructor
  case valid => exact h.valid
  case separate => exact happend ▸ h.separate
  case sorted => exact happend ▸ h.sorted
  case covered => exact happend ▸ h.covered
  case unit => exact hloaded.valid
  case exists_pipeline => exact hloaded.length ▸ h.exists_pipeline
  case uses =>
    intro use cycle
    rw [hloaded.gains use cycle, h.uses use cycle]
    simp only [Interval.Covered, List.mem_append, List.mem_singleton]
    constructor
    · rintro (⟨rfl, hc⟩ | ⟨k, hk, hhas⟩)
      · exact ⟨i, .inr rfl, rfl, hc.1, hc.2⟩
      · exact ⟨k, .inl hk, hhas⟩
    · rintro ⟨k, hk | rfl, hhas⟩
      · exact .inr ⟨k, hk, hhas⟩
      · exact .inl ⟨hhas.1.symm, hhas.2.1, hhas.2.2⟩

theorem Loading.loadUses (h : Loading p loaded rest fu j) :
    ∃ t, FunctionUnit.loadUses j (rest.map useState) fu = .done t ∧ t.Valid ∧
      ∀ use cycle, (t.pipeline j).Uses use cycle ↔ p.Uses use cycle := by
  induction rest generalizing loaded fu with
  | nil =>
    refine ⟨fu, rfl, h.unit, fun use cycle => ?_⟩
    rw [h.uses, ← h.covered, List.append_nil]
  | cons i rest ih =>
    obtain ⟨t, hdone, hloaded⟩ := loadUse_done h.unit h.exists_pipeline h.addable
    obtain ⟨u, hu, hvalid, huses⟩ := ih (h.next hloaded)
    refine ⟨u, ?_, hvalid, huses⟩
    rw [List.map_cons, FunctionUnit.loadUses, hdone]
    exact hu

/-- A saved pipeline is loaded with the same uses. -/
theorem loadState_saveState (hp : p.Valid) (h : fu.Valid) (hj : j < fu.pipelines.length) :
    ∃ t, fu.loadState j p.saveState = .done t ∧ t.Valid ∧
      ∀ use cycle, (t.pipeline j).Uses use cycle ↔ p.Uses use cycle := by
  obtain ⟨hseparate, hcovered⟩ := merge_uses hp.lengths hp.sets
  obtain ⟨hperm, hsorted⟩ := Interval.sortByStart_spec (Interval.merge p.uses [])
  obtain ⟨hvalid, hpipelines⟩ := h.removeAllResourceUses hj
  have hempty : (fu.removeAllResourceUses j).pipeline j = .empty := by
    rw [pipeline_congr hpipelines, pipeline_setPipeline hj, if_pos rfl]
  have hloading : Loading p [] (Interval.sortByStart (Interval.merge p.uses [])) (fu.removeAllResourceUses j) j := by
    constructor
    case valid => exact hp
    case separate => exact hseparate.perm hperm
    case sorted => exact hsorted
    case covered => exact fun use cycle => (Interval.covered_perm hperm).trans (hcovered use cycle)
    case unit => exact hvalid
    case exists_pipeline =>
      rw [hpipelines]
      simpa [FunctionUnit.setPipeline] using hj
    case uses =>
      intro use cycle
      rw [hempty]
      refine iff_of_false ?_ ?_
      · cases use <;> exact List.not_mem_nil
      · rintro ⟨k, hk, -⟩
        exact List.not_mem_nil hk
  obtain ⟨t, hdone, ht⟩ := hloading.loadUses
  refine ⟨t, ?_, ht⟩
  rw [saveState_eq, loadState, ObjectState.name_node, if_neg (not_not_intro rfl), sortResourceUsages_useState]
  exact hdone

/-! ## Comparison -/

theorem mem_readOperands {o : Int} (h : p.SameLengths) : o ∈ p.readOperands ↔ ∃ c, p.Uses (.read o) c := by
  simp only [readOperands, List.mem_toFinset, List.mem_flatMap, List.mem_range]
  constructor
  · rintro ⟨c, -, hc⟩
    exact ⟨c, hc⟩
  · rintro ⟨c, hc⟩
    exact ⟨c, Uses.lt_latency h hc, hc⟩

theorem mem_writtenOperands {o : Int} (h : p.SameLengths) : o ∈ p.writtenOperands ↔ ∃ c, p.Uses (.write o) c := by
  simp only [writtenOperands, List.mem_toFinset, List.mem_flatMap, List.mem_range]
  constructor
  · rintro ⟨c, -, hc⟩
    exact ⟨c, hc⟩
  · rintro ⟨c, hc⟩
    exact ⟨c, Uses.lt_latency h hc, hc⟩

/-- What the comparison looks at. -/
structure Alike (p q : ExecutionPipeline) : Prop where
  resources : ∀ name c, p.Uses (.resource name) c → q.Uses (.resource name) c
  reads : ∀ o, (∃ c, p.Uses (.read o) c) ↔ ∃ c, q.Uses (.read o) c
  writes : ∀ o, (∃ c, p.Uses (.write o) c) ↔ ∃ c, q.Uses (.write o) c

theorem isArchitectureEqual_iff {i : Nat} (h : fu.Valid) (ht : t.Valid) :
    fu.isArchitectureEqual i t j = true ↔ Alike (fu.pipeline i) (t.pipeline j) := by
  have hp := (h.pipelines i).lengths
  have hq := (ht.pipelines j).lengths
  have hused (name : String) (c : Nat) : t.isResourceUsed j name c = true ↔ (t.pipeline j).Uses (.resource name) c := by
    rw [isResourceUsed, Bool.and_eq_true, hasPipelineElement_iff, List.contains_iff_mem]
    exact and_iff_right_of_imp (ht.used j c name)
  simp only [isArchitectureEqual, Bool.and_eq_true, decide_eq_true_eq, List.all_eq_true, List.mem_range, hused,
    Finset.ext_iff, mem_readOperands hp, mem_readOperands hq, mem_writtenOperands hp, mem_writtenOperands hq]
  constructor
  · rintro ⟨⟨hres, hreads⟩, hwrites⟩
    exact ⟨fun name c hc => hres c (Uses.lt_latency hp hc) name hc, hreads, hwrites⟩
  · rintro ⟨hres, hreads, hwrites⟩
    exact ⟨⟨fun c _ name hc => hres name c hc, hreads⟩, hwrites⟩

/-- The pipelines have the same resource names, reads and writes in every cycle. -/
structure SameTables (p q : ExecutionPipeline) : Prop where
  resources : ∀ name c, name ∈ p.resources c ↔ name ∈ q.resources c
  reads : ∀ o c, o ∈ p.reads c ↔ o ∈ q.reads c
  writes : ∀ o c, o ∈ p.writes c ↔ o ∈ q.writes c

theorem sameTables_iff {q : ExecutionPipeline} : SameTables p q ↔ ∀ use cycle, p.Uses use cycle ↔ q.Uses use cycle := by
  constructor
  · rintro ⟨hresources, hreads, hwrites⟩ use cycle
    cases use with
    | resource name => exact hresources name cycle
    | read operand => exact hreads operand cycle
    | write operand => exact hwrites operand cycle
  · intro h
    exact ⟨fun name => h (.resource name), fun o => h (.read o), fun o => h (.write o)⟩

/-- The second pipeline differs only by further resource uses, or in the cycles of the operands that both have. -/
structure Overlooked (p q : ExecutionPipeline) : Prop where
  alike : Alike p q
  differs : (∃ name c, name ∈ q.resources c ∧ name ∉ p.resources c) ∨
    (∃ o c, ¬(o ∈ p.reads c ↔ o ∈ q.reads c)) ∨ ∃ o c, ¬(o ∈ p.writes c ↔ o ∈ q.writes c)

theorem comparison_iff {i : Nat} (h : fu.Valid) (ht : t.Valid) :
    (fu.isArchitectureEqual i t j = true ↔ SameTables (fu.pipeline i) (t.pipeline j)) ↔
      ¬Overlooked (fu.pipeline i) (t.pipeline j) := by
  rw [isArchitectureEqual_iff h ht]
  generalize fu.pipeline i = p
  generalize t.pipeline j = q
  have hsame (hsame : SameTables p q) : Alike p q :=
    ⟨fun name c => (hsame.resources name c).mp, fun o => exists_congr (hsame.reads o),
      fun o => exists_congr (hsame.writes o)⟩
  constructor
  · rintro hiff ⟨halike, hdiffers⟩
    obtain ⟨hresources, hreads, hwrites⟩ := hiff.mp halike
    rcases hdiffers with ⟨name, c, hmem, hnot⟩ | ⟨o, c, hnot⟩ | ⟨o, c, hnot⟩
    · exact hnot ((hresources name c).mpr hmem)
    · exact hnot (hreads o c)
    · exact hnot (hwrites o c)
  · intro hnot
    refine ⟨fun halike => ?_, hsame⟩
    refine ⟨fun name c => ⟨halike.resources name c, fun hq => ?_⟩, fun o c => ?_, fun o c => ?_⟩
    · by_contra hp
      exact hnot ⟨halike, .inl ⟨name, c, hq, hp⟩⟩
    · by_contra hne
      exact hnot ⟨halike, .inr (.inl ⟨o, c, hne⟩)⟩
    · by_contra hne
      exact hnot ⟨halike, .inr (.inr ⟨o, c, hne⟩)⟩

/-- The unit is had from a new one by calls on its pipelines. -/
def Reachable (fu : FunctionUnit) : Prop :=
  ∃ (pipelineElements : List String) (operationCount : Nat) (calls : List (Nat × PipelineCall)),
    (∀ c ∈ calls, c.1 < operationCount) ∧ (create pipelineElements operationCount).run calls = some fu

theorem Reachable.valid (h : fu.Reachable) : fu.Valid := by
  obtain ⟨pipelineElements, operationCount, calls, hcalls, hrun⟩ := h
  have hlength : (create pipelineElements operationCount).pipelines.length = operationCount := List.length_replicate
  obtain ⟨s, hs, hvalid⟩ := (valid_create pipelineElements operationCount).run (hlength.symm ▸ hcalls)
    (neverOverflows_of_run hrun)
  rw [hrun, Option.some.injEq] at hs
  exact hs ▸ hvalid

/-- Every pipeline is saved and loaded right, and compared right with those that it does not overlook. -/
theorem persistence_and_comparison {i : Nat} (h : fu.Reachable) (ht : t.Reachable) (hj : j < t.pipelines.length) :
    (∃ u, t.loadState j (fu.pipeline i).saveState = .done u ∧ SameTables (u.pipeline j) (fu.pipeline i)) ∧
      ((fu.isArchitectureEqual i t j = true ↔ SameTables (fu.pipeline i) (t.pipeline j)) ↔
        ¬Overlooked (fu.pipeline i) (t.pipeline j)) := by
  obtain ⟨u, hdone, -, huses⟩ := loadState_saveState (h.valid.pipelines i) ht.valid hj
  exact ⟨⟨u, hdone, sameTables_iff.mpr huses⟩, comparison_iff h.valid ht.valid⟩

/-- A unit whose only operation uses a resource with a gap. -/
def gapUnit : FunctionUnit where
  pipelineElements := ["alu"]
  pipelines := [⟨[["alu"], [], ["alu"]], [[], [], []], [[], [], []]⟩]

theorem reachable_gapUnit : gapUnit.Reachable :=
  ⟨[], 1, [(0, .addResourceUse "alu" 0 1), (0, .addResourceUse "alu" 2 1)], by decide, by decide⟩

theorem reachable_create : (create [] 1).Reachable := ⟨[], 1, [], by decide, rfl⟩

theorem persistence_and_comparison_gapUnit : gapUnit.Reachable ∧ (create [] 1).Reachable ∧
    0 < (create [] 1).pipelines.length ∧
    (∃ u, (create [] 1).loadState 0 (gapUnit.pipeline 0).saveState = .done u ∧
      SameTables (u.pipeline 0) (gapUnit.pipeline 0)) ∧
    ((gapUnit.isArchitectureEqual 0 (create [] 1) 0 = true ↔
      SameTables (gapUnit.pipeline 0) ((create [] 1).pipeline 0)) ↔
      ¬Overlooked (gapUnit.pipeline 0) ((create [] 1).pipeline 0)) :=
  ⟨reachable_gapUnit, reachable_create, by decide,
    persistence_and_comparison reachable_gapUnit reachable_create (by decide)⟩

/-- A pipeline without uses is equal to every one that has resource uses only. -/
theorem not_comparison : (create [] 1).Reachable ∧ gapUnit.Reachable ∧
    (create [] 1).isArchitectureEqual 0 gapUnit 0 = true ∧ gapUnit.isArchitectureEqual 0 (create [] 1) 0 = false ∧
    ¬SameTables ((create [] 1).pipeline 0) (gapUnit.pipeline 0) := by
  refine ⟨reachable_create, reachable_gapUnit, by decide, by decide, fun h => ?_⟩
  exact List.not_mem_nil ((h.resources "alu" 0).mpr (by decide))

end FunctionUnit

end Tce.TTAMachine
