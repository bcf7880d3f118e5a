import Tce.Mach.PipelineRemoval

/-!
# Runs of calls on the pipelines of a unit

Every call keeps all pipelines of the unit valid, and the elements of all resources in use.
-/

namespace Tce.TTAMachine
open Base.CycleTable

namespace FunctionUnit
variable {fu s : FunctionUnit} {i j : Nat} {name : String} {p : ExecutionPipeline}

structure Valid (fu : FunctionUnit) : Prop where
  pipelines : ∀ i, (fu.pipeline i).Valid
  used : ∀ i c, ∀ name ∈ (fu.pipeline i).resources c, name ∈ fu.pipelineElements

theorem pipeline_setPipeline (hi : i < fu.pipelines.length) :
    (fu.setPipeline i p).pipeline j = if j = i then p else fu.pipeline j := by
  rw [pipeline, setPipeline, pipeline, List.getD_eq_getElem?_getD, List.getD_eq_getElem?_getD, List.getElem?_set]
  by_cases hj : i = j
  · rw [if_pos hj, if_pos hi, if_pos hj.symm, Option.getD_some]
  · rw [if_neg hj, if_neg (Ne.symm hj)]

theorem hasPipelineElement_iff : fu.hasPipelineElement name = true ↔ name ∈ fu.pipelineElements := by
  rw [hasPipelineElement, List.contains_iff_mem]

@[simp] theorem pipelines_cleanup (fu : FunctionUnit) (name : String) : (fu.cleanup name).pipelines = fu.pipelines := by
  rw [cleanup]
  split
  · rfl
  · split <;> rfl

@[simp] theorem pipelines_addPipelineElement (fu : FunctionUnit) (name : String) :
    (fu.addPipelineElement name).pipelines = fu.pipelines := by
  rw [addPipelineElement]
  split <;> rfl

theorem pipeline_congr {t : FunctionUnit} (h : s.pipelines = t.pipelines) : s.pipeline i = t.pipeline i := by
  rw [pipeline, h, pipeline]

theorem Valid.cleanup (h : fu.Valid) (name : String) : (fu.cleanup name).Valid := by
  have hsame (i : Nat) : (fu.cleanup name).pipeline i = fu.pipeline i := pipeline_congr (pipelines_cleanup fu name)
  refine ⟨fun i => hsame i ▸ h.pipelines i, ?_⟩
  intro i c b hb
  rw [hsame] at hb
  have hmem := h.used i c b hb
  rw [FunctionUnit.cleanup]
  split
  · exact hmem
  split
  · exact hmem
  · rename_i hhas hunused
    refine (List.mem_erase_of_ne ?_).mpr hmem
    rintro rfl
    have hlt := lt_of_mem_row hb
    have hi : i < fu.pipelines.length := by
      by_contra hpast
      rw [pipeline, List.getD_eq_getElem?_getD, List.getElem?_eq_none (Nat.not_lt.mp hpast)] at hb
      exact List.not_mem_nil hb
    refine hunused (List.any_eq_true.mpr ⟨i, List.mem_range.mpr hi,
      List.any_eq_true.mpr ⟨c, List.mem_range.mpr hlt, ?_⟩⟩)
    rw [isResourceUsed, Bool.and_eq_true, List.contains_iff_mem]
    exact ⟨by simpa using hhas, hb⟩

/-- A call that ends, with the unit it leaves. -/
def EndsValid (fu : FunctionUnit) (result : CallResult FunctionUnit) : Prop :=
  (∃ e, result = .threw e fu) ∨ ∃ t, result = .done t ∧ t.Valid ∧ t.pipelines.length = fu.pipelines.length

theorem Valid.setPipeline (h : fu.Valid) (hi : i < fu.pipelines.length) (hp : p.Valid)
    (hused : ∀ c, ∀ name ∈ p.resources c, name ∈ fu.pipelineElements) : (fu.setPipeline i p).Valid := by
  constructor
  · intro j
    rw [pipeline_setPipeline hi]
    split
    · exact hp
    · exact h.pipelines j
  · intro j c name hname
    rw [pipeline_setPipeline hi] at hname
    split at hname
    · exact hused c name hname
    · exact h.used j c name hname

theorem orThrow_cases (fu : FunctionUnit) (checks : List (Option PipelineException)) (rest : CallResult FunctionUnit) :
    (∃ e, fu.orThrow checks rest = .threw e fu) ∨ (fu.orThrow checks rest = rest ∧ ∀ c ∈ checks, c = none) := by
  rw [orThrow]
  cases hfind : checks.findSome? id with
  | some e => exact .inl ⟨e, rfl⟩
  | none => exact .inr ⟨rfl, List.findSome?_eq_none_iff.mp hfind⟩

/-- The sum of the start and the duration is needed and no `int`. -/
def Overflows (fu : FunctionUnit) (i : Nat) : PipelineCall → Prop
  | .addResourceUse name start duration =>
    (fu.pipeline i).checkStartCycle start = none ∧ ExecutionPipeline.checkDuration duration = none ∧
      ExecutionPipeline.checkResourceName name = none ∧ intMax < start + duration
  | .addPortRead operand start duration =>
    (fu.pipeline i).checkStartCycle start = none ∧ ExecutionPipeline.checkDuration duration = none ∧
      (fu.pipeline i).checkInputOperand operand = none ∧ intMax < start + duration
  | .addPortWrite operand start duration =>
    0 ≤ start ∧ ExecutionPipeline.checkDuration duration = none ∧
      (fu.pipeline i).checkOutputOperand operand = none ∧ intMax < start + duration
  | _ => False

theorem checkDuration_none {duration : Int} (h : ExecutionPipeline.checkDuration duration = none) : 1 ≤ duration := by
  rw [ExecutionPipeline.checkDuration] at h
  by_contra hlt
  rw [if_pos (by omega)] at h
  cases h

theorem checkResourceName_none (h : ExecutionPipeline.checkResourceName name = none) :
    MachineTester.isValidComponentName name = true := by
  rw [ExecutionPipeline.checkResourceName] at h
  by_contra hnot
  rw [if_neg hnot] at h
  cases h

theorem checkInputOperand_none {o : Int} (hp : p.Valid) (h : p.checkInputOperand o = none) :
    1 ≤ o ∧ ∀ c, o ∉ p.writes c := by
  rw [ExecutionPipeline.checkInputOperand] at h
  split at h
  · cases h
  split at h
  · cases h
  · rename_i hlow hwritten
    exact ⟨Int.not_lt.mp hlow, fun c hc => hwritten ((ExecutionPipeline.isOperandWritten_iff hp.lengths).mpr ⟨c, hc⟩)⟩

theorem checkOutputOperand_none {o : Int} (hp : p.Valid) (h : p.checkOutputOperand o = none) :
    1 ≤ o ∧ ∀ c, o ∉ p.reads c := by
  rw [ExecutionPipeline.checkOutputOperand] at h
  split at h
  · cases h
  split at h
  · cases h
  · rename_i hlow hread
    exact ⟨Int.not_lt.mp hlow, fun c hc => hread ((ExecutionPipeline.isOperandRead_iff hp.lengths).mpr ⟨c, hc⟩)⟩

theorem starts_of_toNat {start : Int} (h : 0 ≤ start ∧ (start ≤ 1 ∨ p.Starts 0 ∨ p.Starts 1)) :
    start.toNat ≤ 1 ∨ p.Starts 0 ∨ p.Starts 1 := h.2.imp_left (by omega)

/-- The latency is only adjusted where it must grow. -/
theorem adjusted_ite {start duration : Int} (hp : p.Valid) (hstart : 0 ≤ start) (hduration : 1 ≤ duration) :
    ExecutionPipeline.Adjusted p (start.toNat + duration.toNat)
      (if (p.latency : Int) < start + duration then p.adjustLatency (start + duration).toNat else p) := by
  have hsum : (start + duration).toNat = start.toNat + duration.toNat := by omega
  split
  · rw [hsum]
    exact ExecutionPipeline.adjusted_adjustLatency hp.lengths
  · exact ⟨hp.lengths, .refl p, by omega, by omega, fun c hc _ => hp.last c hc⟩

theorem Valid.addResourceUse {start duration : Int} (h : fu.Valid) (hi : i < fu.pipelines.length)
    (hno : ¬fu.Overflows i (.addResourceUse name start duration)) :
    fu.EndsValid (fu.addResourceUse i name start duration) := by
  have hp := h.pipelines i
  rw [FunctionUnit.addResourceUse]
  rcases fu.orThrow_cases _ _ with hthrew | ⟨heq, hchecks⟩
  · exact .inl hthrew
  rw [heq]
  simp only [List.forall_mem_cons] at hchecks
  obtain ⟨hstart, hduration, hname, -⟩ := hchecks
  have hsum : ¬intMax < start + duration := fun hlt => hno ⟨hstart, hduration, hname, hlt⟩
  rw [unlessOverflow, if_neg hsum]
  rcases fu.orThrow_cases _ _ with hthrew | ⟨heq', -⟩
  · exact .inl hthrew
  rw [heq']
  have hstarts := ExecutionPipeline.starts_of_checkStartCycle hstart
  have hpos := checkDuration_none hduration
  have hadjusted := ExecutionPipeline.adjusted_adjustLatency (n := start.toNat + duration.toNat) hp.lengths
  have hvalid := hp.insertResource hadjusted (by omega) (by omega) (checkResourceName_none hname)
    (starts_of_toNat hstarts)
  have hadded : (fu.addPipelineElement name).Valid ∧ name ∈ (fu.addPipelineElement name).pipelineElements ∧
      ∀ b ∈ fu.pipelineElements, b ∈ (fu.addPipelineElement name).pipelineElements := by
    have hsame (j : Nat) : (fu.addPipelineElement name).pipeline j = fu.pipeline j :=
      pipeline_congr (pipelines_addPipelineElement fu name)
    have helements : name ∈ (fu.addPipelineElement name).pipelineElements ∧
        ∀ b ∈ fu.pipelineElements, b ∈ (fu.addPipelineElement name).pipelineElements := by
      rw [addPipelineElement]
      split
      · exact ⟨hasPipelineElement_iff.mp ‹_›, fun b hb => hb⟩
      · exact ⟨List.mem_append_right _ (List.mem_singleton_self _), fun b hb => List.mem_append_left _ hb⟩
    refine ⟨⟨fun j => hsame j ▸ h.pipelines j, ?_⟩, helements⟩
    intro j c b hb
    rw [hsame] at hb
    exact helements.2 b (h.used j c b hb)
  refine .inr ⟨_, rfl, hadded.1.setPipeline (by rwa [pipelines_addPipelineElement]) hvalid ?_, ?_⟩
  · intro c b hb
    rcases hadjusted.mem_resources.mp hb with ⟨rfl, -⟩ | hold
    · exact hadded.2.1
    · exact hadded.2.2 b (h.used i c b hold)
  · simp [internalAddResourceUse, FunctionUnit.setPipeline]

theorem Valid.addPortRead {operand start duration : Int} (h : fu.Valid) (hi : i < fu.pipelines.length)
    (hno : ¬fu.Overflows i (.addPortRead operand start duration)) :
    fu.EndsValid (fu.addPortRead i operand start duration) := by
  have hp := h.pipelines i
  rw [FunctionUnit.addPortRead]
  rcases fu.orThrow_cases _ _ with hthrew | ⟨heq, hchecks⟩
  · exact .inl hthrew
  rw [heq]
  simp only [List.forall_mem_cons] at hchecks
  obtain ⟨hstart, hduration, hoperand, -⟩ := hchecks
  have hsum : ¬intMax < start + duration := fun hlt => hno ⟨hstart, hduration, hoperand, hlt⟩
  rw [unlessOverflow, if_neg hsum]
  rcases fu.orThrow_cases _ _ with hthrew | ⟨heq', -⟩
  · exact .inl hthrew
  rw [heq']
  have hstarts := ExecutionPipeline.starts_of_checkStartCycle hstart
  have hpos := checkDuration_none hduration
  obtain ⟨hpositive, hfree⟩ := checkInputOperand_none hp hoperand
  have hadjusted := adjusted_ite hp hstarts.1 hpos
  have hvalid := hp.insertRead hadjusted (by omega) (by omega) hpositive hfree (starts_of_toNat hstarts)
  refine .inr ⟨_, rfl, h.setPipeline hi hvalid ?_, by simp [FunctionUnit.setPipeline]⟩
  exact fun c b hb => h.used i c b (hadjusted.rows.resources c ▸ hb)

theorem Valid.addPortWrite {operand start duration : Int} (h : fu.Valid) (hi : i < fu.pipelines.length)
    (hno : ¬fu.Overflows i (.addPortWrite operand start duration)) :
    fu.EndsValid (fu.addPortWrite i operand start duration) := by
  have hp := h.pipelines i
  rw [FunctionUnit.addPortWrite]
  rcases fu.orThrow_cases _ _ with hthrew | ⟨heq, hchecks⟩
  · exact .inl hthrew
  rw [heq]
  simp only [List.forall_mem_cons] at hchecks
  obtain ⟨hstart, hduration, hoperand, -⟩ := hchecks
  have hstarts : 0 ≤ start := by
    by_contra hneg
    rw [if_pos (by omega)] at hstart
    cases hstart
  have hsum : ¬intMax < start + duration := fun hlt => hno ⟨hstarts, hduration, hoperand, hlt⟩
  rw [unlessOverflow, if_neg hsum]
  rcases fu.orThrow_cases _ _ with hthrew | ⟨heq', -⟩
  · exact .inl hthrew
  rw [heq']
  have hpos := checkDuration_none hduration
  obtain ⟨hpositive, hfree⟩ := checkOutputOperand_none hp hoperand
  have hadjusted := adjusted_ite hp hstarts hpos
  have hvalid := hp.insertWrite hadjusted (by omega) (by omega) hpositive hfree
  refine .inr ⟨_, rfl, h.setPipeline hi hvalid ?_, by simp [FunctionUnit.setPipeline]⟩
  exact fun c b hb => h.used i c b (hadjusted.rows.resources c ▸ hb)

/-- The unit with the resource removed in some cycles, where that is not too late a start. -/
theorem Valid.internalRemoveResourceUse {start duration : Nat} (h : fu.Valid) (hi : i < fu.pipelines.length)
    (hstart : ((fu.pipeline i).withoutResource name start
      (min (start + duration) (fu.pipeline i).latency - start)).StartsInTime)
    (hlt : start ≤ (fu.pipeline i).latency) : (fu.internalRemoveResourceUse i name start duration).Valid ∧
      (fu.internalRemoveResourceUse i name start duration).pipelines.length = fu.pipelines.length := by
  have hp := h.pipelines i
  rw [FunctionUnit.internalRemoveResourceUse]
  split
  · exact ⟨h, rfl⟩
  have hreduced := @ExecutionPipeline.reduced_withoutResource _ name _ _ hp
    (by omega : start + (min (start + duration) (fu.pipeline i).latency - start) ≤ (fu.pipeline i).latency)
  have hvalid := hp.reduce hreduced hstart
  refine ⟨(h.setPipeline hi hvalid ?_).cleanup name, by simp [FunctionUnit.setPipeline]⟩
  intro c b hb
  rw [(ExecutionPipeline.adjusted_adjustLatency (n := 0) hreduced.lengths).rows.resources] at hb
  exact h.used i c b (hreduced.resources c b hb)

theorem Valid.removeResourceUse (h : fu.Valid) (hi : i < fu.pipelines.length) :
    fu.EndsValid (fu.removeResourceUse i name) := by
  have hp := h.pipelines i
  rw [FunctionUnit.removeResourceUse]
  by_cases hhas : fu.hasPipelineElement name = true
  · rw [if_neg (by simp [hhas])]
    by_cases hlate : 1 < fu.firstCycleWithoutResource i name
    · exact .inl ⟨_, if_pos hlate⟩
    · rw [if_neg hlate]
      have hin : 0 + (fu.pipeline i).latency ≤ (fu.pipeline i).latency := (Nat.zero_add _).le
      have hreduced := @ExecutionPipeline.reduced_withoutResource _ name _ _ hp hin
      have hstart : ((fu.pipeline i).withoutResource name 0 (fu.pipeline i).latency).StartsInTime := by
        rintro ⟨c, hc⟩
        have hclt : c < (fu.pipeline i).latency := hreduced.latency ▸ hc.lt_latency hreduced.lengths
        have htest {k : Nat} (hk : k < (fu.pipeline i).latency) := @ExecutionPipeline.starts_withoutResource_iff
          _ name _ _ _ hp hin (⟨Nat.zero_le k, by omega⟩ : ExecutionPipeline.InCycles 0 _ k)
        rw [firstCycleWithoutResource, if_neg (by simp [hhas])] at hlate
        obtain ⟨k, hk, -, hkt⟩ := ExecutionPipeline.findCycle_le_one (Int.not_lt.mp hlate)
          (Nat.zero_le c) hclt (by simpa [or_assoc] using (htest hclt).mp hc)
        have hklt : k < (fu.pipeline i).latency := by
          by_contra hpast
          obtain ⟨hres, hread, -⟩ := hp.lengths.empty_past (Nat.not_lt.mp hpast)
          simp [hres, hread] at hkt
        have hstarts := (htest hklt).mpr (by simpa [or_assoc] using hkt)
        rcases Nat.le_one_iff_eq_zero_or_eq_one.mp hk with rfl | rfl
        · exact .inl hstarts
        · exact .inr hstarts
      have hall : min (0 + (fu.pipeline i).latency) (fu.pipeline i).latency - 0 = (fu.pipeline i).latency := by omega
      obtain ⟨hvalid, hlength⟩ := h.internalRemoveResourceUse
        hi (by rwa [hall]) (Nat.zero_le _)
      exact .inr ⟨_, rfl, hvalid, hlength⟩
  · rw [if_pos (by simp [hhas])]
    exact .inr ⟨fu, rfl, h, rfl⟩

theorem Valid.removeResourceUseAt {cycle : Int} (h : fu.Valid) (hi : i < fu.pipelines.length) :
    fu.EndsValid (fu.removeResourceUseAt i name cycle) := by
  have hp := h.pipelines i
  rw [FunctionUnit.removeResourceUseAt]
  by_cases hhas : fu.hasPipelineElement name = true
  swap
  · rw [if_pos (by simp [hhas])]
    exact .inr ⟨fu, rfl, h, rfl⟩
  rw [if_neg (by simp [hhas])]
  by_cases hneg : cycle < 0
  · exact .inl ⟨_, if_pos hneg⟩
  rw [if_neg hneg]
  by_cases hpast : (fu.pipeline i).latency ≤ cycle
  · rw [if_pos hpast]
    exact .inr ⟨fu, rfl, h, rfl⟩
  rw [if_neg hpast]
  by_cases hlate : (cycle = 0 ∨ cycle = 1) ∧ 1 < fu.firstCycleWithoutResourceAt i name cycle.toNat
  · exact .inl ⟨_, if_pos hlate⟩
  rw [if_neg hlate]
  obtain ⟨k, rfl⟩ : ∃ k : Nat, cycle = k := ⟨cycle.toNat, by omega⟩
  rw [Int.toNat_natCast] at hlate ⊢
  have hk : k + 1 ≤ (fu.pipeline i).latency := by omega
  have hreduced := @ExecutionPipeline.reduced_withoutResource _ name _ _ hp hk
  have hstart : ((fu.pipeline i).withoutResource name k 1).StartsInTime := by
    refine @ExecutionPipeline.Valid.startsInTime_removed _ _ k hp hreduced.starts ?_ ?_
    · intro c hne hc
      refine ExecutionPipeline.starts_withoutResource hp hk (fun hin => hne ?_) hc
      have := hin.1
      have := hin.2
      omega
    · intro hfirst
      by_cases hstarts : ((fu.pipeline i).withoutResource name k 1).Starts k
      · exact .inl hstarts
      by_cases hcount : (fu.pipeline i).Starts k
      · obtain ⟨f, hf, hle, -⟩ := hp.firstCycle_eq hcount
        have hnot := mt (ExecutionPipeline.starts_withoutResource_iff hp hk
          ⟨Nat.le_refl k, Nat.lt_succ_self k⟩).mpr hstarts
        rw [not_or] at hnot
        rw [firstCycleWithoutResourceAt, if_neg (not_not_intro hfirst), if_neg (by simp [hhas]), if_neg hnot.1,
          if_neg hnot.2] at hlate
        refine .inr (Int.not_lt.mp fun hlt => hlate ⟨by omega, ?_⟩)
        simpa only [Bool.or_comm] using hlt
      · rcases (fu.pipeline i).findCycle_cases 0 (fun c => (fu.pipeline i).resources c ≠ [] ||
            (fu.pipeline i).reads c ≠ []) with ⟨hnone, -⟩ | ⟨f, hf, -, htest, -⟩
        · rw [ExecutionPipeline.firstCycle, hnone] at hfirst
          omega
        · rw [ExecutionPipeline.firstCycle, hf] at hfirst
          exact absurd (ExecutionPipeline.firstCycle_test.mp htest) (Int.ofNat.inj hfirst ▸ hcount)
  have hone : min (k + 1) (fu.pipeline i).latency - k = 1 := by omega
  obtain ⟨hvalid, hlength⟩ := h.internalRemoveResourceUse hi
    (by rwa [hone]) (by omega)
  exact .inr ⟨_, rfl, hvalid, hlength⟩

theorem Valid.removeOperandUse {operand cycle : Int} (h : fu.Valid) (hi : i < fu.pipelines.length) :
    fu.EndsValid (fu.removeOperandUse i operand cycle) := by
  have hp := h.pipelines i
  rw [FunctionUnit.removeOperandUse]
  by_cases hrange : cycle < 0 ∨ operand < 1
  · exact .inl ⟨_, if_pos hrange⟩
  rw [if_neg hrange]
  by_cases hpast : (fu.pipeline i).latency ≤ cycle
  · rw [if_pos hpast]
    exact .inr ⟨fu, rfl, h, rfl⟩
  rw [if_neg hpast]
  by_cases hlate : 1 < (fu.pipeline i).firstCycleWithoutOperandUse operand cycle.toNat
  · exact .inl ⟨_, if_pos hlate⟩
  rw [if_neg hlate]
  have hk : cycle.toNat + 1 ≤ (fu.pipeline i).latency := by omega
  have hreduced := ExecutionPipeline.reduced_withoutOperand (o := operand) hp hk
  have hvalid := hp.reduce hreduced (ExecutionPipeline.startsInTime_withoutOperand hp hk hlate)
  refine .inr ⟨_, rfl, h.setPipeline hi hvalid ?_, by simp [FunctionUnit.setPipeline]⟩
  intro c b hb
  rw [(ExecutionPipeline.adjusted_adjustLatency (n := 0) hreduced.lengths).rows.resources] at hb
  exact h.used i c b (hreduced.resources c b hb)

theorem valid_foldl_cleanup (names : List String) (h : fu.Valid) :
    (names.foldl FunctionUnit.cleanup fu).Valid ∧ (names.foldl FunctionUnit.cleanup fu).pipelines = fu.pipelines := by
  induction names generalizing fu with
  | nil => exact ⟨h, rfl⟩
  | cons name names ih =>
    obtain ⟨hvalid, hsame⟩ := ih (h.cleanup name)
    exact ⟨hvalid, hsame.trans (pipelines_cleanup fu name)⟩

theorem Valid.removeAllResourceUses (h : fu.Valid) (hi : i < fu.pipelines.length) :
    (fu.removeAllResourceUses i).Valid ∧ (fu.removeAllResourceUses i).pipelines = (fu.setPipeline i .empty).pipelines :=
  valid_foldl_cleanup _
    (h.setPipeline hi ExecutionPipeline.valid_empty fun _ _ hname => absurd hname List.not_mem_nil)

theorem Valid.call {call : PipelineCall} (h : fu.Valid) (hi : i < fu.pipelines.length) (hno : ¬fu.Overflows i call) :
    fu.EndsValid (fu.call i call) := by
  cases call with
  | addResourceUse name start duration => exact h.addResourceUse hi hno
  | addPortRead operand start duration => exact h.addPortRead hi hno
  | addPortWrite operand start duration => exact h.addPortWrite hi hno
  | removeResourceUse name => exact h.removeResourceUse hi
  | removeResourceUseAt name cycle => exact h.removeResourceUseAt hi
  | removeOperandUse operand cycle => exact h.removeOperandUse hi
  | removeAllResourceUses =>
    obtain ⟨hvalid, hsame⟩ := h.removeAllResourceUses hi
    exact .inr ⟨_, rfl, hvalid, by rw [hsame]; simp [FunctionUnit.setPipeline]⟩

/-! ## Runs -/

theorem orThrow_threw {checks : List (Option PipelineException)} {rest : CallResult FunctionUnit}
    {e : PipelineException} (h : fu.orThrow checks rest = .threw e s) : s = fu ∨ rest = .threw e s := by
  rw [orThrow] at h
  split at h
  · cases h
    exact .inl rfl
  · exact .inr h

theorem unlessOverflow_threw {start duration : Int} {rest : CallResult FunctionUnit} {e : PipelineException}
    (h : unlessOverflow start duration rest = .threw e s) : rest = .threw e s := by
  rw [unlessOverflow] at h
  split at h
  · cases h
  · exact h

/-- The additions throw before they do anything. -/
theorem add_threw {checks checks' : List (Option PipelineException)} {start duration : Int} {t : FunctionUnit}
    {e : PipelineException}
    (h : fu.orThrow checks (unlessOverflow start duration (fu.orThrow checks' (.done t))) = .threw e s) : s = fu := by
  rcases orThrow_threw h with rfl | h
  · rfl
  rcases orThrow_threw (unlessOverflow_threw h) with rfl | h
  · rfl
  · cases h

theorem call_threw {call : PipelineCall} {e : PipelineException} (h : fu.call i call = .threw e s) : s = fu := by
  cases call with
  | addResourceUse name start duration => exact add_threw h
  | addPortRead operand start duration => exact add_threw h
  | addPortWrite operand start duration => exact add_threw h
  | removeResourceUse name =>
    rw [call, FunctionUnit.removeResourceUse] at h
    split at h
    · cases h
    split at h
    · cases h
      rfl
    · cases h
  | removeResourceUseAt name cycle =>
    rw [call, FunctionUnit.removeResourceUseAt] at h
    split at h
    · cases h
    split at h
    · cases h
      rfl
    split at h
    · cases h
    split at h
    · cases h
      rfl
    · cases h
  | removeOperandUse operand cycle =>
    rw [call, FunctionUnit.removeOperandUse] at h
    split at h
    · cases h
      rfl
    split at h
    · cases h
    split at h
    · cases h
      rfl
    · cases h
  | removeAllResourceUses => cases h

theorem orThrow_none {checks : List (Option PipelineException)} {rest : CallResult FunctionUnit}
    (h : ∀ c ∈ checks, c = none) : fu.orThrow checks rest = rest := by
  have hnone : checks.findSome? id = none := List.findSome?_eq_none_iff.mpr h
  rw [orThrow, hnone]

theorem call_undefined {call : PipelineCall} (h : fu.Overflows i call) : fu.call i call = .undefined := by
  cases call with
  | addResourceUse name start duration =>
    obtain ⟨hstart, hduration, hname, hsum⟩ := h
    exact (orThrow_none (by simp [hstart, hduration, hname])).trans (if_pos hsum)
  | addPortRead operand start duration =>
    obtain ⟨hstart, hduration, hoperand, hsum⟩ := h
    exact (orThrow_none (by simp [hstart, hduration, hoperand])).trans (if_pos hsum)
  | addPortWrite operand start duration =>
    obtain ⟨hstart, hduration, hoperand, hsum⟩ := h
    exact (orThrow_none (by simp [Int.not_lt.mpr hstart, hduration, hoperand])).trans (if_pos hsum)
  | removeResourceUse | removeResourceUseAt | removeOperandUse | removeAllResourceUses => exact h.elim

/-- No call of the run needs a sum that is no `int`. -/
def NeverOverflows (fu : FunctionUnit) : List (Nat × PipelineCall) → Prop
  | [] => True
  | (i, call) :: calls => ¬fu.Overflows i call ∧ ∀ s, (fu.call i call).state? = some s → s.NeverOverflows calls

theorem Valid.run {calls : List (Nat × PipelineCall)} (h : fu.Valid) (hcalls : ∀ c ∈ calls, c.1 < fu.pipelines.length)
    (hno : fu.NeverOverflows calls) : ∃ s, fu.run calls = some s ∧ s.Valid := by
  induction calls generalizing fu with
  | nil => exact ⟨fu, rfl, h⟩
  | cons c calls ih =>
    obtain ⟨i, call⟩ := c
    obtain ⟨hi, hrest⟩ := List.forall_mem_cons.mp hcalls
    rcases h.call hi hno.1 with ⟨e, hthrew⟩ | ⟨t, hdone, hvalid, hlength⟩
    · obtain ⟨s, hrun, hs⟩ := ih h hrest (hno.2 fu (by rw [hthrew]; rfl))
      exact ⟨s, by rw [FunctionUnit.run, hthrew]; exact hrun, hs⟩
    · obtain ⟨s, hrun, hs⟩ := ih hvalid (hlength ▸ hrest) (hno.2 t (by rw [hdone]; rfl))
      exact ⟨s, by rw [FunctionUnit.run, hdone]; exact hrun, hs⟩

theorem neverOverflows_of_run {calls : List (Nat × PipelineCall)} (hrun : fu.run calls = some s) :
    fu.NeverOverflows calls := by
  induction calls generalizing fu with
  | nil => trivial
  | cons c calls ih =>
    obtain ⟨i, call⟩ := c
    rw [FunctionUnit.run] at hrun
    obtain ⟨t, ht, hrest⟩ := Option.bind_eq_some_iff.mp hrun
    refine ⟨fun hover => ?_, fun u hu => ?_⟩
    · rw [call_undefined hover] at ht
      cases ht
    · rw [ht, Option.some.injEq] at hu
      exact hu ▸ ih hrest

theorem valid_create (pipelineElements : List String) (operationCount : Nat) :
    (create pipelineElements operationCount).Valid := by
  have hempty (i : Nat) : (create pipelineElements operationCount).pipeline i = .empty := by
    rw [pipeline, create, List.getD_eq_getElem?_getD, List.getElem?_replicate]
    split <;> rfl
  constructor
  · intro i
    rw [hempty]
    exact ExecutionPipeline.valid_empty
  · intro i c name hname
    rw [hempty] at hname
    exact absurd hname List.not_mem_nil

/-- What holds of a unit and its pipelines between calls. -/
structure Right (fu : FunctionUnit) : Prop where
  valid : fu.Valid
  latency : ∀ i output n, (fu.pipeline i).latencyOf output = some n ↔ ∃ cycle, n = cycle + 1 ∧
    output ∈ (fu.pipeline i).writes cycle ∧ ∀ later, cycle < later → output ∉ (fu.pipeline i).writes later
  slack : ∀ i input n, (fu.pipeline i).slack input = some n ↔
    input ∈ (fu.pipeline i).reads n ∧ ∀ earlier, earlier < n → input ∉ (fu.pipeline i).reads earlier
  unchanged : ∀ i call e s, fu.call i call = .threw e s → s = fu

theorem Valid.right (h : fu.Valid) : fu.Right where
  valid := h
  latency := fun i _ _ => ExecutionPipeline.latencyOf_iff (h.pipelines i).lengths
  slack := fun i _ _ => ExecutionPipeline.slack_iff (h.pipelines i).lengths
  unchanged := fun _ _ _ _ => call_threw

/-- The pipelines of a unit stay valid through exactly the runs that do not overflow. -/
theorem run_right_iff {pipelineElements : List String} {operationCount : Nat} {calls : List (Nat × PipelineCall)}
    (hcalls : ∀ c ∈ calls, c.1 < operationCount) :
    (∃ fu, (create pipelineElements operationCount).run calls = some fu ∧ fu.Right) ↔
      (create pipelineElements operationCount).NeverOverflows calls := by
  constructor
  · rintro ⟨fu, hrun, -⟩
    exact neverOverflows_of_run hrun
  · intro hno
    have hlength : (create pipelineElements operationCount).pipelines.length = operationCount := List.length_replicate
    obtain ⟨fu, hrun, hvalid⟩ := (valid_create pipelineElements operationCount).run (hlength.symm ▸ hcalls) hno
    exact ⟨fu, hrun, hvalid.right⟩

/-- Two operations that use one resource, and a use that is removed. -/
def sharedCalls : List (Nat × PipelineCall) :=
  [(0, .addResourceUse "alu" 0 2), (0, .addPortRead 1 0 1), (1, .addResourceUse "alu" 1 1),
    (0, .removeResourceUse "alu")]

theorem run_right_sharedCalls : (∀ c ∈ sharedCalls, c.1 < 2) ∧
    ((∃ fu, (create [] 2).run sharedCalls = some fu ∧ fu.Right) ↔ (create [] 2).NeverOverflows sharedCalls) := by
  have hcalls : ∀ c ∈ sharedCalls, c.1 < 2 := by decide
  exact ⟨hcalls, run_right_iff hcalls⟩

/-- The sum of the start cycle and the duration overflows. -/
theorem not_run_right : ¬∀ (pipelineElements : List String) (operationCount : Nat)
    (calls : List (Nat × PipelineCall)), (∀ c ∈ calls, c.1 < operationCount) →
      ∃ fu, (create pipelineElements operationCount).run calls = some fu ∧ fu.Right := by
  intro h
  obtain ⟨fu, hrun, -⟩ := h [] 1 [(0, .addResourceUse "alu" 1 2147483647)] (by decide)
  have hnone : (create [] 1).run [(0, .addResourceUse "alu" 1 2147483647)] = none := by decide
  rw [hnone] at hrun
  cases hrun

end FunctionUnit

end Tce.TTAMachine
