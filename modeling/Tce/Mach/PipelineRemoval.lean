import Tce.Mach.PipelineInvariant

/-!
# Uses that are removed

A use may be removed when the first cycle that counts without it is zero or one. The scans that
the checks make predict that cycle.
-/

namespace Tce.TTAMachine
open Base.CycleTable

namespace ExecutionPipeline
variable {p q : ExecutionPipeline} {name : String} {o : Int} {cycle : Nat}

theorem Starts.lt_latency (h : p.SameLengths) (hstarts : p.Starts cycle) : cycle < p.latency := by
  by_contra hpast
  obtain ⟨hres, hread, -⟩ := h.empty_past (Nat.not_lt.mp hpast)
  exact hstarts.elim (· hres) (· hread)

theorem firstCycle_test : (p.resources cycle ≠ [] || p.reads cycle ≠ []) = true ↔ p.Starts cycle := by
  simp [Starts]

/-- What `firstCycle` returns where a cycle counts. -/
theorem Valid.firstCycle_eq (hp : p.Valid) (hstarts : p.Starts cycle) :
    ∃ f : Nat, p.firstCycle = f ∧ f ≤ 1 ∧ p.Starts f ∧ ∀ c, p.Starts c → f ≤ c := by
  have hle : ∃ c, c ≤ 1 ∧ p.Starts c := (hp.start ⟨cycle, hstarts⟩).elim (⟨0, by decide, ·⟩) (⟨1, by decide, ·⟩)
  obtain ⟨c, hc, hcstarts⟩ := hle
  rcases p.findCycle_cases 0 fun cycle => p.resources cycle ≠ [] || p.reads cycle ≠ [] with
    ⟨-, hnone⟩ | ⟨f, hf, -, htest, hfirst⟩
  · have := hnone cycle (Nat.zero_le _) (hstarts.lt_latency hp.lengths)
    rw [firstCycle_test.mpr hstarts] at this
    cases this
  · have hleast (k : Nat) (hk : p.Starts k) : f ≤ k := by
      by_contra hlt
      have := hfirst k (Nat.zero_le _) (Nat.not_le.mp hlt)
      rw [firstCycle_test.mpr hk] at this
      cases this
    exact ⟨f, hf, (hleast c hcstarts).trans hc, firstCycle_test.mp htest, hleast⟩

/-- One cycle has less, and the check of it passes. -/
theorem Valid.startsInTime_removed (hp : p.Valid) (hless : ∀ c, q.Starts c → p.Starts c)
    (hsame : ∀ c, c ≠ cycle → p.Starts c → q.Starts c)
    (hcheck : p.firstCycle = cycle → q.Starts cycle ∨
      p.findCycle (cycle + 1) (fun c => p.resources c ≠ [] || p.reads c ≠ []) ≤ 1) : q.StartsInTime := by
  rintro ⟨c, hc⟩
  have hzero_or_one : ∀ k, k ≤ 1 → q.Starts k → q.Starts 0 ∨ q.Starts 1 := by
    intro k hk hstarts
    rcases Nat.le_one_iff_eq_zero_or_eq_one.mp hk with rfl | rfl
    · exact .inl hstarts
    · exact .inr hstarts
  obtain ⟨f, hf, hle, hfstarts, hleast⟩ := hp.firstCycle_eq (hless c hc)
  by_cases hcycle : f = cycle
  · subst hcycle
    rcases hcheck hf with hstarts | hnext
    · exact hzero_or_one f hle hstarts
    · by_cases hfirst : c = f
      · exact hzero_or_one f hle (hfirst ▸ hc)
      · have hlt := hleast c (hless c hc)
        obtain ⟨k, hk, hkf, htest⟩ := findCycle_le_one hnext (by omega : f + 1 ≤ c)
          ((hless c hc).lt_latency hp.lengths) (firstCycle_test.mpr (hless c hc))
        exact hzero_or_one k hk (hsame k (by omega) (firstCycle_test.mp htest))
  · exact hzero_or_one f hle (hsame f hcycle hfstarts)

/-- What any of the removals leaves before the latency is adjusted. -/
structure Reduced (p q : ExecutionPipeline) : Prop where
  lengths : q.SameLengths
  latency : q.latency = p.latency
  sets : q.RowsAreSets
  resources : ∀ c, ∀ name ∈ q.resources c, name ∈ p.resources c
  reads : ∀ c, ∀ o ∈ q.reads c, o ∈ p.reads c
  writes : ∀ c, ∀ o ∈ q.writes c, o ∈ p.writes c

theorem ne_nil_of_subset {α : Type} {l l' : List α} (h : ∀ a ∈ l, a ∈ l') (hl : l ≠ []) : l' ≠ [] := by
  obtain ⟨a, ha⟩ := List.exists_mem_of_ne_nil l hl
  exact List.ne_nil_of_mem (h a ha)

theorem Reduced.starts (h : Reduced p q) : ∀ c, q.Starts c → p.Starts c :=
  fun c hc => hc.imp (ne_nil_of_subset (h.resources c)) (ne_nil_of_subset (h.reads c))

theorem SameRows.starts_iff {r : ExecutionPipeline} (h : SameRows r q) : r.Starts cycle ↔ q.Starts cycle := by
  rw [Starts, Starts, h.resources, h.reads]

theorem Valid.reduce (hp : p.Valid) (h : Reduced p q) (hstart : q.StartsInTime) : (q.adjustLatency 0).Valid := by
  have hadjusted := adjusted_adjustLatency (n := 0) h.lengths
  have hrows := hadjusted.rows
  constructor
  case lengths => exact hadjusted.lengths
  case sets => exact hrows.rowsAreSets h.sets
  case last => exact fun c hc => hadjusted.last c hc (Nat.zero_le _)
  case start =>
    rintro ⟨c, hc⟩
    exact (hstart ⟨c, hrows.starts_iff.mp hc⟩).imp hrows.starts_iff.mpr hrows.starts_iff.mpr
  case operands =>
    intro o c c' hread hwrite
    rw [hrows.reads] at hread
    rw [hrows.writes] at hwrite
    exact hp.operands o c c' (h.reads c o hread) (h.writes c' o hwrite)
  case names =>
    intro c name hname
    rw [hrows.resources] at hname
    exact hp.names c name (h.resources c name hname)
  case positive =>
    intro o c hmem
    rw [hrows.reads, hrows.writes] at hmem
    exact hp.positive o c (hmem.imp (h.reads c o) (h.writes c o))
  case bounded =>
    have hhigh := hadjusted.high
    have := hp.bounded
    rw [h.latency] at hhigh
    omega

section Resources
variable {start duration : Nat}

theorem mem_withoutResource (hp : p.Valid) (hin : start + duration ≤ p.latency) {b : String} :
    b ∈ (p.withoutResource name start duration).resources cycle ↔
      ¬(b = name ∧ InCycles start duration cycle) ∧ b ∈ p.resources cycle :=
  mem_row_removeAt hp.sets.resources hin

theorem reduced_withoutResource (hp : p.Valid) (hin : start + duration ≤ p.latency) :
    Reduced p (p.withoutResource name start duration) where
  lengths := ⟨hp.lengths.reads.trans length_removeAt.symm, hp.lengths.writes.trans length_removeAt.symm⟩
  latency := length_removeAt
  sets := ⟨Sets.removeAt hp.sets.resources hin, hp.sets.reads, hp.sets.writes⟩
  resources := fun _ _ hb => ((mem_withoutResource hp hin).mp hb).2
  reads := fun _ _ h => h
  writes := fun _ _ h => h

theorem starts_withoutResource (hp : p.Valid) (hin : start + duration ≤ p.latency)
    (hcycle : ¬InCycles start duration cycle) (h : p.Starts cycle) :
    (p.withoutResource name start duration).Starts cycle :=
  h.imp (ne_nil_of_subset fun _ hb => (mem_withoutResource hp hin).mpr ⟨fun hc => hcycle hc.2, hb⟩) id

/-- Where the resource is removed the cycle still counts if there is another one, or a read. -/
theorem starts_withoutResource_iff (hp : p.Valid) (hin : start + duration ≤ p.latency)
    (hcycle : InCycles start duration cycle) : (p.withoutResource name start duration).Starts cycle ↔
      p.reads cycle ≠ [] ∨ 1 < (p.resources cycle).length ∨
        ((p.resources cycle).length = 1 ∧ name ∉ p.resources cycle) := by
  rw [exists_ne_iff (hp.sets.resources cycle), Starts, or_comm]
  refine or_congr Iff.rfl ?_
  constructor
  · intro hne
    obtain ⟨b, hb⟩ := List.exists_mem_of_ne_nil _ hne
    obtain ⟨hnot, hmem⟩ := (mem_withoutResource hp hin).mp hb
    exact ⟨b, hmem, fun hb => hnot ⟨hb, hcycle⟩⟩
  · rintro ⟨b, hmem, hne⟩
    exact List.ne_nil_of_mem ((mem_withoutResource hp hin).mpr ⟨fun h => hne h.1, hmem⟩)

end Resources

section Operands
variable {k : Nat} {x : Int} (hp : p.Valid) (hk : k + 1 ≤ p.latency)
include hp hk

theorem mem_reads_withoutOperand :
    x ∈ (p.withoutOperand o k).reads cycle ↔ ¬(x = o ∧ InCycles k 1 cycle) ∧ x ∈ p.reads cycle :=
  mem_row_removeAt hp.sets.reads (hk.trans hp.lengths.reads.ge)

theorem mem_writes_withoutOperand :
    x ∈ (p.withoutOperand o k).writes cycle ↔ ¬(x = o ∧ InCycles k 1 cycle) ∧ x ∈ p.writes cycle :=
  mem_row_removeAt hp.sets.writes (hk.trans hp.lengths.writes.ge)

theorem reduced_withoutOperand : Reduced p (p.withoutOperand o k) where
  lengths := ⟨length_removeAt.trans hp.lengths.reads, length_removeAt.trans hp.lengths.writes⟩
  latency := rfl
  sets := ⟨hp.sets.resources, Sets.removeAt hp.sets.reads (hk.trans hp.lengths.reads.ge),
    Sets.removeAt hp.sets.writes (hk.trans hp.lengths.writes.ge)⟩
  resources := fun _ _ h => h
  reads := fun _ _ h => ((mem_reads_withoutOperand hp hk).mp h).2
  writes := fun _ _ h => ((mem_writes_withoutOperand hp hk).mp h).2

theorem startsInTime_withoutOperand (hcheck : ¬1 < p.firstCycleWithoutOperandUse o k) :
    (p.withoutOperand o k).StartsInTime := by
  refine @Valid.startsInTime_removed _ _ k hp (reduced_withoutOperand hp hk).starts ?_ ?_
  · intro c hne hc
    refine hc.imp id (ne_nil_of_subset fun x hx => ?_)
    refine (mem_reads_withoutOperand hp hk).mpr ⟨fun h => hne ?_, hx⟩
    have := h.2.1
    have := h.2.2
    omega
  · intro hfirst
    rw [firstCycleWithoutOperandUse, if_neg (not_not_intro hfirst)] at hcheck
    by_cases hother : 1 < (p.reads k).length ∨ ((p.reads k).length = 1 ∧ o ∉ p.reads k)
    · obtain ⟨b, hb, hne⟩ := (exists_ne_iff (hp.sets.reads k)).mp hother
      exact .inl (.inr (List.ne_nil_of_mem ((mem_reads_withoutOperand hp hk).mpr ⟨fun h => hne h.1, hb⟩)))
    · rw [if_neg hother] at hcheck
      by_cases hres : p.resources k ≠ []
      · exact .inl (.inl hres)
      · rw [if_neg hres] at hcheck
        exact .inr (Int.not_lt.mp hcheck)

end Operands

end ExecutionPipeline

end Tce.TTAMachine
