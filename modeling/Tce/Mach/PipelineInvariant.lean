import Tce.Mach.ExecutionPipeline

/-!
# The latency of a pipeline

What the tables say of each cycle does not change when the latency is adjusted.
-/

namespace Tce.TTAMachine.ExecutionPipeline
open Base.CycleTable

variable {p q : ExecutionPipeline} {cycle start n k : Nat} {o : Int} {name : String}

/-- A resource is used or an operand is read. -/
def Starts (p : ExecutionPipeline) (cycle : Nat) : Prop := p.resources cycle ≠ [] ∨ p.reads cycle ≠ []

def Empty (p : ExecutionPipeline) (cycle : Nat) : Prop :=
  p.resources cycle = [] ∧ p.reads cycle = [] ∧ p.writes cycle = []

/-- The first cycle that counts, if any, is 0 or 1. -/
def StartsInTime (p : ExecutionPipeline) : Prop := (∃ cycle, p.Starts cycle) → p.Starts 0 ∨ p.Starts 1

structure SameLengths (p : ExecutionPipeline) : Prop where
  reads : p.opReads.length = p.latency
  writes : p.opWrites.length = p.latency

structure SameRows (p q : ExecutionPipeline) : Prop where
  resources : ∀ cycle, p.resources cycle = q.resources cycle
  reads : ∀ cycle, p.reads cycle = q.reads cycle
  writes : ∀ cycle, p.writes cycle = q.writes cycle

structure RowsAreSets (p : ExecutionPipeline) : Prop where
  resources : ∀ cycle, (p.resources cycle).Nodup
  reads : ∀ cycle, (p.reads cycle).Nodup
  writes : ∀ cycle, (p.writes cycle).Nodup

theorem SameRows.refl (p : ExecutionPipeline) : SameRows p p := ⟨fun _ => rfl, fun _ => rfl, fun _ => rfl⟩

theorem SameRows.trans {r : ExecutionPipeline} (h : SameRows p q) (h' : SameRows q r) : SameRows p r :=
  ⟨fun c => (h.resources c).trans (h'.resources c), fun c => (h.reads c).trans (h'.reads c),
    fun c => (h.writes c).trans (h'.writes c)⟩

theorem SameRows.rowsAreSets (h : SameRows p q) (hsets : q.RowsAreSets) : p.RowsAreSets :=
  ⟨fun c => (h.resources c).symm ▸ hsets.resources c, fun c => (h.reads c).symm ▸ hsets.reads c,
    fun c => (h.writes c).symm ▸ hsets.writes c⟩

theorem SameLengths.empty_past (h : p.SameLengths) (hpast : p.latency ≤ cycle) : p.Empty cycle :=
  ⟨row_past hpast, row_past (h.reads.trans_le hpast), row_past (h.writes.trans_le hpast)⟩

@[simp] theorem latency_resize : (p.resize n).latency = n := length_resize

theorem sameLengths_resize : (p.resize n).SameLengths := by
  constructor <;> rw [latency_resize] <;> exact length_resize

/-- Rows that are cut off were empty. -/
theorem sameRows_resize (h : ∀ cycle, n ≤ cycle → p.Empty cycle) : SameRows (p.resize n) p := by
  constructor <;> intro cycle <;> refine row_resize.trans ?_ <;> split
  · rfl
  · exact (h cycle (Nat.not_lt.mp ‹_›)).1.symm
  · rfl
  · exact (h cycle (Nat.not_lt.mp ‹_›)).2.1.symm
  · rfl
  · exact (h cycle (Nat.not_lt.mp ‹_›)).2.2.symm

/-- A pipeline with the rows of another, cut off or filled to a latency. -/
structure Adjusted (p : ExecutionPipeline) (n : Nat) (q : ExecutionPipeline) : Prop where
  lengths : q.SameLengths
  rows : SameRows q p
  low : n ≤ q.latency
  high : q.latency ≤ max n p.latency
  last : ∀ cycle, q.latency = cycle + 1 → n ≤ cycle → ¬q.Empty cycle

theorem adjusted_trim (h : p.SameLengths) (hk : p.latency = k) (hn : n ≤ k) : Adjusted p n (trim n k p) := by
  induction k generalizing p with
  | zero => exact ⟨h, .refl p, by omega, by rw [trim]; omega, fun cycle hcycle => by rw [trim] at hcycle; omega⟩
  | succ cycle ih =>
    rw [trim]
    by_cases htrim : n ≤ cycle ∧ p.resources cycle = [] ∧ p.reads cycle = [] ∧ p.writes cycle = []
    · rw [if_pos htrim]
      have hempty : ∀ c, cycle ≤ c → p.Empty c := by
        intro c hc
        rcases Nat.eq_or_lt_of_le hc with rfl | hlt
        · exact htrim.2
        · exact h.empty_past (by omega)
      have hrest := ih (p := p.resize cycle) sameLengths_resize latency_resize htrim.1
      have hhigh := hrest.high
      rw [latency_resize] at hhigh
      exact ⟨hrest.lengths, hrest.rows.trans (sameRows_resize hempty), hrest.low, by omega, hrest.last⟩
    · rw [if_neg htrim]
      refine ⟨h, .refl p, by omega, by omega, ?_⟩
      intro c hc hnc hempty
      have hsame : c = cycle := by omega
      exact htrim ⟨hsame ▸ hnc, hsame ▸ hempty⟩

theorem adjusted_adjustLatency (h : p.SameLengths) : Adjusted p n (p.adjustLatency n) := by
  rw [adjustLatency]
  by_cases hgrow : p.latency < n
  · rw [if_pos hgrow]
    refine ⟨sameLengths_resize, sameRows_resize fun c hc => h.empty_past (by omega), latency_resize.ge, ?_, ?_⟩
    · rw [latency_resize]
      exact Nat.le_max_left _ _
    · intro cycle hcycle hle
      rw [latency_resize] at hcycle
      omega
  · rw [if_neg hgrow]
    by_cases hshrink : n < p.latency
    · rw [if_pos hshrink]
      exact adjusted_trim h rfl hshrink.le
    · rw [if_neg hshrink]
      exact ⟨h, .refl p, by omega, by omega, fun cycle hcycle hle => by omega⟩

/-- `findCycle` finds the first cycle that passes, if there is one. -/
theorem findCycle_cases (p : ExecutionPipeline) (start : Nat) (test : Nat → Bool) :
    (p.findCycle start test = -1 ∧ ∀ cycle, start ≤ cycle → cycle < p.latency → test cycle = false) ∨
      ∃ cycle : Nat, p.findCycle start test = cycle ∧ start ≤ cycle ∧ test cycle = true ∧
        ∀ c, start ≤ c → c < cycle → test c = false := by
  rw [findCycle]
  cases hfind : (List.range' start (p.latency - start)).find? test with
  | none =>
    refine .inl ⟨rfl, fun cycle hstart hlt => ?_⟩
    have := List.find?_eq_none.mp hfind cycle (List.mem_range'_1.mpr ⟨hstart, by omega⟩)
    exact (Bool.not_eq_true _).mp this
  | some cycle =>
    obtain ⟨htest, hmem, hfirst⟩ := List.find?_range'_eq_some.mp hfind
    exact .inr ⟨cycle, rfl, (List.mem_range'_1.mp hmem).1, htest, fun c hc hlt => by simpa using hfirst c hc hlt⟩

/-- A cycle that is not found late is zero or one. -/
theorem findCycle_le_one {test : Nat → Bool} (h : p.findCycle start test ≤ 1) (hcycle : start ≤ cycle)
    (hlt : cycle < p.latency) (htest : test cycle = true) : ∃ c, c ≤ 1 ∧ start ≤ c ∧ test c = true := by
  rcases p.findCycle_cases start test with ⟨-, hnone⟩ | ⟨c, heq, hstart, hc, -⟩
  · rw [hnone cycle hcycle hlt] at htest
    cases htest
  · exact ⟨c, by omega, hstart, hc⟩

theorem exists_ne_iff {α : Type} {l : List α} {a : α} (h : l.Nodup) :
    (1 < l.length ∨ (l.length = 1 ∧ a ∉ l)) ↔ ∃ b ∈ l, b ≠ a := by
  cases l with
  | nil => simp
  | cons x l =>
    cases l with
    | nil => simp [eq_comm]
    | cons y l =>
      refine iff_of_true (.inl (by simp)) ?_
      by_cases hx : x = a
      · refine ⟨y, by simp, ?_⟩
        rintro rfl
        simp [hx] at h
      · exact ⟨x, by simp, hx⟩

end Tce.TTAMachine.ExecutionPipeline

/-!
## Pipelines stay valid

Each call throws before it changes anything, and its checks are those that keep the tables
valid. The only calls that go wrong are those whose last cycle is not an `int`.
-/

namespace Tce.TTAMachine
open Base.CycleTable

namespace ExecutionPipeline
variable {p q r : ExecutionPipeline} {name : String} {o : Int} {cycle n start duration : Nat}

structure Valid (p : ExecutionPipeline) : Prop where
  lengths : p.SameLengths
  sets : p.RowsAreSets
  last : ∀ cycle, p.latency = cycle + 1 → ¬p.Empty cycle
  start : p.StartsInTime
  operands : ∀ o c c', o ∈ p.reads c → o ∉ p.writes c'
  names : ∀ c, ∀ name ∈ p.resources c, MachineTester.isValidComponentName name = true
  positive : ∀ o c, o ∈ p.reads c ∨ o ∈ p.writes c → 1 ≤ o
  bounded : (p.latency : Int) ≤ intMax

theorem valid_empty : Valid .empty where
  lengths := ⟨rfl, rfl⟩
  sets := ⟨fun _ => List.nodup_nil, fun _ => List.nodup_nil, fun _ => List.nodup_nil⟩
  last := fun cycle h => nomatch h
  start := fun ⟨_, h⟩ => h.elim (absurd rfl) (absurd rfl)
  operands := fun _ _ _ h => absurd h List.not_mem_nil
  names := fun _ _ h => absurd h List.not_mem_nil
  positive := fun _ _ h => h.elim (absurd · List.not_mem_nil) (absurd · List.not_mem_nil)
  bounded := by decide

theorem isOperandWritten_iff (h : p.SameLengths) : p.isOperandWritten o = true ↔ ∃ c, o ∈ p.writes c := by
  simp only [isOperandWritten, List.any_eq_true, List.mem_range, decide_eq_true_eq]
  constructor
  · exact fun ⟨c, _, hc⟩ => ⟨c, hc⟩
  · exact fun ⟨c, hc⟩ => ⟨c, h.writes ▸ lt_of_mem_row hc, hc⟩

theorem isOperandRead_iff (h : p.SameLengths) : p.isOperandRead o = true ↔ ∃ c, o ∈ p.reads c := by
  simp only [isOperandRead, List.any_eq_true, List.mem_range, decide_eq_true_eq]
  constructor
  · exact fun ⟨c, _, hc⟩ => ⟨c, hc⟩
  · exact fun ⟨c, hc⟩ => ⟨c, h.reads ▸ lt_of_mem_row hc, hc⟩

theorem latencyFrom_iff {k : Nat} : p.latencyFrom o k = some n ↔
    ∃ cycle, n = cycle + 1 ∧ cycle < k ∧ o ∈ p.writes cycle ∧ ∀ c, cycle < c → c < k → o ∉ p.writes c := by
  induction k with
  | zero => simp [latencyFrom]
  | succ k ih =>
    rw [latencyFrom]
    by_cases hmem : o ∈ p.writes k
    · rw [if_pos hmem, Option.some.injEq]
      constructor
      · rintro rfl
        exact ⟨k, rfl, Nat.lt_succ_self k, hmem, fun c hc hlt => absurd hlt (by omega)⟩
      · rintro ⟨cycle, rfl, hlt, -, hlast⟩
        by_contra hne
        exact hlast k (by omega) (Nat.lt_succ_self k) hmem
    · rw [if_neg hmem, ih]
      constructor
      · rintro ⟨cycle, hn, hlt, hcycle, hlast⟩
        refine ⟨cycle, hn, by omega, hcycle, fun c hc hck => ?_⟩
        rcases Nat.lt_succ_iff_lt_or_eq.mp hck with h | rfl
        · exact hlast c hc h
        · exact hmem
      · rintro ⟨cycle, hn, hlt, hcycle, hlast⟩
        have hne : cycle ≠ k := by
          rintro rfl
          exact hmem hcycle
        exact ⟨cycle, hn, by omega, hcycle, fun c hc hck => hlast c hc (by omega)⟩

/-- The latency of an output is one more than its last write. -/
theorem latencyOf_iff (h : p.SameLengths) : p.latencyOf o = some n ↔
    ∃ cycle, n = cycle + 1 ∧ o ∈ p.writes cycle ∧ ∀ later, cycle < later → o ∉ p.writes later := by
  have hlt {c : Nat} (hc : o ∈ p.writes c) : c < p.latency := h.writes ▸ lt_of_mem_row hc
  rw [latencyOf, latencyFrom_iff]
  constructor
  · rintro ⟨cycle, hn, -, hcycle, hlast⟩
    exact ⟨cycle, hn, hcycle, fun later hlater hmem => hlast later hlater (hlt hmem) hmem⟩
  · rintro ⟨cycle, hn, hcycle, hlast⟩
    exact ⟨cycle, hn, hlt hcycle, hcycle, fun later hlater _ => hlast later hlater⟩

/-- The slack of an input is its first read. -/
theorem slack_iff (h : p.SameLengths) : p.slack o = some n ↔
    o ∈ p.reads n ∧ ∀ earlier, earlier < n → o ∉ p.reads earlier := by
  rw [slack, List.find?_range_eq_some]
  simp only [decide_eq_true_eq, List.mem_range, Bool.not_eq_true', decide_eq_false_iff_not]
  constructor
  · rintro ⟨hmem, -, hfirst⟩
    exact ⟨hmem, hfirst⟩
  · rintro ⟨hmem, hfirst⟩
    exact ⟨hmem, h.reads ▸ lt_of_mem_row hmem, hfirst⟩

/-! ## Uses that are added -/

/-- Cycles in which a use is added. -/
def InCycles (start duration cycle : Nat) : Prop := start ≤ cycle ∧ cycle < start + duration

/-- The checks of the start cycle say that an earlier cycle counts already. -/
theorem starts_of_checkStartCycle {startCycle : Int}
    (h : p.checkStartCycle startCycle = none) :
    0 ≤ startCycle ∧ (startCycle ≤ 1 ∨ p.Starts 0 ∨ p.Starts 1) := by
  rw [checkStartCycle] at h
  by_cases hneg : startCycle < 0
  · rw [if_pos hneg] at h
    cases h
  refine ⟨by omega, ?_⟩
  by_cases hlate : 1 < startCycle
  · rw [if_neg hneg, if_pos hlate] at h
    by_contra hnot
    simp only [not_or, Starts, not_not] at hnot
    obtain ⟨-, ⟨hr0, ho0⟩, hr1, ho1⟩ := hnot
    by_cases hzero : p.latency = 0
    · rw [if_pos hzero] at h
      cases h
    by_cases hone : p.latency = 1
    · rw [if_neg hzero, if_pos ⟨hone, hr0, ho0⟩] at h
      cases h
    · rw [if_neg hzero, if_neg (fun hc => hone hc.1), if_pos ⟨by omega, hr0, hr1, ho0, ho1⟩] at h
      cases h
  · exact .inl (by omega)

section Rows
variable (h : Adjusted p (start + duration) r) {b : String} {x : Int}
include h

theorem Adjusted.mem_resources : b ∈ (r.insertResource name start duration).resources cycle ↔
    (b = name ∧ InCycles start duration cycle) ∨ b ∈ p.resources cycle :=
  (mem_row_insertAt h.low).trans (or_congr_right (by rw [← h.rows.resources]; rfl))

theorem Adjusted.mem_reads : x ∈ (r.insertRead o start duration).reads cycle ↔
    (x = o ∧ InCycles start duration cycle) ∨ x ∈ p.reads cycle :=
  (mem_row_insertAt (h.low.trans h.lengths.reads.ge)).trans (or_congr_right (by rw [← h.rows.reads]; rfl))

theorem Adjusted.mem_writes : x ∈ (r.insertWrite o start duration).writes cycle ↔
    (x = o ∧ InCycles start duration cycle) ∨ x ∈ p.writes cycle :=
  (mem_row_insertAt (h.low.trans h.lengths.writes.ge)).trans (or_congr_right (by rw [← h.rows.writes]; rfl))

end Rows

/-- What any of the three additions leaves. -/
structure Extended (p : ExecutionPipeline) (start duration : Nat) (q : ExecutionPipeline) : Prop where
  lengths : q.SameLengths
  sets : q.RowsAreSets
  resources : ∀ c, p.resources c ≠ [] → q.resources c ≠ []
  reads : ∀ c, p.reads c ≠ [] → q.reads c ≠ []
  writes : ∀ c, p.writes c ≠ [] → q.writes c ≠ []
  high : q.latency ≤ max (start + duration) p.latency
  low : start + duration ≤ q.latency
  added : ∀ c, InCycles start duration c → ¬q.Empty c
  last : ∀ c, q.latency = c + 1 → start + duration ≤ c → ¬q.Empty c

theorem Extended.starts (h : Extended p start duration q) (hstarts : p.Starts cycle) : q.Starts cycle :=
  hstarts.imp (h.resources cycle) (h.reads cycle)

theorem Extended.not_empty_last (h : Extended p start duration q) (hduration : 0 < duration)
    (hcycle : q.latency = cycle + 1) : ¬q.Empty cycle := by
  by_cases hpast : start + duration ≤ cycle
  · exact h.last cycle hcycle hpast
  · have hlow := h.low
    exact h.added cycle ⟨by omega, by omega⟩

theorem ne_nil_of_mem_iff {α : Type} {l l' : List α} {P : α → Prop} (h : ∀ b, b ∈ l' ↔ P b ∨ b ∈ l) (hl : l ≠ []) :
    l' ≠ [] := by
  obtain ⟨b, hb⟩ := List.exists_mem_of_ne_nil l hl
  exact List.ne_nil_of_mem ((h b).mpr (.inr hb))

theorem ne_nil_of_sameRow {α : Type} {l l' : List α} (h : l' = l) (hl : l ≠ []) : l' ≠ [] := h ▸ hl

theorem Adjusted.extended_resource (h : Adjusted p (start + duration) r) (hp : p.RowsAreSets) :
    Extended p start duration (r.insertResource name start duration) := by
  have hr := h.rows.rowsAreSets hp
  have hlatency : (r.insertResource name start duration).latency = r.latency := length_insertAt
  have hres (c : Nat) : r.resources c ≠ [] → (r.insertResource name start duration).resources c ≠ [] := by
    intro hne
    rw [h.rows.resources] at hne
    exact ne_nil_of_mem_iff (fun b => h.mem_resources) hne
  constructor
  case lengths => exact ⟨h.lengths.reads.trans hlatency.symm, h.lengths.writes.trans hlatency.symm⟩
  case sets => exact ⟨Sets.insertAt hr.resources h.low, hr.reads, hr.writes⟩
  case resources => exact fun c hne => hres c (h.rows.resources c ▸ hne)
  case reads => exact fun c => ne_nil_of_sameRow (h.rows.reads c)
  case writes => exact fun c => ne_nil_of_sameRow (h.rows.writes c)
  case high => exact hlatency ▸ h.high
  case low => exact hlatency ▸ h.low
  case added => exact fun c hc hempty => List.ne_nil_of_mem (h.mem_resources.mpr (.inl ⟨rfl, hc⟩)) hempty.1
  case last =>
    intro c hc hle hempty
    refine h.last c (hlatency ▸ hc) hle ⟨?_, hempty.2.1, hempty.2.2⟩
    by_contra hne
    exact hres c hne hempty.1

theorem Adjusted.extended_read (h : Adjusted p (start + duration) r) (hp : p.RowsAreSets) :
    Extended p start duration (r.insertRead o start duration) := by
  have hr := h.rows.rowsAreSets hp
  have hread (c : Nat) : r.reads c ≠ [] → (r.insertRead o start duration).reads c ≠ [] := by
    intro hne
    rw [h.rows.reads] at hne
    exact ne_nil_of_mem_iff (fun b => h.mem_reads) hne
  constructor
  case lengths => exact ⟨length_insertAt.trans h.lengths.reads, h.lengths.writes⟩
  case sets => exact ⟨hr.resources, Sets.insertAt hr.reads (h.low.trans h.lengths.reads.ge), hr.writes⟩
  case resources => exact fun c => ne_nil_of_sameRow (h.rows.resources c)
  case reads => exact fun c hne => hread c (h.rows.reads c ▸ hne)
  case writes => exact fun c => ne_nil_of_sameRow (h.rows.writes c)
  case high => exact h.high
  case low => exact h.low
  case added => exact fun c hc hempty => List.ne_nil_of_mem (h.mem_reads.mpr (.inl ⟨rfl, hc⟩)) hempty.2.1
  case last =>
    intro c hc hle hempty
    refine h.last c hc hle ⟨hempty.1, ?_, hempty.2.2⟩
    by_contra hne
    exact hread c hne hempty.2.1

theorem Adjusted.extended_write (h : Adjusted p (start + duration) r) (hp : p.RowsAreSets) :
    Extended p start duration (r.insertWrite o start duration) := by
  have hr := h.rows.rowsAreSets hp
  have hwrite (c : Nat) : r.writes c ≠ [] → (r.insertWrite o start duration).writes c ≠ [] := by
    intro hne
    rw [h.rows.writes] at hne
    exact ne_nil_of_mem_iff (fun b => h.mem_writes) hne
  constructor
  case lengths => exact ⟨h.lengths.reads, length_insertAt.trans h.lengths.writes⟩
  case sets => exact ⟨hr.resources, hr.reads, Sets.insertAt hr.writes (h.low.trans h.lengths.writes.ge)⟩
  case resources => exact fun c => ne_nil_of_sameRow (h.rows.resources c)
  case reads => exact fun c => ne_nil_of_sameRow (h.rows.reads c)
  case writes => exact fun c hne => hwrite c (h.rows.writes c ▸ hne)
  case high => exact h.high
  case low => exact h.low
  case added => exact fun c hc hempty => List.ne_nil_of_mem (h.mem_writes.mpr (.inl ⟨rfl, hc⟩)) hempty.2.2
  case last =>
    intro c hc hle hempty
    refine h.last c hc hle ⟨hempty.1, hempty.2.1, ?_⟩
    by_contra hne
    exact hwrite c hne hempty.2.2

theorem Valid.extend (hp : p.Valid) (h : Extended p start duration q) (hduration : 0 < duration)
    (hbound : ((start + duration : Nat) : Int) ≤ intMax) (hstart : ∀ c, q.Starts c → q.Starts 0 ∨ q.Starts 1)
    (hoperands : ∀ o c c', o ∈ q.reads c → o ∉ q.writes c')
    (hnames : ∀ c, ∀ name ∈ q.resources c, MachineTester.isValidComponentName name = true)
    (hpositive : ∀ o c, o ∈ q.reads c ∨ o ∈ q.writes c → 1 ≤ o) : q.Valid where
  lengths := h.lengths
  sets := h.sets
  last := fun _ hcycle => h.not_empty_last hduration hcycle
  start := fun ⟨c, hc⟩ => hstart c hc
  operands := hoperands
  names := hnames
  positive := hpositive
  bounded := by
    have hhigh := h.high
    have := hp.bounded
    omega

theorem Valid.starts_extended (hp : p.Valid) (h : Extended p start duration q) (hstarts : p.Starts cycle) :
    q.Starts 0 ∨ q.Starts 1 :=
  (hp.start ⟨cycle, hstarts⟩).imp h.starts h.starts

/-- A new use is not late, or there is an earlier one. -/
theorem Extended.starts_added (h : Extended p start duration q) (hcycle : InCycles start duration cycle)
    (hstart : start ≤ 1 ∨ p.Starts 0 ∨ p.Starts 1) (hadded : ∀ c, InCycles start duration c → q.Starts c) :
    q.Starts 0 ∨ q.Starts 1 := by
  rcases hstart with hle | hstarts
  · have hfirst : q.Starts start := hadded start ⟨Nat.le_refl _, by have := hcycle.1; have := hcycle.2; omega⟩
    rcases Nat.le_one_iff_eq_zero_or_eq_one.mp hle with rfl | rfl
    · exact .inl hfirst
    · exact .inr hfirst
  · exact hstarts.imp h.starts h.starts

theorem Valid.insertResource (hp : p.Valid) (h : Adjusted p (start + duration) r) (hduration : 0 < duration)
    (hbound : ((start + duration : Nat) : Int) ≤ intMax) (hname : MachineTester.isValidComponentName name = true)
    (hstart : start ≤ 1 ∨ p.Starts 0 ∨ p.Starts 1) : (r.insertResource name start duration).Valid := by
  have hext := @Adjusted.extended_resource _ _ name _ _ h hp.sets
  have hreads (c : Nat) : (r.insertResource name start duration).reads c = p.reads c := h.rows.reads c
  have hwrites (c : Nat) : (r.insertResource name start duration).writes c = p.writes c := h.rows.writes c
  refine hp.extend hext hduration hbound ?_ ?_ ?_ ?_
  · intro c hc
    by_cases hp' : p.Starts c
    · exact hp.starts_extended hext hp'
    · have hin : InCycles start duration c := by
        by_contra hout
        refine hp' (hc.imp (fun hne hnil => hne ?_) (fun hne => hreads c ▸ hne))
        refine List.eq_nil_iff_forall_not_mem.mpr fun b hb => ?_
        rcases h.mem_resources.mp hb with ⟨-, hin⟩ | hold
        · exact hout hin
        · exact List.not_mem_nil (hnil ▸ hold)
      exact hext.starts_added hin hstart fun c hc =>
        .inl (List.ne_nil_of_mem (h.mem_resources.mpr (.inl ⟨rfl, hc⟩)))
  · intro o c c'
    rw [hreads, hwrites]
    exact hp.operands o c c'
  · intro c b hb
    rcases h.mem_resources.mp hb with ⟨rfl, -⟩ | hold
    · exact hname
    · exact hp.names c b hold
  · intro o c
    rw [hreads, hwrites]
    exact hp.positive o c

theorem Valid.insertRead (hp : p.Valid) (h : Adjusted p (start + duration) r) (hduration : 0 < duration)
    (hbound : ((start + duration : Nat) : Int) ≤ intMax) (hpositive : 1 ≤ o) (hfree : ∀ c, o ∉ p.writes c)
    (hstart : start ≤ 1 ∨ p.Starts 0 ∨ p.Starts 1) : (r.insertRead o start duration).Valid := by
  have hext := h.extended_read (o := o) hp.sets
  have hresources (c : Nat) : (r.insertRead o start duration).resources c = p.resources c := h.rows.resources c
  have hwrites (c : Nat) : (r.insertRead o start duration).writes c = p.writes c := h.rows.writes c
  refine hp.extend hext hduration hbound ?_ ?_ ?_ ?_
  · intro c hc
    by_cases hp' : p.Starts c
    · exact hp.starts_extended hext hp'
    · have hin : InCycles start duration c := by
        by_contra hout
        refine hp' (hc.imp (fun hne => hresources c ▸ hne) (fun hne hnil => hne ?_))
        refine List.eq_nil_iff_forall_not_mem.mpr fun b hb => ?_
        rcases h.mem_reads.mp hb with ⟨-, hin⟩ | hold
        · exact hout hin
        · exact List.not_mem_nil (hnil ▸ hold)
      exact hext.starts_added hin hstart fun c hc =>
        .inr (List.ne_nil_of_mem (h.mem_reads.mpr (.inl ⟨rfl, hc⟩)))
  · intro x c c' hx
    rw [hwrites]
    rcases h.mem_reads.mp hx with ⟨rfl, -⟩ | hold
    · exact hfree c'
    · exact hp.operands x c c' hold
  · intro c b hb
    exact hp.names c b (hresources c ▸ hb)
  · intro x c
    rw [hwrites]
    rintro (hx | hx)
    · rcases h.mem_reads.mp hx with ⟨rfl, -⟩ | hold
      · exact hpositive
      · exact hp.positive x c (.inl hold)
    · exact hp.positive x c (.inr hx)

theorem Valid.insertWrite (hp : p.Valid) (h : Adjusted p (start + duration) r) (hduration : 0 < duration)
    (hbound : ((start + duration : Nat) : Int) ≤ intMax) (hpositive : 1 ≤ o) (hfree : ∀ c, o ∉ p.reads c) :
    (r.insertWrite o start duration).Valid := by
  have hext := h.extended_write (o := o) hp.sets
  have hresources (c : Nat) : (r.insertWrite o start duration).resources c = p.resources c := h.rows.resources c
  have hreads (c : Nat) : (r.insertWrite o start duration).reads c = p.reads c := h.rows.reads c
  refine hp.extend hext hduration hbound ?_ ?_ ?_ ?_
  · intro c hc
    rw [Starts, hresources, hreads] at hc
    exact hp.starts_extended hext hc
  · intro x c c' hx hw
    rw [hreads] at hx
    rcases h.mem_writes.mp hw with ⟨rfl, -⟩ | hold
    · exact hfree c hx
    · exact hp.operands x c c' hx hold
  · intro c b hb
    exact hp.names c b (hresources c ▸ hb)
  · intro x c
    rw [hreads]
    rintro (hx | hx)
    · exact hp.positive x c (.inl hx)
    · rcases h.mem_writes.mp hx with ⟨rfl, -⟩ | hold
      · exact hpositive
      · exact hp.positive x c (.inr hold)

end ExecutionPipeline

end Tce.TTAMachine
