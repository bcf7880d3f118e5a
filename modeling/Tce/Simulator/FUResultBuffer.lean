import Mathlib.Data.Int.Interval

/-!
# Results of a function unit of the compiled simulator

A result is put into a buffer with the cycle from which on it can be read. Slots of results
that were never read are found again when a later one is ready too.
-/

namespace Tce.CompiledSimulation

/-- `FUResultElementType`; a cycle count is a `long long`. -/
structure FUResultElement (V : Type) where
  cycles : Int
  value : V
  used : Bool
  deriving DecidableEq, Repr

/-- `FUResultType`, without its size, which is that of the data. -/
structure FUResults (V : Type) where
  data : List (FUResultElement V)
  numberOfElements : Int
  deriving DecidableEq, Repr

section Operations
variable {V : Type}

def FUResults.create (size : Nat) (value : V) : FUResults V where
  data := List.replicate size ⟨0, value, false⟩
  numberOfElements := 0

/-- The loop of `addFUResult` from an index on, with the index and cycle of the first old result:
the index of the slot to use, and whether it was in use. -/
def findSlot (cycleCount : Int) : (i : Nat) → (oldResult : Option (Nat × Int)) → List (FUResultElement V) →
    Option (Nat × Bool)
  | _, _, [] => none
  | i, oldResult, result :: results =>
    if result.used then
      if result.cycles ≤ cycleCount then
        match oldResult with
        | none => findSlot cycleCount (i + 1) (some (i, result.cycles)) results
        | some (oldResultIndex, oldCycles) =>
          if oldCycles < result.cycles then some (oldResultIndex, true) else some (i, true)
      else findSlot cycleCount (i + 1) oldResult results
    else some (i, false)

/-- None when the assertion fails that the ring buffer is not full. -/
def addFUResult (results : FUResults V) (cycleCount : Int) (value : V) (latency : Int) : Option (FUResults V) :=
  (findSlot cycleCount 0 none results.data).map fun slot =>
    { data := results.data.set slot.1 ⟨cycleCount + latency, value, true⟩
      numberOfElements := if slot.2 then results.numberOfElements else results.numberOfElements + 1 }

/-- A cast to `int`. -/
def toInt (n : Int) : Int := n.bmod (2 ^ 32)

/-- The loop of `FUResult`, over the elements that are left: the target and the new elements. -/
def readLoop (cycles : Int) : (maxDiff : Int) → V → (numberOfElements : Int) → List (FUResultElement V) →
    V × FUResults V
  | _, target, numberOfElements, [] => (target, ⟨[], numberOfElements⟩)
  | maxDiff, target, numberOfElements, result :: results =>
    if numberOfElements = 0 then (target, ⟨result :: results, numberOfElements⟩)
    else if result.used then
      let diff := toInt (result.cycles - cycles)
      if diff ≤ 0 then
        let rest :=
          if maxDiff ≤ diff then readLoop cycles diff result.value (numberOfElements - 1) results
          else readLoop cycles maxDiff target (numberOfElements - 1) results
        (rest.1, { rest.2 with data := { result with used := false } :: rest.2.data })
      else
        let rest := readLoop cycles maxDiff target numberOfElements results
        (rest.1, { rest.2 with data := result :: rest.2.data })
    else
      let rest := readLoop cycles maxDiff target numberOfElements results
      (rest.1, { rest.2 with data := result :: rest.2.data })

def FUResult (target : V) (results : FUResults V) (cycles : Int) : V × FUResults V :=
  readLoop cycles (-2147483647) target results.numberOfElements results.data

end Operations

/-- A call on the buffer, with the cycle count at which it is made. -/
inductive FUEvent (V : Type) where
  | add (cycleCount : Int) (value : V) (latency : Int)
  | read (cycles : Int)
  deriving DecidableEq, Repr

structure FUPort (V : Type) where
  results : FUResults V
  target : V
  deriving DecidableEq, Repr

section Runs
variable {V : Type}

def FUEvent.cycle : FUEvent V → Int
  | add cycleCount _ _ => cycleCount
  | read cycles => cycles

def FUPort.create (maxLatency : Nat) (value target : V) : FUPort V := ⟨FUResults.create (maxLatency + 1) value, target⟩

def FUPort.step (s : FUPort V) : FUEvent V → Option (FUPort V)
  | .add cycleCount value latency =>
    (addFUResult s.results cycleCount value latency).map fun results => { s with results := results }
  | .read cycles =>
    let read := FUResult s.target s.results cycles
    some ⟨read.2, read.1⟩

def FUPort.run (s : FUPort V) : List (FUEvent V) → Option (FUPort V)
  | [] => some s
  | event :: events => (s.step event).bind fun t => t.run events

end Runs

/-!
## Runs on the result buffer

The buffer has every result that is not ready yet, and the latest of those that are ready and
not read. Ages are cut to 32 bits, so that a result must not be too old when it is read.
-/

variable {V : Type}

/-- When a result becomes ready, and its value. -/
def FUEvent.result? : FUEvent V → Option (Int × V)
  | add cycleCount value latency => some (cycleCount + latency, value)
  | read _ => none

def results (events : List (FUEvent V)) : List (Int × V) := events.filterMap FUEvent.result?

/-- A read came when the result was ready. -/
def Seen (events : List (FUEvent V)) (ready : Int) : Prop := ∃ cycles, .read cycles ∈ events ∧ ready ≤ cycles

/-- The target has the value of the latest result that was seen, or is as it was if there is none. -/
def HoldsLatest (events : List (FUEvent V)) (initial target : V) : Prop :=
  (∃ ready, (ready, target) ∈ results events ∧ Seen events ready ∧
    ∀ result ∈ results events, Seen events result.1 → result.1 ≤ ready) ∨
  ((∀ result ∈ results events, ¬Seen events result.1) ∧ target = initial)

structure ValidCalls (maxLatency : Nat) (events : List (FUEvent V)) : Prop where
  ordered : events.Pairwise fun e f => e.cycle ≤ f.cycle
  oncePerCycle : events.Pairwise fun e f => e.result?.isSome → f.result?.isSome → e.cycle ≠ f.cycle
  latency : ∀ (cycleCount : Int) (value : V) (latency : Int), .add cycleCount value latency ∈ events →
    1 ≤ latency ∧ latency ≤ maxLatency
  distinct : ((results events).map (·.1)).Nodup

/-- Nothing in the buffer that is ready is 2^31 cycles old when it is read. -/
def FUEvent.InTime (s : FUPort V) : FUEvent V → Prop
  | add _ _ _ => True
  | read cycles => ∀ e ∈ s.results.data, e.used = true → e.cycles ≤ cycles → cycles - e.cycles < 2 ^ 31

instance (s : FUPort V) : (event : FUEvent V) → Decidable (event.InTime s)
  | .add _ _ _ => .isTrue trivial
  | .read cycles => inferInstanceAs (Decidable (∀ e ∈ s.results.data, e.used = true → e.cycles ≤ cycles → _))

def AllInTime (s : FUPort V) : List (FUEvent V) → Prop
  | [] => True
  | event :: events => event.InTime s ∧ ∀ t, s.step event = some t → AllInTime t events

/-- What the buffer and the target are after the calls. -/
structure Keeps (maxLatency : Nat) (initial : V) (events : List (FUEvent V)) (s : FUPort V) : Prop where
  length : s.results.data.length = maxLatency + 1
  number : s.results.numberOfElements = s.results.data.countP (·.used)
  added : ∀ e ∈ s.results.data, e.used = true → (e.cycles, e.value) ∈ results events ∧ ¬Seen events e.cycles
  distinct : s.results.data.Pairwise fun e f => e.used = true → f.used = true → e.cycles ≠ f.cycles
  newest : ∀ ready value, (ready, value) ∈ results events → ¬Seen events ready → ∃ e ∈ s.results.data, e.used = true ∧
    ((e.cycles = ready ∧ e.value = value) ∨ (ready < e.cycles ∧ ∃ event ∈ events, e.cycles ≤ event.cycle))
  target : HoldsLatest events initial s.target

section Slots
variable {cycleCount : Int} {data pre rest : List (FUResultElement V)} {k : Nat} {reused : Bool}
  {old : Option (Nat × Int)}

/-- An element of the buffer that is in use and ready. -/
def OldAt (cycleCount : Int) (data : List (FUResultElement V)) (i : Nat) (cycles : Int) : Prop :=
  ∃ e, data[i]? = some e ∧ e.used = true ∧ e.cycles = cycles ∧ cycles ≤ cycleCount

/-- A slot is free, or its result is older than another one that is ready. -/
def SlotFree (cycleCount : Int) (data : List (FUResultElement V)) (k : Nat) (reused : Bool) : Prop :=
  ∃ e, data[k]? = some e ∧ e.used = reused ∧
    (reused = true → e.cycles ≤ cycleCount ∧
      ∃ k' cycles, k' ≠ k ∧ OldAt cycleCount data k' cycles ∧ e.cycles ≤ cycles)

theorem slotFree_of_findSlot (hdata : data = pre ++ rest)
    (hold : ∀ i cycles, old = some (i, cycles) → i < pre.length ∧ OldAt cycleCount data i cycles)
    (hfind : findSlot cycleCount pre.length old rest = some (k, reused)) : SlotFree cycleCount data k reused := by
  induction rest generalizing pre old with
  | nil => cases hfind
  | cons result rest ih =>
    have hget : data[pre.length]? = some result := by simp [hdata]
    have hdata' : data = (pre ++ [result]) ++ rest := by simp [hdata]
    have hlength : (pre ++ [result]).length = pre.length + 1 := by simp
    have hold' : ∀ i cycles, old = some (i, cycles) →
        i < (pre ++ [result]).length ∧ OldAt cycleCount data i cycles := by
      intro i cycles h
      exact ⟨by rw [hlength]; exact Nat.lt_succ_of_lt (hold i cycles h).1, (hold i cycles h).2⟩
    rw [findSlot.eq_def] at hfind
    simp only at hfind
    by_cases hused : result.used = true
    · rw [if_pos hused] at hfind
      by_cases hready : result.cycles ≤ cycleCount
      · rw [if_pos hready] at hfind
        have hthis : OldAt cycleCount data pre.length result.cycles := ⟨result, hget, hused, rfl, hready⟩
        cases hold' : old with
        | none =>
          rw [hold'] at hfind
          refine ih hdata' ?_ (hlength ▸ hfind)
          intro i cycles h
          cases h
          exact ⟨by rw [hlength]; exact Nat.lt_succ_self _, hthis⟩
        | some first =>
          obtain ⟨oldIndex, oldCycles⟩ := first
          rw [hold'] at hfind
          obtain ⟨hlt, oldResult, holdGet, holdUsed, rfl, holdReady⟩ := hold oldIndex oldCycles hold'
          simp only at hfind
          by_cases hcycles : oldResult.cycles < result.cycles
          · rw [if_pos hcycles] at hfind
            cases hfind
            exact ⟨oldResult, holdGet, holdUsed, fun _ =>
              ⟨holdReady, pre.length, result.cycles, by omega, hthis, Int.le_of_lt hcycles⟩⟩
          · rw [if_neg hcycles] at hfind
            cases hfind
            exact ⟨result, hget, hused, fun _ =>
              ⟨hready, oldIndex, oldResult.cycles, by omega, ⟨oldResult, holdGet, holdUsed, rfl, holdReady⟩,
                Int.not_lt.mp hcycles⟩⟩
      · rw [if_neg hready] at hfind
        exact ih hdata' hold' (hlength ▸ hfind)
    · rw [if_neg hused] at hfind
      cases hfind
      exact ⟨result, hget, by simpa using hused, fun h => by cases h⟩

/-- Where no slot is found all are in use, and at most one of their results is ready. -/
theorem full_of_findSlot {i : Nat} (hfind : findSlot cycleCount i old rest = none) :
    (∀ e ∈ rest, e.used = true) ∧
      rest.countP (fun e => e.cycles ≤ cycleCount) + (if old.isSome then 1 else 0) ≤ 1 := by
  induction rest generalizing i old with
  | nil => cases old <;> simp
  | cons result rest ih =>
    rw [findSlot.eq_def] at hfind
    simp only at hfind
    by_cases hused : result.used = true
    · rw [if_pos hused] at hfind
      by_cases hready : result.cycles ≤ cycleCount
      · rw [if_pos hready] at hfind
        cases old with
        | none =>
          obtain ⟨hall, hcount⟩ := ih hfind
          refine ⟨List.forall_mem_cons.mpr ⟨hused, hall⟩, ?_⟩
          rw [List.countP_cons_of_pos (by simpa using hready)]
          simpa using hcount
        | some first =>
          obtain ⟨oldIndex, oldCycles⟩ := first
          simp only at hfind
          split at hfind <;> cases hfind
      · rw [if_neg hready] at hfind
        obtain ⟨hall, hcount⟩ := ih hfind
        refine ⟨List.forall_mem_cons.mpr ⟨hused, hall⟩, ?_⟩
        rwa [List.countP_cons_of_neg (by simpa using hready)]
    · rw [if_neg hused] at hfind
      cases hfind

end Slots

@[simp] theorem cycle_add (cycleCount : Int) (value : V) (latency : Int) :
    (FUEvent.add cycleCount value latency).cycle = cycleCount := rfl

@[simp] theorem cycle_read (cycles : Int) : (FUEvent.read cycles : FUEvent V).cycle = cycles := rfl

section Calls
variable {maxLatency : Nat} {past : List (FUEvent V)} {event : FUEvent V} {initial : V} {ready : Int}

theorem ValidCalls.of_append {events : List (FUEvent V)} (h : ValidCalls maxLatency (past ++ events)) :
    ValidCalls maxLatency past where
  ordered := (List.pairwise_append.mp h.ordered).1
  oncePerCycle := (List.pairwise_append.mp h.oncePerCycle).1
  latency := fun cycleCount value latency hmem => h.latency cycleCount value latency (List.mem_append_left _ hmem)
  distinct := by
    have hdistinct := h.distinct
    simp only [results, List.filterMap_append, List.map_append] at hdistinct
    exact (List.nodup_append.mp hdistinct).1

theorem ValidCalls.le_last (h : ValidCalls maxLatency (past ++ [event])) :
    ∀ e ∈ past ++ [event], e.cycle ≤ event.cycle := by
  intro e he
  rcases List.mem_append.mp he with hpast | hlast
  · exact (List.pairwise_append.mp h.ordered).2.2 e hpast event (List.mem_singleton_self _)
  · rw [List.mem_singleton.mp hlast]

theorem mem_results {events : List (FUEvent V)} {value : V} :
    (ready, value) ∈ results events ↔
      ∃ cycleCount latency, .add cycleCount value latency ∈ events ∧ cycleCount + latency = ready := by
  simp only [results, List.mem_filterMap]
  constructor
  · rintro ⟨event, hmem, hresult⟩
    cases event with
    | read cycles => cases hresult
    | add cycleCount value' latency =>
      cases hresult
      exact ⟨cycleCount, latency, hmem, rfl⟩
  · rintro ⟨cycleCount, latency, hmem, rfl⟩
    exact ⟨_, hmem, rfl⟩

@[simp] theorem results_add (cycleCount : Int) (value : V) (latency : Int) :
    results (past ++ [.add cycleCount value latency]) = results past ++ [(cycleCount + latency, value)] := by
  simp [results, FUEvent.result?]

@[simp] theorem results_read (cycles : Int) : results (past ++ [.read cycles]) = results past := by
  simp [results, FUEvent.result?]

@[simp] theorem seen_add (cycleCount : Int) (value : V) (latency : Int) :
    Seen (past ++ [.add cycleCount value latency]) ready ↔ Seen past ready := by
  simp [Seen]

@[simp] theorem seen_read (cycles : Int) : Seen (past ++ [.read cycles]) ready ↔ Seen past ready ∨ ready ≤ cycles := by
  simp only [Seen, List.mem_append, List.mem_singleton, FUEvent.read.injEq]
  constructor
  · rintro ⟨c, h | rfl, hle⟩
    · exact .inl ⟨c, h, hle⟩
    · exact .inr hle
  · rintro (⟨c, h, hle⟩ | hle)
    · exact ⟨c, .inl h, hle⟩
    · exact ⟨cycles, .inr rfl, hle⟩

/-- Results of calls before the last one are ready at most the latency after it. -/
theorem ValidCalls.ready_le {value : V} (h : ValidCalls maxLatency (past ++ [event]))
    (hmem : (ready, value) ∈ results past) : ready ≤ event.cycle + maxLatency := by
  obtain ⟨cycleCount, latency, hadd, rfl⟩ := mem_results.mp hmem
  have hle := h.le_last _ (List.mem_append_left _ hadd)
  have hlatency := (h.latency _ _ _ (List.mem_append_left _ hadd)).2
  simp only [cycle_add] at hle
  omega

/-- Where the last call adds a result too, the others were added earlier. -/
theorem ValidCalls.ready_lt {value value' : V} {cycleCount latency : Int}
    (h : ValidCalls maxLatency (past ++ [.add cycleCount value latency]))
    (hmem : (ready, value') ∈ results past) : ready < cycleCount + maxLatency := by
  obtain ⟨cycleCount', latency', hadd, rfl⟩ := mem_results.mp hmem
  have hle := h.le_last _ (List.mem_append_left _ hadd)
  have hne := (List.pairwise_append.mp h.oncePerCycle).2.2 _ hadd _ (List.mem_singleton_self _) rfl rfl
  have hlatency := (h.latency _ _ _ (List.mem_append_left _ hadd)).2
  simp only [cycle_add] at hle hne
  omega

theorem ValidCalls.seen_le (h : ValidCalls maxLatency (past ++ [event])) (hseen : Seen past ready) :
    ready ≤ event.cycle := by
  obtain ⟨cycles, hread, hle⟩ := hseen
  exact Int.le_trans hle (h.le_last _ (List.mem_append_left _ hread))

end Calls

section Adding
variable {maxLatency : Nat} {past : List (FUEvent V)} {initial value : V} {cycleCount latency : Int}
  {data : List (FUResultElement V)} {s : FUPort V}

/-- Different cycles after one of them, up to `n` later, are at most `n`. -/
theorem pending_le {n : Nat} (hused : ∀ e ∈ data, e.used = true)
    (hdistinct : data.Pairwise fun e f => e.used = true → f.used = true → e.cycles ≠ f.cycles)
    (hle : ∀ e ∈ data, e.cycles ≤ cycleCount + n) :
    data.countP (fun e => ¬e.cycles ≤ cycleCount) ≤ n := by
  have hnodup : ((data.filter fun e => ¬e.cycles ≤ cycleCount).map (·.cycles)).Nodup := by
    rw [List.Nodup, List.pairwise_map]
    refine (hdistinct.imp_of_mem ?_).filter _
    intro e f he hf h
    exact h (hused e he) (hused f hf)
  have hsubset : ((data.filter fun e => ¬e.cycles ≤ cycleCount).map (·.cycles)).toFinset ⊆
      Finset.Ioc cycleCount (cycleCount + n) := by
    intro c hc
    simp only [List.mem_toFinset, List.mem_map, List.mem_filter, decide_eq_true_eq] at hc
    obtain ⟨e, ⟨he, hlt⟩, rfl⟩ := hc
    exact Finset.mem_Ioc.mpr ⟨Int.not_le.mp hlt, hle e he⟩
  have hcard := Finset.card_le_card hsubset
  rw [List.toFinset_card_of_nodup hnodup, List.length_map, ← List.countP_eq_length_filter, Int.card_Ioc] at hcard
  omega

/-- The assertion does not fail. -/
theorem Keeps.findSlot_ne_none (h : Keeps maxLatency initial past s)
    (valid : ValidCalls maxLatency (past ++ [.add cycleCount value latency])) :
    findSlot cycleCount 0 none s.results.data ≠ none := by
  intro hnone
  obtain ⟨hused, hold⟩ := full_of_findSlot hnone
  have hlatency := valid.latency _ _ _ (List.mem_append_right _ (List.mem_singleton_self _))
  have hpending : s.results.data.countP (fun e => ¬e.cycles ≤ cycleCount) ≤ maxLatency - 1 := by
    refine pending_le hused h.distinct ?_
    intro e he
    have hlt := valid.ready_lt (h.added e he (hused e he)).1
    omega
  have hlength := List.length_eq_countP_add_countP (fun e : FUResultElement V => decide (e.cycles ≤ cycleCount))
    (l := s.results.data)
  have := h.length
  simp only [Option.isSome_none, Bool.false_eq_true, if_false, Nat.add_zero, decide_eq_true_eq] at hold hlength
  omega

theorem mem_set_of_ne {k i : Nat} {e new : FUResultElement V} (hget : data[i]? = some e) (hne : i ≠ k) :
    e ∈ data.set k new := by
  refine List.mem_of_getElem? (i := i) ?_
  rw [List.getElem?_set_ne (Ne.symm hne), hget]

theorem countP_used_set {k : Nat} {e new : FUResultElement V} (hget : data[k]? = some e) (hnew : new.used = true) :
    ((data.set k new).countP (·.used) : Int) =
      if e.used then (data.countP (·.used) : Int) else data.countP (·.used) + 1 := by
  obtain ⟨hlt, rfl⟩ := List.getElem?_eq_some_iff.mp hget
  have hset := List.countP_set (p := fun e : FUResultElement V => e.used) (a := new) hlt
  by_cases hused : data[k].used = true
  · have hpos : 0 < data.countP (·.used) := List.countP_pos_iff.mpr ⟨_, List.getElem_mem hlt, hused⟩
    simp only [hused, hnew, if_true] at hset ⊢
    omega
  · simp only [hused, hnew, if_true] at hset ⊢
    simp only [Bool.false_eq_true, if_false] at hset ⊢
    omega

theorem distinct_set {k : Nat} {new : FUResultElement V}
    (h : data.Pairwise fun e f => e.used = true → f.used = true → e.cycles ≠ f.cycles)
    (hnew : ∀ e ∈ data, e.used = true → e.cycles ≠ new.cycles) :
    (data.set k new).Pairwise fun e f => e.used = true → f.used = true → e.cycles ≠ f.cycles := by
  rw [List.pairwise_iff_getElem] at h ⊢
  intro i j hi hj hlt
  rw [List.length_set] at hi hj
  rw [List.getElem_set, List.getElem_set]
  by_cases hki : k = i
  · rw [if_pos hki, if_neg (by omega)]
    exact fun _ hused => Ne.symm (hnew _ (List.getElem_mem hj) hused)
  · rw [if_neg hki]
    by_cases hkj : k = j
    · rw [if_pos hkj]
      exact fun hused _ => hnew _ (List.getElem_mem hi) hused
    · rw [if_neg hkj]
      exact h i j hi hj hlt

theorem HoldsLatest.add {target : V} (h : HoldsLatest past initial target)
    (hnew : ¬Seen past (cycleCount + latency)) :
    HoldsLatest (past ++ [.add cycleCount value latency]) initial target := by
  rcases h with ⟨ready, hmem, hseen, hlatest⟩ | ⟨hnone, rfl⟩
  · refine .inl ⟨ready, by simp [hmem], by simpa using hseen, ?_⟩
    intro result hresult hresultSeen
    rw [seen_add] at hresultSeen
    rcases List.mem_append.mp (results_add .. ▸ hresult) with hpast | hlast
    · exact hlatest result hpast hresultSeen
    · rw [List.mem_singleton.mp hlast] at hresultSeen
      exact absurd hresultSeen hnew
  · refine .inr ⟨?_, rfl⟩
    intro result hresult hresultSeen
    rw [seen_add] at hresultSeen
    rcases List.mem_append.mp (results_add .. ▸ hresult) with hpast | hlast
    · exact hnone result hpast hresultSeen
    · rw [List.mem_singleton.mp hlast] at hresultSeen
      exact hnew hresultSeen

theorem Keeps.add (h : Keeps maxLatency initial past s)
    (valid : ValidCalls maxLatency (past ++ [.add cycleCount value latency])) :
    ∃ t, s.step (.add cycleCount value latency) = some t ∧
      Keeps maxLatency initial (past ++ [.add cycleCount value latency]) t := by
  obtain ⟨⟨k, reused⟩, hfind⟩ := Option.ne_none_iff_exists'.mp (h.findSlot_ne_none valid)
  obtain ⟨e₀, hget, hreused, hfree⟩ : SlotFree cycleCount s.results.data k reused := by
    refine @slotFree_of_findSlot _ _ _ [] _ _ _ none rfl ?_ hfind
    intro i cycles h
    cases h
  have hlatency := valid.latency _ _ _ (List.mem_append_right _ (List.mem_singleton_self _))
  have hunseen : ¬Seen past (cycleCount + latency) := by
    intro hseen
    have hle := valid.seen_le hseen
    rw [cycle_add] at hle
    omega
  have hfresh : ∀ e ∈ s.results.data, e.used = true → e.cycles ≠ cycleCount + latency := by
    intro e he hused heq
    have hmem := (h.added e he hused).1
    have hdistinct := valid.distinct
    rw [results_add, List.map_append] at hdistinct
    exact (List.nodup_append.mp hdistinct).2.2 _ (List.mem_map_of_mem hmem) _ (List.mem_singleton_self _) heq
  refine ⟨⟨⟨s.results.data.set k ⟨cycleCount + latency, value, true⟩,
    if reused then s.results.numberOfElements else s.results.numberOfElements + 1⟩, s.target⟩, ?_, ?_⟩
  · simp only [FUPort.step, addFUResult, hfind, Option.map_some]
  constructor
  case length => simp [h.length]
  case number =>
    rw [countP_used_set hget rfl, hreused, h.number]
  case added =>
    intro e he hused
    rw [results_add, seen_add]
    rcases List.mem_or_eq_of_mem_set he with hold | rfl
    · exact ⟨List.mem_append_left _ (h.added e hold hused).1, (h.added e hold hused).2⟩
    · exact ⟨List.mem_append_right _ (List.mem_singleton_self _), hunseen⟩
  case distinct => exact distinct_set h.distinct hfresh
  case newest =>
    intro ready v hmem hnotSeen
    rw [seen_add] at hnotSeen
    rcases List.mem_append.mp (results_add .. ▸ hmem) with hpast | hlast
    · obtain ⟨e, he, hused, hcases⟩ := h.newest ready v hpast hnotSeen
      obtain ⟨i, hi⟩ := List.mem_iff_getElem?.mp he
      by_cases hik : i = k
      · -- The slot of an unread result is taken: a later one that is ready stays.
        rw [hik, hget] at hi
        cases hi
        obtain ⟨hle, k', cycles, hne, ⟨f, hf, hfused, rfl, hfle⟩, hcycles⟩ := hfree (hreused ▸ hused)
        have hlt : e₀.cycles < f.cycles := by
          refine lt_of_le_of_ne hcycles fun heq => ?_
          obtain ⟨hk, rfl⟩ := List.getElem?_eq_some_iff.mp hget
          obtain ⟨hk', rfl⟩ := List.getElem?_eq_some_iff.mp hf
          have hpairwise := List.pairwise_iff_getElem.mp h.distinct
          rcases Nat.lt_or_gt_of_ne hne with hlt | hgt
          · exact hpairwise k' k hk' hk hlt hfused hused heq.symm
          · exact hpairwise k k' hk hk' hgt hused hfused heq
        refine ⟨f, mem_set_of_ne hf hne, hfused, .inr
          ⟨?_, _, List.mem_append_right _ (List.mem_singleton_self _), hfle⟩⟩
        rcases hcases with ⟨rfl, -⟩ | ⟨hlt', -⟩
        · exact hlt
        · exact Int.lt_trans hlt' hlt
      · refine ⟨e, mem_set_of_ne hi hik, hused, ?_⟩
        rcases hcases with hthis | ⟨hlt, event, hevent, hle⟩
        · exact .inl hthis
        · exact .inr ⟨hlt, event, List.mem_append_left _ hevent, hle⟩
    · cases List.mem_singleton.mp hlast
      have hk := (List.getElem?_eq_some_iff.mp hget).1
      exact ⟨_, List.mem_set hk _, rfl, .inl ⟨rfl, rfl⟩⟩
  case target => exact h.target.add hunseen

end Adding

section Reading
variable {cycles : Int} {data : List (FUResultElement V)}

theorem toInt_eq {n : Int} (hlow : -2 ^ 31 < n) (hhigh : n < 2 ^ 31) : toInt n = n :=
  Int.bmod_eq_of_le_mul_two (by omega) (by omega)

/-- A read frees the slots of the results that are ready. -/
def clear (cycles : Int) (e : FUResultElement V) : FUResultElement V :=
  if e.cycles ≤ cycles then { e with used := false } else e

theorem clear_used {e : FUResultElement V} : (clear cycles e).used = true ↔ e.used = true ∧ ¬e.cycles ≤ cycles := by
  by_cases h : e.cycles ≤ cycles <;> simp [clear, h]

theorem clear_of_lt {e : FUResultElement V} (h : ¬e.cycles ≤ cycles) : clear cycles e = e := if_neg h

@[simp] theorem clear_cycles (e : FUResultElement V) : (clear cycles e).cycles = e.cycles := by
  by_cases h : e.cycles ≤ cycles <;> simp [clear, h]

/-- The elements of the data that are in use and ready. -/
def Ready (cycles : Int) (data : List (FUResultElement V)) (e : FUResultElement V) : Prop :=
  e ∈ data ∧ e.used = true ∧ e.cycles ≤ cycles

/-- The target is of the latest result that is ready, unless all are older than `maxDiff`. -/
def IsLatest (cycles maxDiff : Int) (data : List (FUResultElement V)) (old target : V) : Prop :=
  (∃ e, Ready cycles data e ∧ maxDiff ≤ e.cycles - cycles ∧ target = e.value ∧
    ∀ f, Ready cycles data f → f.cycles ≤ e.cycles) ∨
  ((∀ e, Ready cycles data e → e.cycles - cycles < maxDiff) ∧ target = old)

theorem isLatest_skip {maxDiff : Int} {old target : V} {result : FUResultElement V}
    (hnot : ¬(result.used = true ∧ result.cycles ≤ cycles)) (h : IsLatest cycles maxDiff data old target) :
    IsLatest cycles maxDiff (result :: data) old target := by
  have hiff (e : FUResultElement V) : Ready cycles (result :: data) e ↔ Ready cycles data e := by
    constructor
    · rintro ⟨hmem, hready⟩
      rcases List.mem_cons.mp hmem with rfl | hdata
      · exact absurd hready hnot
      · exact ⟨hdata, hready⟩
    · exact fun ⟨hmem, hready⟩ => ⟨List.mem_cons_of_mem _ hmem, hready⟩
  simpa only [IsLatest, hiff] using h

/-- The loop goes past an older result. -/
theorem isLatest_older {maxDiff : Int} {old target : V} {result : FUResultElement V}
    (holder : result.cycles - cycles < maxDiff) (h : IsLatest cycles maxDiff data old target) :
    IsLatest cycles maxDiff (result :: data) old target := by
  rcases h with ⟨e, ⟨hmem, hready⟩, hdiff, htarget, hlatest⟩ | ⟨hnone, htarget⟩
  · refine .inl ⟨e, ⟨List.mem_cons_of_mem _ hmem, hready⟩, hdiff, htarget, ?_⟩
    rintro f ⟨hfmem, hfready⟩
    rcases List.mem_cons.mp hfmem with rfl | hdata
    · omega
    · exact hlatest f ⟨hdata, hfready⟩
  · refine .inr ⟨?_, htarget⟩
    rintro f ⟨hfmem, hfready⟩
    rcases List.mem_cons.mp hfmem with rfl | hdata
    · exact holder
    · exact hnone f ⟨hdata, hfready⟩

/-- The loop takes a later result. -/
theorem isLatest_later {maxDiff : Int} {old target : V} {result : FUResultElement V} (hused : result.used = true)
    (hready : result.cycles ≤ cycles) (hlater : maxDiff ≤ result.cycles - cycles)
    (h : IsLatest cycles (result.cycles - cycles) data result.value target) :
    IsLatest cycles maxDiff (result :: data) old target := by
  rcases h with ⟨e, ⟨hmem, hready⟩, hdiff, htarget, hlatest⟩ | ⟨hnone, htarget⟩
  · refine .inl ⟨e, ⟨List.mem_cons_of_mem _ hmem, hready⟩, by omega, htarget, ?_⟩
    rintro f ⟨hfmem, hfready⟩
    rcases List.mem_cons.mp hfmem with rfl | hdata
    · omega
    · exact hlatest f ⟨hdata, hfready⟩
  · refine .inl ⟨result, ⟨List.mem_cons_self, hused, hready⟩, hlater, htarget, ?_⟩
    rintro f ⟨hfmem, hfready⟩
    rcases List.mem_cons.mp hfmem with rfl | hdata
    · exact Int.le_refl _
    · have := hnone f ⟨hdata, hfready⟩
      omega

theorem map_clear_of_unused (h : ∀ e ∈ data, ¬e.used = true) : data.map (clear cycles) = data := by
  refine (List.map_congr_left ?_).trans (List.map_id _)
  intro e he
  obtain ⟨c, value, used⟩ := e
  cases used
  · by_cases hle : c ≤ cycles <;> simp [clear, hle]
  · exact absurd rfl (h _ he)

theorem countP_used_cons {e : FUResultElement V} (h : e.used = true) :
    (e :: data).countP (·.used) = data.countP (·.used) + 1 := List.countP_cons_of_pos h

theorem countP_unused_cons {e : FUResultElement V} (h : ¬e.used = true) :
    (e :: data).countP (·.used) = data.countP (·.used) := List.countP_cons_of_neg h

theorem readLoop_spec {maxDiff n : Int} {old : V} {kept : Nat} (hn : n = kept + data.countP (·.used))
    (hages : ∀ e ∈ data, e.used = true → -2 ^ 31 < e.cycles - cycles ∧ e.cycles - cycles < 2 ^ 31) :
    let read := readLoop cycles maxDiff old n data
    read.2.data = data.map (clear cycles) ∧
      read.2.numberOfElements = kept + (data.map (clear cycles)).countP (·.used) ∧
      IsLatest cycles maxDiff data old read.1 := by
  induction data generalizing maxDiff n old kept with
  | nil => exact ⟨rfl, by simpa [readLoop] using hn, .inr ⟨fun e h => absurd h.1 List.not_mem_nil, rfl⟩⟩
  | cons result data ih =>
    have hages' := fun e he => hages e (List.mem_cons_of_mem _ he)
    simp only [readLoop]
    by_cases hzero : n = 0
    · have hcount : (result :: data).countP (·.used) = 0 := by omega
      have hunused : ∀ e ∈ result :: data, ¬e.used = true := List.countP_eq_zero.mp hcount
      rw [if_pos hzero, map_clear_of_unused hunused]
      exact ⟨rfl, hn, .inr ⟨fun e h => absurd h.2.1 (hunused e h.1), rfl⟩⟩
    rw [if_neg hzero]
    by_cases hused : result.used = true
    · rw [countP_used_cons hused] at hn
      have hage := hages result List.mem_cons_self hused
      rw [if_pos hused, toInt_eq hage.1 hage.2]
      by_cases hready : result.cycles ≤ cycles
      · have hclear : clear cycles result = { result with used := false } := if_pos hready
        have hn' : n - 1 = kept + data.countP (·.used) := by omega
        rw [if_pos (by omega), List.map_cons, hclear, countP_unused_cons Bool.false_ne_true]
        by_cases hlater : maxDiff ≤ result.cycles - cycles
        · rw [if_pos hlater]
          obtain ⟨hdata, hnumber, hlatest⟩ :=
            ih hn' hages'
          exact ⟨by rw [hdata], hnumber, isLatest_later hused hready hlater hlatest⟩
        · rw [if_neg hlater]
          obtain ⟨hdata, hnumber, hlatest⟩ := ih hn' hages'
          exact ⟨by rw [hdata], hnumber, isLatest_older (Int.not_le.mp hlater) hlatest⟩
      · have hn' : n = (kept + 1 : Nat) + data.countP (·.used) := by omega
        obtain ⟨hdata, hnumber, hlatest⟩ := ih hn' hages'
        rw [if_neg (by omega), List.map_cons, clear_of_lt hready, countP_used_cons hused]
        exact ⟨by rw [hdata], hnumber.trans (by omega), isLatest_skip (fun h => hready h.2) hlatest⟩
    · rw [countP_unused_cons hused] at hn
      obtain ⟨hdata, hnumber, hlatest⟩ := ih hn hages'
      have hclear : ¬(clear cycles result).used = true := fun h => hused (clear_used.mp h).1
      have hsame : clear cycles result = result := by
        simpa using @map_clear_of_unused _ cycles [result] (by simpa using hused)
      rw [if_neg hused, List.map_cons, countP_unused_cons hclear, hsame]
      exact ⟨by rw [hdata], hnumber, isLatest_skip (fun h => hused h.1) hlatest⟩

variable {maxLatency : Nat} {past events : List (FUEvent V)} {initial : V} {s : FUPort V}

theorem HoldsLatest.read {old target : V} (h : HoldsLatest past initial old)
    (valid : ValidCalls maxLatency (past ++ [.read cycles])) (keeps : Keeps maxLatency initial past s)
    (hlatest : IsLatest cycles (-2147483647) s.results.data old target)
    (hages : ∀ e, Ready cycles s.results.data e → cycles - e.cycles < 2 ^ 31) :
    HoldsLatest (past ++ [.read cycles]) initial target := by
  simp only [HoldsLatest, results_read, seen_read]
  rcases hlatest with ⟨e, ⟨hmem, hused, hready⟩, -, rfl, hmax⟩ | ⟨hnone, rfl⟩
  · obtain ⟨hresult, hunseen⟩ := keeps.added e hmem hused
    refine .inl ⟨e.cycles, hresult, .inr hready, ?_⟩
    rintro ⟨ready, value⟩ hother hseen
    by_cases hpast : Seen past ready
    · obtain ⟨c, hread, hle⟩ := hpast
      by_contra hlt
      exact hunseen ⟨c, hread, by simp only at hlt hle; omega⟩
    · have hle : ready ≤ cycles := hseen.resolve_left hpast
      obtain ⟨f, hf, hfused, ⟨rfl, -⟩ | ⟨hlt, event, hevent, hfle⟩⟩ := keeps.newest ready value hother hpast
      · exact hmax f ⟨hf, hfused, hle⟩
      · have hlast := valid.le_last event (List.mem_append_left _ hevent)
        have := hmax f ⟨hf, hfused, Int.le_trans hfle hlast⟩
        simp only
        omega
  · -- Nothing that is kept is ready, so that nothing new is seen.
    have hsame : ∀ result ∈ results past, Seen past result.1 ∨ result.1 ≤ cycles → Seen past result.1 := by
      rintro ⟨ready, value⟩ hresult hseen
      by_contra hpast
      have hle : ready ≤ cycles := hseen.resolve_left hpast
      obtain ⟨f, hf, hfused, hcases⟩ := keeps.newest ready value hresult hpast
      have hready : f.cycles ≤ cycles := by
        rcases hcases with ⟨rfl, -⟩ | ⟨-, event, hevent, hfle⟩
        · exact hle
        · exact Int.le_trans hfle (valid.le_last event (List.mem_append_left _ hevent))
      have hold := hnone f ⟨hf, hfused, hready⟩
      have hage := hages f ⟨hf, hfused, hready⟩
      omega
    rcases h with ⟨ready, hresult, hseen, hmax⟩ | ⟨hunseen, rfl⟩
    · exact .inl ⟨ready, hresult, .inl hseen, fun result hmem h => hmax result hmem (hsame result hmem h)⟩
    · exact .inr ⟨fun result hmem h => hunseen result hmem (hsame result hmem h), rfl⟩

theorem Keeps.read (h : Keeps maxLatency initial past s) (hsize : maxLatency + 1 < 2 ^ 31)
    (valid : ValidCalls maxLatency (past ++ [.read cycles])) (hintime : (FUEvent.read cycles).InTime s) :
    ∃ t, s.step (.read cycles) = some t ∧ Keeps maxLatency initial (past ++ [.read cycles]) t := by
  have hages : ∀ e ∈ s.results.data, e.used = true → -2 ^ 31 < e.cycles - cycles ∧ e.cycles - cycles < 2 ^ 31 := by
    intro e he hused
    have hle := valid.ready_le (h.added e he hused).1
    rw [cycle_read] at hle
    by_cases hready : e.cycles ≤ cycles
    · have := hintime e he hused hready
      omega
    · omega
  have hnumber : s.results.numberOfElements = (0 : Nat) + s.results.data.countP (·.used) := by
    rw [h.number]
    omega
  obtain ⟨hdata, hnumber, hlatest⟩ := @readLoop_spec _ cycles s.results.data (-2147483647) _ s.target 0 hnumber hages
  refine ⟨_, rfl, ?_⟩
  have hkept {e : FUResultElement V} (he : e ∈ s.results.data) (hused : e.used = true) (hlt : ¬e.cycles ≤ cycles) :
      e ∈ s.results.data.map (clear cycles) :=
    List.mem_map.mpr ⟨e, he, clear_of_lt hlt⟩
  constructor
  case length => rw [FUResult, hdata, List.length_map, h.length]
  case number =>
    rw [FUResult, hnumber, hdata]
    omega
  case added =>
    rw [FUResult, hdata]
    intro e he hused
    obtain ⟨f, hf, rfl⟩ := List.mem_map.mp he
    obtain ⟨hfused, hlt⟩ := clear_used.mp hused
    rw [clear_of_lt hlt, results_read, seen_read]
    obtain ⟨hresult, hunseen⟩ := h.added f hf hfused
    exact ⟨hresult, fun hseen => hseen.elim hunseen hlt⟩
  case distinct =>
    rw [FUResult, hdata, List.pairwise_map]
    refine h.distinct.imp ?_
    intro e f hne he hf
    rw [clear_cycles, clear_cycles]
    exact hne (clear_used.mp he).1 (clear_used.mp hf).1
  case newest =>
    intro ready value hresult hunseen
    rw [FUResult, hdata]
    rw [results_read] at hresult
    rw [seen_read, not_or] at hunseen
    obtain ⟨e, he, hused, hcases⟩ := h.newest ready value hresult hunseen.1
    rcases hcases with ⟨rfl, hvalue⟩ | ⟨hlt, event, hevent, hle⟩
    · exact ⟨e, hkept he hused hunseen.2, hused, .inl ⟨rfl, hvalue⟩⟩
    · have hlast := valid.le_last event (List.mem_append_left _ hevent)
      rw [cycle_read] at hlast
      omega
  case target => exact h.target.read valid h hlatest fun e he => hintime e he.1 he.2.1 he.2.2

theorem Keeps.step {event : FUEvent V} (h : Keeps maxLatency initial past s) (hsize : maxLatency + 1 < 2 ^ 31)
    (valid : ValidCalls maxLatency (past ++ [event])) (hintime : event.InTime s) :
    ∃ t, s.step event = some t ∧ Keeps maxLatency initial (past ++ [event]) t := by
  cases event with
  | add cycleCount value latency => exact h.add valid
  | read cycles => exact h.read hsize valid hintime

theorem keeps_create (value : V) : Keeps maxLatency initial [] (FUPort.create maxLatency value initial) where
  length := List.length_replicate
  number := by simp [FUPort.create, FUResults.create, List.countP_replicate]
  added := by
    intro e he hused
    rw [(List.mem_replicate.mp he).2] at hused
    cases hused
  distinct := List.pairwise_replicate.mpr (.inr fun hused => by cases hused)
  newest := fun _ _ hresult => absurd hresult List.not_mem_nil
  target := .inr ⟨fun _ hresult => absurd hresult List.not_mem_nil, rfl⟩

theorem Keeps.run (h : Keeps maxLatency initial past s) (hsize : maxLatency + 1 < 2 ^ 31)
    (valid : ValidCalls maxLatency (past ++ events)) (hintime : AllInTime s events) :
    ∃ t, s.run events = some t ∧ Keeps maxLatency initial (past ++ events) t := by
  induction events generalizing past s with
  | nil => exact ⟨s, rfl, by rwa [List.append_nil]⟩
  | cons event events ih =>
    rw [List.append_cons] at valid ⊢
    obtain ⟨t, hstep, hkeeps⟩ := h.step hsize valid.of_append hintime.1
    obtain ⟨u, hrun, hkeeps'⟩ := ih hkeeps valid (hintime.2 t hstep)
    exact ⟨u, by rw [FUPort.run, hstep, Option.bind_some, hrun], hkeeps'⟩

/-- Two results and a read that sees the second one only. -/
def twoResults : List (FUEvent Nat) := [.add 0 5 1, .add 1 7 2, .read 3]

theorem twoResults_valid : ValidCalls 2 twoResults where
  ordered := by decide
  oncePerCycle := by decide
  latency := by
    intro cycleCount value latency hmem
    simp [twoResults] at hmem
    omega
  distinct := by decide

/-- The result is 2^31 cycles old when it is read. -/
def oldResult : List (FUEvent Nat) := [.add 0 7 1, .read (1 + 2 ^ 31)]

end Reading

end Tce.CompiledSimulation
