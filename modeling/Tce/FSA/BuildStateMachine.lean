import Tce.FSA.FUFiniteStateAutomaton
import Mathlib.Data.Fintype.Pi

/-!
# Building the automaton in advance

`buildStateMachine` handles one unfinished state after another, in whatever
order the hash set yields them. It ends since no two states have one matrix.
-/

namespace Tce.FUFiniteStateAutomaton

/-- A resolved state other than the current one is handled later, once. -/
def addUnfinished (state : Nat) (handledStates unfinishedStates : List Nat) (resolvedState : FSAStateIndex) :
    List Nat :=
  match resolvedState with
  | .index next =>
    if next ∉ handledStates ∧ next ≠ state then unfinishedStates.insert next else unfinishedStates
  | _ => unfinishedStates

/-- The transitions of one state, and the states still to be handled. -/
def resolveAll (state : Nat) (handledStates : List Nat) :
    List Nat → FUFiniteStateAutomaton → List Nat → Option (FUFiniteStateAutomaton × List Nat)
  | [], fsa, unfinishedStates => some (fsa, unfinishedStates)
  | i :: is, fsa, unfinishedStates => do
    let (resolvedState, fsa') ← fsa.resolveState state i
    resolveAll state handledStates is fsa' (addUnfinished state handledStates unfinishedStates resolvedState)

/-- The worklist loop. `first` is the order of the hash set: the element a
non-empty set begins with. `none` is a loop that has not ended within `fuel`
rounds. -/
def buildLoop (first : (states : List Nat) → states ≠ [] → {state // state ∈ states}) :
    Nat → FUFiniteStateAutomaton → List Nat → List Nat → Option FUFiniteStateAutomaton
  | fuel, fsa, handledStates, unfinishedStates =>
    if h : unfinishedStates = [] then some fsa
    else
      match fuel with
      | 0 => none
      | fuel + 1 =>
        let state := (first unfinishedStates h).1
        (resolveAll state handledStates (List.range fsa.operationCollisionMatrices.length) fsa
            (unfinishedStates.erase state)).bind fun (fsa', unfinishedStates') =>
          buildLoop first fuel fsa' (handledStates.insert state) unfinishedStates'

def buildStateMachine (fsa : FUFiniteStateAutomaton)
    (first : (states : List Nat) → states ≠ [] → {state // state ∈ states}) (fuel : Nat) :
    Option FUFiniteStateAutomaton :=
  buildLoop first fuel fsa [] [0]

/-- Every state of `states` has its transitions resolved, to states of `states`. -/
structure Resolves (fu : FunctionUnit) (fsa : FUFiniteStateAutomaton) (handled states : Nat → Prop) : Prop where
  targets : ∀ s, handled s → ∀ t ≤ fu.operationCount, ∃ target, fsa.transition s t = some target ∧
    target ≠ .unknownState ∧ ∀ d, target = .index d → states d

/-- A set of states with the start state that no transition leaves. -/
def Built (fu : FunctionUnit) (fsa : FUFiniteStateAutomaton) : Prop :=
  ∃ states : Nat → Prop, states 0 ∧ Resolves fu fsa states states

section build
variable {fu : FunctionUnit} (hh : BitMatrix.Holds fu.maxLatency)
  (hpos : ∀ _ : fu.OperationID, 0 < fu.maxLatency)

/-- The elements of a state's matrix. -/
def code (fu : FunctionUnit) (m : BitMatrix) : Fin fu.operationCount → Fin fu.maxLatency → Bool :=
  fun r column => m.get r column

def stateBound (fu : FunctionUnit) : Nat := Fintype.card (Fin fu.operationCount → Fin fu.maxLatency → Bool)

/-- No two states have one matrix, so there are only so many states. -/
theorem states_le {fsa : FUFiniteStateAutomaton} (hv : Valid fu fsa) :
    fsa.stateCollisionMatrices.length ≤ stateBound fu := by
  have hcode {s s' : Nat} {m m' : BitMatrix} (h : fsa.stateCollisionMatrices[s]? = some m)
      (h' : fsa.stateCollisionMatrices[s']? = some m') (heq : code fu m = code fu m') : s = s' := by
    have hm := hv.shaped m (List.mem_of_getElem? h)
    have hm' := hv.shaped m' (List.mem_of_getElem? h')
    refine hv.distinct s s' m m' h h' ⟨hm.rows.trans hm'.rows.symm, hm.columns.trans hm'.columns.symm, ?_⟩
    intro row hrow column
    by_cases hcol : column < fu.maxLatency
    · exact congrFun (congrFun heq ⟨row, hm.rows ▸ hrow⟩) ⟨column, hcol⟩
    · rw [hm.clean row hrow column (hm.columns ▸ Nat.not_lt.1 hcol),
        hm'.clean row (by rw [hm'.rows, ← hm.rows]; exact hrow) column (hm'.columns ▸ Nat.not_lt.1 hcol)]
  have hnodup : (fsa.stateCollisionMatrices.map (code fu)).Nodup := by
    refine List.nodup_iff_getElem?_ne_getElem?.2 fun i j hij hj heq => ?_
    rw [List.length_map] at hj
    have hi := Nat.lt_trans hij hj
    simp only [List.getElem?_map, List.getElem?_eq_getElem hi, List.getElem?_eq_getElem hj,
      Option.map_some, Option.some.injEq] at heq
    exact Nat.ne_of_lt hij (hcode (List.getElem?_eq_getElem hi) (List.getElem?_eq_getElem hj) heq)
  simpa [stateBound] using hnodup.length_le_card

/-- The unfinished states while `s` is being handled. -/
structure Unfinished (fsa : FUFiniteStateAutomaton) (handled : List Nat) (s : Nat) (unfinished : List Nat) :
    Prop where
  nodup : unfinished.Nodup
  fresh : ∀ u ∈ unfinished, u ∉ handled ∧ u ≠ s ∧ u < fsa.stateCollisionMatrices.length

/-- What the inner loop over the transitions `is` of `s` does. -/
structure ResolvedAll (fu : FunctionUnit) (s : Nat) (handled is : List Nat) (fsa : FUFiniteStateAutomaton)
    (unfinished : List Nat) (fsa' : FUFiniteStateAutomaton) (unfinished' : List Nat) : Prop where
  valid : Valid fu fsa'
  grows : fsa.stateCollisionMatrices.length ≤ fsa'.stateCollisionMatrices.length
  pending : Unfinished fsa' handled s unfinished'
  keeps : ∀ u ∈ unfinished, u ∈ unfinished'
  frame : ∀ s' t', s' < fsa.stateCollisionMatrices.length → s' ≠ s ∨ t' ∉ is →
    fsa'.transition s' t' = fsa.transition s' t'
  targets : ∀ t ∈ is, ∃ target, fsa'.transition s t = some target ∧ target ≠ .unknownState ∧
    ∀ d, target = .index d → d ∈ handled ∨ d = s ∨ d ∈ unfinished'

theorem addUnfinished_spec {fsa : FUFiniteStateAutomaton} {handled unfinished : List Nat} {s : Nat}
    (hu : Unfinished fsa handled s unfinished) {target : FSAStateIndex}
    (hlt : ∀ d, target = .index d → d < fsa.stateCollisionMatrices.length) :
    Unfinished fsa handled s (addUnfinished s handled unfinished target) ∧
      (∀ u ∈ unfinished, u ∈ addUnfinished s handled unfinished target) ∧
      ∀ d, target = .index d → d ∈ handled ∨ d = s ∨ d ∈ addUnfinished s handled unfinished target := by
  cases target with
  | illegalState => exact ⟨hu, fun _ h => h, by simp⟩
  | unknownState => exact ⟨hu, fun _ h => h, by simp⟩
  | index next =>
    by_cases hnew : next ∉ handled ∧ next ≠ s
    · have hadd : addUnfinished s handled unfinished (.index next) = unfinished.insert next := if_pos hnew
      rw [hadd]
      refine ⟨⟨hu.nodup.insert, fun u h => ?_⟩, fun u h => List.mem_insert_of_mem h, fun d hd => ?_⟩
      · rcases List.mem_insert_iff.1 h with rfl | h
        · exact ⟨hnew.1, hnew.2, hlt u rfl⟩
        · exact hu.fresh u h
      · obtain rfl : next = d := by simpa using hd
        exact .inr (.inr List.mem_insert_self)
    · have hadd : addUnfinished s handled unfinished (.index next) = unfinished := if_neg hnew
      rw [hadd]
      refine ⟨hu, fun _ h => h, fun d hd => ?_⟩
      obtain rfl : next = d := by simpa using hd
      by_cases hin : next ∈ handled
      · exact .inl hin
      · exact .inr (.inl (not_not.1 fun hne => hnew ⟨hin, hne⟩))

/-- What holds at the head of the worklist loop. -/
structure Handled (fu : FunctionUnit) (fsa : FUFiniteStateAutomaton) (handled unfinished : List Nat) : Prop where
  valid : Valid fu fsa
  handled_nodup : handled.Nodup
  unfinished_nodup : unfinished.Nodup
  disjoint : ∀ u ∈ unfinished, u ∉ handled
  handled_lt : ∀ s ∈ handled, s < fsa.stateCollisionMatrices.length
  unfinished_lt : ∀ s ∈ unfinished, s < fsa.stateCollisionMatrices.length
  start : 0 ∈ handled ∨ 0 ∈ unfinished
  resolves : Resolves fu fsa (· ∈ handled) fun s => s ∈ handled ∨ s ∈ unfinished

theorem Handled.built {fsa : FUFiniteStateAutomaton} {handled : List Nat} (h : Handled fu fsa handled []) :
    Built fu fsa := by
  refine ⟨(· ∈ handled), by simpa using h.start, ⟨fun s hs t ht => ?_⟩⟩
  simpa using h.resolves.targets s hs t ht

theorem Handled.length_lt {fsa : FUFiniteStateAutomaton} {handled unfinished : List Nat}
    (h : Handled fu fsa handled unfinished) (hne : unfinished ≠ []) : handled.length < stateBound fu := by
  obtain ⟨u, hu⟩ := List.exists_mem_of_ne_nil _ hne
  have hnodup : (u :: handled).Nodup := List.nodup_cons.2 ⟨h.disjoint u hu, h.handled_nodup⟩
  have hsub : (u :: handled) ⊆ List.range fsa.stateCollisionMatrices.length := by
    intro s hs
    rcases List.mem_cons.1 hs with rfl | hs
    · exact List.mem_range.2 (h.unfinished_lt s hu)
    · exact List.mem_range.2 (h.handled_lt s hs)
  have hlen := (hnodup.subperm hsub).length_le
  rw [List.length_range, List.length_cons] at hlen
  exact Nat.lt_of_lt_of_le hlen (states_le h.valid)

include hh hpos

theorem resolveAll_spec (s : Nat) (handled is : List Nat) : ∀ (fsa : FUFiniteStateAutomaton)
    (unfinished : List Nat), Valid fu fsa → s < fsa.stateCollisionMatrices.length →
    (∀ i ∈ is, i ≤ fu.operationCount) → Unfinished fsa handled s unfinished →
    ∃ fsa' unfinished', resolveAll s handled is fsa unfinished = some (fsa', unfinished') ∧
      ResolvedAll fu s handled is fsa unfinished fsa' unfinished' := by
  induction is with
  | nil =>
    intro fsa unfinished hv _ _ hu
    exact ⟨fsa, unfinished, rfl, hv, Nat.le_refl _, hu, fun _ h => h, fun _ _ _ _ => rfl, by simp⟩
  | cons i is ih =>
    intro fsa unfinished hv hs his hu
    obtain ⟨target, fsa₁, hresolve, hr⟩ := resolveState_spec hh hv hpos hs (his i List.mem_cons_self)
    have hgrow : fsa.stateCollisionMatrices.length ≤ fsa₁.stateCollisionMatrices.length := by
      have hlast : fsa.stateCollisionMatrices.length - 1 < fsa.stateCollisionMatrices.length := by omega
      have := (List.getElem?_eq_some_iff.1 (hr.grows _ _ (List.getElem?_eq_getElem hlast))).1
      omega
    have hs₁ : s < fsa₁.stateCollisionMatrices.length := Nat.lt_of_lt_of_le hs hgrow
    have hu' : Unfinished fsa₁ handled s unfinished :=
      ⟨hu.nodup, fun u h => ⟨(hu.fresh u h).1, (hu.fresh u h).2.1, Nat.lt_of_lt_of_le (hu.fresh u h).2.2 hgrow⟩⟩
    obtain ⟨hu₁, hkeep₁, hadded⟩ := addUnfinished_spec hu' fun d (hd : target = .index d) => by
      subst hd
      obtain ⟨_, m', -, hd, -⟩ := hr.valid.correct s i (.index d) hr.here
      exact (List.getElem?_eq_some_iff.1 hd).1
    obtain ⟨fsa', unfinished', hrest, ha⟩ := ih fsa₁ _ hr.valid hs₁
      (fun j hj => his j (List.mem_cons_of_mem _ hj)) hu₁
    refine ⟨fsa', unfinished', ?_, ha.valid, Nat.le_trans hgrow ha.grows, ha.pending,
      fun u h => ha.keeps u (hkeep₁ u h), ?_, ?_⟩
    · rw [resolveAll, hresolve]
      exact hrest
    · intro s' t' hs' hne
      have hne₁ : s' ≠ s ∨ t' ∉ is := hne.imp_right fun h hin => h (List.mem_cons_of_mem _ hin)
      have hne₂ : (s', t') ≠ (s, i) := by
        rintro heq
        cases heq
        rcases hne with h | h
        · exact h rfl
        · exact h List.mem_cons_self
      rw [ha.frame s' t' (Nat.lt_of_lt_of_le hs' hgrow) hne₁, hr.frame s' t' hs' hne₂]
    · intro t ht
      by_cases htail : t ∈ is
      · exact ha.targets t htail
      · have heq : t = i := by simpa [htail] using ht
        subst heq
        refine ⟨target, ?_, hr.known, fun d hd => ?_⟩
        · rw [ha.frame s t hs₁ (.inr htail), hr.here]
        · exact (hadded d hd).imp_right fun h => h.imp_right (ha.keeps d)

/-- One round of the worklist loop. -/
theorem handle_step {fsa : FUFiniteStateAutomaton} {handled unfinished : List Nat}
    (h : Handled fu fsa handled unfinished) {state : Nat} (hmem : state ∈ unfinished) :
    ∃ fsa' unfinished', resolveAll state handled (List.range fsa.operationCollisionMatrices.length) fsa
        (unfinished.erase state) = some (fsa', unfinished') ∧
      fsa.stateCollisionMatrices.length ≤ fsa'.stateCollisionMatrices.length ∧
      Handled fu fsa' (handled.insert state) unfinished' := by
  have hlt := h.unfinished_lt state hmem
  have hrange : ∀ i, i ∈ List.range fsa.operationCollisionMatrices.length ↔ i ≤ fu.operationCount := by
    intro i
    rw [h.valid.matrices, collisionMatrices_length, List.mem_range]
    omega
  obtain ⟨fsa', unfinished', hall, ha⟩ := resolveAll_spec hh hpos state handled _ fsa
    (unfinished.erase state) h.valid hlt (fun i hi => (hrange i).1 hi)
    ⟨h.unfinished_nodup.erase _, fun u hu => by
      obtain ⟨hne, hin⟩ := h.unfinished_nodup.mem_erase_iff.1 hu
      exact ⟨h.disjoint u hin, hne, h.unfinished_lt u hin⟩⟩
  have hfresh := h.disjoint state hmem
  have hkeep {d : Nat} (hd : d ∈ unfinished) : d = state ∨ d ∈ unfinished' := by
    by_cases heq : d = state
    · exact .inl heq
    · exact .inr (ha.keeps d (h.unfinished_nodup.mem_erase_iff.2 ⟨heq, hd⟩))
  rw [List.insert_of_not_mem hfresh]
  refine ⟨fsa', unfinished', hall, ha.grows, ha.valid, ?_, ha.pending.nodup, ?_, ?_, ?_, ?_, ⟨?_⟩⟩
  · exact List.nodup_cons.2 ⟨hfresh, h.handled_nodup⟩
  · intro u hu
    obtain ⟨h1, h2, -⟩ := ha.pending.fresh u hu
    simp [h1, h2]
  · intro s hs
    rcases List.mem_cons.1 hs with rfl | hs
    · exact Nat.lt_of_lt_of_le hlt ha.grows
    · exact Nat.lt_of_lt_of_le (h.handled_lt s hs) ha.grows
  · exact fun s hs => (ha.pending.fresh s hs).2.2
  · rcases h.start with h0 | h0
    · exact .inl (List.mem_cons_of_mem _ h0)
    · exact (hkeep h0).imp_left fun (heq : 0 = state) => heq ▸ List.mem_cons_self
  · intro s hs t ht
    rcases List.mem_cons.1 hs with rfl | hs
    · obtain ⟨target, htarget, hknown, hd⟩ := ha.targets t ((hrange t).2 ht)
      refine ⟨target, htarget, hknown, fun d heq => ?_⟩
      rcases hd d heq with hd | rfl | hd
      · exact .inl (List.mem_cons_of_mem _ hd)
      · exact .inl List.mem_cons_self
      · exact .inr hd
    · obtain ⟨target, htarget, hknown, hd⟩ := h.resolves.targets s hs t ht
      have hne : s ≠ state := fun heq => hfresh (heq ▸ hs)
      refine ⟨target, ?_, hknown, fun d heq => ?_⟩
      · rw [ha.frame s t (h.handled_lt s hs) (.inl hne), htarget]
      · rcases hd d heq with hd | hd
        · exact .inl (List.mem_cons_of_mem _ hd)
        · exact (hkeep hd).imp_left fun (heq : d = state) => heq ▸ List.mem_cons_self

/-- Whenever the loop ends, the automaton is built and has kept its states. -/
theorem buildLoop_valid (first : (states : List Nat) → states ≠ [] → {state // state ∈ states}) (fuel : Nat) :
    ∀ (fsa : FUFiniteStateAutomaton) (handled unfinished : List Nat), Handled fu fsa handled unfinished →
      ∀ fsa', buildLoop first fuel fsa handled unfinished = some fsa' →
        Valid fu fsa' ∧ Built fu fsa' ∧ fsa.stateCollisionMatrices.length ≤ fsa'.stateCollisionMatrices.length := by
  induction fuel with
  | zero =>
    intro fsa handled unfinished h fsa' hloop
    rw [buildLoop] at hloop
    split at hloop
    · next hempty =>
      cases hloop
      subst hempty
      exact ⟨h.valid, h.built, Nat.le_refl _⟩
    · cases hloop
  | succ fuel ih =>
    intro fsa handled unfinished h fsa' hloop
    rw [buildLoop] at hloop
    split at hloop
    · next hempty =>
      cases hloop
      subst hempty
      exact ⟨h.valid, h.built, Nat.le_refl _⟩
    · next hne =>
      obtain ⟨fsa₁, unfinished₁, hall, hgrows, h₁⟩ := handle_step hh hpos h (first unfinished hne).2
      simp only [hall, Option.bind_some] at hloop
      obtain ⟨hv, hb, hle⟩ := ih _ _ _ h₁ fsa' hloop
      exact ⟨hv, hb, Nat.le_trans hgrows hle⟩

/-- It ends in at most one round for each state there can be. -/
theorem buildLoop_ends (first : (states : List Nat) → states ≠ [] → {state // state ∈ states}) (fuel : Nat) :
    ∀ (fsa : FUFiniteStateAutomaton) (handled unfinished : List Nat), Handled fu fsa handled unfinished →
      stateBound fu ≤ fuel + handled.length →
      ∃ fsa', buildLoop first fuel fsa handled unfinished = some fsa' := by
  induction fuel with
  | zero =>
    intro fsa handled unfinished h hfuel
    cases unfinished with
    | nil => exact ⟨fsa, by simp [buildLoop]⟩
    | cons u us =>
      have := h.length_lt (by simp)
      omega
  | succ fuel ih =>
    intro fsa handled unfinished h hfuel
    by_cases hempty : unfinished = []
    · exact ⟨fsa, by simp [buildLoop, hempty]⟩
    · have hmem := (first unfinished hempty).2
      obtain ⟨fsa₁, unfinished₁, hall, -, h₁⟩ := handle_step hh hpos h hmem
      rw [buildLoop, dif_neg hempty]
      simp only [hall, Option.bind_some]
      refine ih _ _ _ h₁ ?_
      rw [List.insert_of_not_mem (h.disjoint _ hmem), List.length_cons]
      omega

omit hh hpos in
/-- The loop starts with the start state as the only unfinished one. -/
theorem handled_start {fsa : FUFiniteStateAutomaton} (hv : Valid fu fsa) : Handled fu fsa [] [0] := by
  obtain ⟨m, hm, -⟩ := hv.start
  have hlt := (List.getElem?_eq_some_iff.1 hm).1
  exact ⟨hv, by simp, by simp, by simp, by simp, by simpa using hlt, by simp, ⟨by simp⟩⟩

theorem buildStateMachine_valid {fsa fsa' : FUFiniteStateAutomaton} (hv : Valid fu fsa)
    {first : (states : List Nat) → states ≠ [] → {state // state ∈ states}} {fuel : Nat}
    (hbuild : fsa.buildStateMachine first fuel = some fsa') :
    Valid fu fsa' ∧ Built fu fsa' ∧ fsa.stateCollisionMatrices.length ≤ fsa'.stateCollisionMatrices.length :=
  buildLoop_valid hh hpos first fuel fsa [] [0] (handled_start hv) fsa' hbuild

theorem buildStateMachine_ends {fsa : FUFiniteStateAutomaton} (hv : Valid fu fsa)
    (first : (states : List Nat) → states ≠ [] → {state // state ∈ states}) {fuel : Nat}
    (hfuel : stateBound fu ≤ fuel) : ∃ fsa', fsa.buildStateMachine first fuel = some fsa' :=
  buildLoop_ends hh hpos first fuel fsa [] [0] (handled_start hv) (by simpa using hfuel)

end build
end Tce.FUFiniteStateAutomaton
