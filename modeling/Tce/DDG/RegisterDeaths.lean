import Mathlib.Data.Finset.Prod
import Tce.Base.WhileLoop
import Tce.DDG.RegisterUses

/-!
# Search of register deaths

The registers used after a block are looked for backward, from the blocks without
successors and then from the blocks that do not reach one.
-/

namespace Tce.DDG

open Relation

/-- The blocks of a procedure, with artificial ones at its entry and exit. -/
structure BlockGraph (B : Type) where
  nodes : List B
  isNormalBB : B → Bool
  predecessors : B → List B
  sinkNodes : List B
  nodup : nodes.Nodup
  predecessors_mem : ∀ b ∈ nodes, ∀ pred ∈ predecessors b, pred ∈ nodes
  mem_sinkNodes : ∀ b, b ∈ sinkNodes ↔ b ∈ nodes ∧ ∀ c ∈ nodes, b ∉ predecessors c
  artificial : ∀ b ∈ nodes, isNormalBB b = false → predecessors b = [] ∨ b ∈ sinkNodes

def BlockGraph.Edge {B : Type} (g : BlockGraph B) (b c : B) : Prop := c ∈ g.nodes ∧ b ∈ g.predecessors c

inductive BBState where
  | BB_UNREACHED
  | BB_QUEUED
  | BB_READY
  deriving DecidableEq, Repr

structure RegisterDeaths (B : Type) where
  state : B → BBState
  blocksByState : BBState → List B
  constructed : B → Bool
  registersUsedAfter : B → Finset RegisterName
  registersUsedInOrAfter : B → Finset RegisterName

namespace RegisterDeaths
variable {B M : Type} [DecidableEq B] (g : BlockGraph B) (ranges : B → LiveRangeData M)

omit [DecidableEq B] in
def initializeBBStates : RegisterDeaths B where
  state _ := .BB_UNREACHED
  blocksByState
    | .BB_UNREACHED => g.nodes.filter (g.isNormalBB ·)
    | _ => []
  constructed _ := false
  registersUsedAfter _ := ∅
  registersUsedInOrAfter _ := ∅

def changeState (s : RegisterDeaths B) (bbd : B) (newState : BBState) : RegisterDeaths B :=
  let oldState := s.state bbd
  if newState ≠ oldState then
    let others := Function.update s.blocksByState oldState ((s.blocksByState oldState).erase bbd)
    { s with
      state := Function.update s.state bbd newState
      blocksByState := Function.update others newState (others newState ++ [bbd]) }
  else s

/-- The registers used in or after a block, and whether there are more than were known. -/
def updateRegistersUsedInOrAfter (s : RegisterDeaths B) (bbd : B) : RegisterDeaths B × Bool :=
  let before := s.registersUsedInOrAfter bbd
  -- if not written in this, written earlier
  let passed := (s.registersUsedAfter bbd).filter fun r => (ranges bbd).regKills r = none
  let used := before ∪ passed ∪ (ranges bbd).firstUsed
  ({ s with registersUsedInOrAfter := Function.update s.registersUsedInOrAfter bbd used }, before.card < used.card)

def updatePredecessor (bbd : B) (firstTime : Bool) (s : RegisterDeaths B) (pred : B) : RegisterDeaths B :=
  let before := s.registersUsedAfter pred
  let used := before ∪ s.registersUsedInOrAfter bbd
  let updated := { s with registersUsedAfter := Function.update s.registersUsedAfter pred used }
  -- if updated, need to be handled again.
  if (before.card < used.card ∨ firstTime = true) ∧ s.state pred ≠ .BB_QUEUED then updated.changeState pred .BB_QUEUED
  else updated

def updatePreceedingRegistersUsedAfter (s : RegisterDeaths B) (bbd : B) (firstTime : Bool) : RegisterDeaths B :=
  (g.predecessors bbd).foldl (updatePredecessor bbd firstTime) s

def handle (s : RegisterDeaths B) (bbd : B) : RegisterDeaths B :=
  let (updated, changed) := updateRegistersUsedInOrAfter ranges (s.changeState bbd .BB_READY) bbd
  let firstTime := !s.constructed bbd
  let passedOn := if changed || firstTime then updatePreceedingRegistersUsedAfter g updated bbd firstTime else updated
  { passedOn with constructed := Function.update passedOn.constructed bbd true }

def handleFirst (s : RegisterDeaths B) : RegisterDeaths B :=
  match s.blocksByState .BB_QUEUED with
  | [] => s
  | bbd :: _ => handle g ranges s bbd

omit [DecidableEq B] in
def hasQueued (s : RegisterDeaths B) : Bool := !(s.blocksByState .BB_QUEUED).isEmpty

def iterateRegisterDeaths (fuel : Nat) (s : RegisterDeaths B) : Option (RegisterDeaths B) :=
  WhileLoop.run hasQueued (handleFirst g ranges) fuel s

/-- Blocks in loops that are never left. -/
def iterateUnreached (fuel : Nat) : (rounds : Nat) → RegisterDeaths B → Option (RegisterDeaths B)
  | 0, _ => none
  | rounds + 1, s =>
    match s.blocksByState .BB_UNREACHED with
    | [] => some s
    | bbd :: _ => (iterateRegisterDeaths g ranges fuel (s.changeState bbd .BB_QUEUED)).bind (iterateUnreached fuel rounds)

def queueSinks : RegisterDeaths B := g.sinkNodes.foldl (fun s bbd => s.changeState bbd .BB_QUEUED) (initializeBBStates g)

/-- `none` when a loop has not ended after `fuel` rounds. -/
def searchRegisterDeaths (fuel : Nat) : Option (RegisterDeaths B) :=
  (iterateRegisterDeaths g ranges fuel (queueSinks g)).bind (iterateUnreached g ranges fuel fuel)

/-! ## Paths -/

/-- A path goes on from the block to one that reads the register, over blocks that do not kill it. -/
def LiveAfter (edge : B → B → Prop) (reads kills : B → RegisterName → Prop) (b : B) (r : RegisterName) : Prop :=
  ∃ c d, edge b c ∧ ReflTransGen (fun x y => ¬ kills x r ∧ edge x y) c d ∧ reads d r

variable {g ranges} {s t : RegisterDeaths B} {b bbd pred : B} {newState : BBState} {r : RegisterName} {firstTime : Bool}

/-! ## The lists of blocks -/

@[simp] theorem state_changeState : (s.changeState bbd newState).state = Function.update s.state bbd newState := by
  by_cases hsame : newState = s.state bbd <;> simp [changeState, hsame]

@[simp] theorem constructed_changeState : (s.changeState bbd newState).constructed = s.constructed := by
  by_cases hsame : newState = s.state bbd <;> simp [changeState, hsame]

@[simp] theorem registersUsedAfter_changeState :
    (s.changeState bbd newState).registersUsedAfter = s.registersUsedAfter := by
  by_cases hsame : newState = s.state bbd <;> simp [changeState, hsame]

@[simp] theorem registersUsedInOrAfter_changeState :
    (s.changeState bbd newState).registersUsedInOrAfter = s.registersUsedInOrAfter := by
  by_cases hsame : newState = s.state bbd <;> simp [changeState, hsame]

theorem blocksByState_changeState (hne : newState ≠ s.state bbd) (state : BBState) :
    (s.changeState bbd newState).blocksByState state =
      if state = newState then s.blocksByState newState ++ [bbd]
      else if state = s.state bbd then (s.blocksByState state).erase bbd else s.blocksByState state := by
  by_cases hnew : state = newState
  · simp [changeState, hne, hnew]
  · by_cases hold : state = s.state bbd
    · subst hold
      simp [changeState, hne, Ne.symm hne]
    · simp [changeState, hne, hnew, hold]

/-- Each block is in the list of its state, except for artificial ones that no block has led to. -/
structure Listed (g : BlockGraph B) (s : RegisterDeaths B) : Prop where
  nodup : ∀ state, (s.blocksByState state).Nodup
  mem : ∀ state, ∀ b ∈ s.blocksByState state, b ∈ g.nodes ∧ s.state b = state
  listed : ∀ b ∈ g.nodes, g.isNormalBB b = true ∨ s.state b ≠ .BB_UNREACHED → b ∈ s.blocksByState (s.state b)

theorem Listed.mem_changeState (h : Listed g s) (hne : newState ≠ s.state bbd) (state : BBState) (b : B) :
    b ∈ (s.changeState bbd newState).blocksByState state ↔
      if b = bbd then state = newState else b ∈ s.blocksByState state := by
  have hmem : bbd ∈ s.blocksByState state → s.state bbd = state := fun hmem => (h.mem state bbd hmem).2
  rw [blocksByState_changeState hne]
  by_cases hnew : state = newState
  · by_cases hb : b = bbd <;> simp [hnew, hb]
  · by_cases hold : state = s.state bbd
    · rw [if_neg hnew, if_pos hold, (h.nodup state).mem_erase_iff]
      by_cases hb : b = bbd <;> simp [hnew, hb]
    · rw [if_neg hnew, if_neg hold]
      by_cases hb : b = bbd
      · simpa [hb, hnew] using fun hbbd => hold (hmem hbbd).symm
      · simp [hb]

theorem Listed.changeState (h : Listed g s) (hbbd : bbd ∈ g.nodes) : Listed g (s.changeState bbd newState) := by
  by_cases hsame : newState = s.state bbd
  · simpa [RegisterDeaths.changeState, hsame] using h
  refine ⟨fun state => ?_, fun state b hb => ?_, fun b hb hlisted => ?_⟩
  · rw [blocksByState_changeState hsame]
    split
    · refine List.nodup_append.2 ⟨h.nodup _, List.nodup_singleton _, fun b hb c hc => ?_⟩
      rintro rfl
      exact hsame ((h.mem _ b hb).2.symm.trans (congrArg s.state (List.mem_singleton.1 hc)))
    · split
      · exact (h.nodup _).erase _
      · exact h.nodup _
  · rw [h.mem_changeState hsame] at hb
    rw [state_changeState, Function.update_apply]
    split at hb
    · rename_i heq
      exact ⟨heq ▸ hbbd, by simp [heq, hb]⟩
    · rename_i hne
      simpa [hne] using h.mem state b hb
  · rw [h.mem_changeState hsame, state_changeState, Function.update_apply]
    rw [state_changeState, Function.update_apply] at hlisted
    by_cases heq : b = bbd
    · simp [heq]
    · simp only [heq, if_false] at hlisted ⊢
      exact h.listed b hb hlisted

/-! ## One block -/

theorem card_lt_union_iff {old new : Finset RegisterName} : old.card < (old ∪ new).card ↔ ¬ new ⊆ old := by
  constructor
  · intro hlt hsub
    rw [Finset.union_eq_left.2 hsub] at hlt
    exact lt_irrefl _ hlt
  · intro hsub
    exact Finset.card_lt_card ⟨Finset.subset_union_left, fun h => hsub (subset_trans Finset.subset_union_right h)⟩

/-- The registers used in or after a block have been passed on to the blocks before. -/
structure PassedOn (g : BlockGraph B) (preds : List B) (bbd : B) (firstTime : Bool) (s t : RegisterDeaths B) : Prop where
  usedInOrAfter : t.registersUsedInOrAfter = s.registersUsedInOrAfter
  constructed : t.constructed = s.constructed
  usedAfter : ∀ p, t.registersUsedAfter p =
    if p ∈ preds then s.registersUsedAfter p ∪ s.registersUsedInOrAfter bbd else s.registersUsedAfter p
  state : ∀ p, t.state p =
    if p ∈ preds ∧ (¬ s.registersUsedInOrAfter bbd ⊆ s.registersUsedAfter p ∨ firstTime = true) then .BB_QUEUED
    else s.state p
  listed : Listed g s → (∀ p ∈ preds, p ∈ g.nodes) → Listed g t

theorem updatePredecessor_spec : PassedOn g [pred] bbd firstTime s (updatePredecessor bbd firstTime s pred) := by
  have hlisted : ∀ used, Listed g s → Listed g { s with registersUsedAfter := used } := fun used h => ⟨h.nodup, h.mem, h.listed⟩
  unfold updatePredecessor
  simp only [card_lt_union_iff]
  by_cases hgrown : ¬ s.registersUsedInOrAfter bbd ⊆ s.registersUsedAfter pred ∨ firstTime = true
  · by_cases hqueued : s.state pred = .BB_QUEUED
    · simp only [hgrown, hqueued, ne_eq, not_true_eq_false, and_false, if_false]
      refine ⟨rfl, rfl, fun p => ?_, fun p => ?_, fun h _ => hlisted _ h⟩
      · by_cases hp : p = pred <;> simp [hp]
      · by_cases hp : p = pred <;> simp [hp, hqueued]
    · simp only [hgrown, hqueued, ne_eq, not_false_eq_true, and_self, if_true]
      refine ⟨by simp, by simp, fun p => ?_, fun p => ?_, fun h hp => (hlisted _ h).changeState (hp _ (by simp))⟩
      · by_cases hp : p = pred <;> simp [hp]
      · by_cases hp : p = pred
        · simp [hp, hgrown]
        · simp [hp]
  · simp only [hgrown, false_and, if_false]
    refine ⟨rfl, rfl, fun p => ?_, fun p => ?_, fun h _ => hlisted _ h⟩
    · by_cases hp : p = pred <;> simp [hp]
    · by_cases hp : p = pred
      · simp [hp, hgrown]
      · simp [hp]

theorem updatePreceeding_spec (preds : List B) :
    PassedOn g preds bbd firstTime s (preds.foldl (updatePredecessor bbd firstTime) s) := by
  induction preds using List.reverseRecOn with
  | nil => exact ⟨rfl, rfl, by simp, by simp, fun h _ => h⟩
  | append_singleton preds pred ih =>
    rw [List.foldl_append]
    have hlast : PassedOn g [pred] bbd firstTime (preds.foldl (updatePredecessor bbd firstTime) s) _ :=
      updatePredecessor_spec
    refine ⟨hlast.usedInOrAfter.trans ih.usedInOrAfter, hlast.constructed.trans ih.constructed, fun p => ?_, fun p => ?_,
      fun h hp => hlast.listed (ih.listed h fun p hmem => hp p (by simp [hmem])) fun p hmem => hp p ?_⟩
    · rw [List.foldl_cons, List.foldl_nil, hlast.usedAfter, ih.usedAfter, ih.usedInOrAfter]
      obtain rfl | hpred := eq_or_ne p pred <;> by_cases hp : p ∈ preds <;> simp [*]
    · rw [List.foldl_cons, List.foldl_nil, hlast.state, ih.state, ih.usedAfter, ih.usedInOrAfter]
      obtain rfl | hpred := eq_or_ne p pred
      · by_cases hp : p ∈ preds <;> by_cases hfirst : firstTime = true <;> simp [hp, hfirst]
      · by_cases hp : p ∈ preds <;> simp [hp, hpred]
    · simp [List.mem_singleton.1 hmem]

/-- The registers used in or after a block, from those known and those used after it. -/
def usedNow (ranges : B → LiveRangeData M) (s : RegisterDeaths B) (bbd : B) : Finset RegisterName :=
  s.registersUsedInOrAfter bbd ∪ (s.registersUsedAfter bbd).filter (fun r => (ranges bbd).regKills r = none) ∪
    (ranges bbd).firstUsed

omit [DecidableEq B] in
theorem mem_usedNow : r ∈ usedNow ranges s b ↔ r ∈ s.registersUsedInOrAfter b ∨
    r ∈ s.registersUsedAfter b ∧ (ranges b).regKills r = none ∨ r ∈ (ranges b).firstUsed := by
  simp [usedNow]

theorem updateRegistersUsedInOrAfter_spec :
    (updateRegistersUsedInOrAfter ranges s bbd).1 =
      { s with registersUsedInOrAfter := Function.update s.registersUsedInOrAfter bbd (usedNow ranges s bbd) } ∧
    ((updateRegistersUsedInOrAfter ranges s bbd).2 = false → usedNow ranges s bbd ⊆ s.registersUsedInOrAfter bbd) := by
  refine ⟨rfl, fun hsame => ?_⟩
  simp only [updateRegistersUsedInOrAfter, Finset.union_assoc, decide_eq_false_iff_not, card_lt_union_iff, not_not] at hsame
  rw [usedNow, Finset.union_assoc]
  exact Finset.union_subset (subset_refl _) hsame

/-- Where nothing has changed in a block seen before, there is nothing to pass on. -/
structure Handled (g : BlockGraph B) (ranges : B → LiveRangeData M) (bbd : B) (s t : RegisterDeaths B) : Prop where
  usedInOrAfter : t.registersUsedInOrAfter = Function.update s.registersUsedInOrAfter bbd (usedNow ranges s bbd)
  constructed : t.constructed = Function.update s.constructed bbd true
  usedAfter : ∀ p, t.registersUsedAfter p =
    if p ∈ g.predecessors bbd then s.registersUsedAfter p ∪ usedNow ranges s bbd else s.registersUsedAfter p
  state : ∀ p, t.state p =
    if p ∈ g.predecessors bbd ∧ (¬ usedNow ranges s bbd ⊆ s.registersUsedAfter p ∨ s.constructed bbd = false) then
      .BB_QUEUED
    else Function.update s.state bbd .BB_READY p
  listed : Listed g t

theorem handle_spec (hlisted : Listed g s) (hbbd : bbd ∈ g.nodes)
    (hflowed : s.constructed bbd = true → ∀ p ∈ g.predecessors bbd, s.registersUsedInOrAfter bbd ⊆ s.registersUsedAfter p) :
    Handled g ranges bbd s (handle g ranges s bbd) := by
  have hused : usedNow ranges (s.changeState bbd .BB_READY) bbd = usedNow ranges s bbd := by simp [usedNow]
  obtain ⟨hupdated, hunchanged⟩ :
      (updateRegistersUsedInOrAfter ranges (s.changeState bbd .BB_READY) bbd).1 = _ ∧ _ :=
    updateRegistersUsedInOrAfter_spec
  rw [hused, registersUsedInOrAfter_changeState] at hupdated hunchanged
  have hready : Listed g (updateRegistersUsedInOrAfter ranges (s.changeState bbd .BB_READY) bbd).1 := by
    have h : Listed g (s.changeState bbd .BB_READY) := hlisted.changeState hbbd
    exact ⟨h.nodup, h.mem, h.listed⟩
  unfold handle
  dsimp only
  split
  · have hpassed : PassedOn g (g.predecessors bbd) bbd (!s.constructed bbd)
        (updateRegistersUsedInOrAfter ranges (s.changeState bbd .BB_READY) bbd).1 _ :=
      updatePreceeding_spec (g.predecessors bbd)
    have hafter := hpassed.listed hready (g.predecessors_mem bbd hbbd)
    refine ⟨hpassed.usedInOrAfter.trans (by rw [hupdated]), ?_, fun p => (hpassed.usedAfter p).trans ?_,
      fun p => (hpassed.state p).trans ?_, ⟨hafter.nodup, hafter.mem, hafter.listed⟩⟩
    · dsimp only
      rw [updatePreceedingRegistersUsedAfter, hpassed.constructed, hupdated, constructed_changeState]
    · rw [hupdated]
      simp
    · rw [hupdated]
      simp
  · rename_i hsame
    obtain ⟨hchanged, hfirst⟩ : (updateRegistersUsedInOrAfter ranges (s.changeState bbd .BB_READY) bbd).2 = false ∧
        s.constructed bbd = true := by simpa using hsame
    have hkept : ∀ p ∈ g.predecessors bbd, usedNow ranges s bbd ⊆ s.registersUsedAfter p := fun p hp =>
      subset_trans (hunchanged hchanged) (hflowed hfirst p hp)
    refine ⟨by rw [hupdated], ?_, fun p => ?_, fun p => ?_, ⟨hready.nodup, hready.mem, hready.listed⟩⟩
    · dsimp only
      rw [hupdated, constructed_changeState]
    · rw [hupdated]
      by_cases hp : p ∈ g.predecessors bbd
      · simp [hp, Finset.union_eq_left.2 (hkept p hp)]
      · simp [hp]
    · rw [hupdated]
      by_cases hp : p ∈ g.predecessors bbd
      · simp [hkept p hp, hfirst]
      · simp [hp]

/-! ## A whole search -/

def Uses (ranges : B → LiveRangeData M) (b : B) (r : RegisterName) : Prop := r ∈ (ranges b).firstUsed

def Kills (ranges : B → LiveRangeData M) (b : B) (r : RegisterName) : Prop := (ranges b).regKills r ≠ none

/-- What is known is true, and what is not known yet is still to come from a block that is queued. -/
structure Progress (g : BlockGraph B) (ranges : B → LiveRangeData M) (s : RegisterDeaths B) : Prop where
  listed : Listed g s
  usedAfter : ∀ b, ∀ r ∈ s.registersUsedAfter b, LiveAfter g.Edge (Uses ranges) (Kills ranges) b r
  usedInOrAfter : ∀ b ∈ g.nodes, ∀ r ∈ s.registersUsedInOrAfter b,
    Uses ranges b r ∨ ¬ Kills ranges b r ∧ LiveAfter g.Edge (Uses ranges) (Kills ranges) b r
  constructed : ∀ b ∈ g.nodes, s.state b = .BB_READY → s.constructed b = true
  passedOn : ∀ b ∈ g.nodes, s.constructed b = true → ∀ p ∈ g.predecessors b,
    s.registersUsedInOrAfter b ⊆ s.registersUsedAfter p
  ready : ∀ b ∈ g.nodes, s.state b = .BB_READY → usedNow ranges s b ⊆ s.registersUsedInOrAfter b

omit [DecidableEq B] in
theorem liveAfter_of_edge {c : B} (hedge : g.Edge b c)
    (h : Uses ranges c r ∨ ¬ Kills ranges c r ∧ LiveAfter g.Edge (Uses ranges) (Kills ranges) c r) :
    LiveAfter g.Edge (Uses ranges) (Kills ranges) b r := by
  rcases h with huses | ⟨hkills, d, last, hnext, hpath, huses⟩
  · exact ⟨c, c, hedge, .refl, huses⟩
  · exact ⟨c, last, hedge, .head ⟨hkills, hnext⟩ hpath, huses⟩

omit [DecidableEq B] in
theorem Progress.usedNow (h : Progress g ranges s) (hb : b ∈ g.nodes) (hr : r ∈ usedNow ranges s b) :
    Uses ranges b r ∨ ¬ Kills ranges b r ∧ LiveAfter g.Edge (Uses ranges) (Kills ranges) b r := by
  rcases mem_usedNow.1 hr with hr | ⟨hr, hkills⟩ | hr
  · exact h.usedInOrAfter b hb r hr
  · exact .inr ⟨not_not.2 hkills, h.usedAfter b r hr⟩
  · exact .inl hr

theorem Progress.handle (h : Progress g ranges s) (hbbd : bbd ∈ g.nodes) : Progress g ranges (handle g ranges s bbd) := by
  have hhandled : Handled g ranges bbd s _ := handle_spec h.listed hbbd (h.passedOn bbd hbbd)
  -- a block that is ready has had no registers added
  have hready : ∀ b, (RegisterDeaths.handle g ranges s bbd).state b = .BB_READY →
      (b = bbd ∨ s.state b = .BB_READY) ∧
        (RegisterDeaths.handle g ranges s bbd).registersUsedAfter b = s.registersUsedAfter b := by
    intro b hb
    rw [hhandled.state] at hb
    split at hb
    · cases hb
    · rename_i hnot
      refine ⟨?_, ?_⟩
      · by_cases heq : b = bbd
        · exact .inl heq
        · exact .inr (by simpa [heq] using hb)
      · rw [hhandled.usedAfter]
        split
        · rename_i hpred
          exact Finset.union_eq_left.2 (not_not.1 fun hmore => hnot ⟨hpred, .inl hmore⟩)
        · rfl
  refine ⟨hhandled.listed, fun b r hr => ?_, fun b hb r hr => ?_, fun b hb hstate => ?_, fun b hb hconstructed p hp => ?_,
    fun b hb hstate => ?_⟩
  · rw [hhandled.usedAfter] at hr
    split at hr
    · rename_i hpred
      rcases Finset.mem_union.1 hr with hr | hr
      · exact h.usedAfter b r hr
      · exact liveAfter_of_edge ⟨hbbd, hpred⟩ (h.usedNow hbbd hr)
    · exact h.usedAfter b r hr
  · rw [hhandled.usedInOrAfter] at hr
    by_cases heq : b = bbd
    · subst heq
      exact h.usedNow hb (by simpa using hr)
    · exact h.usedInOrAfter b hb r (by simpa [heq] using hr)
  · rw [hhandled.constructed]
    by_cases heq : b = bbd
    · simp [heq]
    · simpa [heq] using h.constructed b hb ((hready b hstate).1.resolve_left heq)
  · rw [hhandled.usedInOrAfter, hhandled.usedAfter]
    by_cases heq : b = bbd
    · subst heq
      simp [hp]
    · have hbefore : s.registersUsedInOrAfter b ⊆ s.registersUsedAfter p :=
        h.passedOn b hb (by simpa [hhandled.constructed, heq] using hconstructed) p hp
      rw [Function.update_of_ne heq]
      split
      · exact subset_trans hbefore Finset.subset_union_left
      · exact hbefore
  · obtain ⟨hbefore, hafter⟩ := hready b hstate
    intro r hr
    rw [mem_usedNow, hafter] at hr
    rw [hhandled.usedInOrAfter] at hr ⊢
    by_cases heq : b = bbd
    · subst heq
      rw [Function.update_self] at hr ⊢
      rcases hr with hr | hr
      · exact hr
      · exact mem_usedNow.2 (.inr hr)
    · rw [Function.update_of_ne heq] at hr ⊢
      exact h.ready b hb (hbefore.resolve_left heq) (mem_usedNow.2 hr)

theorem Progress.queue (h : Progress g ranges s) (hbbd : bbd ∈ g.nodes) :
    Progress g ranges (s.changeState bbd .BB_QUEUED) := by
  have hready : ∀ b, (s.changeState bbd .BB_QUEUED).state b = .BB_READY → s.state b = .BB_READY := by
    intro b hb
    rw [state_changeState, Function.update_apply] at hb
    split at hb
    · cases hb
    · exact hb
  refine ⟨h.listed.changeState hbbd, by simpa using h.usedAfter, by simpa using h.usedInOrAfter, fun b hb hstate => ?_,
    by simpa using h.passedOn, fun b hb hstate => ?_⟩
  · simpa using h.constructed b hb (hready b hstate)
  · simpa [RegisterDeaths.usedNow] using h.ready b hb (hready b hstate)

omit [DecidableEq B] in
theorem Progress.initial : Progress g ranges (initializeBBStates g) := by
  refine ⟨⟨fun state => ?_, fun state b hb => ?_, fun b hb hlisted => ?_⟩, by simp [initializeBBStates],
    by simp [initializeBBStates], by simp [initializeBBStates], by simp [initializeBBStates], by simp [initializeBBStates]⟩
  · cases state with
    | BB_UNREACHED => exact g.nodup.filter _
    | BB_QUEUED | BB_READY => exact List.nodup_nil
  · cases state with
    | BB_UNREACHED => exact ⟨(List.mem_filter.1 hb).1, rfl⟩
    | BB_QUEUED | BB_READY => cases hb
  · exact List.mem_filter.2 ⟨hb, hlisted.resolve_right (by simp [initializeBBStates])⟩

/-! ## The search ends -/

def registers (g : BlockGraph B) (ranges : B → LiveRangeData M) : Finset RegisterName :=
  g.nodes.toFinset.biUnion fun b => (ranges b).firstUsed

def missing (g : BlockGraph B) (ranges : B → LiveRangeData M) (s : RegisterDeaths B) : Finset (B × RegisterName) :=
  (g.nodes.toFinset ×ˢ registers g ranges).filter fun pair => pair.2 ∉ s.registersUsedAfter pair.1

def waiting (g : BlockGraph B) (s : RegisterDeaths B) : Finset B := g.nodes.toFinset.filter (s.constructed · = false)

def inState (g : BlockGraph B) (s : RegisterDeaths B) (state : BBState) : Finset B :=
  g.nodes.toFinset.filter (s.state · = state)

/-- A block that is handled adds registers elsewhere, or is one less that is queued. -/
def remaining (g : BlockGraph B) (ranges : B → LiveRangeData M) (s : RegisterDeaths B) : Nat :=
  (g.nodes.toFinset.card + 1) * ((waiting g s).card + (missing g ranges s).card) + (inState g s .BB_QUEUED).card

theorem mem_registers_of_usedNow (h : Progress g ranges s) (hb : b ∈ g.nodes) (hr : r ∈ usedNow ranges s b) :
    r ∈ registers g ranges := by
  have hmem : ∀ d ∈ g.nodes, Uses ranges d r → r ∈ registers g ranges := fun d hd huses =>
    Finset.mem_biUnion.2 ⟨d, List.mem_toFinset.2 hd, huses⟩
  rcases h.usedNow hb hr with huses | ⟨-, c, d, hedge, hpath, huses⟩
  · exact hmem b hb huses
  · refine hmem d ?_ huses
    rcases hpath.cases_tail with rfl | ⟨_, -, -, hlast⟩
    · exact hedge.1
    · exact hlast.1

theorem remaining_handle (h : Progress g ranges s) (hbbd : bbd ∈ g.nodes) (hqueued : s.state bbd = .BB_QUEUED) :
    remaining g ranges (handle g ranges s bbd) < remaining g ranges s := by
  have hhandled : Handled g ranges bbd s _ := handle_spec h.listed hbbd (h.passedOn bbd hbbd)
  have hwaiting : waiting g (handle g ranges s bbd) ⊆ waiting g s := by
    intro b hb
    obtain ⟨hb, hnot⟩ := Finset.mem_filter.1 hb
    rw [hhandled.constructed, Function.update_apply] at hnot
    split at hnot
    · cases hnot
    · exact Finset.mem_filter.2 ⟨hb, hnot⟩
  have hmissing : missing g ranges (handle g ranges s bbd) ⊆ missing g ranges s := by
    intro pair hpair
    obtain ⟨hpair, hnot⟩ := Finset.mem_filter.1 hpair
    refine Finset.mem_filter.2 ⟨hpair, fun hmem => hnot ?_⟩
    rw [hhandled.usedAfter]
    split
    · exact Finset.mem_union_left _ hmem
    · exact hmem
  have hbound : (inState g (handle g ranges s bbd) .BB_QUEUED).card ≤ g.nodes.toFinset.card :=
    Finset.card_le_card (Finset.filter_subset _ _)
  have hfewer := Finset.card_le_card hwaiting
  have hfewer' := Finset.card_le_card hmissing
  by_cases hadds : s.constructed bbd = false ∨ ∃ p ∈ g.predecessors bbd, ¬ usedNow ranges s bbd ⊆ s.registersUsedAfter p
  · have hless : (waiting g (handle g ranges s bbd)).card + (missing g ranges (handle g ranges s bbd)).card + 1 ≤
        (waiting g s).card + (missing g ranges s).card := by
      rcases hadds with hfirst | ⟨p, hp, hmore⟩
      · have hlt : waiting g (handle g ranges s bbd) ⊂ waiting g s := by
          refine ⟨hwaiting, fun hsub => ?_⟩
          have hmem := hsub (Finset.mem_filter.2 ⟨List.mem_toFinset.2 hbbd, hfirst⟩)
          simp [waiting, hhandled.constructed] at hmem
        have := Finset.card_lt_card hlt
        omega
      · obtain ⟨r, hr, hnot⟩ := Finset.not_subset.1 hmore
        have hlt : missing g ranges (handle g ranges s bbd) ⊂ missing g ranges s := by
          refine ⟨hmissing, fun hsub => ?_⟩
          have hpair : (p, r) ∈ g.nodes.toFinset ×ˢ registers g ranges := Finset.mem_product.2
            ⟨List.mem_toFinset.2 (g.predecessors_mem bbd hbbd p hp), mem_registers_of_usedNow h hbbd hr⟩
          have hmem := (Finset.mem_filter.1 (hsub (Finset.mem_filter.2 ⟨hpair, hnot⟩))).2
          simp [hhandled.usedAfter, hp, hr] at hmem
        have := Finset.card_lt_card hlt
        omega
    have := Nat.mul_le_mul_left (g.nodes.toFinset.card + 1) hless
    rw [Nat.mul_add, Nat.mul_one] at this
    unfold remaining
    omega
  · have hless : inState g (handle g ranges s bbd) .BB_QUEUED ⊂ inState g s .BB_QUEUED := by
      have hstate : ∀ b, (handle g ranges s bbd).state b = Function.update s.state bbd .BB_READY b := by
        intro b
        rw [hhandled.state, if_neg]
        rintro ⟨hpred, hmore | hfirst⟩
        · exact hadds (.inr ⟨b, hpred, hmore⟩)
        · exact hadds (.inl hfirst)
      refine ⟨fun b hb => ?_, fun hsub => ?_⟩
      · obtain ⟨hb, hstate'⟩ := Finset.mem_filter.1 hb
        rw [hstate, Function.update_apply] at hstate'
        split at hstate'
        · cases hstate'
        · exact Finset.mem_filter.2 ⟨hb, hstate'⟩
      · have hmem := (Finset.mem_filter.1 (hsub (Finset.mem_filter.2 ⟨List.mem_toFinset.2 hbbd, hqueued⟩))).2
        simp [hstate] at hmem
    have := Finset.card_lt_card hless
    have := Nat.mul_le_mul_left (g.nodes.toFinset.card + 1) (Nat.add_le_add hfewer hfewer')
    unfold remaining
    omega

theorem handleFirst_eq (h : Progress g ranges s) (hqueued : hasQueued s = true) :
    ∃ bbd ∈ g.nodes, s.state bbd = .BB_QUEUED ∧ handleFirst g ranges s = handle g ranges s bbd := by
  unfold hasQueued at hqueued
  unfold handleFirst
  split
  · rename_i hnil
    simp [hnil] at hqueued
  · rename_i bbd rest hblocks
    obtain ⟨hbbd, hstate⟩ := h.listed.mem .BB_QUEUED bbd (by simp [hblocks])
    exact ⟨bbd, hbbd, hstate, rfl⟩

theorem unreached_of_handle (h : Progress g ranges s) (hbbd : bbd ∈ g.nodes)
    (hb : (handle g ranges s bbd).state b = .BB_UNREACHED) : s.state b = .BB_UNREACHED := by
  have hhandled : Handled g ranges bbd s _ := handle_spec h.listed hbbd (h.passedOn bbd hbbd)
  rw [hhandled.state] at hb
  split at hb
  · cases hb
  · rw [Function.update_apply] at hb
    split at hb
    · cases hb
    · exact hb

theorem iterateRegisterDeaths_ends (h : Progress g ranges s) :
    ∃ fuel, (iterateRegisterDeaths g ranges fuel s).isSome := by
  have hstep : ∀ s, hasQueued s = true → Progress g ranges s → Progress g ranges (handleFirst g ranges s) := by
    intro s hc h
    obtain ⟨bbd, hbbd, -, heq⟩ := handleFirst_eq h hc
    exact heq ▸ h.handle hbbd
  refine WhileLoop.ends_of_measure (remaining g ranges) hstep (fun s hc h => ?_) h
  obtain ⟨bbd, hbbd, hstate, heq⟩ := handleFirst_eq h hc
  exact heq ▸ remaining_handle h hbbd hstate

/-- No block is queued any more, and none has become unreached. -/
structure Iterated (g : BlockGraph B) (ranges : B → LiveRangeData M) (s t : RegisterDeaths B) : Prop where
  progress : Progress g ranges t
  queued : t.blocksByState .BB_QUEUED = []
  unreached : ∀ b, t.state b = .BB_UNREACHED → s.state b = .BB_UNREACHED

theorem iterated_of_iterateRegisterDeaths {fuel : Nat} (h : Progress g ranges s)
    (hrun : iterateRegisterDeaths g ranges fuel s = some t) : Iterated g ranges s t := by
  let inv (t : RegisterDeaths B) := Progress g ranges t ∧ ∀ b, t.state b = .BB_UNREACHED → s.state b = .BB_UNREACHED
  have hstep : ∀ t, hasQueued t = true → inv t → inv (handleFirst g ranges t) := by
    rintro t hc ⟨ht, hunreached⟩
    obtain ⟨bbd, hbbd, -, heq⟩ := handleFirst_eq ht hc
    rw [heq]
    exact ⟨ht.handle hbbd, fun b hb => hunreached b (unreached_of_handle ht hbbd hb)⟩
  have hinv : inv t := WhileLoop.invariant_of_run hstep ⟨h, fun _ hb => hb⟩ hrun
  have hexit := (WhileLoop.exit_of_run hrun).2
  exact ⟨hinv.1, by simpa [hasQueued] using hexit, hinv.2⟩

theorem iterateUnreached_mono {fuel fuel' rounds rounds' : Nat} (hfuel : fuel ≤ fuel') (hrounds : rounds ≤ rounds')
    (h : iterateUnreached g ranges fuel rounds s = some t) : iterateUnreached g ranges fuel' rounds' s = some t := by
  induction rounds generalizing rounds' s with
  | zero => cases h
  | succ rounds ih =>
    obtain ⟨more, rfl⟩ := Nat.exists_eq_add_of_le' hrounds
    rw [iterateUnreached] at h
    rw [Nat.add_succ, iterateUnreached]
    split at h
    · exact h
    · obtain ⟨u, hu, ht⟩ := Option.bind_eq_some_iff.1 h
      have hu' : iterateRegisterDeaths g ranges fuel' _ = some u := WhileLoop.run_mono hu hfuel
      rw [hu', Option.bind_some]
      exact ih (Nat.le_add_left ..) ht

theorem iterateUnreached_ends (h : Progress g ranges s) : ∃ fuel, (iterateUnreached g ranges fuel fuel s).isSome := by
  induction hcard : (inState g s .BB_UNREACHED).card using Nat.strong_induction_on generalizing s with
  | _ n ih =>
    subst hcard
    cases hblocks : s.blocksByState .BB_UNREACHED with
    | nil => exact ⟨1, by simp [iterateUnreached, hblocks]⟩
    | cons bbd rest =>
      obtain ⟨hbbd, hstate⟩ := h.listed.mem .BB_UNREACHED bbd (by simp [hblocks])
      obtain ⟨fuel, hfuel⟩ := iterateRegisterDeaths_ends (h.queue hbbd)
      obtain ⟨t, ht⟩ := Option.isSome_iff_exists.1 hfuel
      have hiterated := iterated_of_iterateRegisterDeaths (h.queue hbbd) ht
      have hbefore : ∀ b, t.state b = .BB_UNREACHED → b ≠ bbd ∧ s.state b = .BB_UNREACHED := by
        intro b hb
        have hb := hiterated.unreached b hb
        rw [state_changeState, Function.update_apply] at hb
        split at hb
        · cases hb
        · rename_i hne
          exact ⟨hne, hb⟩
      have hless : inState g t .BB_UNREACHED ⊂ inState g s .BB_UNREACHED := by
        refine ⟨fun b hb => ?_, fun hsub => ?_⟩
        · obtain ⟨hb, hstate⟩ := Finset.mem_filter.1 hb
          exact Finset.mem_filter.2 ⟨hb, (hbefore b hstate).2⟩
        · have hmem := hsub (Finset.mem_filter.2 ⟨List.mem_toFinset.2 hbbd, hstate⟩)
          exact (hbefore bbd (Finset.mem_filter.1 hmem).2).1 rfl
      obtain ⟨fuel', hfuel'⟩ := ih _ (Finset.card_lt_card hless) hiterated.progress rfl
      obtain ⟨u, hu⟩ := Option.isSome_iff_exists.1 hfuel'
      refine ⟨max fuel fuel' + 1, ?_⟩
      have ht' : iterateRegisterDeaths g ranges (max fuel fuel' + 1) (s.changeState bbd .BB_QUEUED) = some t :=
        WhileLoop.run_mono ht (by omega)
      have hu' : iterateUnreached g ranges (max fuel fuel' + 1) (max fuel fuel') t = some u :=
        iterateUnreached_mono (by omega) (by omega) hu
      simp [iterateUnreached, hblocks, ht', hu']

/-- A block that is queued, here and at the start, has been reached. -/
theorem spec_of_iterateUnreached {fuel rounds : Nat} (h : Progress g ranges s) (hqueued : s.blocksByState .BB_QUEUED = [])
    (hrun : iterateUnreached g ranges fuel rounds s = some t) :
    Iterated g ranges s t ∧ t.blocksByState .BB_UNREACHED = [] := by
  induction rounds generalizing s with
  | zero => cases hrun
  | succ rounds ih =>
    rw [iterateUnreached] at hrun
    split at hrun
    · rename_i hnil
      obtain rfl := Option.some.inj hrun
      exact ⟨⟨h, hqueued, fun _ hb => hb⟩, hnil⟩
    · rename_i bbd rest hblocks
      obtain ⟨u, hu, ht⟩ := Option.bind_eq_some_iff.1 hrun
      obtain ⟨hbbd, -⟩ := h.listed.mem .BB_UNREACHED bbd (by simp [hblocks])
      have hiterated := iterated_of_iterateRegisterDeaths (h.queue hbbd) hu
      obtain ⟨hlast, hnil⟩ := ih hiterated.progress hiterated.queued ht
      refine ⟨⟨hlast.progress, hlast.queued, fun b hb => ?_⟩, hnil⟩
      have hb := hiterated.unreached b (hlast.unreached b hb)
      rw [state_changeState, Function.update_apply] at hb
      split at hb
      · cases hb
      · exact hb

theorem queue_spec (sinks : List B) (hsinks : ∀ b ∈ sinks, b ∈ g.nodes) (h : Progress g ranges s) :
    Progress g ranges (sinks.foldl (fun s bbd => s.changeState bbd .BB_QUEUED) s) ∧
      ∀ b, (sinks.foldl (fun s bbd => s.changeState bbd .BB_QUEUED) s).state b =
        if b ∈ sinks then .BB_QUEUED else s.state b := by
  induction sinks generalizing s with
  | nil => exact ⟨h, by simp⟩
  | cons bbd sinks ih =>
    obtain ⟨hprogress, hstate⟩ := ih (fun b hb => hsinks b (by simp [hb])) (h.queue (hsinks bbd (by simp)))
    refine ⟨hprogress, fun b => ?_⟩
    rw [List.foldl_cons, hstate]
    by_cases hb : b ∈ sinks <;> by_cases hbbd : b = bbd <;> simp [hb, hbbd]

theorem queueSinks_spec : Progress g ranges (queueSinks g) ∧ ∀ b ∈ g.sinkNodes, (queueSinks g).state b ≠ .BB_UNREACHED := by
  have hinitial : Progress g ranges (initializeBBStates g) := .initial
  obtain ⟨hprogress, hstate⟩ := queue_spec g.sinkNodes (fun b hb => ((g.mem_sinkNodes b).1 hb).1) hinitial
  exact ⟨hprogress, fun b hb => by simp [queueSinks, hstate, hb]⟩

theorem searchRegisterDeaths_ends : ∃ fuel, (searchRegisterDeaths g ranges fuel).isSome := by
  have hstart : Progress g ranges (queueSinks g) := queueSinks_spec.1
  obtain ⟨fuel, hfuel⟩ := iterateRegisterDeaths_ends hstart
  obtain ⟨t, ht⟩ := Option.isSome_iff_exists.1 hfuel
  obtain ⟨fuel', hfuel'⟩ := iterateUnreached_ends (iterated_of_iterateRegisterDeaths hstart ht).progress
  obtain ⟨u, hu⟩ := Option.isSome_iff_exists.1 hfuel'
  refine ⟨max fuel fuel', ?_⟩
  have ht' : iterateRegisterDeaths g ranges (max fuel fuel') (queueSinks g) = some t :=
    WhileLoop.run_mono ht (by omega)
  have hu' := iterateUnreached_mono (Nat.le_max_right fuel fuel') (Nat.le_max_right fuel fuel') hu
  simp [searchRegisterDeaths, ht', hu']

/-- Where the search has ended, what is used after a block is used on a path from its end. -/
theorem mem_registersUsedAfter_iff {fuel : Nat} (hrun : searchRegisterDeaths g ranges fuel = some t) :
    r ∈ t.registersUsedAfter b ↔ LiveAfter g.Edge (Uses ranges) (Kills ranges) b r := by
  obtain ⟨u, hu, ht⟩ := Option.bind_eq_some_iff.1 hrun
  obtain ⟨hstart, hsinks⟩ : Progress g ranges (queueSinks g) ∧ _ := queueSinks_spec
  have hiterated := iterated_of_iterateRegisterDeaths hstart hu
  obtain ⟨hlast, hnil⟩ := spec_of_iterateUnreached hiterated.progress hiterated.queued ht
  refine ⟨hlast.progress.usedAfter b r, ?_⟩
  -- every block that another one leads to is ready
  have hready : ∀ p c, g.Edge p c → t.state c = .BB_READY := by
    rintro p c ⟨hc, hp⟩
    have hreached : t.state c ≠ .BB_UNREACHED := by
      intro hstate
      have hnormal : g.isNormalBB c = true ∨ c ∈ g.sinkNodes := by
        cases hnormal : g.isNormalBB c with
        | true => exact .inl rfl
        | false =>
          refine .inr ((g.artificial c hc hnormal).resolve_left fun hpreds => ?_)
          simp [hpreds] at hp
      rcases hnormal with hnormal | hsink
      · have hmem := hlast.progress.listed.listed c hc (.inl hnormal)
        simp [hstate, hnil] at hmem
      · exact hsinks c hsink (hiterated.unreached c (hlast.unreached c hstate))
    have hmem := hlast.progress.listed.listed c hc (.inr hreached)
    cases hstate : t.state c with
    | BB_UNREACHED => exact absurd hstate hreached
    | BB_QUEUED => simp [hstate, hlast.queued] at hmem
    | BB_READY => rfl
  have hback : ∀ p c, g.Edge p c → r ∈ t.registersUsedInOrAfter c → r ∈ t.registersUsedAfter p := fun p c hedge hr =>
    hlast.progress.passedOn c hedge.1 (hlast.progress.constructed c hedge.1 (hready p c hedge)) p hedge.2 hr
  rintro ⟨c, d, hedge, hpath, huses⟩
  refine hback b c hedge ?_
  induction hpath using ReflTransGen.head_induction_on generalizing b with
  | refl =>
    exact hlast.progress.ready d hedge.1 (hready b d hedge) (mem_usedNow.2 (.inr (.inr huses)))
  | head hstep _ ih =>
    obtain ⟨hkills, hnext⟩ := hstep
    refine hlast.progress.ready _ hedge.1 (hready b _ hedge) (mem_usedNow.2 (.inr (.inl ⟨?_, not_not.1 hkills⟩)))
    exact hback _ _ hnext (ih hnext)

/-! ## In terms of the moves -/

omit [DecidableEq B] in
theorem LiveAfter.mono {reads reads' kills kills' : B → RegisterName → Prop} (h : LiveAfter g.Edge reads kills b r)
    (hreads : ∀ b ∈ g.nodes, reads b r → reads' b r) (hkills : ∀ b ∈ g.nodes, kills' b r → kills b r) :
    LiveAfter g.Edge reads' kills' b r := by
  obtain ⟨c, d, hedge, hpath, hd⟩ := h
  have hmem : ∀ d, ReflTransGen (fun x y => ¬ kills x r ∧ g.Edge x y) c d →
      d ∈ g.nodes ∧ ReflTransGen (fun x y => ¬ kills' x r ∧ g.Edge x y) c d := by
    intro d hpath
    induction hpath with
    | refl => exact ⟨hedge.1, .refl⟩
    | tail _ hstep ih => exact ⟨hstep.2.1, ih.2.tail ⟨fun hk => hstep.1 (hkills _ ih.1 hk), hstep.2⟩⟩
  exact ⟨c, d, hedge, (hmem d hpath).2, hreads d (hmem d hpath).1 hd⟩

variable {nodes : MoveNodes M} {special : SpecialRegisters} {moves : B → List M}

omit [DecidableEq B] in
theorem liveAfter_iff (hranges : ∀ b ∈ g.nodes, nodes.constructIndividualBB special (moves b) = .ok (ranges b))
    (hparams : special.SeparateParams) (hreturns : ∀ b ∈ g.nodes, nodes.ReturnsThroughRA (moves b)) :
    LiveAfter g.Edge (Uses ranges) (Kills ranges) b r ↔
      LiveAfter g.Edge (fun b => nodes.ReadsFirst special (nodes.LastWriter special) (moves b))
        (fun b => nodes.Kills special (nodes.LastWriter special) (moves b)) b r := by
  have hsummary : ∀ b ∈ g.nodes, MoveNodes.IsSummary nodes special (moves b) (ranges b) := fun b hb =>
    MoveNodes.isSummary_of_constructIndividualBB hparams (hreturns b hb) (hranges b hb)
  have huses : ∀ b ∈ g.nodes,
      Uses ranges b r ↔ nodes.ReadsFirst special (nodes.LastWriter special) (moves b) r := fun b hb =>
    (hsummary b hb).firstUsed r
  have hkills : ∀ b ∈ g.nodes, Kills ranges b r ↔ nodes.Kills special (nodes.LastWriter special) (moves b) r := by
    intro b hb
    rw [← (hsummary b hb).kills r, Kills, Option.isSome_iff_ne_none]
  exact ⟨fun h => h.mono (fun b hb => (huses b hb).1) (fun b hb => (hkills b hb).2),
    fun h => h.mono (fun b hb => (huses b hb).2) (fun b hb => (hkills b hb).1)⟩

/-- The search ends. A register is used after a block when a path from its end comes to a read of it before a kill,
and only when one comes to a read of it before a write that kills alone or with the write just before. -/
theorem searchRegisterDeaths_correct (g : BlockGraph B) (nodes : MoveNodes M) (special : SpecialRegisters)
    (moves : B → List M) (ranges : B → LiveRangeData M)
    (hranges : ∀ b ∈ g.nodes, nodes.constructIndividualBB special (moves b) = .ok (ranges b))
    (hparams : special.SeparateParams) (hreturns : ∀ b ∈ g.nodes, nodes.ReturnsThroughRA (moves b)) :
    (∃ fuel, (searchRegisterDeaths g ranges fuel).isSome) ∧
      ∀ fuel t, searchRegisterDeaths g ranges fuel = some t → ∀ b r,
        (LiveAfter g.Edge (fun b => nodes.ReadsFirst special (nodes.AnyWriter special) (moves b))
          (fun b => nodes.Kills special (nodes.AnyWriter special) (moves b)) b r → r ∈ t.registersUsedAfter b) ∧
        (r ∈ t.registersUsedAfter b ↔
          LiveAfter g.Edge (fun b => nodes.ReadsFirst special (nodes.LastWriter special) (moves b))
            (fun b => nodes.Kills special (nodes.LastWriter special) (moves b)) b r) := by
  refine ⟨searchRegisterDeaths_ends, fun fuel t hrun b r => ?_⟩
  have hiff := (mem_registersUsedAfter_iff (b := b) (r := r) hrun).trans (liveAfter_iff hranges hparams hreturns)
  refine ⟨fun hlive => hiff.2 (hlive.mono (fun b _ hreads => ?_) (fun b _ hkills => ?_)), hiff⟩
  · exact hreads.of_anyWriter
  · exact hkills.anyWriter

/-- Two blocks, one after the other. -/
def twoBlocks : BlockGraph Nat where
  nodes := [0, 1, 2, 3]
  isNormalBB b := b = 1 ∨ b = 2
  predecessors
    | 1 => [0]
    | 2 => [1]
    | 3 => [2]
    | _ => []
  sinkNodes := [3]
  nodup := by decide
  predecessors_mem := by decide
  mem_sinkNodes b := by
    by_cases hb : b ∈ [0, 1, 2, 3]
    · revert b
      decide
    · simp_all
  artificial := by decide

def guarded (guard : String) (isInverted : Bool) : UseMove :=
  ⟨some ⟨some guard, isInverted⟩, .other, .GPR "r1", false, false, ""⟩

/-- `?g 1 -> r1; ?h 2 -> r1; !g 3 -> r1; r1 -> r2` -/
def guardedWrites : MoveNodes Nat where
  move
    | 0 => guarded "g" false
    | 1 => guarded "h" false
    | 2 => guarded "g" true
    | _ => ⟨none, .GPR "r1", .GPR "r2", false, false, ""⟩
  sameDefinitions n1 n2 := n1 = n2 ∨ n1 = 0 ∧ n2 = 2

/-- `r1 -> jump`, which returns. -/
def returnByRegister : MoveNodes Nat where
  move _ := ⟨none, .GPR "r1", .FUPort false, true, true, ""⟩
  sameDefinitions _ _ := false

def returnValue : SpecialRegisters := ⟨none, some "r0", none, fun _ => none, true⟩

def movesOf (moves : List Nat) (b : Nat) : List Nat := if b = 2 then moves else []

def rangesOf (nodes : MoveNodes Nat) (special : SpecialRegisters) (moves : Nat → List Nat) (b : Nat) : LiveRangeData Nat :=
  match nodes.constructIndividualBB special (moves b) with
  | .ok lrd => lrd
  | .error _ => .empty

theorem ranges_guardedWrites : ∀ b ∈ twoBlocks.nodes,
    guardedWrites.constructIndividualBB returnValue (movesOf [0, 1, 2, 3] b) =
      .ok (rangesOf guardedWrites returnValue (movesOf [0, 1, 2, 3]) b) := by
  simp only [twoBlocks, List.forall_mem_cons]
  exact ⟨rfl, rfl, rfl, rfl, by simp⟩

theorem separateParams_returnValue : returnValue.SeparateParams := by simp [SpecialRegisters.SeparateParams, returnValue]

theorem edge_twoBlocks : twoBlocks.Edge 1 2 := ⟨by decide, by decide⟩

theorem searchRegisterDeaths_correct_guardedWrites :
    ∃ t, searchRegisterDeaths twoBlocks (rangesOf guardedWrites returnValue (movesOf [0, 1, 2, 3])) 9 = some t ∧
      .GPR "g" ∈ t.registersUsedAfter 1 := by
  have hreturns : ∀ b ∈ twoBlocks.nodes, guardedWrites.ReturnsThroughRA (movesOf [0, 1, 2, 3] b) := by
    intro b _ m hm hreturn
    simp only [movesOf] at hm
    split at hm
    · simp only [List.mem_cons, List.not_mem_nil, or_false] at hm
      rcases hm with rfl | rfl | rfl | rfl <;> cases hreturn
    · cases hm
  refine ⟨_, rfl, ((searchRegisterDeaths_correct twoBlocks guardedWrites returnValue (movesOf [0, 1, 2, 3]) _
    ranges_guardedWrites separateParams_returnValue hreturns).2 9 _ rfl 1 (.GPR "g")).1 ?_⟩
  refine ⟨2, 2, edge_twoBlocks, .refl, [], 0, [1, 2, 3], rfl, .guard rfl rfl, ?_⟩
  rintro ⟨before, m, after, hsplit, -⟩
  simp at hsplit

theorem not_reads_guarded {nodes : MoveNodes Nat} {special : SpecialRegisters} {m : Nat} {guard name : String}
    {isInverted : Bool} (hm : nodes.move m = guarded guard isInverted) (hname : guard ≠ name) :
    ¬ nodes.Reads special m (.GPR name) := by
  intro hreads
  cases hreads with
  | guard hc hguard =>
    rw [hm] at hc
    obtain rfl := Option.some.inj hc
    exact hname (Option.some.inj hguard)
  | GPR hsource =>
    rw [hm] at hsource
    cases hsource
  | returned hreturn =>
    rw [hm] at hreturn
    cases hreturn
  | called hdestination =>
    rw [hm] at hdestination
    cases hdestination

/-- The register is read after two writes of which one is executed. -/
theorem not_readsFirst_guardedWrites :
    ¬ guardedWrites.ReadsFirst returnValue (guardedWrites.AnyWriter returnValue) [0, 1, 2, 3] (.GPR "r1") := by
  rintro ⟨before, m, after, hsplit, hreads, hkills⟩
  have hcopy : ∀ guard isInverted, guard ≠ "r1" → guardedWrites.move m ≠ guarded guard isInverted :=
    fun guard isInverted hname hm => not_reads_guarded hm hname hreads
  simp only [List.cons_eq_append_iff, List.cons.injEq] at hsplit
  obtain ⟨rfl, rfl, -⟩ | ⟨_, rfl, ⟨rfl, rfl, -⟩ | ⟨_, rfl, ⟨rfl, rfl, -⟩ | ⟨_, rfl, ⟨rfl, rfl, -⟩ | ⟨_, rfl, hnil⟩⟩⟩⟩ := hsplit
  · exact hcopy "g" false (by decide) rfl
  · exact hcopy "h" false (by decide) rfl
  · exact hcopy "g" true (by decide) rfl
  · exact hkills ⟨[0, 1], 2, [], rfl, .GPR rfl, .inr ⟨0, ⟨by simp, .GPR rfl⟩, rfl⟩⟩
  · simp at hnil

theorem ranges_returnByRegister : ∀ b ∈ twoBlocks.nodes,
    returnByRegister.constructIndividualBB returnValue (movesOf [0] b) =
      .ok (rangesOf returnByRegister returnValue (movesOf [0]) b) := by
  simp only [twoBlocks, List.forall_mem_cons]
  exact ⟨rfl, rfl, rfl, rfl, by simp⟩

/-- A write between them keeps two writes from being a kill, and a return is known only by the port that it reads. -/
theorem not_searchRegisterDeaths_correct :
    (¬ ∀ (g : BlockGraph Nat) (nodes : MoveNodes Nat) (special : SpecialRegisters) (moves : Nat → List Nat) ranges,
      (∀ b ∈ g.nodes, nodes.constructIndividualBB special (moves b) = .ok (ranges b)) →
      ∀ fuel t, searchRegisterDeaths g ranges fuel = some t → ∀ b r, r ∈ t.registersUsedAfter b →
        LiveAfter g.Edge (fun b => nodes.ReadsFirst special (nodes.AnyWriter special) (moves b)) (fun _ _ => False) b r) ∧
    ¬ ∀ (g : BlockGraph Nat) (nodes : MoveNodes Nat) (special : SpecialRegisters) (moves : Nat → List Nat) ranges,
      (∀ b ∈ g.nodes, nodes.constructIndividualBB special (moves b) = .ok (ranges b)) →
      ∀ fuel t, searchRegisterDeaths g ranges fuel = some t → ∀ b r,
        LiveAfter g.Edge (fun b => nodes.ReadsFirst special (nodes.AnyWriter special) (moves b))
          (fun b => nodes.Kills special (nodes.AnyWriter special) (moves b)) b r → r ∈ t.registersUsedAfter b := by
  constructor
  · intro h
    obtain ⟨fuel, hfuel⟩ : ∃ fuel, (searchRegisterDeaths twoBlocks
      (rangesOf guardedWrites returnValue (movesOf [0, 1, 2, 3])) fuel).isSome := searchRegisterDeaths_ends
    obtain ⟨t, ht⟩ := Option.isSome_iff_exists.1 hfuel
    have huses : Uses (rangesOf guardedWrites returnValue (movesOf [0, 1, 2, 3])) 2 (.GPR "r1") := by
      unfold Uses
      decide
    have hmem := (mem_registersUsedAfter_iff ht).2 ⟨2, 2, edge_twoBlocks, .refl, huses⟩
    obtain ⟨c, d, -, -, hreads⟩ := h twoBlocks guardedWrites returnValue (movesOf [0, 1, 2, 3]) _ ranges_guardedWrites fuel t
      ht 1 (.GPR "r1") hmem
    by_cases hd : d = 2
    · rw [hd] at hreads
      exact not_readsFirst_guardedWrites hreads
    · obtain ⟨before, m, after, hsplit, -⟩ := hreads
      simp [movesOf, hd] at hsplit
  · intro h
    have hreads : returnByRegister.ReadsFirst returnValue (returnByRegister.AnyWriter returnValue) [0] (.GPR "r0") := by
      refine ⟨[], 0, [], rfl, .returned rfl (.inr (.inl rfl)), ?_⟩
      rintro ⟨before, m, after, hsplit, -⟩
      simp at hsplit
    obtain ⟨fuel, hfuel⟩ : ∃ fuel, (searchRegisterDeaths twoBlocks
      (rangesOf returnByRegister returnValue (movesOf [0])) fuel).isSome := searchRegisterDeaths_ends
    obtain ⟨t, ht⟩ := Option.isSome_iff_exists.1 hfuel
    have hmem := h twoBlocks returnByRegister returnValue (movesOf [0]) _ ranges_returnByRegister fuel t ht 1 (.GPR "r0")
      ⟨2, 2, edge_twoBlocks, .refl, hreads⟩
    obtain ⟨c, d, -, -, huses⟩ := (mem_registersUsedAfter_iff ht).1 hmem
    have hnot : ∀ moves, moves = [0] ∨ moves = [] →
        .GPR "r0" ∉ (rangesOf returnByRegister returnValue (fun _ => moves) 0).firstUsed := by
      rintro moves (rfl | rfl)
      · decide
      · decide
    refine hnot (movesOf [0] d) ?_ huses
    unfold movesOf
    split
    · exact .inl rfl
    · exact .inr rfl

end RegisterDeaths

end Tce.DDG
