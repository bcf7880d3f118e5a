import Tce.DDG.CycleBounds

/-!
# Schedules in the making

A scheduler places the moves one by one between the bounds that the moves
already placed set for them, and takes some back.
-/

namespace Tce.DDG.DataDependenceGraph
variable {N O : Type} [DecidableEq N] [DecidableEq O] {g : DataDependenceGraph N O} {m : Machine} {ii stack : Nat}

/-- The graph with cycles for some of the moves. -/
def place (g : DataDependenceGraph N O) (cycle : N → Option Int) : DataDependenceGraph N O :=
  { g with node := fun v => { g.node v with cycle := cycle v } }

/-- The schedules that a scheduler comes to, top down or bottom up: a move is placed between its bounds, as far as
the moves around it have cycles, and can be taken back at any time. -/
inductive Reached (g : DataDependenceGraph N O) (ii stack : Nat) : (N → Option Int) → Prop
  | empty : Reached g ii stack fun _ => none
  | place {cycle : N → Option Int} {v : N} {c earliest latest : Int} : Reached g ii stack cycle → cycle v = none →
    InSchedule c → (g.place cycle).earliestCycle ii (stack + 1) {} v = .ok earliest → earliest ≤ c →
    (g.place cycle).latestCycle ii false true v = .ok latest → c ≤ latest →
    Reached g ii stack (Function.update cycle v (some c))
  | unschedule {cycle : N → Option Int} (v : N) : Reached g ii stack cycle →
    Reached g ii stack (Function.update cycle v none)

omit [DecidableEq N] in
/-- The loop is below the bound of every edge with a scheduled head. -/
theorem latestLoop_le (hm : m.triggerInvalidatesResults = false) {c latest : Int} (hc : c ≤ latest) {es : List (Edge N)} :
    ∀ {maxCycle : Int}, g.latestLoop m ii false true es maxCycle = .ok latest → c ≤ maxCycle ∧
      ∀ e ∈ es, ∀ head, (g.node e.head).cycle = some head →
        ∃ b, g.headBound m ii false e head = .ok (some b) ∧ c ≤ b := by
  induction es with
  | nil =>
    intro maxCycle h
    cases h
    exact ⟨hc, fun e he => by cases he⟩
  | cons e es ih =>
    intro maxCycle h
    rw [List.forall_mem_cons]
    unfold latestLoop at h
    simp only [hm, Bool.false_and, Bool.false_eq_true, if_false, if_true] at h
    cases hhead : (g.node e.head).cycle with
    | none =>
      rw [hhead] at h
      obtain ⟨hmax, hes⟩ := ih h
      exact ⟨hmax, fun head hnone => (by cases hnone), hes⟩
    | some head =>
      rw [hhead] at h
      cases hb : g.headBound m ii false e head with
      | error f => simp [hb, bind, Except.bind] at h
      | ok b =>
        cases b with
        | none => exact absurd hb (headBound_ne_none hm e head)
        | some cycle =>
          simp only [hb, bind, Except.bind] at h
          obtain ⟨hmin, hes⟩ := ih h
          obtain ⟨hcycle, hmax⟩ := Int.le_min.1 hmin
          exact ⟨hmax, fun head' heq => ⟨cycle, Option.some.inj heq ▸ hb, hcycle⟩, hes⟩

theorem earliestCycle_eq (hmachine : g.machine = some m) (hm : m.triggerInvalidatesResults = false) (v : N) :
    g.earliestCycle ii (stack + 1) {} v = maxOfBounds (g.edgeEarliest m ii {}) (g.inEdges v) 0 := by
  unfold earliestCycle theMachine
  rw [hmachine]
  simp only [hm, bind, Except.bind, Bool.false_and, Bool.false_eq_true, if_false]
  cases maxOfBounds (g.edgeEarliest m ii {}) (g.inEdges v) 0 with
  | error f => rfl
  | ok c => cases (g.node v).destinationOperation <;> rfl

/-- A move that is placed keeps the distances to the moves around it that have cycles. -/
theorem keeps_of_placed (hmachine : g.machine = some m) (hm : m.triggerInvalidatesResults = false) (hg : g.InRange m ii)
    {cycle : N → Option Int} (hcycle : ∀ v c, cycle v = some c → InSchedule c) {v : N} {c earliest latest : Int}
    (hearliest : (g.place cycle).earliestCycle ii (stack + 1) {} v = .ok earliest) (hle : earliest ≤ c)
    (hlatest : (g.place cycle).latestCycle ii false true v = .ok latest) (hge : c ≤ latest) {e : Edge N} (he : e ∈ g.edges) :
    (∀ tail, e.head = v → cycle e.tail = some tail → Keeps (g.topDownDistance m e) ii e tail c) ∧
      ∀ head, e.tail = v → cycle e.head = some head → Keeps (g.typeDistance m e) ii e c head := by
  constructor
  · intro tail hhead htail
    rw [earliestCycle_eq (g := g.place cycle) hmachine hm] at hearliest
    obtain ⟨b, hb, hbound⟩ := (maxOfBounds_le.1 ⟨earliest, hearliest, hle⟩).2 e (List.mem_filter.2 ⟨he, by simpa using hhead⟩)
    have hscheduled : ((g.place cycle).node e.tail).cycle = some tail := htail
    unfold edgeEarliest at hb
    simp only [Bool.false_and, Bool.false_eq_true, if_false, hscheduled] at hb
    change g.tailBound m ii {} e tail = _ at hb
    cases b with
    | none => exact absurd hb (tailBound_ne_none hm e _)
    | some b => exact (tailBound_iff hm hg he (hcycle _ _ htail) c).1 ⟨b, hb, hbound b rfl⟩
  · intro head htail hhead
    have hloop : (g.place cycle).latestLoop m ii false true ((g.place cycle).outEdges v) intMax = .ok latest := by
      unfold latestCycle theMachine at hlatest
      rwa [show (g.place cycle).machine = some m from hmachine] at hlatest
    obtain ⟨b, hb, hbound⟩ := (latestLoop_le hm hge hloop).2 e (List.mem_filter.2 ⟨he, by simpa using htail⟩) head hhead
    exact (headBound_iff hm hg he (hcycle _ _ hhead) c).1 ⟨b, hb, hbound⟩

end Tce.DDG.DataDependenceGraph
