import Tce.DDG.MoveRuns

/-!
# Guards that exclude each other

Two guards are compared by the moves that define them. That says how their values
relate only when none of these moves is executed from the one guard to the other.
-/

namespace Tce.DDG

open LastWrite

namespace MoveGraph
variable {N : Type} [DecidableEq N] (g : MoveGraph N)

/-- The set of the moves that define the guard of a move. -/
def guardRawPredecessors (n : N) : List N :=
  ((g.inEdges n).filter fun e => e.guardUse && e.dependenceType = .DEP_RAW).map (·.tail)

/-- Equal as sets. -/
def sameNodes (preds preds' : List N) : Bool := preds.all (preds'.contains ·) && preds'.all (preds.contains ·)

def sameDefinitions (n1 n2 : N) : Bool :=
  !(g.guardRawPredecessors n1).isEmpty && sameNodes (g.guardRawPredecessors n1) (g.guardRawPredecessors n2)

def exclusingGuards (n1 n2 : N) : Bool :=
  match g.move n1, g.move n2 with
  | some move1, some move2 =>
    match move1.guard, move2.guard with
    | some mg1, some mg2 => if mg1.isInverted = mg2.isInverted then false else g.sameDefinitions n1 n2
    | _, _ => false
  | _, _ => false

def sameGuards (n1 n2 : N) : Bool :=
  match g.move n1, g.move n2 with
  | some move1, some move2 =>
    match move1.guard, move2.guard with
    | none, none => true
    | some mg1, some mg2 => if mg1.isInverted ≠ mg2.isInverted then false else g.sameDefinitions n1 n2
    | _, _ => false
  | _, _ => false

/-- A guard is on a register, and an edge to it is from a call or from a move to this register. -/
structure HasGuardEdges : Prop where
  register : ∀ n m c, g.move n = some m → m.guard = some c → c.registerName.isSome
  reader : ∀ e ∈ g.edges, e.guardUse = true → e.dependenceType = .DEP_RAW →
    ∃ m c, g.move e.head = some m ∧ m.guard = some c ∧ c.registerName = some e.data
  writer : ∀ e ∈ g.edges, e.guardUse = true → e.dependenceType = .DEP_RAW →
    ∀ m, g.move e.tail = some m → m.isCall = false → m.destination = some e.data

/-- A run goes from one event to the other, over each move at most once. -/
structure Pass (run before between after : List (Event N)) (e1 e2 : Event N) : Prop where
  run : run = before ++ e1 :: (between ++ e2 :: after)
  once : (e1.node :: (between.map (·.node) ++ [e2.node])).Nodup

/-- What the guards of two moves say about a pass from the one to the other. -/
structure GuardsHold (e1 e2 : Event N) : Prop where
  exclusive : g.exclusingGuards e1.node e2.node = true → ¬ (e1.executed = true ∧ e2.executed = true)
  same : g.sameGuards e1.node e2.node = true → (∀ m, g.move e1.node = some m → m.guard ≠ none) →
    e1.executed = e2.executed

/-- The guard of the first move is written in the run before it, and in the pass no move is executed that
defines it. -/
structure GuardKept (before between : List (Event N)) (e1 : Event N) : Prop where
  written : ∀ m c r, g.move e1.node = some m → m.guard = some c → c.registerName = some r →
    ∃ d ∈ before, (g.writes d r).isSome
  kept : ∀ d ∈ e1 :: between, d.node ∈ g.guardRawPredecessors e1.node → d.executed = false
  notCall : ∀ n ∈ g.guardRawPredecessors e1.node, g.isCall n = false

variable {g} {initial : String → BitVec 32} {run before between after : List (Event N)} {e1 e2 : Event N} {n1 n2 n : N}

theorem mem_guardRawPredecessors :
    n ∈ g.guardRawPredecessors n1 ↔
      ∃ e ∈ g.edges, e.guardUse = true ∧ e.dependenceType = .DEP_RAW ∧ e.head = n1 ∧ e.tail = n := by
  simp [guardRawPredecessors, inEdges, and_assoc]

theorem sameDefinitions_iff (h : g.sameDefinitions n1 n2 = true) :
    n ∈ g.guardRawPredecessors n1 ↔ n ∈ g.guardRawPredecessors n2 := by
  simp only [sameDefinitions, sameNodes, Bool.and_eq_true, List.all_eq_true, List.contains_iff_mem] at h
  exact ⟨h.2.1 n, h.2.2 n⟩

omit [DecidableEq N] in
theorem executed_of_isSome {d : Event N} {r : String} (h : (g.writes d r).isSome) : d.executed = true := by
  cases hd : d.executed with
  | true => rfl
  | false => simp [writes, hd] at h

theorem IsReadEdge.mem_guardRawPredecessors {d : Event N} {e : Edge N} (h : g.IsReadEdge d.node n true e) :
    d.node ∈ g.guardRawPredecessors n := by
  obtain ⟨hmem, hhead⟩ := List.mem_filter.1 h.mem
  exact MoveGraph.mem_guardRawPredecessors.2
    ⟨e, hmem, h.guardUse, h.dependenceType, of_decide_eq_true hhead, h.tail⟩

/-- Guards with the same definitions have the same register, when one of these is a move to it. -/
theorem HasGuardEdges.register_eq (h : g.HasGuardEdges) (hsame : g.sameDefinitions n1 n2 = true) {d : Event N}
    {m1 m2 md : Move} {c1 c2 : MoveCondition} {r1 r2 : String}
    (hm1 : g.move n1 = some m1) (hc1 : m1.guard = some c1) (hr1 : c1.registerName = some r1)
    (hm2 : g.move n2 = some m2) (hc2 : m2.guard = some c2) (hr2 : c2.registerName = some r2)
    (hd : d.node ∈ g.guardRawPredecessors n1) (hmd : g.move d.node = some md) (hcall : md.isCall = false) : r1 = r2 := by
  -- the definition is a move to the register of each guard
  have hregister : ∀ n m c r, g.move n = some m → m.guard = some c → c.registerName = some r →
      d.node ∈ g.guardRawPredecessors n → md.destination = some r := by
    intro n m c r hm hc hr hmem
    obtain ⟨e, he, huse, hraw, rfl, htail⟩ := MoveGraph.mem_guardRawPredecessors.1 hmem
    obtain ⟨m', c', hm', hc', hr'⟩ := h.reader e he huse hraw
    obtain rfl := Option.some.inj (hm.symm.trans hm')
    obtain rfl := Option.some.inj (hc.symm.trans hc')
    rw [h.writer e he huse hraw md (htail ▸ hmd) hcall, ← hr', hr]
  have h1 := hregister n1 m1 c1 r1 hm1 hc1 hr1 hd
  have h2 := hregister n2 m2 c2 r2 hm2 hc2 hr2 ((sameDefinitions_iff hsame).1 hd)
  exact Option.some.inj (h1.symm.trans h2)

/-- The guards of a pass in which they are kept read the same value. -/
theorem guards_eq (hgraph : g.HasGuardEdges) (hrun : g.IsRun initial run) (hshows : g.ShowsDependences run)
    (hpass : Pass run before between after e1 e2) (hkept : g.GuardKept before between e1)
    (hsame : g.sameDefinitions e1.node e2.node = true) {m1 m2 : Move} {c1 c2 : MoveCondition}
    (hm1 : g.move e1.node = some m1) (hc1 : m1.guard = some c1)
    (hm2 : g.move e2.node = some m2) (hc2 : m2.guard = some c2) :
    (e1.executed ^^ c1.isInverted) = (e2.executed ^^ c2.isInverted) := by
  have hrun1 := hpass.run
  have hrun2 : run = (before ++ e1 :: between) ++ e2 :: after := by simp [hrun1]
  obtain ⟨m, hexec1⟩ := (hrun1 ▸ hrun).executes
  obtain rfl := Option.some.inj (hm1.symm.trans hexec1.move)
  obtain ⟨m, hexec2⟩ := (hrun2 ▸ hrun).executes
  obtain rfl := Option.some.inj (hm2.symm.trans hexec2.move)
  obtain ⟨r1, hr1⟩ := Option.isSome_iff_exists.1 (hgraph.register _ _ _ hm1 hc1)
  obtain ⟨r2, hr2⟩ := Option.isSome_iff_exists.1 (hgraph.register _ _ _ hm2 hc2)
  obtain ⟨earlier, d, hd⟩ := exists_isLast (hkept.written _ _ _ hm1 hc1 hr1)
  obtain ⟨edge, hedge⟩ := hshows.guard _ _ _ _ _ _ hrun1 hm1 hc1 hr1 earlier d hd
  obtain ⟨later, hlater⟩ : ∃ later, run = earlier ++ d :: later := by
    obtain ⟨-, later, rfl, -⟩ := hd
    exact ⟨later ++ e1 :: (between ++ e2 :: after), by simp [hrun1]⟩
  obtain ⟨md, hmd⟩ := (hlater ▸ hrun).executes
  have hdmem := hedge.mem_guardRawPredecessors
  have hcall : md.isCall = false := by simpa [isCall, hmd.move] using hkept.notCall _ hdmem
  obtain rfl := hgraph.register_eq hsame hm1 hc1 hr1 hm2 hc2 hr2 hdmem hmd.move hcall
  -- a write in the pass would be that of a definition
  have hunwritten : ∀ w ∈ e1 :: between, g.writes w r1 = none := by
    intro w hw
    by_contra hwrites
    obtain ⟨inPass, v, hv, rest, hrest, hnone⟩ := exists_isLast ⟨w, hw, Option.isSome_iff_ne_none.2 hwrites⟩
    have hlast : IsLast g.writes (before ++ e1 :: between) r1 (before ++ inPass) v :=
      ⟨hv, rest, by simp [hrest], hnone⟩
    obtain ⟨edge, hedge⟩ := hshows.guard _ _ _ _ _ _ hrun2 hm2 hc2 hr2 _ v hlast
    have hvmem : v ∈ e1 :: between := by simp [hrest]
    have hvdef := (sameDefinitions_iff hsame).2 hedge.mem_guardRawPredecessors
    have := hkept.kept v hvmem hvdef
    simp [executed_of_isSome hv] at this
  have hstate : stateAfter g.writes initial (before ++ e1 :: between) r1 = stateAfter g.writes initial before r1 :=
    stateAfter_append_of_unwritten hunwritten
  rw [hexec1.guard c1 r1 hc1 hr1, hexec2.guard c2 r1 hc2 hr2, hstate]
  simp

theorem guards_of_exclusingGuards (h : g.exclusingGuards n1 n2 = true) :
    ∃ m1 m2 c1 c2, g.move n1 = some m1 ∧ g.move n2 = some m2 ∧ m1.guard = some c1 ∧ m2.guard = some c2 ∧
      c1.isInverted ≠ c2.isInverted ∧ g.sameDefinitions n1 n2 = true := by
  simp only [exclusingGuards] at h
  split at h
  case h_1 m1 m2 hm1 hm2 =>
    split at h
    case h_1 c1 c2 hc1 hc2 =>
      split at h
      case isTrue => cases h
      case isFalse hne => exact ⟨m1, m2, c1, c2, hm1, hm2, hc1, hc2, hne, h⟩
    case h_2 => cases h
  case h_2 => cases h

theorem guards_of_sameGuards (h : g.sameGuards n1 n2 = true) (hguard : ∀ m, g.move n1 = some m → m.guard ≠ none) :
    ∃ m1 m2 c1 c2, g.move n1 = some m1 ∧ g.move n2 = some m2 ∧ m1.guard = some c1 ∧ m2.guard = some c2 ∧
      c1.isInverted = c2.isInverted ∧ g.sameDefinitions n1 n2 = true := by
  simp only [sameGuards] at h
  split at h
  case h_1 m1 m2 hm1 hm2 =>
    split at h
    case h_1 hc1 _ => exact absurd hc1 (hguard m1 hm1)
    case h_2 c1 c2 hc1 hc2 =>
      split at h
      case isTrue => cases h
      case isFalse heq => exact ⟨m1, m2, c1, c2, hm1, hm2, hc1, hc2, not_not.1 heq, h⟩
    case h_3 => cases h
  case h_2 => cases h

def guardEdge (writer reader loopDepth : Nat) : Edge Nat :=
  ⟨⟨.EDGE_REGISTER, .DEP_RAW, "g", true, false, false, false, loopDepth⟩, writer, reader⟩

/-- `1 -> g` with the moves `?!g 5 -> r1` and `?g 6 -> r1`, the first of them `loopDepth` iterations later. -/
def guardedMoves (loopDepth : Nat) : MoveGraph Nat where
  move
    | 0 => some ⟨.immediate 1, some "g", none, false⟩
    | 1 => some ⟨.immediate 5, some "r1", some ⟨some "g", true⟩, false⟩
    | 2 => some ⟨.immediate 6, some "r1", some ⟨some "g", false⟩, false⟩
    | _ => none
  edges := [guardEdge 0 1 loopDepth, guardEdge 0 2 0]

theorem hasGuardEdges_guardedMoves (loopDepth : Nat) : (guardedMoves loopDepth).HasGuardEdges := by
  refine ⟨fun n m c hm hc => ?_, fun e he _ _ => ?_, fun e he _ _ m hm _ => ?_⟩
  · match n, hm with
    | 0, hm => cases hm; cases hc
    | 1, hm | 2, hm => cases hm; cases hc; rfl
  · simp only [guardedMoves, List.mem_cons, List.not_mem_nil, or_false] at he
    rcases he with rfl | rfl <;> exact ⟨_, _, rfl, rfl, rfl⟩
  · simp only [guardedMoves, List.mem_cons, List.not_mem_nil, or_false] at he
    rcases he with rfl | rfl <;> cases hm <;> rfl

theorem node_of_writes_guard {loopDepth : Nat} {d : Event Nat} (h : ((guardedMoves loopDepth).writes d "g").isSome) :
    d.node = 0 := by
  obtain ⟨node, executed, value, results⟩ := d
  match node, executed with
  | 0, _ => rfl
  | 1, true | 2, true | n + 3, true => simp [writes, guardedMoves] at h
  | 1, false | 2, false | n + 3, false => simp [writes] at h

/-- Only the first move writes a register that is read. -/
theorem showsDependences_guardedMoves (loopDepth : Nat) (run : List (Event Nat)) :
    (guardedMoves loopDepth).ShowsDependences run := by
  refine ⟨fun before e after m r _ hm _ hsource => ?_, fun before e after m c r _ hm hc hr earlier d hd => ?_⟩
  · match e.node, hm with
    | 0, hm | 1, hm | 2, hm => cases hm; cases hsource
  · obtain ⟨node, executed, value, results⟩ := e
    match node, hm with
    | 0, hm =>
      cases hm
      cases hc
    | 1, hm =>
      cases hm
      cases hc
      cases hr
      exact ⟨guardEdge 0 1 loopDepth, by simp [inEdges, guardedMoves, guardEdge], (node_of_writes_guard hd.1).symm,
        rfl, rfl, rfl, rfl, by rw [node_of_writes_guard hd.1]; rfl⟩
    | 2, hm =>
      cases hm
      cases hc
      cases hr
      exact ⟨guardEdge 0 2 0, by simp [inEdges, guardedMoves, guardEdge], (node_of_writes_guard hd.1).symm,
        rfl, rfl, rfl, rfl, by rw [node_of_writes_guard hd.1]; rfl⟩

/-- The moves in a block, after the one that writes the register. -/
def blockRun : List (Event Nat) := [⟨0, true, 1, []⟩, ⟨1, false, 5, []⟩, ⟨2, true, 6, []⟩]

/-- The moves in a loop, around the one that writes the register, in the first iteration. -/
def loopRun : List (Event Nat) := [⟨1, true, 5, []⟩, ⟨0, true, 1, []⟩, ⟨2, true, 6, []⟩]

theorem isRun_blockRun : (guardedMoves 0).IsRun (fun _ => 0) blockRun := by
  refine ⟨⟨_, rfl, ?_, fun c r hc hr => ?_, ?_, ?_⟩, ⟨_, rfl, ?_, fun c r hc hr => ?_, ?_, ?_⟩,
    ⟨_, rfl, ?_, fun c r hc hr => ?_, ?_, ?_⟩, trivial⟩
  case refine_2 => cases hc
  case refine_6 | refine_10 =>
    cases hc
    cases hr
    rfl
  all_goals simp [guardedMoves]

theorem isRun_loopRun : (guardedMoves 1).IsRun (fun _ => 0) loopRun := by
  refine ⟨⟨_, rfl, ?_, fun c r hc hr => ?_, ?_, ?_⟩, ⟨_, rfl, ?_, fun c r hc hr => ?_, ?_, ?_⟩,
    ⟨_, rfl, ?_, fun c r hc hr => ?_, ?_, ?_⟩, trivial⟩
  case refine_6 => cases hc
  case refine_2 | refine_10 =>
    cases hc
    cases hr
    rfl
  all_goals simp [guardedMoves]

theorem guardKept_blockRun : (guardedMoves 0).GuardKept [⟨0, true, 1, []⟩] [] ⟨1, false, 5, []⟩ := by
  refine ⟨fun m c r hm hc hr => ?_, by simp, fun n hn => ?_⟩
  · cases hm
    cases hc
    cases hr
    exact ⟨_, by simp; rfl, rfl⟩
  · obtain rfl : n = 0 := by simpa [guardRawPredecessors, inEdges, guardedMoves, guardEdge] using hn
    rfl

end MoveGraph

end Tce.DDG
