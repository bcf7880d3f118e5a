import Tce.Base.Acyclic
import Tce.DDG.Bypass

/-!
# Edges after bypassing and undoing it

How often each edge is in the graph after a bypass and after it is undone.
-/

namespace Tce.DDG

open EdgeReason DependenceType

namespace BypassGraph
variable {N O : Type} [DecidableEq N] {g : BypassGraph N O}

/-! ## Paths -/

def IsForwardEdge (g : BypassGraph N O) (a b : N) : Prop :=
  ∃ e ∈ g.edges, e.tail = a ∧ e.head = b ∧ e.isBackEdge = false

theorem mem_forwardSuccessors {a b : N} : b ∈ g.forwardSuccessors a ↔ g.IsForwardEdge a b := by
  unfold forwardSuccessors IsForwardEdge
  simp only [List.mem_map, List.mem_filter, decide_eq_true_iff, Bool.not_eq_true]
  constructor
  · rintro ⟨e, ⟨he, htail, hback⟩, hhead⟩
    exact ⟨e, he, htail, hhead, hback⟩
  · rintro ⟨e, he, htail, hhead, hback⟩
    exact ⟨e, ⟨he, htail, hback⟩, hhead⟩

theorem hasPath_iff {a b : N} : g.hasPath a b = true ↔ a = b ∨ Relation.TransGen g.IsForwardEdge a b := by
  have hsuccessor : Search.IsSuccessor g.forwardSuccessors = g.IsForwardEdge := by
    funext a b
    exact propext mem_forwardSuccessors
  unfold hasPath
  rw [Bool.or_eq_true, decide_eq_true_iff, ← hsuccessor,
    Search.search_iff (g.edges.map (·.head)).toFinset]
  · intro a b hb
    obtain ⟨e, he, -, hhead, -⟩ := mem_forwardSuccessors.1 hb
    exact List.mem_toFinset.2 (List.mem_map.2 ⟨e, he, hhead⟩)
  · have := (g.edges.map (·.head)).toFinset_card_le
    rw [List.length_map] at this
    omega

/-! ## Adding edges -/

def rootAdmits (g : BypassGraph N O) (e : Edge N) : Bool := g.rootAllowsLoopEdges || !e.isBackEdge

def admits (g : BypassGraph N O) (e : Edge N) : Bool :=
  g.hasNode e.tail && g.hasNode e.head && (g.allowLoopEdges || !e.isBackEdge)

omit [DecidableEq N] in
theorem foldl_connectNodes (es : List (Edge N)) : ∀ g : BypassGraph N O, es.foldl connectNodes g =
    { g with rootEdges := g.rootEdges ++ es.filter g.rootAdmits, edges := g.edges ++ es.filter g.admits } := by
  induction es with
  | nil =>
    intro g
    simp
  | cons e es ih =>
    intro g
    rw [List.foldl_cons, ih]
    unfold connectNodes connectRoot connectThis rootAdmits admits
    dsimp only
    congr 1
    · rw [List.filter_cons]
      split <;> simp
    · rw [List.filter_cons]
      split <;> simp

omit [DecidableEq N] in
theorem connectNodes_eq (g : BypassGraph N O) (e : Edge N) : g.connectNodes e =
    { g with rootEdges := g.rootEdges ++ [e].filter g.rootAdmits, edges := g.edges ++ [e].filter g.admits } :=
  foldl_connectNodes [e] g

/-- An edge into the source, at the user. -/
def toUser (user : N) (e : Edge N) : Edge N := { e with head := user }

/-- An edge from the source, at the user. -/
def fromUser (user : N) (e : Edge N) : Edge N := { e with tail := user }

/-- A graph admits a copied edge if it is not a loop edge that only its root graph gets. -/
def admitsCopy (g : BypassGraph N O) (e : Edge N) : Bool := !(!g.isRoot && e.isBackEdge) && g.admits e

omit [DecidableEq N] in
theorem copyInEdge_eq (user : N) (g : BypassGraph N O) (e : Edge N) : copyInEdge user g e =
    { g with
      rootEdges := g.rootEdges ++ [toUser user e].filter g.rootAdmits
      edges := g.edges ++ [toUser user e].filter g.admitsCopy } := by
  have hroot : g.connectRoot (toUser user e) = g.rootEdges ++ [toUser user e].filter g.rootAdmits := by
    unfold connectRoot rootAdmits
    rw [List.filter_cons]
    split <;> simp
  have hthis : g.connectThis (toUser user e) = g.edges ++ [toUser user e].filter g.admits := by
    unfold connectThis admits
    rw [List.filter_cons]
    split <;> simp
  have hback : (toUser user e).isBackEdge = e.isBackEdge := rfl
  unfold copyInEdge
  split
  · next h =>
    change { g with rootEdges := g.connectRoot (toUser user e) } = _
    have hcopy : g.admitsCopy (toUser user e) = false := by
      unfold admitsCopy
      rw [hback, h]
      rfl
    rw [hroot, List.filter_cons_of_neg (p := g.admitsCopy) (by rw [hcopy]; exact Bool.false_ne_true), List.filter_nil,
      List.append_nil]
  · next h =>
    change { g with rootEdges := g.connectRoot (toUser user e), edges := g.connectThis (toUser user e) } = _
    have hcopy : [toUser user e].filter g.admitsCopy = [toUser user e].filter g.admits := by
      apply List.filter_congr
      intro e' he'
      rw [List.mem_singleton.1 he']
      unfold admitsCopy
      rw [hback, Bool.eq_false_iff.2 h]
      rfl
    rw [hroot, hthis, hcopy]

omit [DecidableEq N] in
theorem foldl_copyInEdge (user : N) (es : List (Edge N)) : ∀ g : BypassGraph N O, es.foldl (copyInEdge user) g =
    { g with
      rootEdges := g.rootEdges ++ (es.map (toUser user)).filter g.rootAdmits
      edges := g.edges ++ (es.map (toUser user)).filter g.admitsCopy } := by
  induction es with
  | nil =>
    intro g
    simp
  | cons e es ih =>
    intro g
    rw [List.foldl_cons, ih, copyInEdge_eq]
    have hsplit : ∀ p : Edge N → Bool, ((e :: es).map (toUser user)).filter p =
        [toUser user e].filter p ++ (es.map (toUser user)).filter p := by
      intro p
      rw [← List.filter_append]
      rfl
    rw [hsplit, hsplit, ← List.append_assoc, ← List.append_assoc]
    rfl

/-! ## Edges after a bypass -/

/-- The graph is what it is taken for: a subgraph has edges of its root graph,
and all of them between its nodes that do not go over a loop. -/
structure IsDependenceGraph (g : BypassGraph N O) : Prop where
  sub : ∀ e, g.edges.count e ≤ g.rootEdges.count e
  admitted : ∀ e ∈ g.edges, g.admits e = true
  inner : ∀ e, g.hasNode e.tail = true → g.hasNode e.head = true → e.isBackEdge = false →
    g.rootEdges.count e ≤ g.edges.count e
  rootAdmitted : ∀ e ∈ g.rootEdges, g.rootAdmits e = true
  loops : g.allowLoopEdges = true → g.rootAllowsLoopEdges = true
  /-- Guards are read from registers. -/
  guardUse : ∀ e ∈ g.rootEdges, e.guardUse = true → e.edgeReason = EDGE_REGISTER
  named : ∀ e ∈ g.rootEdges, e.edgeReason = EDGE_REGISTER → e.data ≠ ""
  loopDepth : ∀ e ∈ g.rootEdges, e.loopDepth < 255

/-- The one dependence through which the user reads the register of the source. -/
structure Joined (g : BypassGraph N O) (source user : N) (raw : Edge N) : Prop where
  ne : source ≠ user
  sourceMove : (g.node source).isMove = true
  userMove : (g.node user).isMove = true
  only : g.edges.filter (joins source user) = [raw]
  register : raw.edgeReason = EDGE_REGISTER

/-- The copies of the edges into the source. -/
def copies (g : BypassGraph N O) (source user : N) (regName : String) : List (Edge N) :=
  (g.rootEdges.filter fun e => e.head = source && !isBypassedAntidependence regName e).map (toUser user)

/-- The copies of the antidependences from the source. -/
def copiedAntidependences (g : BypassGraph N O) (source user : N) : List (Edge N) :=
  if (g.node source).isSourceVariable then (g.readAntidependences source user).map (fromUser user) else []

theorem count_diff_filter (es es' : List (Edge N)) (p : Edge N → Bool) (e : Edge N) :
    (es.diff (es'.filter p)).count e = es.count e - if p e then es'.count e else 0 := by
  rw [List.count_diff]
  congr 1
  split
  · next h => exact List.count_filter h
  · next h =>
    rw [List.count_eq_zero]
    exact fun he => h (List.mem_filter.1 he).2

theorem count_singleton_ite (e e' : Edge N) : [e].count e' = if e' = e then 1 else 0 := by
  by_cases h : e' = e
  · rw [h, if_pos rfl, List.count_singleton_self]
  · rw [if_neg h, List.count_eq_zero, List.mem_singleton]
    exact h

theorem count_filter_ite (es : List (Edge N)) (p : Edge N → Bool) (e : Edge N) :
    (es.filter p).count e = if p e then es.count e else 0 := by
  split
  · next h => exact List.count_filter h
  · next h =>
    rw [List.count_eq_zero]
    exact fun he => h (List.mem_filter.1 he).2

theorem count_filter_not (es : List (Edge N)) (p : Edge N → Bool) (e : Edge N) :
    (es.filter fun e => !p e).count e = if p e then 0 else es.count e := by
  rw [count_filter_ite]
  cases p e <;> rfl

/-! ## Guards -/

/-- Guards are exclusive or not whatever the other edges are. -/
theorem exclusingGuards_congr {g' : BypassGraph N O} (es es' : List (Edge N))
    (hnode : ∀ n, (g'.node n).isMove = (g.node n).isMove ∧ (g'.node n).guard = (g.node n).guard)
    (hedges : ∀ e : Edge N, e.guardUse = true → e.dependenceType = DEP_RAW → (e ∈ es' ↔ e ∈ es)) (a b : N) :
    g'.exclusingGuards es' a b = g.exclusingGuards es a b := by
  have hmem : ∀ n m, m ∈ guardRawPredecessors es' n ↔ m ∈ guardRawPredecessors es n := by
    intro n m
    unfold guardRawPredecessors
    simp only [List.mem_map, List.mem_filter, decide_eq_true_iff]
    constructor
    · rintro ⟨e, ⟨he, hhead, huse, hraw⟩, htail⟩
      exact ⟨e, ⟨(hedges e huse hraw).1 he, hhead, huse, hraw⟩, htail⟩
    · rintro ⟨e, ⟨he, hhead, huse, hraw⟩, htail⟩
      exact ⟨e, ⟨(hedges e huse hraw).2 he, hhead, huse, hraw⟩, htail⟩
  have hempty : ∀ n, (guardRawPredecessors es' n).isEmpty = (guardRawPredecessors es n).isEmpty := by
    intro n
    rw [Bool.eq_iff_iff, List.isEmpty_iff, List.isEmpty_iff, List.eq_nil_iff_forall_not_mem,
      List.eq_nil_iff_forall_not_mem]
    simp only [hmem]
  have hall : ∀ n n', (guardRawPredecessors es' n).all ((guardRawPredecessors es' n').contains ·) =
      (guardRawPredecessors es n).all ((guardRawPredecessors es n').contains ·) := by
    intro n n'
    rw [Bool.eq_iff_iff, List.all_eq_true, List.all_eq_true]
    simp only [List.contains_iff_mem, hmem]
  unfold exclusingGuards
  rw [(hnode a).1, (hnode b).1, (hnode a).2, (hnode b).2]
  dsimp only
  rw [hempty, hall, hall]

/-! ## Setting the source -/

section setSource
variable [DecidableEq O]

@[simp] theorem setSource_edges (g : BypassGraph N O) (source user : N) :
    (g.setSource source user).edges = g.edges := by
  unfold setSource
  split <;> rfl

@[simp] theorem setSource_rootEdges (g : BypassGraph N O) (source user : N) :
    (g.setSource source user).rootEdges = g.rootEdges := by
  unfold setSource
  split <;> rfl

theorem setSource_admits (g : BypassGraph N O) (source user : N) :
    (g.setSource source user).rootAdmits = g.rootAdmits ∧ (g.setSource source user).admits = g.admits ∧
      (g.setSource source user).admitsCopy = g.admitsCopy := by
  unfold setSource
  split <;> exact ⟨rfl, rfl, rfl⟩

/-- Only the source and the operation of the user are set. -/
theorem setSource_node (g : BypassGraph N O) (source user n : N) :
    ((g.setSource source user).node n).isMove = (g.node n).isMove ∧
      ((g.setSource source user).node n).guard = (g.node n).guard ∧
      ((g.setSource source user).node n).destination = (g.node n).destination := by
  unfold setSource
  split
  · dsimp only
    by_cases hn : n = user
    · subst hn
      rw [Function.update_self]
      exact ⟨rfl, rfl, rfl⟩
    · rw [Function.update_of_ne hn]
      exact ⟨rfl, rfl, rfl⟩
  · dsimp only
    by_cases hn : n = user
    · subst hn
      rw [Function.update_self]
      exact ⟨rfl, rfl, rfl⟩
    · rw [Function.update_of_ne hn]
      exact ⟨rfl, rfl, rfl⟩

theorem setSource_source {source user : N} (hne : source ≠ user) :
    (g.setSource source user).node source = g.node source := by
  unfold setSource
  split <;> exact Function.update_of_ne hne _ _

end setSource

/-! ## Counting edges after a bypass -/

section bypass
variable {source user : N} {raw : Edge N}

theorem Joined.mem (hj : g.Joined source user raw) : raw ∈ g.edges ∧ joins source user raw = true := by
  have hmem : raw ∈ g.edges.filter (joins source user) := hj.only ▸ List.mem_cons_self
  exact List.mem_filter.1 hmem

theorem joins_iff {e : Edge N} :
    joins source user e = true ↔ e.tail = source ∧ e.head = user ∧ e.dependenceType = DEP_RAW := by
  unfold joins
  simp only [Bool.and_eq_true, decide_eq_true_iff, and_assoc]

theorem Joined.ends (hj : g.Joined source user raw) : raw.tail = source ∧ raw.head = user ∧ raw.dependenceType = DEP_RAW :=
  joins_iff.1 hj.mem.2

theorem IsDependenceGraph.mem_root (hg : g.IsDependenceGraph) {e : Edge N} (he : e ∈ g.edges) : e ∈ g.rootEdges :=
  List.count_pos_iff.1 (Nat.lt_of_lt_of_le (List.count_pos_iff.2 he) (hg.sub e))

theorem IsDependenceGraph.rootAdmits_of_admits (hg : g.IsDependenceGraph) {e : Edge N} (he : g.admits e = true) :
    g.rootAdmits e = true := by
  unfold admits at he
  unfold rootAdmits
  rw [Bool.and_eq_true, Bool.or_eq_true] at he
  rw [Bool.or_eq_true]
  exact he.2.imp_left hg.loops

theorem mem_copies {regName : String} {e : Edge N} : e ∈ g.copies source user regName ↔
    ∃ e' ∈ g.rootEdges, e'.head = source ∧ isBypassedAntidependence regName e' = false ∧ toUser user e' = e := by
  unfold copies
  simp only [List.mem_map, List.mem_filter, Bool.and_eq_true, decide_eq_true_iff, Bool.not_eq_true', and_assoc]

theorem head_of_mem_copies {regName : String} {e : Edge N} (he : e ∈ g.copies source user regName) : e.head = user := by
  obtain ⟨e', -, -, -, rfl⟩ := mem_copies.1 he
  rfl

theorem copyInEdges_eq (g : BypassGraph N O) (source user : N) (regName : String) : g.copyInEdges source user regName =
    { g with
      rootEdges := g.rootEdges ++ (g.copies source user regName).filter g.rootAdmits
      edges := g.edges ++ (g.copies source user regName).filter g.admitsCopy } := foldl_copyInEdge user _ g

variable [DecidableEq O]

/-- The graph with the copies of the edges into the source. -/
def withCopies (g : BypassGraph N O) (source user : N) (regName : String) : BypassGraph N O :=
  ((g.setSource source user).removeEdges (joins source user)).copyInEdges source user regName

theorem count_withCopies (hg : g.IsDependenceGraph) (hj : g.Joined source user raw) (regName : String) (e : Edge N) :
    (g.withCopies source user regName).rootEdges.count e = g.rootEdges.count e - (if e = raw then 1 else 0) +
      (g.copies source user regName).count e ∧
    (g.withCopies source user regName).edges.count e = (if joins source user e then 0 else g.edges.count e) +
      ((g.copies source user regName).filter g.admitsCopy).count e := by
  have hroot : ((g.setSource source user).removeEdges (joins source user)).rootEdges = g.rootEdges.diff [raw] := by
    unfold removeEdges
    dsimp only
    rw [setSource_edges, setSource_rootEdges, hj.only]
  have hthis : ((g.setSource source user).removeEdges (joins source user)).edges =
      g.edges.filter (!joins source user ·) := by
    unfold removeEdges
    dsimp only
    rw [setSource_edges]
  have hcopies : (((g.setSource source user).removeEdges (joins source user)).copies source user regName).Perm
      (g.copies source user regName) := by
    unfold copies
    rw [hroot]
    apply List.Perm.map
    rw [List.perm_iff_count]
    intro e
    rw [count_filter_ite, count_filter_ite]
    split
    · next h =>
      have hne : e ≠ raw := by
        rintro rfl
        rw [Bool.and_eq_true, decide_eq_true_iff, hj.ends.2.1] at h
        exact hj.ne h.1.symm
      rw [List.count_diff, count_singleton_ite, if_neg hne, Nat.sub_zero]
    · rfl
  have hadmits : (g.copies source user regName).filter g.rootAdmits = g.copies source user regName := by
    rw [List.filter_eq_self]
    intro e he
    obtain ⟨e', he', -, -, rfl⟩ := mem_copies.1 he
    exact hg.rootAdmitted e' he'
  unfold withCopies
  rw [copyInEdges_eq]
  dsimp only
  have hsame := setSource_admits g source user
  have hrootAdmits : ((g.setSource source user).removeEdges (joins source user)).rootAdmits = g.rootAdmits := hsame.1
  have hadmitsCopy : ((g.setSource source user).removeEdges (joins source user)).admitsCopy = g.admitsCopy := hsame.2.2
  rw [hrootAdmits, hadmitsCopy]
  constructor
  · rw [List.count_append, (hcopies.filter _).count_eq, hadmits, hroot, List.count_diff, count_singleton_ite]
  · rw [List.count_append, (hcopies.filter _).count_eq, hthis, count_filter_ite]
    cases joins source user e <;> rfl

theorem withCopies_node (g : BypassGraph N O) (source user n : N) (regName : String) :
    (g.withCopies source user regName).node n = (g.setSource source user).node n := by
  unfold withCopies
  rw [copyInEdges_eq]
  rfl

theorem withCopies_admits (g : BypassGraph N O) (source user : N) (regName : String) :
    (g.withCopies source user regName).rootAdmits = g.rootAdmits ∧
      (g.withCopies source user regName).admits = g.admits := by
  have hsame := setSource_admits g source user
  unfold withCopies
  rw [copyInEdges_eq]
  exact ⟨hsame.1, hsame.2.1⟩

/-- Antidependences are copied from edges that were there before. -/
theorem mem_copiedAntidependences (hg : g.IsDependenceGraph) (hj : g.Joined source user raw) {regName : String}
    {e : Edge N} : e ∈ (g.withCopies source user regName).copiedAntidependences source user ↔
      (g.node source).isSourceVariable = true ∧ ∃ e' ∈ g.edges, e'.tail = source ∧ e'.head ≠ user ∧
        e'.edgeReason = EDGE_REGISTER ∧ e'.dependenceType = DEP_WAR ∧ e'.tailPseudo = false ∧
        (g.withCopies source user regName).exclusingGuards (g.withCopies source user regName).edges user e'.head = false ∧
        fromUser user e' = e := by
  have hnode : (g.withCopies source user regName).node source = g.node source := by
    rw [withCopies_node, setSource_source hj.ne]
  have hmem : ∀ e', e'.head ≠ user → e'.dependenceType = DEP_WAR →
      (e' ∈ (g.withCopies source user regName).edges ↔ e' ∈ g.edges) := by
    intro e' hhead hwar
    have hjoins : joins source user e' = false := by
      rw [← Bool.not_eq_true, joins_iff]
      exact fun h => hhead h.2.1
    have hcopies : ((g.copies source user regName).filter g.admitsCopy).count e' = 0 := by
      rw [List.count_eq_zero]
      exact fun h => hhead (head_of_mem_copies (List.mem_filter.1 h).1)
    rw [← List.count_pos_iff, (count_withCopies hg hj regName e').2, hcopies, hjoins, ← List.count_pos_iff]
    rfl
  unfold copiedAntidependences
  rw [hnode]
  split
  · next hvar =>
    unfold readAntidependences
    simp only [hvar, List.mem_map, List.mem_filter, Bool.and_eq_true, decide_eq_true_iff, Bool.not_eq_true', true_and]
    constructor
    · rintro ⟨e', ⟨he', htail, ⟨⟨⟨hreg, hwar⟩, hpseudo⟩, hguards⟩, hhead⟩, rfl⟩
      exact ⟨e', (hmem e' hhead hwar).1 he', htail, hhead, hreg, hwar, hpseudo, hguards, rfl⟩
    · rintro ⟨e', he', htail, hhead, hreg, hwar, hpseudo, hguards, rfl⟩
      exact ⟨e', ⟨(hmem e' hhead hwar).2 he', htail, ⟨⟨⟨hreg, hwar⟩, hpseudo⟩, hguards⟩, hhead⟩, rfl⟩
  · next hvar => simp [hvar]

omit [DecidableEq O] in
theorem copyAntidependences_eq (g : BypassGraph N O) (source user : N) : g.copyAntidependences source user =
    { g with
      rootEdges := g.rootEdges ++ (g.copiedAntidependences source user).filter g.rootAdmits
      edges := g.edges ++ (g.copiedAntidependences source user).filter g.admits } := by
  unfold copyAntidependences copiedAntidependences
  split
  · rw [← foldl_connectNodes, List.foldl_map]
    rfl
  · simp

theorem admits_copiedAntidependences (hg : g.IsDependenceGraph) (hj : g.Joined source user raw) {regName : String}
    {e : Edge N} (he : e ∈ (g.withCopies source user regName).copiedAntidependences source user) :
    g.rootAdmits e = true ∧ g.admits e = true := by
  obtain ⟨-, e', he', -, -, -, -, -, -, rfl⟩ := (mem_copiedAntidependences hg hj).1 he
  refine ⟨hg.rootAdmitted e' (hg.mem_root he'), ?_⟩
  have hraw := hg.admitted raw hj.mem.1
  have hadmits := hg.admitted e' he'
  unfold admits at hraw hadmits ⊢
  rw [Bool.and_eq_true, Bool.and_eq_true] at hraw hadmits ⊢
  exact ⟨⟨hj.ends.2.1 ▸ hraw.1.2, hadmits.1.2⟩, hadmits.2⟩

omit [DecidableEq O] in
theorem isRegisterWar_iff {regName : String} {e : Edge N} : isRegisterWar user regName e = true ↔
    e.tail = user ∧ e.edgeReason = EDGE_REGISTER ∧ e.dependenceType = DEP_WAR ∧ e.data = regName := by
  unfold isRegisterWar
  simp only [Bool.and_eq_true, decide_eq_true_iff, and_assoc]

omit [DecidableEq O] in
/-- No antidependence of the bypassed register is copied to the user. -/
theorem not_mem_copies_of_isRegisterWar {regName : String} {e : Edge N}
    (h : isRegisterWar user regName e = true) : e ∉ g.copies source user regName := by
  intro he
  obtain ⟨e', -, -, hnot, rfl⟩ := mem_copies.1 he
  obtain ⟨-, hreg, hwar, hdata⟩ := isRegisterWar_iff.1 h
  change e'.edgeReason = _ at hreg
  change e'.dependenceType = _ at hwar
  change e'.data = _ at hdata
  unfold isBypassedAntidependence at hnot
  rw [hreg, hwar, hdata] at hnot
  simp at hnot

/-- What a bypass does to the edges. -/
theorem count_bypass (hg : g.IsDependenceGraph) (hj : g.Joined source user raw) (e : Edge N) :
    (g.bypass source user raw.data).rootEdges.count e =
      g.rootEdges.count e - (if e = raw then 1 else 0) + (g.copies source user raw.data).count e +
        ((g.withCopies source user raw.data).copiedAntidependences source user).count e -
        (if !g.sourceIsRegToItselfCopy source && isRegisterWar user raw.data e then g.edges.count e +
          ((g.withCopies source user raw.data).copiedAntidependences source user).count e else 0) ∧
    (g.bypass source user raw.data).edges.count e =
      if !g.sourceIsRegToItselfCopy source && isRegisterWar user raw.data e then 0
      else (if joins source user e then 0 else g.edges.count e) +
        ((g.copies source user raw.data).filter g.admitsCopy).count e +
        ((g.withCopies source user raw.data).copiedAntidependences source user).count e := by
  obtain ⟨hroot, hthis⟩ := count_withCopies hg hj raw.data e
  have hnode : (g.withCopies source user raw.data).node source = g.node source := by
    rw [withCopies_node, setSource_source hj.ne]
  have hadmits := withCopies_admits g source user raw.data
  have hall : ∀ e ∈ (g.withCopies source user raw.data).copiedAntidependences source user, _ :=
    fun e he => admits_copiedAntidependences hg hj he
  have hbypass : g.bypass source user raw.data =
      ((g.withCopies source user raw.data).copyAntidependences source user).removeRegisterWars source user raw.data := rfl
  rw [hbypass, copyAntidependences_eq, hadmits.1, hadmits.2, List.filter_eq_self.2 fun e he => (hall e he).1,
    List.filter_eq_self.2 fun e he => (hall e he).2]
  generalize (g.withCopies source user raw.data).copiedAntidependences source user = antis
  have hself : sourceIsRegToItselfCopy { g.withCopies source user raw.data with
      rootEdges := (g.withCopies source user raw.data).rootEdges ++ antis
      edges := (g.withCopies source user raw.data).edges ++ antis } source = g.sourceIsRegToItselfCopy source := by
    unfold sourceIsRegToItselfCopy
    dsimp only
    rw [hnode]
  unfold removeRegisterWars
  rw [hself]
  cases g.sourceIsRegToItselfCopy source with
  | true =>
    simp only [Bool.not_true, Bool.false_and, Bool.false_eq_true, if_false, if_true, Nat.sub_zero]
    rw [List.count_append, List.count_append, hroot, hthis]
    exact ⟨rfl, rfl⟩
  | false =>
    simp only [Bool.not_false, Bool.true_and, Bool.false_eq_true, if_false]
    unfold removeEdges
    dsimp only
    rw [count_diff_filter, count_filter_ite, List.count_append, List.count_append, hroot, hthis]
    by_cases hwar : isRegisterWar user raw.data e = true
    · have hcopies : ((g.copies source user raw.data).filter g.admitsCopy).count e = 0 := by
        rw [List.count_eq_zero]
        exact fun h => not_mem_copies_of_isRegisterWar hwar (List.mem_filter.1 h).1
      have hjoins : joins source user e = false := by
        rw [← Bool.not_eq_true, joins_iff, (isRegisterWar_iff.1 hwar).2.2.1]
        exact fun h => by cases h.2.2
      rw [hcopies, hjoins, hwar]
      exact ⟨rfl, rfl⟩
    · rw [Bool.not_eq_true] at hwar
      rw [hwar]
      exact ⟨rfl, rfl⟩

end bypass

/-! ## Counting edges when a bypass is undone -/

section undo
variable {source merged : N}

omit [DecidableEq N] in
theorem isBackEdge_registerEdge (source merged : N) (regName : String) :
    (registerEdge source merged regName).isBackEdge = false := rfl

variable [DecidableEq O]

@[simp] theorem unsetSourceOperation_edges (g : BypassGraph N O) (merged : N) :
    (g.unsetSourceOperation merged).edges = g.edges ∧ (g.unsetSourceOperation merged).rootEdges = g.rootEdges := by
  unfold unsetSourceOperation
  split <;> exact ⟨rfl, rfl⟩

theorem unsetSourceOperation_admits (g : BypassGraph N O) (merged : N) :
    (g.unsetSourceOperation merged).rootAdmits = g.rootAdmits ∧ (g.unsetSourceOperation merged).admits = g.admits := by
  unfold unsetSourceOperation
  split <;> exact ⟨rfl, rfl⟩

theorem unsetSourceOperation_node {n : N} (hne : n ≠ merged) :
    (g.unsetSourceOperation merged).node n = g.node n := by
  unfold unsetSourceOperation
  split
  · exact Function.update_of_ne hne _ _
  · rfl

theorem unsetSourceOperation_merged (hmove : (g.node merged).isMove = true) :
    (g.unsetSourceOperation merged).node merged = { g.node merged with sourceOperation := none } := by
  unfold unsetSourceOperation BypassNode.isSourceOperation
  cases hop : (g.node merged).sourceOperation with
  | none =>
    rw [Option.isSome_none, Bool.and_false]
    dsimp only
    rw [← hop]
  | some srcOp =>
    rw [hmove, Option.isSome_some]
    exact Function.update_self _ _ _

/-- The user reads the register of the source, without an operation. -/
theorem returnSource_node (hne : source ≠ merged) (hmove : (g.node merged).isMove = true) (regName : String) (n : N) :
    (g.returnSource source merged regName).node n =
      if n = merged then { g.node merged with source := (g.node source).destination, sourceOperation := none }
      else g.node n := by
  have hnode : (g.returnSource source merged regName).node =
      Function.update (g.unsetSourceOperation merged).node merged
        { (g.unsetSourceOperation merged).node merged with
          source := ((g.unsetSourceOperation merged).node source).destination } := by
    unfold returnSource removeCopiedWars
    dsimp only
    split <;> rfl
  rw [hnode, unsetSourceOperation_merged hmove, unsetSourceOperation_node hne]
  by_cases hn : n = merged
  · rw [if_pos hn, hn, Function.update_self]
  · rw [if_neg hn, Function.update_of_ne hn, unsetSourceOperation_node hn]

theorem returnSource_admits (g : BypassGraph N O) (source merged : N) (regName : String) :
    (g.returnSource source merged regName).rootAdmits = g.rootAdmits ∧
      (g.returnSource source merged regName).admits = g.admits := by
  have hsame := unsetSourceOperation_admits g merged
  unfold returnSource removeCopiedWars
  dsimp only
  split <;> exact hsame

theorem count_returnSource (hne : source ≠ merged) (regName : String) (e : Edge N) :
    (g.returnSource source merged regName).rootEdges.count e =
      (if (g.node source).isSourceVariable && (e.tail = merged && isCopiedWar regName e) then 0
      else (if e.head = merged && isCopied e then 0 else g.rootEdges.count e) +
        if e = registerEdge source merged regName then 1 else 0) ∧
    (g.returnSource source merged regName).edges.count e =
      if (g.node source).isSourceVariable && (e.tail = merged && isCopiedWar regName e) then 0
      else (if e.head = merged && isCopied e then 0 else g.edges.count e) +
        if e = registerEdge source merged regName && g.admits e then 1 else 0 := by
  obtain ⟨hedges, hrootEdges⟩ := unsetSourceOperation_edges g merged
  obtain ⟨hrootAdmits, hadmits⟩ := unsetSourceOperation_admits g merged
  -- the graph before the antidependences of the source are removed
  have hconnect : ((((g.unsetSourceOperation merged).removeRootEdges fun e => e.head = merged && isCopied e).resetSource
      source merged).connectNodes (registerEdge source merged regName)).rootEdges.count e =
      (if e.head = merged && isCopied e then 0 else g.rootEdges.count e) +
        (if e = registerEdge source merged regName then 1 else 0) ∧
      ((((g.unsetSourceOperation merged).removeRootEdges fun e => e.head = merged && isCopied e).resetSource
        source merged).connectNodes (registerEdge source merged regName)).edges.count e =
      (if e.head = merged && isCopied e then 0 else g.edges.count e) +
        if e = registerEdge source merged regName && g.admits e then 1 else 0 := by
    rw [connectNodes_eq]
    change ((g.unsetSourceOperation merged).rootEdges.filter _ ++
      [_].filter (g.unsetSourceOperation merged).rootAdmits).count e = _ ∧
      ((g.unsetSourceOperation merged).edges.filter _ ++ [_].filter (g.unsetSourceOperation merged).admits).count e = _
    rw [hedges, hrootEdges, hrootAdmits, hadmits, List.count_append, List.count_append, count_filter_not,
      count_filter_not, count_filter_ite, count_filter_ite, count_singleton_ite]
    constructor
    · congr 1
      · by_cases he : e = registerEdge source merged regName
        · have hadmit : g.rootAdmits e = true := by
            unfold rootAdmits
            rw [he, isBackEdge_registerEdge, Bool.not_false, Bool.or_true]
          rw [if_pos hadmit]
        · rw [if_neg he, ite_self]
    · congr 1
      · by_cases he : e = registerEdge source merged regName
        · rw [if_pos he, decide_eq_true he, Bool.true_and]
        · rw [if_neg he, ite_self, decide_eq_false he, Bool.false_and]
          rfl
  have hvariable : ((((g.unsetSourceOperation merged).removeRootEdges fun e => e.head = merged && isCopied e).resetSource
      source merged).connectNodes (registerEdge source merged regName)).node source = g.node source := by
    rw [connectNodes_eq]
    exact (Function.update_of_ne hne _ _).trans (unsetSourceOperation_node hne)
  unfold returnSource
  dsimp only
  generalize (((g.unsetSourceOperation merged).removeRootEdges fun e => e.head = merged && isCopied e).resetSource
    source merged).connectNodes (registerEdge source merged regName) = g' at *
  unfold removeCopiedWars
  rw [hvariable]
  cases (g.node source).isSourceVariable with
  | false => exact hconnect
  | true =>
    simp only [if_true, Bool.true_and]
    unfold removeRootEdges
    dsimp only
    rw [count_filter_not, count_filter_not, hconnect.1, hconnect.2]
    exact ⟨rfl, rfl⟩

end undo

end BypassGraph

end Tce.DDG
