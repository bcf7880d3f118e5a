import Tce.Base.Acyclic
import Tce.DDG.GuardExclusion

/-!
# Antidependences between scheduled moves

Moves that are scheduled get antidependences in the order of their cycles. In a
cycle all reads come before the writes.
-/

namespace Tce.DDG

open Relation

namespace MoveGraph
variable {N : Type} [LinearOrder N]

/-- The edge is there already, whatever loop it goes over. -/
def hasEqualEdge (g : MoveGraph N) (e : Edge N) : Bool :=
  g.edges.any fun e' => decide ({ e' with loopDepth := 0 } = { e with loopDepth := 0 })

def connectOrDeleteEdge (g : MoveGraph N) (e : Edge N) : MoveGraph N :=
  if g.hasEqualEdge e then g else { g with edges := g.edges ++ [e] }

def antidependence (dependenceType : DependenceType) (reg : String) (tail head : N) : Edge N where
  edgeReason := .EDGE_REGISTER
  dependenceType := dependenceType
  data := reg
  guardUse := false
  certainAlias := false
  tailPseudo := false
  headPseudo := false
  loopDepth := 0
  tail := tail
  head := head

def connectPrevious (dependenceType : DependenceType) (reg : String) (mn : N) (g : MoveGraph N) (prevMNs : List N) :
    MoveGraph N :=
  prevMNs.foldl (fun g prevMN =>
    if g.exclusingGuards prevMN mn then g else g.connectOrDeleteEdge (antidependence dependenceType reg prevMN mn)) g

/-- A set of nodes, in the order of their identifiers. -/
abbrev NodeSet (N : Type) := List N

def insertNode (mn : N) (nodes : NodeSet N) : NodeSet N :=
  if mn ∈ nodes then nodes else nodes.orderedInsert (· ≤ ·) mn

/-- The graph, with the reads and writes of each register that later writes depend on. -/
structure Accesses (N : Type) where
  graph : MoveGraph N
  reads : String → NodeSet N
  writes : String → NodeSet N

def sourceRegister (g : MoveGraph N) (mn : N) : Option String :=
  match g.move mn with
  | some { source := .GPR reg, .. } => some reg
  | _ => none

def destinationRegister (g : MoveGraph N) (mn : N) : Option String := (g.move mn).bind (·.destination)

def isUnconditional (g : MoveGraph N) (mn : N) : Bool := (g.move mn).all (·.guard.isNone)

namespace Accesses

def read (s : Accesses N) (mn : N) : Accesses N :=
  match s.graph.sourceRegister mn with
  | some reg => { s with reads := Function.update s.reads reg (insertNode mn (s.reads reg)) }
  | none => s

def connect (s : Accesses N) (reg : String) (mn : N) : MoveGraph N :=
  connectPrevious .DEP_WAW reg mn (connectPrevious .DEP_WAR reg mn s.graph (s.reads reg)) (s.writes reg)

/-- An unconditional write kills what was in the register. -/
def write (s : Accesses N) (mn : N) : Accesses N :=
  match s.graph.destinationRegister mn with
  | some reg =>
    if s.graph.isUnconditional mn then
      { graph := s.connect reg mn
        reads := Function.update s.reads reg []
        writes := Function.update s.writes reg [mn] }
    else
      { graph := s.connect reg mn
        reads := s.reads
        writes := Function.update s.writes reg (insertNode mn (s.writes reg)) }
  | none => s

/-- Checks the sources of all nodes in a cycle, then the destinations. -/
def checkCycle (s : Accesses N) (nodesInCycle : NodeSet N) : Accesses N :=
  nodesInCycle.foldl write (nodesInCycle.foldl read s)

end Accesses

/-- The cycles that nodes are in, in order. -/
def cyclesOf (cycle : N → Int) (nodes : NodeSet N) : List Int := (nodes.map cycle).dedup.insertionSort (· ≤ ·)

def movesInCycle (cycle : N → Int) (nodes : NodeSet N) (c : Int) : NodeSet N := nodes.filter fun mn => cycle mn = c

def createRegisterAntiDependenciesBetweenNodes (g : MoveGraph N) (cycle : N → Int) (nodes : NodeSet N) : MoveGraph N :=
  (((cyclesOf cycle nodes).map (movesInCycle cycle nodes)).foldl Accesses.checkCycle ⟨g, fun _ => [], fun _ => []⟩).graph

/-! ## The order of the accesses -/

inductive Access (N : Type) where
  | read (mn : N)
  | write (mn : N)
  deriving DecidableEq

def Access.node : Access N → N
  | .read mn => mn
  | .write mn => mn

def Accesses.check (s : Accesses N) : Access N → Accesses N
  | .read mn => s.read mn
  | .write mn => s.write mn

def accessesOf (nodesInCycle : NodeSet N) : List (Access N) := nodesInCycle.map .read ++ nodesInCycle.map .write

def allAccesses (cycle : N → Int) (nodes : NodeSet N) : List (Access N) :=
  ((cyclesOf cycle nodes).map (movesInCycle cycle nodes)).flatMap accessesOf

theorem checkCycle_eq (s : Accesses N) (nodesInCycle : NodeSet N) :
    s.checkCycle nodesInCycle = (accessesOf nodesInCycle).foldl Accesses.check s := by
  rw [accessesOf, List.foldl_append, List.foldl_map, List.foldl_map]
  rfl

theorem createRegisterAntiDependenciesBetweenNodes_eq (g : MoveGraph N) (cycle : N → Int) (nodes : NodeSet N) :
    g.createRegisterAntiDependenciesBetweenNodes cycle nodes =
      ((allAccesses cycle nodes).foldl Accesses.check ⟨g, fun _ => [], fun _ => []⟩).graph := by
  rw [allAccesses, List.foldl_flatMap, createRegisterAntiDependenciesBetweenNodes]
  simp only [← checkCycle_eq]

theorem mem_insertNode {mn n : N} {nodes : NodeSet N} : n ∈ insertNode mn nodes ↔ n = mn ∨ n ∈ nodes := by
  unfold insertNode
  split
  · rename_i hmem
    exact ⟨.inr, fun h => h.elim (fun heq => heq ▸ hmem) id⟩
  · exact List.mem_orderedInsert ..

/-! ## New edges -/

/-- An antidependence of accesses to a register. -/
structure IsAntidependence (reg : String) (e : Edge N) : Prop where
  edgeReason : e.edgeReason = .EDGE_REGISTER
  dependenceType : e.dependenceType = .DEP_WAR ∨ e.dependenceType = .DEP_WAW
  data : e.data = reg

def Antidepends (g : MoveGraph N) (reg : String) (tail head : N) : Prop :=
  ∃ e ∈ g.edges, IsAntidependence reg e ∧ e.tail = tail ∧ e.head = head

/-- The graph with more edges, none of them to a read. -/
structure Extends (g : MoveGraph N) (added : List (Edge N)) (g' : MoveGraph N) : Prop where
  move : g'.move = g.move
  edges : g'.edges = g.edges ++ added
  antidependence : ∀ e ∈ added, IsAntidependence e.data e

section Extends
variable {g g' g'' : MoveGraph N} {added added' : List (Edge N)} {reg : String} {mn n1 n2 : N}

omit [LinearOrder N] in
theorem Extends.refl (g : MoveGraph N) : Extends g [] g := ⟨rfl, (List.append_nil _).symm, by simp⟩

omit [LinearOrder N] in
theorem Extends.trans (h : Extends g added g') (h' : Extends g' added' g'') : Extends g (added ++ added') g'' where
  move := h'.move.trans h.move
  edges := by rw [h'.edges, h.edges, List.append_assoc]
  antidependence e he := (List.mem_append.1 he).elim (h.antidependence e) (h'.antidependence e)

omit [LinearOrder N] in
theorem Extends.antidepends (h : Extends g added g') (hjoined : g.Antidepends reg n1 n2) : g'.Antidepends reg n1 n2 := by
  obtain ⟨e, he, hedge⟩ := hjoined
  exact ⟨e, h.edges ▸ List.mem_append_left _ he, hedge⟩

omit [LinearOrder N] in
theorem Extends.path (h : Extends g added g') (hpath : TransGen (g.Antidepends reg) n1 n2) :
    TransGen (g'.Antidepends reg) n1 n2 := TransGen.mono (fun _ _ => h.antidepends) _ _ hpath

theorem Extends.guardRawPredecessors (h : Extends g added g') (n : N) :
    g'.guardRawPredecessors n = g.guardRawPredecessors n := by
  have hnone : (added.filter fun e => e.head = n).filter (fun e => e.guardUse && e.dependenceType = .DEP_RAW) = [] := by
    rw [List.filter_eq_nil_iff]
    intro e he
    have := (h.antidependence e (List.mem_filter.1 he).1).dependenceType
    rcases this with heq | heq <;> simp [heq]
  rw [MoveGraph.guardRawPredecessors, MoveGraph.guardRawPredecessors, inEdges, inEdges, h.edges, List.filter_append,
    List.filter_append, hnone, List.append_nil]

theorem Extends.exclusingGuards (h : Extends g added g') (n1 n2 : N) :
    g'.exclusingGuards n1 n2 = g.exclusingGuards n1 n2 := by
  simp only [MoveGraph.exclusingGuards, sameDefinitions, h.move, h.guardRawPredecessors]

omit [LinearOrder N] in
theorem isAntidependence_antidependence {dependenceType : DependenceType}
    (htype : dependenceType = .DEP_WAR ∨ dependenceType = .DEP_WAW) :
    IsAntidependence reg (antidependence dependenceType reg n1 n2) := ⟨rfl, htype, rfl⟩

theorem connectOrDeleteEdge_spec (g : MoveGraph N) (reg : String) (n1 n2 : N) {dependenceType : DependenceType}
    (htype : dependenceType = .DEP_WAR ∨ dependenceType = .DEP_WAW) :
    (∃ added, Extends g added (g.connectOrDeleteEdge (antidependence dependenceType reg n1 n2)) ∧
      ∀ e ∈ added, e = antidependence dependenceType reg n1 n2) ∧
    (g.connectOrDeleteEdge (antidependence dependenceType reg n1 n2)).Antidepends reg n1 n2 := by
  unfold connectOrDeleteEdge
  split
  · rename_i hequal
    refine ⟨⟨[], .refl g, by simp⟩, ?_⟩
    obtain ⟨e, he, heq⟩ := List.any_eq_true.1 hequal
    have heq := of_decide_eq_true heq
    simp only [antidependence, Edge.mk.injEq, DataDependenceEdge.mk.injEq] at heq
    exact ⟨e, he, ⟨heq.1.1, heq.1.2.1 ▸ htype, heq.1.2.2.1⟩, heq.2.1, heq.2.2⟩
  · refine ⟨⟨[_], ⟨rfl, rfl, ?_⟩, by simp⟩, ?_⟩
    · intro e he
      rw [List.mem_singleton.1 he]
      exact isAntidependence_antidependence htype
    · exact ⟨_, List.mem_append_right _ (List.mem_singleton_self _), isAntidependence_antidependence htype, rfl, rfl⟩

/-- Each of the nodes gets an edge to the new one, unless the guards exclude each other. -/
theorem connectPrevious_spec (g : MoveGraph N) (reg : String) (mn : N) (prevMNs : List N)
    {dependenceType : DependenceType} (htype : dependenceType = .DEP_WAR ∨ dependenceType = .DEP_WAW) :
    (∃ added, Extends g added (connectPrevious dependenceType reg mn g prevMNs) ∧
      ∀ e ∈ added, ∃ prevMN ∈ prevMNs, e = antidependence dependenceType reg prevMN mn) ∧
    ∀ prevMN ∈ prevMNs, g.exclusingGuards prevMN mn = false →
      (connectPrevious dependenceType reg mn g prevMNs).Antidepends reg prevMN mn := by
  induction prevMNs generalizing g with
  | nil => exact ⟨⟨[], .refl g, by simp⟩, by simp⟩
  | cons prevMN prevMNs ih =>
    rw [connectPrevious, List.foldl_cons, ← connectPrevious]
    split
    · rename_i hexcluding
      obtain ⟨⟨added, hext, hadded⟩, hjoined⟩ := ih (g := g)
      refine ⟨⟨added, hext, fun e he => ?_⟩, fun p hp hguards => ?_⟩
      · obtain ⟨p, hp, heq⟩ := hadded e he
        exact ⟨p, List.mem_cons_of_mem _ hp, heq⟩
      · rcases List.mem_cons.1 hp with rfl | hp
        · rw [hexcluding] at hguards
          cases hguards
        · exact hjoined p hp hguards
    · obtain ⟨⟨new, hnew, hedge⟩, hjoin⟩ := connectOrDeleteEdge_spec g reg prevMN mn htype
      obtain ⟨⟨added, hext, hadded⟩, hjoined⟩ := ih (g := g.connectOrDeleteEdge (antidependence dependenceType reg prevMN mn))
      refine ⟨⟨new ++ added, hnew.trans hext, fun e he => ?_⟩, fun p hp hguards => ?_⟩
      · rcases List.mem_append.1 he with he | he
        · exact ⟨prevMN, by simp, hedge e he⟩
        · obtain ⟨p, hp, heq⟩ := hadded e he
          exact ⟨p, List.mem_cons_of_mem _ hp, heq⟩
      · rcases List.mem_cons.1 hp with rfl | hp
        · exact hext.antidepends hjoin
        · exact hjoined p hp (by rw [hnew.exclusingGuards, hguards])

end Extends

/-! ## What is kept of the accesses -/

/-- The accesses to a register that there were. -/
def Accessed (g : MoveGraph N) (accesses : List (Access N)) (reg : String) (n : N) : Prop :=
  .read n ∈ accesses ∧ g.sourceRegister n = some reg ∨ .write n ∈ accesses ∧ g.destinationRegister n = some reg

/-- An edge from an access to a later write. -/
structure IsBetween (accesses : List (Access N)) (e : Edge N) : Prop where
  antidependence : IsAntidependence e.data e
  later : ∃ before after, accesses = before ++ .write e.head :: after ∧
    (e.dependenceType = .DEP_WAR → .read e.tail ∈ before) ∧ (e.dependenceType = .DEP_WAW → .write e.tail ∈ before)

/-- The accesses so far: those to a register that are not kept are before an unconditional write that is. -/
structure Tracks (g : MoveGraph N) (accesses : List (Access N)) (s : Accesses N) : Prop where
  extended : ∃ added, Extends g added s.graph ∧ ∀ e ∈ added, IsBetween accesses e
  reads : ∀ reg, ∀ n ∈ s.reads reg, .read n ∈ accesses
  writes : ∀ reg, ∀ n ∈ s.writes reg, .write n ∈ accesses
  kept : ∀ reg n, Accessed g accesses reg n → n ∈ s.reads reg ∨ n ∈ s.writes reg ∨
    ∃ kill ∈ s.writes reg, g.isUnconditional kill = true ∧ TransGen (s.graph.Antidepends reg) n kill
  joined : ∀ before after y reg, accesses = before ++ .write y :: after → g.destinationRegister y = some reg →
    ∀ x, Accessed g before reg x → g.exclusingGuards x y = false → TransGen (s.graph.Antidepends reg) x y

section Tracks
variable {g : MoveGraph N} {accesses : List (Access N)} {s : Accesses N} {reg : String} {mn n : N}

theorem tracks_nil (g : MoveGraph N) : Tracks g [] ⟨g, fun _ => [], fun _ => []⟩ where
  extended := ⟨[], .refl g, by simp⟩
  reads := by simp
  writes := by simp
  kept reg n h := by simp [Accessed] at h
  joined before after y reg h := by simp at h

omit [LinearOrder N] in
theorem IsBetween.snoc {e : Edge N} (h : IsBetween accesses e) (a : Access N) : IsBetween (accesses ++ [a]) e := by
  obtain ⟨before, after, heq, hread, hwrite⟩ := h.later
  exact ⟨h.antidependence, before, after ++ [a], by simp [heq], hread, hwrite⟩

omit [LinearOrder N] in
theorem Accessed.of_snoc_read (h : Accessed g (accesses ++ [.read mn]) reg n) :
    Accessed g accesses reg n ∨ n = mn ∧ g.sourceRegister mn = some reg := by
  rcases h with ⟨hmem, hreg⟩ | ⟨hmem, hreg⟩
  · simp only [List.mem_append, List.mem_singleton, Access.read.injEq] at hmem
    rcases hmem with hmem | rfl
    · exact .inl (.inl ⟨hmem, hreg⟩)
    · exact .inr ⟨rfl, hreg⟩
  · simp only [List.mem_append, List.mem_singleton, reduceCtorEq, or_false] at hmem
    exact .inl (.inr ⟨hmem, hreg⟩)

omit [LinearOrder N] in
theorem Accessed.of_snoc_write (h : Accessed g (accesses ++ [.write mn]) reg n) :
    Accessed g accesses reg n ∨ n = mn ∧ g.destinationRegister mn = some reg := by
  rcases h with ⟨hmem, hreg⟩ | ⟨hmem, hreg⟩
  · simp only [List.mem_append, List.mem_singleton, reduceCtorEq, or_false] at hmem
    exact .inl (.inl ⟨hmem, hreg⟩)
  · simp only [List.mem_append, List.mem_singleton, Access.write.injEq] at hmem
    rcases hmem with hmem | rfl
    · exact .inl (.inr ⟨hmem, hreg⟩)
    · exact .inr ⟨rfl, hreg⟩

omit [LinearOrder N] in
/-- The last write of the accesses, or an earlier one. -/
theorem eq_snoc_write {before after : List (Access N)} {y : N} {a : Access N}
    (h : accesses ++ [a] = before ++ .write y :: after) :
    (accesses = before ∧ a = .write y ∧ after = []) ∨ ∃ after', accesses = before ++ .write y :: after' := by
  rcases List.eq_nil_or_concat after with rfl | ⟨after', b, rfl⟩
  · obtain ⟨rfl, heq⟩ := List.append_inj' h rfl
    exact .inl ⟨rfl, List.head_eq_of_cons_eq heq, rfl⟩
  · rw [List.concat_eq_append, ← List.cons_append, ← List.append_assoc] at h
    exact .inr ⟨after', (List.append_inj' h rfl).1⟩

theorem Tracks.sourceRegister_eq (h : Tracks g accesses s) (n : N) : s.graph.sourceRegister n = g.sourceRegister n := by
  obtain ⟨added, hext, -⟩ := h.extended
  rw [sourceRegister, sourceRegister, hext.move]

theorem Tracks.read (h : Tracks g accesses s) : Tracks g (accesses ++ [.read mn]) (s.read mn) := by
  obtain ⟨added, hext, hbetween⟩ := h.extended
  have hreads : ∀ reg n, n ∈ (s.read mn).reads reg ↔ n ∈ s.reads reg ∨ n = mn ∧ g.sourceRegister mn = some reg := by
    intro reg n
    rw [Accesses.read, h.sourceRegister_eq]
    cases hsource : g.sourceRegister mn with
    | none => simp
    | some r =>
      by_cases hr : reg = r
      · subst hr
        simp [mem_insertNode, or_comm]
      · simp [hr, Ne.symm hr]
  have hgraph : (s.read mn).graph = s.graph := by
    rw [Accesses.read]
    split <;> rfl
  have hwrites : (s.read mn).writes = s.writes := by
    rw [Accesses.read]
    split <;> rfl
  refine ⟨⟨added, hgraph ▸ hext, fun e he => (hbetween e he).snoc _⟩, fun reg n hn => ?_, fun reg n hn => ?_,
    fun reg n hn => ?_, fun before after y reg heq hy x hx hguards => ?_⟩
  · rcases (hreads reg n).1 hn with hn | ⟨rfl, -⟩
    · exact List.mem_append_left _ (h.reads reg n hn)
    · simp
  · rw [hwrites] at hn
    exact List.mem_append_left _ (h.writes reg n hn)
  · rw [hwrites, hgraph, hreads]
    rcases hn.of_snoc_read with hn | hn
    · rcases h.kept reg n hn with hn | hn
      · exact .inl (.inl hn)
      · exact .inr hn
    · exact .inl (.inr hn)
  · rw [hgraph]
    rcases eq_snoc_write heq with ⟨-, hread, -⟩ | ⟨after', heq⟩
    · cases hread
    · exact h.joined before after' y reg heq hy x hx hguards

theorem exclusingGuards_of_isUnconditional (n1 n2 : N)
    (h : g.isUnconditional n1 = true ∨ g.isUnconditional n2 = true) : g.exclusingGuards n1 n2 = false := by
  unfold MoveGraph.exclusingGuards
  cases h1 : g.move n1 with
  | none => rfl
  | some move1 =>
    cases h2 : g.move n2 with
    | none => rfl
    | some move2 =>
      simp only [isUnconditional, h1, h2, Option.all_some, Option.isNone_iff_eq_none] at h ⊢
      rcases h with hnone | hnone
      · rw [hnone]
      · rw [hnone]
        cases move1.guard <;> rfl

section Write
variable (h : Tracks g accesses s)

include h

theorem Tracks.connect_spec (reg : String) (mn : N) :
    (∃ added, Extends s.graph added (s.connect reg mn) ∧ ∀ e ∈ added, IsBetween (accesses ++ [.write mn]) e) ∧
    ∀ n, n ∈ s.reads reg ∨ n ∈ s.writes reg → g.exclusingGuards n mn = false → (s.connect reg mn).Antidepends reg n mn := by
  obtain ⟨before, hbefore, -⟩ := h.extended
  obtain ⟨⟨wars, hwars, hwar⟩, hreads⟩ := connectPrevious_spec s.graph reg mn (s.reads reg)
    (.inl rfl : DependenceType.DEP_WAR = .DEP_WAR ∨ _)
  obtain ⟨⟨waws, hwaws, hwaw⟩, hwrites⟩ := connectPrevious_spec
    (connectPrevious .DEP_WAR reg mn s.graph (s.reads reg)) reg mn (s.writes reg)
    (.inr rfl : _ ∨ DependenceType.DEP_WAW = .DEP_WAW)
  refine ⟨⟨wars ++ waws, hwars.trans hwaws, fun e he => ?_⟩, fun n hn hguards => ?_⟩
  · rcases List.mem_append.1 he with he | he
    · obtain ⟨n, hn, rfl⟩ := hwar e he
      exact ⟨isAntidependence_antidependence (.inl rfl), accesses, [], rfl, fun _ => h.reads reg n hn, nofun⟩
    · obtain ⟨n, hn, rfl⟩ := hwaw e he
      exact ⟨isAntidependence_antidependence (.inr rfl), accesses, [], rfl, nofun, fun _ => h.writes reg n hn⟩
  · rw [← hbefore.exclusingGuards] at hguards
    rcases hn with hn | hn
    · exact hwaws.antidepends (hreads n hn hguards)
    · exact hwrites n hn (by rw [hwars.exclusingGuards, hguards])

/-- All accesses to the register are before its new write. -/
theorem Tracks.joined_new (hn : Accessed g accesses reg n)
    (hguards : g.exclusingGuards n mn = false) : TransGen ((s.connect reg mn).Antidepends reg) n mn := by
  obtain ⟨⟨added, hext, -⟩, hjoin⟩ := h.connect_spec reg mn
  rcases h.kept reg n hn with hn | hn | ⟨kill, hkill, huncond, hpath⟩
  · exact .single (hjoin n (.inl hn) hguards)
  · exact .single (hjoin n (.inr hn) hguards)
  · have hlast := hjoin kill (.inr hkill) (exclusingGuards_of_isUnconditional kill mn (.inl huncond))
    exact .tail (hext.path hpath) hlast

theorem Tracks.write_of_none (hnone : g.destinationRegister mn = none) : Tracks g (accesses ++ [.write mn]) s := by
  obtain ⟨added, hext, hbetween⟩ := h.extended
  refine ⟨⟨added, hext, fun e he => (hbetween e he).snoc _⟩, fun reg n hn => List.mem_append_left _ (h.reads reg n hn),
    fun reg n hn => List.mem_append_left _ (h.writes reg n hn), fun reg n hn => ?_,
    fun before after y reg heq hy x hx hguards => ?_⟩
  · rcases hn.of_snoc_write with hn | ⟨-, hreg⟩
    · exact h.kept reg n hn
    · rw [hnone] at hreg
      cases hreg
  · rcases eq_snoc_write heq with ⟨-, hwrite, -⟩ | ⟨after', heq⟩
    · obtain rfl := Access.write.inj hwrite
      rw [hnone] at hy
      cases hy
    · exact h.joined before after' y reg heq hy x hx hguards

/-- What is kept of a register that is written, when the new write is. -/
theorem Tracks.write_of_some {s' : Accesses N} (hdest : g.destinationRegister mn = some reg)
    (hgraph : s'.graph = s.connect reg mn) (hreads : ∀ r, r ≠ reg → s'.reads r = s.reads r)
    (hwrites : ∀ r, r ≠ reg → s'.writes r = s.writes r) (hsub : ∀ n ∈ s'.reads reg, n ∈ s.reads reg)
    (hnew : ∀ n, n ∈ s'.writes reg → n = mn ∨ n ∈ s.writes reg) (hmem : mn ∈ s'.writes reg)
    (hkept : g.isUnconditional mn = true ∨ (∀ n ∈ s.reads reg, n ∈ s'.reads reg) ∧ ∀ n ∈ s.writes reg, n ∈ s'.writes reg) :
    Tracks g (accesses ++ [.write mn]) s' := by
  obtain ⟨added, hext, hbetween⟩ := h.extended
  obtain ⟨⟨new, hnewext, hnewbetween⟩, -⟩ := h.connect_spec reg mn
  have hlift : ∀ {r x y}, TransGen (s.graph.Antidepends r) x y → TransGen (s'.graph.Antidepends r) x y :=
    fun hpath => hgraph ▸ hnewext.path hpath
  refine ⟨⟨added ++ new, hgraph ▸ hext.trans hnewext, fun e he => ?_⟩, fun r n hn => ?_, fun r n hn => ?_,
    fun r n hn => ?_, fun before after y r heq hy x hx hguards => ?_⟩
  · exact (List.mem_append.1 he).elim (fun he => (hbetween e he).snoc _) (hnewbetween e)
  · by_cases hr : r = reg
    · subst hr
      exact List.mem_append_left _ (h.reads r n (hsub n hn))
    · exact List.mem_append_left _ (h.reads r n (hreads r hr ▸ hn))
  · by_cases hr : r = reg
    · subst hr
      rcases hnew n hn with rfl | hn
      · simp
      · exact List.mem_append_left _ (h.writes r n hn)
    · exact List.mem_append_left _ (h.writes r n (hwrites r hr ▸ hn))
  · by_cases hr : r = reg
    · subst hr
      rcases hn.of_snoc_write with hn | ⟨rfl, -⟩
      · rcases hkept with huncond | ⟨hkeptreads, hkeptwrites⟩
        · have hpath := h.joined_new hn (exclusingGuards_of_isUnconditional n mn (.inr huncond))
          exact .inr (.inr ⟨mn, hmem, huncond, hgraph ▸ hpath⟩)
        · rcases h.kept r n hn with hn | hn | ⟨kill, hkill, huncond, hpath⟩
          · exact .inl (hkeptreads n hn)
          · exact .inr (.inl (hkeptwrites n hn))
          · exact .inr (.inr ⟨kill, hkeptwrites kill hkill, huncond, hlift hpath⟩)
      · exact .inr (.inl hmem)
    · have hn : Accessed g accesses r n := hn.of_snoc_write.resolve_right fun hn => by
        rw [hdest] at hn
        exact hr (Option.some.inj hn.2).symm
      rw [hreads r hr, hwrites r hr]
      rcases h.kept r n hn with hn | hn | ⟨kill, hkill, huncond, hpath⟩
      · exact .inl hn
      · exact .inr (.inl hn)
      · exact .inr (.inr ⟨kill, hkill, huncond, hlift hpath⟩)
  · rcases eq_snoc_write heq with ⟨rfl, hwrite, -⟩ | ⟨after', heq⟩
    · obtain rfl := Access.write.inj hwrite
      obtain rfl := Option.some.inj (hdest.symm.trans hy)
      exact hgraph ▸ h.joined_new hx hguards
    · exact hlift (h.joined before after' y r heq hy x hx hguards)

theorem Tracks.write : Tracks g (accesses ++ [.write mn]) (s.write mn) := by
  obtain ⟨added, hext, -⟩ := h.extended
  have hdest : s.graph.destinationRegister mn = g.destinationRegister mn := by
    rw [destinationRegister, destinationRegister, hext.move]
  have huncond : s.graph.isUnconditional mn = g.isUnconditional mn := by
    rw [isUnconditional, isUnconditional, hext.move]
  rw [Accesses.write, hdest]
  cases hreg : g.destinationRegister mn with
  | none => exact h.write_of_none hreg
  | some reg =>
    simp only [huncond]
    split
    · rename_i hkills
      exact h.write_of_some hreg rfl (fun r hr => by simp [hr]) (fun r hr => by simp [hr]) (by simp)
        (by simp) (by simp) (.inl hkills)
    · exact h.write_of_some hreg rfl (fun _ _ => rfl) (fun r hr => by simp [hr]) (by simp)
        (by simp [mem_insertNode]) (by simp [mem_insertNode]) (.inr ⟨fun _ hn => hn, by simp +contextual [mem_insertNode]⟩)

end Write

theorem tracks_foldl (g : MoveGraph N) (accesses : List (Access N)) :
    Tracks g accesses (accesses.foldl Accesses.check ⟨g, fun _ => [], fun _ => []⟩) := by
  induction accesses using List.reverseRecOn with
  | nil => exact tracks_nil g
  | append_singleton accesses a ih =>
    rw [List.foldl_append, List.foldl_cons, List.foldl_nil]
    cases a with
    | read mn => exact ih.read
    | write mn => exact ih.write

end Tracks

/-! ## All accesses -/

section All
variable {cycle : N → Int} {nodes : NodeSet N} {x y : N}

omit [LinearOrder N] in
theorem mem_cyclesOf {c : Int} : c ∈ cyclesOf cycle nodes ↔ ∃ n ∈ nodes, cycle n = c := by
  simp [cyclesOf]

omit [LinearOrder N] in
theorem cyclesOf_sorted (cycle : N → Int) (nodes : NodeSet N) : (cyclesOf cycle nodes).Pairwise (· < ·) := by
  have hnodup : (cyclesOf cycle nodes).Nodup := (List.perm_insertionSort _ _).nodup_iff.2 (List.nodup_dedup _)
  have hsorted : (cyclesOf cycle nodes).Pairwise (· ≤ ·) := List.pairwise_insertionSort _ _
  exact (hsorted.and hnodup).imp fun h => lt_of_le_of_ne h.1 h.2

omit [LinearOrder N] in
theorem mem_accessesOf {c : Int} {a : Access N} (h : a ∈ accessesOf (movesInCycle cycle nodes c)) :
    a.node ∈ nodes ∧ cycle a.node = c := by
  simp only [accessesOf, movesInCycle, List.mem_append, List.mem_map, List.mem_filter, decide_eq_true_eq] at h
  rcases h with ⟨n, ⟨hn, hc⟩, rfl⟩ | ⟨n, ⟨hn, hc⟩, rfl⟩ <;> exact ⟨hn, hc⟩

omit [LinearOrder N] in
/-- The accesses are in the order of the cycles. -/
theorem allAccesses_sorted (cycle : N → Int) (nodes : NodeSet N) :
    (allAccesses cycle nodes).Pairwise fun a b => cycle a.node ≤ cycle b.node := by
  rw [allAccesses, List.flatMap_map, List.pairwise_flatMap]
  constructor
  · intro c _
    refine List.pairwise_iff_forall_sublist.2 fun {a b} hsub => ?_
    rw [(mem_accessesOf (hsub.subset (by simp : a ∈ [a, b]))).2, (mem_accessesOf (hsub.subset (by simp : b ∈ [a, b]))).2]
  · refine (cyclesOf_sorted cycle nodes).imp fun hlt a ha b hb => ?_
    rw [(mem_accessesOf ha).2, (mem_accessesOf hb).2]
    exact le_of_lt hlt

omit [LinearOrder N] in
theorem allAccesses_nodup (cycle : N → Int) (hnodes : nodes.Nodup) : (allAccesses cycle nodes).Nodup := by
  rw [allAccesses, List.flatMap_map, List.Nodup, List.pairwise_flatMap]
  constructor
  · intro c _
    have hmoves : (movesInCycle cycle nodes c).Nodup := hnodes.filter _
    refine List.nodup_append.2 ⟨hmoves.map fun _ _ => Access.read.inj, hmoves.map fun _ _ => Access.write.inj, ?_⟩
    intro a ha b hb
    obtain ⟨_, -, rfl⟩ := List.mem_map.1 ha
    obtain ⟨_, -, rfl⟩ := List.mem_map.1 hb
    exact nofun
  · refine (cyclesOf_sorted cycle nodes).imp fun hlt a ha b hb heq => ?_
    subst heq
    exact absurd ((mem_accessesOf ha).2.symm.trans (mem_accessesOf hb).2) (ne_of_lt hlt)

omit [LinearOrder N] in
/-- Before a write there are the reads up to its cycle, and the writes of earlier cycles. -/
theorem allAccesses_split (cycle : N → Int) (hy : y ∈ nodes) : ∃ before after, allAccesses cycle nodes = before ++ .write y :: after ∧
    ∀ x ∈ nodes, (cycle x ≤ cycle y → .read x ∈ before) ∧ (cycle x < cycle y → .write x ∈ before) := by
  obtain ⟨earlier, later, hcycles⟩ := List.append_of_mem (mem_cyclesOf.2 ⟨y, hy, rfl⟩)
  have hmem : y ∈ movesInCycle cycle nodes (cycle y) := by simp [movesInCycle, hy]
  obtain ⟨previous, next, hmoves⟩ := List.append_of_mem hmem
  have hearlier : ∀ x ∈ nodes, cycle x < cycle y → cycle x ∈ earlier := by
    intro x hx hlt
    have hc : cycle x ∈ cyclesOf cycle nodes := mem_cyclesOf.2 ⟨x, hx, rfl⟩
    have hsorted := cyclesOf_sorted cycle nodes
    rw [hcycles] at hc hsorted
    rcases List.mem_append.1 hc with hc | hc
    · exact hc
    · rcases List.mem_cons.1 hc with heq | hc
      · omega
      · have := List.rel_of_pairwise_cons (List.pairwise_append.1 hsorted).2.1 hc
        omega
  refine ⟨(earlier.map (movesInCycle cycle nodes)).flatMap accessesOf ++
    ((movesInCycle cycle nodes (cycle y)).map .read ++ previous.map .write),
    next.map .write ++ (later.map (movesInCycle cycle nodes)).flatMap accessesOf, ?_, fun x hx => ⟨fun hle => ?_, fun hlt => ?_⟩⟩
  · rw [allAccesses, hcycles, List.map_append, List.map_cons, List.flatMap_append, List.flatMap_cons]
    conv_lhs => rw [accessesOf, show (movesInCycle cycle nodes (cycle y)).map Access.write =
      previous.map .write ++ .write y :: next.map .write by rw [hmoves, List.map_append, List.map_cons]]
    simp only [List.append_assoc, List.cons_append]
  · rcases eq_or_lt_of_le hle with heq | hlt
    · simp [movesInCycle, hx, heq]
    · refine List.mem_append_left _ (List.mem_flatMap.2 ⟨_, List.mem_map.2 ⟨_, hearlier x hx hlt, rfl⟩, ?_⟩)
      simp [accessesOf, movesInCycle, hx]
  · refine List.mem_append_left _ (List.mem_flatMap.2 ⟨_, List.mem_map.2 ⟨_, hearlier x hx hlt, rfl⟩, ?_⟩)
    simp [accessesOf, movesInCycle, hx]

omit [LinearOrder N] in
theorem IsBetween.cycle_le {e : Edge N} (h : IsBetween (allAccesses cycle nodes) e) : cycle e.tail ≤ cycle e.head := by
  obtain ⟨before, after, heq, hread, hwrite⟩ := h.later
  have hsorted := allAccesses_sorted cycle nodes
  rw [heq] at hsorted
  have hle := (List.pairwise_append.1 hsorted).2.2
  rcases h.antidependence.dependenceType with htype | htype
  · exact hle _ (hread htype) _ (List.mem_cons_self ..)
  · exact hle _ (hwrite htype) _ (List.mem_cons_self ..)

theorem IsBetween.idxOf_lt {e : Edge N} (h : IsBetween (allAccesses cycle nodes) e) (hnodes : nodes.Nodup)
    (htype : e.dependenceType = .DEP_WAW) :
    (allAccesses cycle nodes).idxOf (.write e.tail) < (allAccesses cycle nodes).idxOf (.write e.head) := by
  obtain ⟨before, after, heq, -, hwrite⟩ := h.later
  have hnodup := allAccesses_nodup cycle hnodes
  rw [heq] at hnodup ⊢
  have hnot : .write e.head ∉ before := fun hmem =>
    (List.nodup_append.1 hnodup).2.2 _ hmem _ (by simp) rfl
  rw [List.idxOf_append_of_mem (hwrite htype), List.idxOf_append_of_notMem hnot, List.idxOf_cons_self, Nat.add_zero]
  exact List.idxOf_lt_length_of_mem (hwrite htype)

end All

/-! ## The antidependences -/

def Connects (edges : List (Edge N)) (tail head : N) : Prop := ∃ e ∈ edges, e.tail = tail ∧ e.head = head

def registerMove (source destination : String) : Move := ⟨.GPR source, some destination, none, false⟩

/-- Each of the two moves reads the register that the other writes. -/
def swap : MoveGraph Nat where
  move n := some (if n = 0 then registerMove "r1" "r2" else registerMove "r2" "r1")
  edges := []

end MoveGraph

end Tce.DDG
