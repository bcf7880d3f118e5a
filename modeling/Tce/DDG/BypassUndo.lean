import Tce.DDG.BypassEdges

/-!
# Undoing a bypass

When a bypass leaves a graph without cycles that it is undone in exactly.
-/

namespace Tce.DDG

open EdgeReason DependenceType

namespace BypassGraph
variable {N O : Type} [DecidableEq N] [DecidableEq O] {g : BypassGraph N O} {source user : N} {raw : Edge N}

/-- The same moves, operations and edges. -/
structure SameAs (g g' : BypassGraph N O) : Prop where
  node : g.node = g'.node
  outputMoves : ∀ op, (g.outputMoves op).Perm (g'.outputMoves op)
  rootEdges : g.rootEdges.Perm g'.rootEdges
  edges : g.edges.Perm g'.edges

/-- A bypass that fails changes nothing. One that succeeds leaves no cycle of
edges that are not back edges, and is undone exactly. -/
def IsUndone (g : BypassGraph N O) (source user : N) : Prop :=
  ∀ merged g', g.mergeAndKeep source user = .ok (merged, g') →
    (merged = false → g' = g) ∧
    (merged = true → Acyclic g'.IsForwardEdge ∧ ∃ g'', g'.unMerge source user = .ok g'' ∧ g''.SameAs g)

/-- What undoing takes the graph for. -/
structure IsRestorable (g : BypassGraph N O) (source user : N) (raw : Edge N) : Prop where
  destination : (g.node source).destination = .GPR raw.data
  plain : raw = registerEdge source user raw.data
  reads : (g.node user).source = (g.node source).destination
  operation : (g.node user).sourceOperation = none
  /-- No other edge into the user is like one that a bypass copies. -/
  only : ∀ e ∈ g.rootEdges, e.head = user → isCopied e = true → e = raw
  /-- All edges into the source are like those, but for antidependences of the register. -/
  incoming : ∀ e ∈ g.rootEdges, e.head = source → isBypassedAntidependence raw.data e = true ∨ isCopied e = true ∨
    (g.node source).isSourceVariable = true ∧ e.tail = user ∧ isCopiedWar raw.data e = true
  /-- The user has no antidependences that are taken for copied ones. -/
  outgoing : (g.node source).isSourceVariable = true → ∀ e ∈ g.rootEdges, e.tail = user → isCopiedWar raw.data e = false
  /-- The antidependences of the source are taken for copied ones. -/
  antidependences : (g.node source).isSourceVariable = true → ∀ e ∈ g.readAntidependences source user,
    if e.data = raw.data then g.sourceIsRegToItselfCopy source = false else e.guardUse = false
  /-- The user has an antidependence for each later write that the source has a dependence on. -/
  wars : ((g.restoredWars source user raw.data).filter g.rootAdmits).Perm
    (if g.sourceIsRegToItselfCopy source then [] else g.edges.filter (isRegisterWar user raw.data))

/-! ## Bypassing -/

theorem bypass_node (g : BypassGraph N O) (source user n : N) (regName : String) :
    (g.bypass source user regName).node n = (g.setSource source user).node n := by
  rw [← withCopies_node g source user n regName]
  change (((g.withCopies source user regName).copyAntidependences source user).removeRegisterWars
    source user regName).node n = _
  rw [copyAntidependences_eq]
  unfold removeRegisterWars
  split <;> rfl

theorem bypass_admits (g : BypassGraph N O) (source user : N) (regName : String) :
    (g.bypass source user regName).rootAdmits = g.rootAdmits ∧ (g.bypass source user regName).admits = g.admits := by
  have hsame := withCopies_admits g source user regName
  change (((g.withCopies source user regName).copyAntidependences source user).removeRegisterWars
    source user regName).rootAdmits = _ ∧ (((g.withCopies source user regName).copyAntidependences source user).removeRegisterWars
    source user regName).admits = _
  rw [copyAntidependences_eq]
  unfold removeRegisterWars
  split <;> exact hsame

theorem mergeAndKeep_eq (hg : g.IsDependenceGraph) (hj : g.Joined source user raw) : g.mergeAndKeep source user =
    .ok (if g.hasAntidependencePath source user then (false, g) else (true, g.bypass source user raw.data)) := by
  unfold mergeAndKeep
  split
  · rfl
  · have hedge : (g.edges.any fun e => e.tail = source && e.head = user) = true := by
      rw [List.any_eq_true]
      refine ⟨raw, hj.mem.1, ?_⟩
      rw [hj.ends.1, hj.ends.2.1, decide_eq_true rfl, decide_eq_true rfl]
      rfl
    have hname : raw.data ≠ "" := hg.named raw (hg.mem_root hj.mem.1) hj.register
    rw [hj.sourceMove, hedge, hj.userMove, hj.only]
    dsimp only [List.getLast?_singleton, Option.map_some, Option.getD_some]
    rw [if_neg hname]
    rfl

/-! ## Kinds of edges -/

omit [DecidableEq N] [DecidableEq O] in
theorem isCopied_iff {e : Edge N} : isCopied e = true ↔ e.edgeReason = EDGE_OPERATION ∨
    e.edgeReason = EDGE_REGISTER ∧ e.dependenceType = DEP_RAW ∧ e.headPseudo = false ∧ e.guardUse = false := by
  unfold isCopied
  simp only [Bool.or_eq_true, Bool.and_eq_true, decide_eq_true_iff, Bool.not_eq_true', and_assoc]

omit [DecidableEq N] [DecidableEq O] in
theorem isCopiedWar_iff {regName : String} {e : Edge N} : isCopiedWar regName e = true ↔
    e.edgeReason = EDGE_REGISTER ∧ e.dependenceType = DEP_WAR ∧ e.data ≠ regName ∧ e.tailPseudo = false ∧
      e.guardUse = false := by
  unfold isCopiedWar
  simp only [Bool.and_eq_true, decide_eq_true_iff, Bool.not_eq_true', and_assoc]

omit [DecidableEq N] [DecidableEq O] in
theorem isBypassedAntidependence_iff {regName : String} {e : Edge N} : isBypassedAntidependence regName e = true ↔
    e.edgeReason = EDGE_REGISTER ∧ e.data = regName ∧ (e.dependenceType = DEP_WAW ∨ e.dependenceType = DEP_WAR) := by
  unfold isBypassedAntidependence
  simp only [Bool.and_eq_true, Bool.or_eq_true, decide_eq_true_iff, and_assoc]

omit [DecidableEq N] [DecidableEq O] in
theorem not_isCopied_of_war {e : Edge N} (hreg : e.edgeReason = EDGE_REGISTER) (hwar : e.dependenceType = DEP_WAR) :
    isCopied e = false := by
  rw [← Bool.not_eq_true, isCopied_iff, hreg, hwar]
  rintro (h | h)
  · cases h
  · cases h.2.1

omit [DecidableEq O] in
theorem isRegisterWar_of_mem_restoredWars {regName : String} {e : Edge N}
    (he : e ∈ g.restoredWars source user regName) : isRegisterWar user regName e = true := by
  obtain ⟨e', -, rfl⟩ := List.mem_map.1 he
  exact isRegisterWar_iff.2 ⟨rfl, rfl, rfl, rfl⟩

/-! ## Guards while undoing -/

section guards
variable (hg : g.IsDependenceGraph) (hj : g.Joined source user raw) (hplain : raw = registerEdge source user raw.data)
  (hincoming : ∀ e ∈ g.rootEdges, e.head = source → isBypassedAntidependence raw.data e = true ∨ isCopied e = true ∨
    (g.node source).isSourceVariable = true ∧ e.tail = user ∧ isCopiedWar raw.data e = true)

include hg hincoming in
omit [DecidableEq O] in
/-- A source that can be bypassed has no guard that is read from a register. -/
theorem not_mem_copies_of_guardUse {e : Edge N} (huse : e.guardUse = true) (hraw : e.dependenceType = DEP_RAW) :
    e ∉ g.copies source user raw.data := by
  intro he
  obtain ⟨e', he', hhead, hnot, rfl⟩ := mem_copies.1 he
  change e'.guardUse = true at huse
  change e'.dependenceType = DEP_RAW at hraw
  have hreg := hg.guardUse e' he' huse
  rcases hincoming e' he' hhead with h | h | ⟨-, -, h⟩
  · rw [h] at hnot
    cases hnot
  · rw [isCopied_iff, hreg, huse] at h
    rcases h with h | h
    · cases h
    · cases h.2.2.2
  · rw [isCopiedWar_iff, hraw] at h
    cases h.2.1

include hg hj hplain hincoming

theorem exclusingGuards_withCopies (a b : N) :
    (g.withCopies source user raw.data).exclusingGuards (g.withCopies source user raw.data).edges a b =
      g.exclusingGuards g.edges a b := by
  apply exclusingGuards_congr
  · intro n
    rw [withCopies_node]
    exact ⟨(setSource_node g source user n).1, (setSource_node g source user n).2.1⟩
  · intro e huse hraw
    have hcopies : ((g.copies source user raw.data).filter g.admitsCopy).count e = 0 := by
      rw [List.count_eq_zero]
      exact fun h => not_mem_copies_of_guardUse hg hincoming huse hraw (List.mem_filter.1 h).1
    rw [← List.count_pos_iff, ← List.count_pos_iff, (count_withCopies hg hj raw.data e).2, hcopies, Nat.add_zero]
    split
    · next hjoins =>
      have hnot : e ∉ g.edges := by
        intro he
        have hmem : e ∈ g.edges.filter (joins source user) := List.mem_filter.2 ⟨he, hjoins⟩
        rw [hj.only, List.mem_singleton] at hmem
        rw [hmem, hplain] at huse
        cases huse
      rw [List.count_eq_zero.2 hnot]
    · rfl

theorem mem_copiedAntidependences_iff {e : Edge N} :
    e ∈ (g.withCopies source user raw.data).copiedAntidependences source user ↔
      (g.node source).isSourceVariable = true ∧ ∃ e' ∈ g.readAntidependences source user, fromUser user e' = e := by
  rw [mem_copiedAntidependences hg hj]
  apply and_congr_right
  intro _
  unfold readAntidependences
  simp only [exclusingGuards_withCopies hg hj hplain hincoming, List.mem_filter, Bool.and_eq_true, decide_eq_true_iff,
    Bool.not_eq_true']
  constructor
  · rintro ⟨e', he', htail, hhead, hreg, hwar, hpseudo, hguards, rfl⟩
    exact ⟨e', ⟨he', htail, ⟨⟨⟨hreg, hwar⟩, hpseudo⟩, hguards⟩, hhead⟩, rfl⟩
  · rintro ⟨e', ⟨he', htail, ⟨⟨⟨hreg, hwar⟩, hpseudo⟩, hguards⟩, hhead⟩, rfl⟩
    exact ⟨e', he', htail, hhead, hreg, hwar, hpseudo, hguards, rfl⟩

end guards

/-! ## Counting edges after undoing -/

/-- The graph before antidependences are restored. -/
def returned (g : BypassGraph N O) (source user : N) (bypassed regName : String) : BypassGraph N O :=
  (g.bypass source user bypassed).returnSource source user regName

theorem unMerge_bypass {bypassed : String} {g' : BypassGraph N O}
    (h : (g.bypass source user bypassed).unMerge source user = .ok g') : ∃ regName,
      (g.node source).destination = .GPR regName ∧
      g' = ((g.returned source user bypassed regName).restoredWars source user regName).foldl connectNodes
        (g.returned source user bypassed regName) := by
  unfold unMerge at h
  rw [bypass_node, (setSource_node g source user source).2.2] at h
  cases hdest : (g.node source).destination with
  | other name =>
    rw [hdest] at h
    cases h
  | GPR regName =>
    rw [hdest] at h
    dsimp only at h
    split at h
    · cases h
    · cases h
      exact ⟨regName, rfl, rfl⟩

section undone
variable (hj : g.Joined source user raw) (regName : String)
include hj

theorem count_returned (e : Edge N) :
    (g.returned source user raw.data regName).rootEdges.count e =
      (if (g.node source).isSourceVariable && (e.tail = user && isCopiedWar regName e) then 0
      else (if e.head = user && isCopied e then 0 else (g.bypass source user raw.data).rootEdges.count e) +
        if e = registerEdge source user regName then 1 else 0) ∧
    (g.returned source user raw.data regName).edges.count e =
      if (g.node source).isSourceVariable && (e.tail = user && isCopiedWar regName e) then 0
      else (if e.head = user && isCopied e then 0 else (g.bypass source user raw.data).edges.count e) +
        if e = registerEdge source user regName && g.admits e then 1 else 0 := by
  have hcount := count_returnSource (g := g.bypass source user raw.data) hj.ne regName e
  rw [bypass_node, setSource_source hj.ne, (bypass_admits g source user raw.data).2] at hcount
  exact hcount

theorem returned_node (n : N) : (g.returned source user raw.data regName).node n =
    if n = user then { g.node user with source := (g.node source).destination, sourceOperation := none }
    else g.node n := by
  have hmove : ((g.bypass source user raw.data).node user).isMove = true := by
    rw [bypass_node, (setSource_node g source user user).1, hj.userMove]
  unfold returned
  rw [returnSource_node hj.ne hmove, bypass_node, bypass_node, bypass_node, setSource_source hj.ne]
  by_cases hn : n = user
  · rw [if_pos hn, if_pos hn]
    unfold setSource
    split <;> simp
  · rw [if_neg hn, if_neg hn]
    unfold setSource
    split <;> exact Function.update_of_ne hn _ _

omit hj in
theorem returned_admits (raw : Edge N) : (g.returned source user raw.data regName).rootAdmits = g.rootAdmits ∧
    (g.returned source user raw.data regName).admits = g.admits := by
  have hsame := bypass_admits g source user raw.data
  have hsame' := returnSource_admits (g.bypass source user raw.data) source user regName
  exact ⟨hsame'.1.trans hsame.1, hsame'.2.trans hsame.2⟩

end undone

section wars
variable (hg : g.IsDependenceGraph) (hj : g.Joined source user raw) (hplain : raw = registerEdge source user raw.data)
  (hincoming : ∀ e ∈ g.rootEdges, e.head = source → isBypassedAntidependence raw.data e = true ∨ isCopied e = true ∨
    (g.node source).isSourceVariable = true ∧ e.tail = user ∧ isCopiedWar raw.data e = true)
include hg hj hplain hincoming

/-- Guards and later writes are the same when antidependences are restored. -/
theorem count_returned_same {e : Edge N} (he : e.guardUse = true ∧ e.dependenceType = DEP_RAW ∨
    e.tail = source ∧ e.edgeReason = EDGE_REGISTER ∧ e.dependenceType = DEP_WAW ∧ e.data = raw.data) :
    (g.returned source user raw.data raw.data).rootEdges.count e = g.rootEdges.count e := by
  have hnotWar : e.dependenceType ≠ DEP_WAR := by
    rcases he with ⟨-, h⟩ | ⟨-, -, h, -⟩ <;> rw [h] <;> exact fun h => by cases h
  have hnotCopiedWar : isCopiedWar raw.data e = false := by
    rw [← Bool.not_eq_true, isCopiedWar_iff]
    exact fun h => hnotWar h.2.1
  have hnotRegisterWar : isRegisterWar user raw.data e = false := by
    rw [← Bool.not_eq_true, isRegisterWar_iff]
    exact fun h => hnotWar h.2.2.1
  have hne : e ≠ registerEdge source user raw.data := by
    rintro rfl
    rcases he with ⟨h, -⟩ | ⟨-, -, h, -⟩ <;> cases h
  have hne' : e ≠ raw := fun h => hne (h.trans hplain)
  have hcopies : (g.copies source user raw.data).count e = 0 := by
    rw [List.count_eq_zero]
    intro hmem
    rcases he with ⟨huse, hraw⟩ | ⟨htail, hreg, hwaw, hdata⟩
    · exact not_mem_copies_of_guardUse hg hincoming huse hraw hmem
    · obtain ⟨e', -, -, hnot, rfl⟩ := mem_copies.1 hmem
      rw [← Bool.not_eq_true, isBypassedAntidependence_iff] at hnot
      exact hnot ⟨hreg, hdata, .inl hwaw⟩
  have hantis : ((g.withCopies source user raw.data).copiedAntidependences source user).count e = 0 := by
    rw [List.count_eq_zero]
    intro hmem
    obtain ⟨-, e', -, -, -, -, hwar, -, -, rfl⟩ := (mem_copiedAntidependences hg hj).1 hmem
    exact hnotWar hwar
  rw [(count_returned hj raw.data e).1, hnotCopiedWar, (count_bypass hg hj e).1, hcopies, hantis, hnotRegisterWar]
  simp only [hne, hne', Bool.and_false, Bool.false_eq_true, if_false, Nat.add_zero, Nat.sub_zero]
  split
  · next h =>
    -- an edge that is like a copied one is no guard, and no edge of the graph
    rw [Bool.and_eq_true, isCopied_iff] at h
    rcases he with ⟨huse, hraw⟩ | ⟨-, hreg, hwaw, -⟩
    · rw [eq_comm, List.count_eq_zero]
      intro hmem
      have hreg := hg.guardUse e hmem huse
      rcases h.2 with h | h
      · rw [hreg] at h
        cases h
      · rw [huse] at h
        cases h.2.2.2
    · rcases h.2 with h | h
      · rw [hreg] at h
        cases h
      · rw [hwaw] at h
        cases h.2.1
  · rfl

theorem restoredWars_returned (hreads : (g.node user).source = (g.node source).destination) :
    ((g.returned source user raw.data raw.data).restoredWars source user raw.data).Perm
      (g.restoredWars source user raw.data) := by
  have hnode : ∀ n, ((g.returned source user raw.data raw.data).node n).isMove = (g.node n).isMove ∧
      ((g.returned source user raw.data raw.data).node n).guard = (g.node n).guard := by
    intro n
    rw [returned_node hj]
    split
    · next h => exact h ▸ ⟨rfl, rfl⟩
    · exact ⟨rfl, rfl⟩
  have huser : (g.returned source user raw.data raw.data).node user =
      { g.node user with source := (g.node source).destination, sourceOperation := none } := by
    rw [returned_node hj, if_pos rfl]
  have hguards := exclusingGuards_congr g.rootEdges
    (g.returned source user raw.data raw.data).rootEdges hnode fun e huse hraw => by
      rw [← List.count_pos_iff, count_returned_same hg hj hplain hincoming (.inl ⟨huse, hraw⟩), List.count_pos_iff]
  unfold restoredWars
  rw [huser, hreads]
  apply List.Perm.map
  rw [List.perm_iff_count]
  intro e
  rw [count_filter_ite, count_filter_ite, hguards]
  split
  · next h =>
    simp only [Bool.and_eq_true, decide_eq_true_iff, and_assoc] at h
    exact count_returned_same hg hj hplain hincoming (.inr ⟨h.1, h.2.1, h.2.2.1, h.2.2.2.1⟩)
  · rfl

end wars

/-! ## What undoing needs -/

omit [DecidableEq N] [DecidableEq O] in
theorem isCopied_registerEdge (source user : N) (regName : String) :
    isCopied (registerEdge source user regName) = true := rfl

omit [DecidableEq O] in
/-- Kinds of edges that are handled apart exclude each other. -/
theorem kinds_of_isCopied (user : N) (regName : String) {e : Edge N} (h : isCopied e = true) :
    isCopiedWar regName e = false ∧ isRegisterWar user regName e = false := by
  constructor
  · rw [← Bool.not_eq_true, isCopiedWar_iff]
    rintro ⟨hreg, hwar, -⟩
    rw [not_isCopied_of_war hreg hwar] at h
    cases h
  · rw [← Bool.not_eq_true, isRegisterWar_iff]
    rintro ⟨-, hreg, hwar, -⟩
    rw [not_isCopied_of_war hreg hwar] at h
    cases h

omit [DecidableEq O] in
theorem kinds_of_isRegisterWar {regName : String} {e : Edge N} (h : isRegisterWar user regName e = true) :
    isCopied e = false ∧ isCopiedWar regName e = false := by
  obtain ⟨-, hreg, hwar, hdata⟩ := isRegisterWar_iff.1 h
  refine ⟨not_isCopied_of_war hreg hwar, ?_⟩
  rw [← Bool.not_eq_true, isCopiedWar_iff]
  exact fun h => h.2.2.1 hdata

/-- A bypass that is undone exactly is one of a graph that is what it is taken for. -/
theorem isRestorable (hg : g.IsDependenceGraph) (hj : g.Joined source user raw) {g' : BypassGraph N O}
    (h : (g.bypass source user raw.data).unMerge source user = .ok g') (hsame : g'.SameAs g) :
    g.IsRestorable source user raw := by
  obtain ⟨regName, hdestination, rfl⟩ := unMerge_bypass h
  rw [foldl_connectNodes] at hsame
  have huser := congrFun hsame.node user
  dsimp only at huser
  rw [returned_node hj, if_pos rfl] at huser
  have hreads : (g.node user).source = (g.node source).destination := by rw [← huser]
  have hwarKind : ∀ e, isRegisterWar user regName e = false →
      ((g.returned source user raw.data regName).restoredWars source user regName).count e = 0 := by
    intro e he
    rw [List.count_eq_zero]
    intro hmem
    rw [isRegisterWar_of_mem_restoredWars hmem] at he
    cases he
  have hcount : ∀ e, (g.returned source user raw.data regName).rootEdges.count e +
      (if g.rootAdmits e then ((g.returned source user raw.data regName).restoredWars source user regName).count e
        else 0) = g.rootEdges.count e := by
    intro e
    rw [← hsame.rootEdges.count_eq e, List.count_append, count_filter_ite, (returned_admits regName raw).1]
  -- edges like copied ones are all removed but for the one that is added
  have hcopied : ∀ e, e.head = user → isCopied e = true →
      g.rootEdges.count e = if e = registerEdge source user regName then 1 else 0 := by
    intro e hhead he
    obtain ⟨hwar, hregisterWar⟩ := kinds_of_isCopied user regName he
    rw [← hcount, (count_returned hj regName e).1, hwarKind e hregisterWar, hwar, he, decide_eq_true hhead]
    simp
  have hregister : registerEdge source user regName = raw := by
    have hraw := hg.admitted raw hj.mem.1
    unfold admits at hraw
    rw [Bool.and_eq_true, Bool.and_eq_true, hj.ends.1, hj.ends.2.1] at hraw
    have hinner := hg.inner (registerEdge source user regName) hraw.1.1 hraw.1.2 rfl
    rw [hcopied _ rfl (isCopied_registerEdge source user regName), if_pos rfl] at hinner
    have hmem : registerEdge source user regName ∈ g.edges.filter (joins source user) :=
      List.mem_filter.2 ⟨List.count_pos_iff.1 hinner, joins_iff.2 ⟨rfl, rfl, rfl⟩⟩
    rwa [hj.only, List.mem_singleton] at hmem
  obtain rfl : regName = raw.data := congrArg (fun e : Edge N => e.data) hregister
  have hrawCopied : isCopied raw = true := hregister ▸ isCopied_registerEdge source user raw.data
  -- other edges are neither copied nor restored
  have hother : ∀ e, ¬ (e.head = user ∧ isCopied e = true) →
      ¬ ((g.node source).isSourceVariable = true ∧ e.tail = user ∧ isCopiedWar raw.data e = true) →
      ¬ (g.sourceIsRegToItselfCopy source = false ∧ isRegisterWar user raw.data e = true) →
      e ∉ g.copies source user raw.data ∧
      e ∉ (g.withCopies source user raw.data).copiedAntidependences source user ∧
      (g.rootAdmits e = true →
        ((g.returned source user raw.data raw.data).restoredWars source user raw.data).count e = 0) := by
    intro e hnotCopied hnotWar hnotRegisterWar
    have hne : e ≠ raw := fun heq => hnotCopied (heq ▸ ⟨hj.ends.2.1, hrawCopied⟩)
    have hne' : e ≠ registerEdge source user raw.data := fun heq => hne (heq.trans hregister)
    have hremoved : (decide (e.head = user) && isCopied e) = false := by
      rw [← Bool.not_eq_true, Bool.and_eq_true, decide_eq_true_iff]
      exact hnotCopied
    have hremovedWar : ((g.node source).isSourceVariable && (decide (e.tail = user) && isCopiedWar raw.data e)) = false := by
      rw [← Bool.not_eq_true, Bool.and_eq_true, Bool.and_eq_true, decide_eq_true_iff]
      exact hnotWar
    have hremovedRegisterWar : (!g.sourceIsRegToItselfCopy source && isRegisterWar user raw.data e) = false := by
      rw [← Bool.not_eq_true, Bool.and_eq_true, Bool.not_eq_true']
      exact hnotRegisterWar
    have hall := hcount e
    rw [(count_returned hj raw.data e).1, (count_bypass hg hj e).1, hremoved, hremovedWar, hremovedRegisterWar] at hall
    simp only [hne, hne', Bool.false_eq_true, if_false, Nat.add_zero, Nat.sub_zero] at hall
    refine ⟨fun hmem => ?_, fun hmem => ?_, fun hadmits => ?_⟩
    · have := List.count_pos_iff.2 hmem
      omega
    · have := List.count_pos_iff.2 hmem
      omega
    · rw [if_pos hadmits] at hall
      omega
  have hincoming : ∀ e ∈ g.rootEdges, e.head = source → isBypassedAntidependence raw.data e = true ∨ isCopied e = true ∨
      (g.node source).isSourceVariable = true ∧ e.tail = user ∧ isCopiedWar raw.data e = true := by
    intro e he hhead
    by_contra hnot
    rw [not_or, not_or, Bool.not_eq_true] at hnot
    have hmem : toUser user e ∈ g.copies source user raw.data := mem_copies.2 ⟨e, he, hhead, hnot.1, rfl⟩
    exact (hother (toUser user e) (fun h => hnot.2.1 h.2) hnot.2.2
      fun h => not_mem_copies_of_isRegisterWar h.2 hmem).1 hmem
  constructor
  · exact hdestination
  · exact hregister.symm
  · exact hreads
  · rw [← huser]
  · intro e he hhead hcopiedEdge
    have hpos := List.count_pos_iff.2 he
    rw [hcopied e hhead hcopiedEdge] at hpos
    split at hpos
    · next heq => exact heq.trans hregister
    · cases hpos
  · exact hincoming
  · intro hvariable e he htail
    by_contra hnot
    rw [Bool.not_eq_false] at hnot
    obtain ⟨hreg, hwar, hdata, -⟩ := isCopiedWar_iff.1 hnot
    have hregisterWar : isRegisterWar user raw.data e = false := by
      rw [← Bool.not_eq_true, isRegisterWar_iff]
      exact fun h => hdata h.2.2.2
    have hall := hcount e
    rw [(count_returned hj raw.data e).1, hvariable, hnot, decide_eq_true htail, hwarKind e hregisterWar] at hall
    have hpos := List.count_pos_iff.2 he
    simp at hall
    omega
  · intro hvariable e he
    have hmem := (mem_copiedAntidependences_iff hg hj hregister.symm hincoming).2 ⟨hvariable, e, he, rfl⟩
    unfold readAntidependences at he
    simp only [List.mem_filter, Bool.and_eq_true, decide_eq_true_iff, Bool.not_eq_true'] at he
    obtain ⟨-, -, ⟨⟨⟨hreg, hwar⟩, hpseudo⟩, -⟩, -⟩ := he
    have hnotCopied : isCopied (fromUser user e) = false := not_isCopied_of_war hreg hwar
    by_contra hnot
    refine (hother (fromUser user e) (fun h => ?_) (fun h => ?_) fun h => ?_).2.1 hmem
    · rw [hnotCopied] at h
      cases h.2
    · obtain ⟨-, -, hdata, -, huse⟩ := isCopiedWar_iff.1 h.2.2
      change e.data ≠ raw.data at hdata
      rw [if_neg hdata] at hnot
      exact hnot huse
    · have hdata : e.data = raw.data := (isRegisterWar_iff.1 h.2).2.2.2
      rw [if_pos hdata] at hnot
      exact hnot h.1
  · refine ((restoredWars_returned hg hj hregister.symm hincoming hreads).filter g.rootAdmits).symm.trans ?_
    rw [List.perm_iff_count]
    intro e
    rw [count_filter_ite]
    by_cases hwar : g.sourceIsRegToItselfCopy source = false ∧ isRegisterWar user raw.data e = true
    · -- as many are restored as were removed from the graph
      obtain ⟨hnotCopied, hnotCopiedWar⟩ := kinds_of_isRegisterWar hwar.2
      have hcopies : (g.copies source user raw.data).count e = 0 :=
        List.count_eq_zero.2 (not_mem_copies_of_isRegisterWar hwar.2)
      have hne : e ≠ raw := by
        rintro rfl
        rw [hrawCopied] at hnotCopied
        cases hnotCopied
      have hne' : e ≠ registerEdge source user raw.data := fun heq => hne (heq.trans hregister)
      have hall := hcount e
      have hsub := hg.sub e
      rw [(count_returned hj raw.data e).1, (count_bypass hg hj e).1, hnotCopied, hnotCopiedWar, hwar.1, hwar.2,
        hcopies] at hall
      simp only [hne, hne', Bool.and_false, Bool.not_false, Bool.and_self, Bool.false_eq_true, if_false, if_true,
        Nat.add_zero, Nat.sub_zero] at hall
      rw [hwar.1, if_neg Bool.false_ne_true, List.count_filter hwar.2]
      omega
    · have hright : (if g.sourceIsRegToItselfCopy source then []
          else g.edges.filter (isRegisterWar user raw.data)).count e = 0 := by
        rw [List.count_eq_zero]
        split
        · exact List.not_mem_nil
        · next hself =>
          rw [Bool.not_eq_true] at hself
          exact fun hmem => hwar ⟨hself, (List.mem_filter.1 hmem).2⟩
      rw [hright, ite_eq_right_iff]
      intro hadmits
      by_cases hkind : isRegisterWar user raw.data e = true
      · obtain ⟨hnotCopied, hnotCopiedWar⟩ := kinds_of_isRegisterWar hkind
        refine (hother e (fun h => ?_) (fun h => ?_) hwar).2.2 hadmits
        · rw [hnotCopied] at h
          cases h.2
        · rw [hnotCopiedWar] at h
          cases h.2.2
      · exact hwarKind e (Bool.not_eq_true _ ▸ hkind)

/-! ## Graphs that are restored -/

theorem returnSource_outputMoves (g : BypassGraph N O) (source merged : N) (regName : String) :
    (g.returnSource source merged regName).outputMoves = (g.unsetSourceOperation merged).outputMoves := by
  unfold returnSource removeCopiedWars
  dsimp only
  split <;> rfl

theorem bypass_outputMoves (g : BypassGraph N O) (source user : N) (regName : String) :
    (g.bypass source user regName).outputMoves = (g.setSource source user).outputMoves := by
  change (((((g.setSource source user).removeEdges (joins source user)).copyInEdges source user
    regName).copyAntidependences source user).removeRegisterWars source user regName).outputMoves = _
  rw [copyAntidependences_eq, copyInEdges_eq]
  unfold removeRegisterWars
  split <;> rfl

theorem setSource_none {source user : N} (hop : (g.node source).sourceOperation = none) : g.setSource source user =
    { g with node := Function.update g.node user { g.node user with source := (g.node source).source } } := by
  unfold setSource
  rw [hop]
  cases (g.node source).isSourceOperation <;> rfl

theorem setSource_some {source user : N} {srcOp : O} (hmove : (g.node source).isMove = true)
    (hop : (g.node source).sourceOperation = some srcOp) : g.setSource source user =
    { g with
      node := Function.update g.node user
        { g.node user with source := (g.node source).source, sourceOperation := some srcOp }
      outputMoves := Function.update g.outputMoves srcOp (g.outputMoves srcOp ++ [user]) } := by
  unfold setSource BypassNode.isSourceOperation
  rw [hmove, hop]
  rfl

theorem unsetSourceOperation_none {merged : N} (hop : (g.node merged).sourceOperation = none) :
    g.unsetSourceOperation merged = g := by
  unfold unsetSourceOperation
  rw [hop]
  cases (g.node merged).isSourceOperation <;> rfl

theorem unsetSourceOperation_some {merged : N} {srcOp : O} (hmove : (g.node merged).isMove = true)
    (hop : (g.node merged).sourceOperation = some srcOp) : (g.unsetSourceOperation merged).outputMoves =
      Function.update g.outputMoves srcOp ((g.outputMoves srcOp).erase merged) := by
  unfold unsetSourceOperation BypassNode.isSourceOperation
  rw [hmove, hop]
  rfl

/-- The operation of the source gets the user for an output move, and loses it. -/
theorem outputMoves_returned (hj : g.Joined source user raw) (hoperation : (g.node user).sourceOperation = none)
    (bypassed regName : String) (op : O) :
    ((g.returned source user bypassed regName).outputMoves op).Perm (g.outputMoves op) := by
  have hnode : (g.bypass source user bypassed).node user = (g.setSource source user).node user :=
    bypass_node g source user user bypassed
  have hmoves := bypass_outputMoves g source user bypassed
  have hmove : ((g.bypass source user bypassed).node user).isMove = true := by
    rw [hnode, (setSource_node g source user user).1, hj.userMove]
  unfold returned
  rw [returnSource_outputMoves]
  cases hop : (g.node source).sourceOperation with
  | none =>
    rw [setSource_none hop] at hnode hmoves
    dsimp only at hnode
    rw [Function.update_self] at hnode
    rw [unsetSourceOperation_none (by rw [hnode]; exact hoperation), hmoves]
  | some srcOp =>
    rw [setSource_some hj.sourceMove hop] at hnode hmoves
    dsimp only at hnode hmoves
    rw [Function.update_self] at hnode
    rw [unsetSourceOperation_some hmove (by rw [hnode]), hmoves]
    by_cases heq : op = srcOp
    · subst heq
      rw [Function.update_self, Function.update_self, List.perm_iff_count]
      intro n
      rw [List.count_erase, List.count_append, List.count_singleton]
      split <;> omega
    · rw [Function.update_of_ne heq, Function.update_of_ne heq]

/-- The edges of a graph that is what it is taken for are restored. -/
theorem unMerge_of_isRestorable (hg : g.IsDependenceGraph) (hj : g.Joined source user raw)
    (hr : g.IsRestorable source user raw) :
    ∃ g', (g.bypass source user raw.data).unMerge source user = .ok g' ∧ g'.SameAs g := by
  have hwars := restoredWars_returned hg hj hr.plain hr.incoming hr.reads
  have hadmitted := (hwars.filter g.rootAdmits).trans hr.wars
  -- restored antidependences are those that were removed
  have hcountWars : ∀ e, (if g.rootAdmits e then
      ((g.returned source user raw.data raw.data).restoredWars source user raw.data).count e else 0) =
      if !g.sourceIsRegToItselfCopy source && isRegisterWar user raw.data e then g.edges.count e else 0 := by
    intro e
    rw [← count_filter_ite, hadmitted.count_eq]
    cases g.sourceIsRegToItselfCopy source with
    | true => simp
    | false => simp [count_filter_ite]
  have hcopies : ∀ e ∈ g.copies source user raw.data, e.head = user ∧ isCopied e = true ∨
      (g.node source).isSourceVariable = true ∧ e.tail = user ∧ isCopiedWar raw.data e = true := by
    intro e he
    obtain ⟨e', he', hhead, hnot, rfl⟩ := mem_copies.1 he
    rcases hr.incoming e' he' hhead with h | h | h
    · rw [h] at hnot
      cases hnot
    · exact .inl ⟨rfl, h⟩
    · exact .inr h
  have hantis : ∀ e ∈ (g.withCopies source user raw.data).copiedAntidependences source user,
      (g.node source).isSourceVariable = true ∧ e.tail = user ∧ isCopiedWar raw.data e = true ∨
      g.sourceIsRegToItselfCopy source = false ∧ isRegisterWar user raw.data e = true := by
    intro e he
    obtain ⟨hvariable, e', he', rfl⟩ := (mem_copiedAntidependences_iff hg hj hr.plain hr.incoming).1 he
    have hkept := hr.antidependences hvariable e' he'
    unfold readAntidependences at he'
    simp only [List.mem_filter, Bool.and_eq_true, decide_eq_true_iff, Bool.not_eq_true'] at he'
    obtain ⟨-, -, ⟨⟨⟨hreg, hwar⟩, hpseudo⟩, -⟩, -⟩ := he'
    by_cases hdata : e'.data = raw.data
    · rw [if_pos hdata] at hkept
      exact .inr ⟨hkept, isRegisterWar_iff.2 ⟨rfl, hreg, hwar, hdata⟩⟩
    · rw [if_neg hdata] at hkept
      exact .inl ⟨hvariable, rfl, isCopiedWar_iff.2 ⟨hreg, hwar, hdata, hpseudo, hkept⟩⟩
  have hrawCount : g.rootEdges.count raw = 1 ∧ g.edges.count raw = 1 := by
    have hthis : g.edges.count raw = 1 := by
      rw [← List.count_filter hj.mem.2, hj.only, List.count_singleton_self]
    have hraw := hg.admitted raw hj.mem.1
    unfold admits at hraw
    rw [Bool.and_eq_true, Bool.and_eq_true] at hraw
    have hinner := hg.inner raw hraw.1.1 hraw.1.2 (by rw [hr.plain]; rfl)
    have hsub := hg.sub raw
    omega
  -- what undoing leaves of each kind of edges, in the root graph and in the graph
  have hcount : ∀ e, (g.returned source user raw.data raw.data).rootEdges.count e +
      (if !g.sourceIsRegToItselfCopy source && isRegisterWar user raw.data e then g.edges.count e else 0) =
      g.rootEdges.count e ∧ (g.returned source user raw.data raw.data).edges.count e +
      (if !g.sourceIsRegToItselfCopy source && isRegisterWar user raw.data e then g.edges.count e else 0) =
      g.edges.count e := by
    intro e
    have hsub := hg.sub e
    rw [(count_returned hj raw.data e).1, (count_bypass hg hj e).1, (count_returned hj raw.data e).2,
      (count_bypass hg hj e).2, ← hr.plain]
    by_cases hcopied : e.head = user ∧ isCopied e = true
    · obtain ⟨hwar, hregisterWar⟩ := kinds_of_isCopied user raw.data hcopied.2
      rw [hwar, hregisterWar, hcopied.2, decide_eq_true hcopied.1]
      by_cases heq : e = raw
      · have hadmits := hg.admitted raw hj.mem.1
        rw [← heq] at hadmits hrawCount
        simp [← heq, hrawCount, hadmits]
      · have hnot : g.rootEdges.count e = 0 := List.count_eq_zero.2 fun h => heq (hr.only e h hcopied.1 hcopied.2)
        have hnot' : g.edges.count e = 0 := by omega
        simp [heq, hnot, hnot']
    have hremoved : (decide (e.head = user) && isCopied e) = false := by
      rw [← Bool.not_eq_true, Bool.and_eq_true, decide_eq_true_iff]
      exact hcopied
    have hne : e ≠ raw := fun heq => hcopied (heq ▸ ⟨hj.ends.2.1, hr.plain ▸ isCopied_registerEdge source user raw.data⟩)
    by_cases hcopiedWar : (g.node source).isSourceVariable = true ∧ e.tail = user ∧ isCopiedWar raw.data e = true
    · obtain ⟨hvariable, htail, hwar⟩ := hcopiedWar
      have hregisterWar : isRegisterWar user raw.data e = false := by
        rw [← Bool.not_eq_true, isRegisterWar_iff]
        exact fun h => (isCopiedWar_iff.1 hwar).2.2.1 h.2.2.2
      have hnot : g.rootEdges.count e = 0 := by
        rw [List.count_eq_zero]
        intro h
        rw [hr.outgoing hvariable e h htail] at hwar
        cases hwar
      have hnot' : g.edges.count e = 0 := by omega
      simp [hvariable, htail, hwar, hregisterWar, hnot, hnot']
    have hremovedWar : ((g.node source).isSourceVariable && (decide (e.tail = user) && isCopiedWar raw.data e)) = false := by
      rw [← Bool.not_eq_true, Bool.and_eq_true, Bool.and_eq_true, decide_eq_true_iff]
      exact hcopiedWar
    have hnoCopy : (g.copies source user raw.data).count e = 0 := by
      rw [List.count_eq_zero]
      intro h
      rcases hcopies e h with h | h
      · exact hcopied h
      · exact hcopiedWar h
    have hnoCopy' : ((g.copies source user raw.data).filter g.admitsCopy).count e = 0 := by
      rw [count_filter_ite, hnoCopy, ite_self]
    rw [hremoved, hremovedWar, hnoCopy, hnoCopy']
    by_cases hregisterWar : g.sourceIsRegToItselfCopy source = false ∧ isRegisterWar user raw.data e = true
    · rw [hregisterWar.1, hregisterWar.2]
      simp only [hne, Bool.false_eq_true, if_false, Bool.not_false, Bool.and_self, if_true, Nat.sub_zero, Nat.add_zero,
        decide_false, Bool.false_and]
      omega
    · have hnoWar : (!g.sourceIsRegToItselfCopy source && isRegisterWar user raw.data e) = false := by
        rw [← Bool.not_eq_true, Bool.and_eq_true, Bool.not_eq_true']
        exact hregisterWar
      have hnoAnti : ((g.withCopies source user raw.data).copiedAntidependences source user).count e = 0 := by
        rw [List.count_eq_zero]
        intro h
        rcases hantis e h with h | h
        · exact hcopiedWar h
        · exact hregisterWar h
      have hjoins : (if joins source user e then 0 else g.edges.count e) = g.edges.count e := by
        rw [ite_eq_right_iff]
        intro h
        rw [eq_comm, List.count_eq_zero]
        intro he
        have hmem : e ∈ g.edges.filter (joins source user) := List.mem_filter.2 ⟨he, h⟩
        rw [hj.only, List.mem_singleton] at hmem
        exact hne hmem
      rw [hnoWar, hnoAnti, hjoins]
      simp [hne]
  refine ⟨((g.returned source user raw.data raw.data).restoredWars source user raw.data).foldl connectNodes
    (g.returned source user raw.data raw.data), ?_, ?_⟩
  · -- the antidependences are ones of the graph, so that their loop depths fit
    have hdepth : ∀ e ∈ (g.returned source user raw.data raw.data).restoredWars source user raw.data,
        e.loopDepth < 255 := by
      intro e he
      have hpos := List.count_pos_iff.2 he
      by_cases hrootAdmits : g.rootAdmits e = true
      · have hsame := hcountWars e
        rw [if_pos hrootAdmits] at hsame
        have hmem : e ∈ g.edges := by
          by_contra hnot
          rw [List.count_eq_zero.2 hnot, ite_self] at hsame
          omega
        exact hg.loopDepth e (hg.mem_root hmem)
      · obtain ⟨e', he', rfl⟩ := List.mem_map.1 (hwars.mem_iff.1 he)
        have hadmits := hg.rootAdmitted e' (List.mem_filter.1 he').1
        unfold rootAdmits at hadmits hrootAdmits
        rw [Bool.or_eq_true, not_or, Bool.not_eq_true] at hrootAdmits
        rw [hrootAdmits.1, Bool.false_or, Bool.not_eq_true'] at hadmits
        have hzero : e'.loopDepth = 0 := by
          unfold DataDependenceEdge.isBackEdge at hadmits
          simpa using hadmits
        dsimp only [warOf]
        rw [hzero]
        cases decide ((g.node user).source = (g.node user).destination) <;> decide
    unfold unMerge
    rw [bypass_node, (setSource_node g source user source).2.2, hr.destination]
    dsimp only
    rw [if_neg]
    · rfl
    · rw [List.any_eq_true]
      rintro ⟨e, he, hle⟩
      have := hdepth e he
      have := of_decide_eq_true hle
      omega
  rw [foldl_connectNodes]
  obtain ⟨hrootAdmits, hadmits⟩ := returned_admits (g := g) raw.data raw
  constructor
  · funext n
    dsimp only
    rw [returned_node hj]
    split
    · next h => rw [← hr.reads, ← hr.operation, h]
    · rfl
  · exact outputMoves_returned hj hr.operation raw.data raw.data
  · rw [List.perm_iff_count]
    intro e
    dsimp only
    rw [List.count_append, count_filter_ite, hrootAdmits, hcountWars, (hcount e).1]
  · rw [List.perm_iff_count]
    intro e
    dsimp only
    rw [List.count_append, count_filter_ite, hadmits, ← (hcount e).2, ← hcountWars]
    congr 1
    by_cases he : g.admits e = true
    · rw [if_pos he, if_pos (hg.rootAdmits_of_admits he)]
    · have hnot : g.edges.count e = 0 := List.count_eq_zero.2 fun h => he (hg.admitted e h)
      rw [if_neg he, hcountWars, hnot, ite_self]

/-! ## Cycles -/

/-- A bypass closes no cycle if no antidependence of the source leads to the user. -/
theorem acyclic_bypass (hg : g.IsDependenceGraph) (hj : g.Joined source user raw) (hacyclic : Acyclic g.IsForwardEdge)
    (hpath : g.hasAntidependencePath source user = false) (hr : g.IsRestorable source user raw) :
    Acyclic (g.bypass source user raw.data).IsForwardEdge := by
  have hrawBack : raw.isBackEdge = false := by rw [hr.plain]; rfl
  have hraw : g.IsForwardEdge source user := ⟨raw, hj.mem.1, hj.ends.1, hj.ends.2.1, hrawBack⟩
  have hinsert := hacyclic.insert (u := user)
    (q := fun t => t ≠ user ∧ ¬ Relation.TransGen g.IsForwardEdge t user) fun t ht => ht
  have hedge : ∀ a b, (g.bypass source user raw.data).IsForwardEdge a b →
      Relation.TransGen g.IsForwardEdge a b ∨ a = user ∧ b ≠ user ∧ ¬ Relation.TransGen g.IsForwardEdge b user := by
    rintro a b ⟨e, he, rfl, rfl, hback⟩
    have hpos := List.count_pos_iff.2 he
    rw [(count_bypass hg hj e).2] at hpos
    split at hpos
    · cases hpos
    by_cases hold : e ∈ g.edges
    · exact .inl (.single ⟨e, hold, rfl, rfl, hback⟩)
    by_cases hcopy : e ∈ (g.copies source user raw.data).filter g.admitsCopy
    · -- a copied edge shortens a path over the source
      obtain ⟨hcopy, hadmits⟩ := List.mem_filter.1 hcopy
      obtain ⟨e', he', hhead, -, rfl⟩ := mem_copies.1 hcopy
      unfold admitsCopy admits at hadmits
      rw [Bool.and_eq_true, Bool.and_eq_true, Bool.and_eq_true] at hadmits
      have hnodes := hg.admitted raw hj.mem.1
      unfold admits at hnodes
      rw [Bool.and_eq_true, Bool.and_eq_true, hj.ends.1] at hnodes
      have hinner := hg.inner e' hadmits.2.1.1 (hhead ▸ hnodes.1.1) hback
      have hmem := List.count_pos_iff.1 (Nat.lt_of_lt_of_le (List.count_pos_iff.2 he') hinner)
      exact .inl (.head ⟨e', hmem, rfl, hhead, hback⟩ (.single hraw))
    by_cases hanti : e ∈ (g.withCopies source user raw.data).copiedAntidependences source user
    · obtain ⟨-, e', he', rfl⟩ := (mem_copiedAntidependences_iff hg hj hr.plain hr.incoming).1 hanti
      unfold readAntidependences at he'
      simp only [List.mem_filter, Bool.and_eq_true, decide_eq_true_iff, Bool.not_eq_true'] at he'
      obtain ⟨hmem, htail, ⟨⟨⟨hreg, hwar⟩, hpseudo⟩, hguards⟩, hhead⟩ := he'
      refine .inr ⟨rfl, hhead, fun hcycle => ?_⟩
      unfold hasAntidependencePath at hpath
      rw [List.any_eq_false] at hpath
      have hnot := hpath e' (List.mem_filter.2 ⟨hmem, decide_eq_true htail⟩)
      have hpathUser : g.hasPath e'.head user = true := hasPath_iff.2 (.inr hcycle)
      rw [hreg, hwar, hpseudo, hguards, decide_eq_true hhead, hpathUser] at hnot
      exact hnot rfl
    · rw [List.count_eq_zero.2 hold, List.count_eq_zero.2 hcopy, List.count_eq_zero.2 hanti, ite_self] at hpos
      cases hpos
  intro a ha
  exact hinsert a (Relation.TransGen.mono hedge _ _ ha)

/-- A bypass is undone exactly if it fails, or the graph is what undoing takes it for. -/
theorem isUndone_iff (hg : g.IsDependenceGraph) (hacyclic : Acyclic g.IsForwardEdge) (hj : g.Joined source user raw) :
    g.IsUndone source user ↔ g.hasAntidependencePath source user = true ∨ g.IsRestorable source user raw := by
  unfold IsUndone
  rw [mergeAndKeep_eq hg hj]
  cases hpath : g.hasAntidependencePath source user with
  | true =>
    refine ⟨fun _ => .inl rfl, fun _ merged g' h => ?_⟩
    cases h
    exact ⟨fun _ => rfl, fun h => by cases h⟩
  | false =>
    constructor
    · intro h
      obtain ⟨-, g', hundo, hsame⟩ := (h true _ rfl).2 rfl
      exact .inr (isRestorable hg hj hundo hsame)
    · intro h merged g' heq
      have hr := h.resolve_left Bool.false_ne_true
      cases heq
      refine ⟨fun hfalse => ?_, fun _ => ?_⟩
      · cases hfalse
      · exact ⟨acyclic_bypass hg hj hacyclic hpath hr, unMerge_of_isRestorable hg hj hr⟩

/-! ## Bypasses that are undone and not -/

/-- A root graph of moves in their order. -/
def rootGraph (node : Nat → BypassNode Nat) (outputMoves : Nat → List Nat) (edges : List (Edge Nat)) :
    BypassGraph Nat Nat where
  node := node
  outputMoves := outputMoves
  isRoot := true
  hasNode _ := true
  allowLoopEdges := true
  edges := edges
  rootAllowsLoopEdges := true
  rootEdges := edges

theorem isDependenceGraph_rootGraph {node : Nat → BypassNode Nat} {outputMoves : Nat → List Nat}
    {edges : List (Edge Nat)}
    (hedges : ∀ e ∈ edges, (e.guardUse = true → e.edgeReason = EDGE_REGISTER) ∧
      (e.edgeReason = EDGE_REGISTER → e.data ≠ "") ∧ e.loopDepth < 255) :
    (rootGraph node outputMoves edges).IsDependenceGraph where
  sub _ := Nat.le_refl _
  admitted _ _ := rfl
  inner _ _ _ _ := Nat.le_refl _
  rootAdmitted _ _ := rfl
  loops := id
  guardUse e he := (hedges e he).1
  named e he := (hedges e he).2.1
  loopDepth e he := (hedges e he).2.2

theorem acyclic_rootGraph {node : Nat → BypassNode Nat} {outputMoves : Nat → List Nat} {edges : List (Edge Nat)}
    (hedges : ∀ e ∈ edges, e.tail < e.head) : Acyclic (rootGraph node outputMoves edges).IsForwardEdge := by
  apply acyclic_of_rank id
  rintro a b ⟨e, he, rfl, rfl, -⟩
  exact hedges e he

/-- A result that is read from the register it is written to. -/
def addResult : BypassGraph Nat Nat :=
  rootGraph (fun
    | 0 => ⟨true, .GPR "RF.1", .other "ALU.1", none, none⟩
    | 1 => ⟨true, .other "ALU.3", .GPR "RF.2", none, some 0⟩
    | _ => ⟨true, .GPR "RF.2", .GPR "RF.3", none, none⟩) (fun _ => [1])
    [⟨⟨EDGE_OPERATION, DEP_UNKNOWN, "ADD", false, false, false, false, 0⟩, 0, 1⟩, registerEdge 1 2 "RF.2"]

theorem isUndone_addResult : addResult.IsUndone 1 2 := by
  have hg : addResult.IsDependenceGraph := isDependenceGraph_rootGraph (by decide)
  have hacyclic : Acyclic addResult.IsForwardEdge := acyclic_rootGraph (by decide)
  have hj : addResult.Joined 1 2 (registerEdge 1 2 "RF.2") := ⟨by decide, rfl, rfl, by decide +kernel, rfl⟩
  apply (isUndone_iff hg hacyclic hj).2
  right
  constructor
  · rfl
  · rfl
  · rfl
  · rfl
  · decide
  · decide
  · decide
  · decide
  · decide +kernel

/-- A register that is copied and read under the same guard. -/
def guardedCopy : BypassGraph Nat Nat :=
  rootGraph (fun
    | 0 => ⟨true, .other "ALU.3", .GPR "bool.0", none, none⟩
    | 1 => ⟨true, .GPR "RF.1", .GPR "RF.2", some false, none⟩
    | _ => ⟨true, .GPR "RF.2", .GPR "RF.3", some false, none⟩) (fun _ => [])
    [⟨⟨EDGE_REGISTER, DEP_RAW, "bool.0", true, false, false, false, 0⟩, 0, 1⟩,
      ⟨⟨EDGE_REGISTER, DEP_RAW, "bool.0", true, false, false, false, 0⟩, 0, 2⟩, registerEdge 1 2 "RF.2"]

/-- The copy of the guard of the source stays. -/
theorem not_isUndone_guardedCopy : guardedCopy.IsDependenceGraph ∧ Acyclic guardedCopy.IsForwardEdge ∧
    guardedCopy.Joined 1 2 (registerEdge 1 2 "RF.2") ∧ ¬ guardedCopy.IsUndone 1 2 := by
  have hg : guardedCopy.IsDependenceGraph := isDependenceGraph_rootGraph (by decide)
  have hj : guardedCopy.Joined 1 2 (registerEdge 1 2 "RF.2") := ⟨by decide, rfl, rfl, by decide +kernel, rfl⟩
  refine ⟨hg, acyclic_rootGraph (by decide), hj, fun hundone => ?_⟩
  have hmerge := mergeAndKeep_eq hg hj
  have hpath : guardedCopy.hasAntidependencePath 1 2 = false := by decide +kernel
  rw [hpath] at hmerge
  obtain ⟨-, g', hundo, hsame⟩ := (hundone true _ hmerge).2 rfl
  have hlength : ((guardedCopy.bypass 1 2 "RF.2").unMerge 1 2).map (fun g => g.rootEdges.length) = .ok 4 := by
    decide +kernel
  change (guardedCopy.bypass 1 2 "RF.2").unMerge 1 2 = .ok g' at hundo
  rw [hundo] at hlength
  have hfour : g'.rootEdges.length = 4 := Except.ok.inj hlength
  rw [hsame.rootEdges.length_eq] at hfour
  cases hfour

end BypassGraph

end Tce.DDG
