import Tce.ResourceManager.TransportResources

/-!
# Sharing of output sockets

The reads that are assigned to a socket, by instruction index, and the port that
is stored for the index. An assignment is tested against the stored port; the
removal of any of the reads erases it, whatever reads are left.
-/

namespace Tce.ResourceManager

inductive UnitKind where
  | functionUnit
  | registerFile
  | immediateUnit
  deriving DecidableEq

def MachineUnit.kind : MachineUnit → UnitKind
  | functionUnit _ => .functionUnit
  | registerFile _ => .registerFile
  | immediateUnit _ => .immediateUnit

def PortSource.kind : PortSource → UnitKind
  | FUPort _ => .functionUnit
  | GPR .. => .registerFile
  | immediateRegister .. => .immediateUnit

/-- What the moves of the nodes read, from ports of units of the kind. -/
structure SocketReads (N : Type) where
  use : N → SocketUse
  kind : ∀ node, (use node).source.port.parentUnit.kind = (use node).source.kind

/-- The nodes that are assigned to the socket, and the port that is read, by instruction index. -/
structure SocketRecord (N : Type) where
  resourceRecord : Nat → Finset N
  storedPorts : Nat → Option Port

namespace SocketRecord
variable {N : Type} [DecidableEq N] (reads : SocketReads N) (initiationInterval : Nat) (s : SocketRecord N)

def empty : SocketRecord N := ⟨fun _ => ∅, fun _ => none⟩

/-- `OutputPSocketResource::canAssign`: the reads of the cycle itself are tested, not those of its index. -/
def canAssign (cycle : Nat) (node : N) : Bool :=
  let stored := s.storedPorts (instructionIndex initiationInterval cycle)
  match (reads.use node).source with
  | .FUPort port => stored.all fun storedPort => port == storedPort
  | .immediateRegister .. => stored.isNone
  | .GPR registerFile port index =>
    stored.all (fun storedPort => port.parentUnit == storedPort.parentUnit) &&
      decide (∀ mn ∈ s.resourceRecord cycle,
        (PortSource.GPR registerFile port index).mayShare (reads.use node).guard (reads.use mn) = true)

/-- The port is stored if none is. -/
def assign (cycle : Nat) (node : N) : SocketRecord N :=
  let index := instructionIndex initiationInterval cycle
  { resourceRecord := Function.update s.resourceRecord index (insert node (s.resourceRecord index))
    storedPorts := if (s.storedPorts index).isNone then
        Function.update s.storedPorts index (some (reads.use node).source.port)
      else s.storedPorts }

def isInUse (cycle : Nat) : Bool := decide (s.resourceRecord (instructionIndex initiationInterval cycle) ≠ ∅)

def unassign (cycle : Nat) (node : N) : Except BrokerError (SocketRecord N) :=
  let index := instructionIndex initiationInterval cycle
  if s.isInUse initiationInterval cycle then
    .ok ⟨Function.update s.resourceRecord index ((s.resourceRecord index).erase node),
      Function.update s.storedPorts index none⟩
  else .error (.invalidData "PSocket was not assigned so it can not be unassigned!")

inductive Call (N : Type) where
  | assign (cycle : Nat) (node : N)
  | unassign (cycle : Nat) (node : N)

/-- An assignment after a test, or the removal of a node that is assigned. -/
inductive Step : SocketRecord N → Call N → SocketRecord N → Prop
  | assign {s : SocketRecord N} {cycle : Nat} {node : N} : s.canAssign reads initiationInterval cycle node = true →
    Step s (.assign cycle node) (s.assign reads initiationInterval cycle node)
  | unassign {s t : SocketRecord N} {cycle : Nat} {node : N} :
    node ∈ s.resourceRecord (instructionIndex initiationInterval cycle) →
    s.unassign initiationInterval cycle node = .ok t → Step s (.unassign cycle node) t

/-- The states that calls reach which meet a condition. -/
inductive Reached (meets : SocketRecord N → Call N → Prop) : SocketRecord N → Prop
  | empty : Reached meets empty
  | step {s t : SocketRecord N} {call : Call N} : Reached meets s → meets s call →
    Step reads initiationInterval s call t → Reached meets t

end SocketRecord

/-- Two reads may be in one instruction: of one port of a function unit, of one register, or of two registers
of a file with opposite guards. -/
def SocketUse.Compatible (u v : SocketUse) : Prop :=
  match u.source, v.source with
  | .FUPort port, .FUPort port' => port = port'
  | .GPR _ port index, .GPR _ port' index' => port.parentUnit = port'.parentUnit ∧
      (index = index' ∨ ∃ guard guard', u.guard = some guard ∧ v.guard = some guard' ∧ guard.isOpposite guard' = true)
  | _, _ => False

namespace SocketRecord
variable {N : Type} [DecidableEq N] {reads : SocketReads N} {initiationInterval : Nat} {s : SocketRecord N}

omit [DecidableEq N] in
/-- The test is that of the socket with the reads of the nodes. -/
theorem canAssign_eq {resource : OutputPSocketResource} {cycle : Nat} {node : N} {move : Move}
    (hrecord : ∀ i use, use ∈ resource.resourceRecord i ↔ ∃ mn ∈ s.resourceRecord i, reads.use mn = use)
    (hstored : resource.storedPorts = s.storedPorts) (hsource : move.source = .port (reads.use node).source)
    (hguard : move.guard = (reads.use node).guard) :
    resource.canAssign initiationInterval cycle move = s.canAssign reads initiationInterval cycle node := by
  unfold OutputPSocketResource.canAssign canAssign
  rw [hstored, hsource, hguard]
  cases (reads.use node).source with
  | FUPort | immediateRegister => rfl
  | GPR file port index =>
    dsimp only
    congr 1
    rw [Bool.eq_iff_iff, List.all_eq_true, decide_eq_true_eq]
    constructor
    · exact fun h mn hmn => h _ ((hrecord cycle _).2 ⟨mn, hmn, rfl⟩)
    · intro h use huse
      obtain ⟨mn, hmn, rfl⟩ := (hrecord cycle use).1 huse
      exact h mn hmn

/-- In every instruction the reads are compatible. -/
def Shares (reads : SocketReads N) (s : SocketRecord N) : Prop :=
  ∀ i, ∀ u ∈ s.resourceRecord i, ∀ v ∈ s.resourceRecord i, u ≠ v → (reads.use u).Compatible (reads.use v)

/-- The port of the instruction is known if it has reads, and for a register the reads of its cycle are those
of its instruction. -/
def Checked (reads : SocketReads N) (initiationInterval : Nat) (s : SocketRecord N) : Call N → Prop
  | .assign cycle node =>
    let index := instructionIndex initiationInterval cycle
    s.resourceRecord index ≠ ∅ → s.storedPorts index ≠ none ∧
      (∀ registerFile port i, (reads.use node).source = .GPR registerFile port i → index = cycle)
  | .unassign _ _ => True

/-- The read is one of the stored port, or for a register of its unit. -/
def ReadsPort (port : Port) (source : PortSource) : Prop :=
  match source with
  | .FUPort p | .immediateRegister _ p _ => p = port
  | .GPR _ p _ => p.parentUnit = port.parentUnit

structure Inv (reads : SocketReads N) (s : SocketRecord N) : Prop where
  stored : ∀ i port, s.storedPorts i = some port →
    s.resourceRecord i ≠ ∅ ∧ ∀ u ∈ s.resourceRecord i, ReadsPort port (reads.use u).source
  shares : Shares reads s

omit [DecidableEq N] in
theorem inv_empty : Inv reads empty where
  stored i port h := by cases h
  shares i u h := absurd h (Finset.notMem_empty u)

theorem compatible_symm {u v : SocketUse} (h : u.Compatible v) : v.Compatible u := by
  unfold SocketUse.Compatible at h ⊢
  split at h
  · next hu hv =>
    rw [hu, hv]
    exact h.symm
  · next hu hv =>
    rw [hu, hv]
    refine ⟨h.1.symm, h.2.imp Eq.symm ?_⟩
    rintro ⟨guard, guard', hg, hg', hopposite⟩
    exact ⟨guard', guard, hg', hg, Guard.isOpposite_symm hopposite⟩
  · exact h.elim

theorem ReadsPort.parentUnit {port : Port} {source : PortSource} (h : ReadsPort port source) :
    source.port.parentUnit = port.parentUnit := by
  cases source with
  | FUPort p => exact congrArg Port.parentUnit h
  | GPR _ p _ => exact h
  | immediateRegister _ p _ => exact congrArg Port.parentUnit h

omit [DecidableEq N] in
/-- A test that knows the port accepts only reads of the port, or of registers of its unit. -/
theorem readsPort_of_canAssign {cycle : Nat} {node : N} {port : Port}
    (hcan : s.canAssign reads initiationInterval cycle node = true)
    (hstored : s.storedPorts (instructionIndex initiationInterval cycle) = some port) :
    ReadsPort port (reads.use node).source ∧ (reads.use node).source.kind ≠ .immediateUnit := by
  unfold canAssign at hcan
  rw [hstored] at hcan
  cases hsource : (reads.use node).source with
  | FUPort p =>
    rw [hsource] at hcan
    exact ⟨beq_iff_eq.1 hcan, nofun⟩
  | immediateRegister iu p i =>
    rw [hsource] at hcan
    cases hcan
  | GPR file p i =>
    rw [hsource] at hcan
    dsimp only [Option.all_some] at hcan
    rw [Bool.and_eq_true, beq_iff_eq] at hcan
    exact ⟨hcan.1, nofun⟩

/-- Registers of one file that may share have one index or opposite guards. -/
theorem same_register_of_mayShare {file file' : RegisterFile} {p q : Port} {i j : Nat} {guard : Option Guard}
    {use : SocketUse} (hsource : use.source = .GPR file' q j)
    (h : (PortSource.GPR file p i).mayShare guard use = true) :
    i = j ∨ ∃ g g', guard = some g ∧ use.guard = some g' ∧ g.isOpposite g' = true := by
  unfold PortSource.mayShare at h
  rw [hsource] at h
  split at h
  · next g g' hguard' =>
    rw [Bool.or_eq_true] at h
    refine h.symm.imp (fun heq => ?_) fun hopposite => ⟨g, g', rfl, hguard', hopposite⟩
    rw [PortSource.equals, Bool.and_eq_true, beq_iff_eq] at heq
    exact heq.1
  · rw [Bool.and_eq_true, beq_iff_eq, beq_iff_eq] at h
    exact .inl (Option.some.inj h.2)

omit [DecidableEq N] in
/-- Reads of one port of a function unit are compatible, and so are those of registers that may share. -/
theorem compatible_of_canAssign {cycle : Nat} {node u : N} {port : Port}
    (hcan : s.canAssign reads initiationInterval cycle node = true)
    (hstored : s.storedPorts (instructionIndex initiationInterval cycle) = some port)
    (hu : u ∈ s.resourceRecord (instructionIndex initiationInterval cycle))
    (hreads : ReadsPort port (reads.use u).source)
    (hindex : ∀ registerFile port i, (reads.use node).source = .GPR registerFile port i →
      instructionIndex initiationInterval cycle = cycle) :
    (reads.use node).Compatible (reads.use u) := by
  obtain ⟨hnode, himmediate⟩ := readsPort_of_canAssign hcan hstored
  have hunit : (reads.use node).source.port.parentUnit = (reads.use u).source.port.parentUnit :=
    hnode.parentUnit.trans hreads.parentUnit.symm
  have hkind : (reads.use node).source.kind = (reads.use u).source.kind := by
    rw [← reads.kind node, ← reads.kind u, hunit]
  unfold canAssign at hcan
  unfold SocketUse.Compatible
  cases hsource : (reads.use node).source with
  | FUPort p =>
    cases hother : (reads.use u).source with
    | FUPort q =>
      rw [hsource] at hnode
      rw [hother] at hreads
      exact hnode.trans hreads.symm
    | GPR | immediateRegister =>
      rw [hsource, hother] at hkind
      cases hkind
  | immediateRegister iu p i =>
    rw [hsource] at himmediate
    exact absurd rfl himmediate
  | GPR file p i =>
    cases hother : (reads.use u).source with
    | FUPort | immediateRegister =>
      rw [hsource, hother] at hkind
      cases hkind
    | GPR file' q j =>
      rw [hsource, hother] at hunit
      rw [hsource] at hcan
      dsimp only at hcan
      rw [Bool.and_eq_true, decide_eq_true_eq, ← hindex file p i hsource] at hcan
      exact ⟨hunit, same_register_of_mayShare hother (hcan.2 u hu)⟩

theorem readsPort_self (source : PortSource) : ReadsPort source.port source := by
  cases source <;> rfl

theorem inv_assign {cycle : Nat} {node : N} (hs : Inv reads s)
    (hcan : s.canAssign reads initiationInterval cycle node = true)
    (hchecked : Checked reads initiationInterval s (.assign cycle node)) :
    Inv reads (s.assign reads initiationInterval cycle node) := by
  -- the port after the assignment, which all reads of the instruction fit
  have hport : ∃ port, (s.assign reads initiationInterval cycle node).storedPorts =
        Function.update s.storedPorts (instructionIndex initiationInterval cycle) (some port) ∧
      ReadsPort port (reads.use node).source ∧
      ∀ u ∈ s.resourceRecord (instructionIndex initiationInterval cycle), ReadsPort port (reads.use u).source ∧
        (reads.use node).Compatible (reads.use u) := by
    unfold assign
    dsimp only
    cases hstored : s.storedPorts (instructionIndex initiationInterval cycle) with
    | none =>
      refine ⟨(reads.use node).source.port, if_pos rfl, readsPort_self _, fun u hu => ?_⟩
      exact absurd hstored (hchecked (Finset.ne_empty_of_mem hu)).1
    | some port =>
      have hreads := (hs.stored _ port hstored).2
      refine ⟨port, ?_, (readsPort_of_canAssign hcan hstored).1, fun u hu => ⟨hreads u hu, ?_⟩⟩
      · conv_rhs => rw [← hstored, Function.update_eq_self]
        exact if_neg Bool.false_ne_true
      · exact compatible_of_canAssign hcan hstored hu (hreads u hu) (hchecked (Finset.ne_empty_of_mem hu)).2
  obtain ⟨port, hstored, hnode, hothers⟩ := hport
  constructor
  · intro i port' hport'
    rw [hstored] at hport'
    dsimp only [assign]
    by_cases heq : i = instructionIndex initiationInterval cycle
    · subst heq
      rw [Function.update_self] at hport' ⊢
      obtain rfl := Option.some.inj hport'
      refine ⟨Finset.insert_ne_empty _ _, fun u hu => ?_⟩
      rcases Finset.mem_insert.1 hu with rfl | hu
      · exact hnode
      · exact (hothers u hu).1
    · rw [Function.update_of_ne heq] at hport' ⊢
      exact hs.stored i port' hport'
  · intro i u hu v hv hne
    dsimp only [assign] at hu hv
    by_cases heq : i = instructionIndex initiationInterval cycle
    · subst heq
      rw [Function.update_self] at hu hv
      rcases Finset.mem_insert.1 hu with rfl | hold
      · rcases Finset.mem_insert.1 hv with rfl | hold
        · exact absurd rfl hne
        · exact (hothers v hold).2
      · rcases Finset.mem_insert.1 hv with rfl | hold'
        · exact compatible_symm (hothers u hold).2
        · exact hs.shares _ u hold v hold' hne
    · rw [Function.update_of_ne heq] at hu hv
      exact hs.shares i u hu v hv hne

theorem inv_unassign {t : SocketRecord N} {cycle : Nat} {node : N} (hs : Inv reads s)
    (h : s.unassign initiationInterval cycle node = .ok t) : Inv reads t := by
  unfold unassign at h
  dsimp only at h
  split at h
  · cases h
    constructor
    · intro i port hport
      dsimp only at hport ⊢
      by_cases heq : i = instructionIndex initiationInterval cycle
      · subst heq
        rw [Function.update_self] at hport
        cases hport
      · rw [Function.update_of_ne heq] at hport ⊢
        exact hs.stored i port hport
    · intro i u hu v hv hne
      dsimp only at hu hv
      by_cases heq : i = instructionIndex initiationInterval cycle
      · subst heq
        rw [Function.update_self] at hu hv
        exact hs.shares _ u (Finset.mem_of_mem_erase hu) v (Finset.mem_of_mem_erase hv) hne
      · rw [Function.update_of_ne heq] at hu hv
        exact hs.shares i u hu v hv hne
  · cases h

/-- **Reads share a socket soundly** in every state that is reached by calls of which each assignment is checked. -/
theorem shares_of_reached (h : Reached reads initiationInterval (Checked reads initiationInterval) s) :
    Shares reads s := by
  have hinv : Inv reads s := by
    induction h with
    | empty => exact inv_empty
    | step _ hchecked hstep ih =>
      cases hstep with
      | assign hcan => exact inv_assign ih hcan hchecked
      | unassign _ hunassign => exact inv_unassign ih hunassign
  exact hinv.shares

/-- A node that is assigned can be removed. -/
theorem unassign_of_mem {cycle : Nat} {node : N}
    (h : node ∈ s.resourceRecord (instructionIndex initiationInterval cycle)) :
    s.unassign initiationInterval cycle node = .ok
      ⟨Function.update s.resourceRecord (instructionIndex initiationInterval cycle)
        ((s.resourceRecord (instructionIndex initiationInterval cycle)).erase node),
      Function.update s.storedPorts (instructionIndex initiationInterval cycle) none⟩ :=
  if_pos (decide_eq_true (Finset.ne_empty_of_mem h))

/-! ## Three reads of two units -/

def resultPort (name unit : String) : Port := ⟨name, .functionUnit unit, 32, none, none⟩

/-- The first two nodes read one port, the last one a port of another unit. -/
def threeReads : SocketReads (Fin 3) where
  use node := ⟨.FUPort (if node.val = 2 then resultPort "out" "lsu" else resultPort "out" "alu"), none⟩
  kind node := by
    dsimp only [PortSource.port]
    split <;> rfl

theorem shares_twoReads : Shares threeReads ((empty.assign threeReads 0 0 0).assign threeReads 0 0 1) := by
  have hfirst : Step threeReads 0 empty (.assign 0 0) (empty.assign threeReads 0 0 0) := .assign (by decide)
  have hsecond : Step threeReads 0 (empty.assign threeReads 0 0 0) (.assign 0 1)
      ((empty.assign threeReads 0 0 0).assign threeReads 0 0 1) := .assign (by decide)
  have hchecked : Checked threeReads 0 empty (.assign 0 0) := fun hne => absurd rfl hne
  have hchecked' : Checked threeReads 0 (empty.assign threeReads 0 0 0) (.assign 0 1) := fun _ => ⟨nofun, nofun⟩
  exact shares_of_reached (.step (.step .empty hchecked hfirst) hchecked' hsecond)

/-- When one of two reads of a port has been removed, a read of another unit is accepted. -/
theorem not_shares_threeReads : ∃ s : SocketRecord (Fin 3), Reached threeReads 0 (fun _ _ => True) s ∧
    ¬ Shares threeReads s := by
  let first := empty.assign threeReads 0 0 0
  let second := first.assign threeReads 0 0 1
  let third : SocketRecord (Fin 3) :=
    ⟨Function.update second.resourceRecord 0 ((second.resourceRecord 0).erase 0),
      Function.update second.storedPorts 0 none⟩
  have hfirst : Step threeReads 0 empty (.assign 0 0) first := .assign (by decide)
  have hsecond : Step threeReads 0 first (.assign 0 1) second := .assign (by decide)
  have hthird : Step threeReads 0 second (.unassign 0 0) third := .unassign (by decide) (unassign_of_mem (by decide))
  have hlast : Step threeReads 0 third (.assign 0 2) (third.assign threeReads 0 0 2) := .assign (by decide)
  refine ⟨third.assign threeReads 0 0 2,
    .step (.step (.step (.step .empty trivial hfirst) trivial hsecond) trivial hthird) trivial hlast, fun h => ?_⟩
  have hports : resultPort "out" "alu" = resultPort "out" "lsu" := h 0 1 (by decide) 2 (by decide) (by decide)
  exact absurd hports (by decide)

end SocketRecord

end Tce.ResourceManager
