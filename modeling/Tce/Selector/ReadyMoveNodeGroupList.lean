import Tce.Base.Acyclic
import Tce.DDG.DataDependenceGraph

/-!
# The list of ready move groups

A selector puts the moves of an operation into its list as one group when the
moves they depend on are scheduled. The client takes a group, schedules its
moves and tells the selector, until there is no group left. Which group of the
list is on top depends on priorities that change while groups are in the list,
so any of them may be.
-/

namespace Tce.Selector

open DDG (DataDependenceGraph Edge)

/-- What a move reads from or writes to, apart from function units. -/
inductive TerminalKind where
  | variable
  | RA
  | constant
  | other
  deriving DecidableEq, Repr

/-- The dependence graph of a basic block, with what the selectors ask of its moves. -/
structure BasicBlockDDG (N O : Type) extends DataDependenceGraph N O where
  nodes : List N
  isControlFlowMove : N → Bool
  source : N → TerminalKind
  destination : N → TerminalKind
  /-- The index of the operand that a move writes. -/
  operationIndex : N → Nat

inductive Fault (N : Type) where
  | IllegalProgram (move : N)
  | outOfFuel
  deriving DecidableEq, Repr

namespace BasicBlockDDG
variable {N O : Type}

/-- The operation whose moves are scheduled together with a move. -/
def operation (b : BasicBlockDDG N O) (v : N) : Option O :=
  if (b.node v).isDestinationOperation then (b.node v).destinationOperation
  else if (b.node v).isSourceOperation then (b.node v).sourceOperation
  else none

/-- A move without an operation that can be scheduled. -/
def isLegalMove (b : BasicBlockDDG N O) (v : N) : Bool :=
  (b.source v == .variable || b.source v == .RA) && (b.destination v == .variable || b.destination v == .RA) ||
    b.source v == .constant && b.destination v == .variable

end BasicBlockDDG

/-- What a selector does its own way. -/
structure SelectorKind (N O : Type) where
  isReadyToBeScheduled : (N → Bool) → N → Bool
  /-- The moves of an operation, in the order in which they are checked. -/
  operationMoves : O → List N
  /-- Groups on top of the list are checked again. -/
  checksAgain : Bool
  /-- The moves that may be ready at first. -/
  initial : List N
  /-- The moves that may be ready after one is scheduled. -/
  announced : N → List N

structure SelectorState (N : Type) where
  scheduled : N → Bool
  readyList : List (List N)
  /-- How many times the top of the list has been looked up. -/
  tick : Nat

namespace SelectorKind
variable {N O : Type} [DecidableEq N] (b : BasicBlockDDG N O) (k : SelectorKind N O)

/-- The unscheduled moves of an operation, if all but the given one are ready. -/
def readyMoves (scheduled : N → Bool) (v : N) : List N → Option (List N)
  | [] => some []
  | m :: ms =>
    if m ≠ v ∧ k.isReadyToBeScheduled scheduled m = false then none
    else (readyMoves scheduled v ms).map fun moves => if scheduled m then moves else m :: moves

def mightBeReady (s : SelectorState N) (v : N) : Except (Fault N) (SelectorState N) :=
  if s.scheduled v then .ok s
  else if !k.isReadyToBeScheduled s.scheduled v then .ok s
  else
    match b.operation v with
    | some operation =>
      match k.readyMoves s.scheduled v (k.operationMoves operation) with
      | some moves => .ok { s with readyList := moves :: s.readyList }
      | none => .ok s
    | none => if b.isLegalMove v then .ok { s with readyList := [v] :: s.readyList } else .error (.IllegalProgram v)

/-- Groups are taken off the list until one is to be kept; the choice says which is on top. -/
def top (choice : Nat → List (List N) → Nat) (drops : List N → Bool) :
    (fuel : Nat) → SelectorState N → SelectorState N × List N
  | 0, s => (s, [])
  | fuel + 1, s =>
    match s.readyList with
    | [] => (s, [])
    | first :: rest =>
      let i := choice s.tick (first :: rest) % (first :: rest).length
      let moves := (first :: rest).getD i first
      if drops moves then
        top choice drops fuel { s with
          readyList := (first :: rest).eraseIdx i
          tick := s.tick + 1 }
      else ({ s with tick := s.tick + 1 }, moves)

def isScheduled (scheduled : N → Bool) (moves : List N) : Bool := moves.all scheduled

def isAlive (moves : List N) : Bool := moves.all (b.nodes.contains ·)

def isDropped (scheduled : N → Bool) (moves : List N) : Bool :=
  !isAlive b moves || isScheduled scheduled moves || k.checksAgain && !moves.all (k.isReadyToBeScheduled scheduled)

/-- An empty group says that nothing is left. -/
def candidates (choice : Nat → List (List N) → Nat) (s : SelectorState N) :
    Except (Fault N) (SelectorState N × List N) :=
  let (s, moves) := top choice (k.isDropped b s.scheduled) s.readyList.length s
  if moves ≠ [] then .ok (s, moves)
  else do
    -- unscheduled moves that nobody has announced
    let s ← (b.nodes.filter fun v => !s.scheduled v).foldlM (k.mightBeReady b) s
    return top choice (isScheduled s.scheduled) s.readyList.length s

def notifyScheduled (s : SelectorState N) (v : N) : Except (Fault N) (SelectorState N) :=
  (k.announced v).foldlM (k.mightBeReady b) s

def start (scheduled : N → Bool) : Except (Fault N) (SelectorState N) :=
  k.initial.foldlM (k.mightBeReady b) ⟨scheduled, [], 0⟩

/-- The client schedules the moves of a group and says so. -/
def scheduleGroup (s : SelectorState N) (moves : List N) : Except (Fault N) (SelectorState N) :=
  moves.foldlM (k.notifyScheduled b) { s with scheduled := fun v => s.scheduled v || moves.contains v }

/-- The loop of the client, with the moves that were scheduled before each group. -/
def schedule (choice : Nat → List (List N) → Nat) : (fuel : Nat) → SelectorState N →
    Except (Fault N) (SelectorState N × List ((N → Bool) × List N))
  | 0, _ => .error .outOfFuel
  | fuel + 1, s => do
    let (s, moves) ← k.candidates b choice s
    if moves = [] then return (s, [])
    else
      let before := s.scheduled
      let s ← k.scheduleGroup b s moves
      let (s, groups) ← schedule choice fuel s
      return (s, (before, moves) :: groups)

/-! ## Groups -/

/-- The moves that are scheduled together with a move. -/
def group (v : N) : List N :=
  match b.operation v with
  | some operation => k.operationMoves operation
  | none => [v]

/-- What the selectors have in common. -/
structure Lawful : Prop where
  mem_group : ∀ v ∈ b.nodes, v ∈ k.group b v
  mem_nodes : ∀ v ∈ b.nodes, ∀ u ∈ k.group b v, u ∈ b.nodes
  group_eq : ∀ v ∈ b.nodes, ∀ u ∈ k.group b v, k.group b u = k.group b v
  legal : ∀ v ∈ b.nodes, b.operation v = none → b.isLegalMove v = true
  initial : ∀ v ∈ k.initial, v ∈ b.nodes
  announced : ∀ v ∈ b.nodes, ∀ u ∈ k.announced v, u ∈ b.nodes
  /-- A ready move stays ready. -/
  mono : ∀ {scheduled scheduled' : N → Bool}, (∀ v, scheduled v = true → scheduled' v = true) →
    ∀ {v}, k.isReadyToBeScheduled scheduled v = true → k.isReadyToBeScheduled scheduled' v = true
  /-- While moves are left the moves of some group are all ready. -/
  progress : ∀ {scheduled : N → Bool}, (∀ v ∈ b.nodes, ∀ u ∈ k.group b v, scheduled u = scheduled v) →
    (∃ v ∈ b.nodes, scheduled v = false) →
    ∃ v ∈ b.nodes, scheduled v = false ∧ ∀ m ∈ k.group b v, k.isReadyToBeScheduled scheduled m = true

/-- A group of the list is ready until it is scheduled. -/
def Pending (scheduled : N → Bool) (moves : List N) : Prop :=
  ∃ v ∈ b.nodes, moves = k.group b v ∧
    (scheduled v = true ∨ ∀ m ∈ moves, k.isReadyToBeScheduled scheduled m = true)

/-- Groups are scheduled as a whole, and those of the list are ready. -/
structure Inv (s : SelectorState N) : Prop where
  whole : ∀ v ∈ b.nodes, ∀ u ∈ k.group b v, s.scheduled u = s.scheduled v
  pending : ∀ moves ∈ s.readyList, k.Pending b s.scheduled moves

/-- A group that can be scheduled. -/
structure Candidate (scheduled : N → Bool) (moves : List N) : Prop where
  group : ∃ v ∈ b.nodes, moves = k.group b v
  unscheduled : ∀ m ∈ moves, scheduled m = false
  ready : ∀ m ∈ moves, k.isReadyToBeScheduled scheduled m = true

variable {b k}

theorem readyMoves_eq {scheduled : N → Bool} {v : N} (hv : k.isReadyToBeScheduled scheduled v = true) {ms : List N} :
    (∀ m ∈ ms, scheduled m = false) →
      k.readyMoves scheduled v ms = if ms.all (k.isReadyToBeScheduled scheduled) then some ms else none := by
  induction ms with
  | nil => exact fun _ => rfl
  | cons m ms ih =>
    intro h
    obtain ⟨hm, hms⟩ := List.forall_mem_cons.1 h
    unfold readyMoves
    rw [ih hms, hm, List.all_cons]
    by_cases hready : k.isReadyToBeScheduled scheduled m = true
    · rw [if_neg (by simp [hready]), hready, Bool.true_and]
      cases ms.all (k.isReadyToBeScheduled scheduled) <;> rfl
    · have hne : m ≠ v := fun heq => hready (heq ▸ hv)
      have hfalse : k.isReadyToBeScheduled scheduled m = false := by simpa using hready
      rw [if_pos ⟨hne, hfalse⟩, hfalse, Bool.false_and, if_neg (by simp)]

/-- A move that may be ready brings its group into the list if the group is ready. -/
theorem mightBeReady_spec (h : k.Lawful b) {s : SelectorState N} (hs : k.Inv b s) {v : N} (hv : v ∈ b.nodes) :
    ∃ s', k.mightBeReady b s v = .ok s' ∧ k.Inv b s' ∧ s'.scheduled = s.scheduled ∧
      (∀ moves ∈ s.readyList, moves ∈ s'.readyList) ∧
      (s.scheduled v = false → (∀ m ∈ k.group b v, k.isReadyToBeScheduled s.scheduled m = true) →
        k.group b v ∈ s'.readyList) := by
  unfold mightBeReady
  by_cases hscheduled : s.scheduled v = true
  · rw [if_pos hscheduled]
    refine ⟨s, rfl, hs, rfl, fun _ => id, fun hfalse => ?_⟩
    rw [hscheduled] at hfalse
    cases hfalse
  have hunscheduled : s.scheduled v = false := by simpa using hscheduled
  rw [if_neg hscheduled]
  by_cases hready : k.isReadyToBeScheduled s.scheduled v = true
  swap
  · rw [if_pos (by simpa using hready)]
    exact ⟨s, rfl, hs, rfl, fun _ => id, fun _ hall => absurd (hall v (h.mem_group v hv)) hready⟩
  rw [if_neg (by simpa using hready)]
  have hmoves : ∀ m ∈ k.group b v, s.scheduled m = false := fun m hm => (hs.whole v hv m hm).trans hunscheduled
  -- the group is put into the list when it is ready
  have hpush (hall : ∀ m ∈ k.group b v, k.isReadyToBeScheduled s.scheduled m = true) :
      k.Inv b { s with readyList := k.group b v :: s.readyList } :=
    ⟨hs.whole, List.forall_mem_cons.2 ⟨⟨v, hv, rfl, .inr hall⟩, hs.pending⟩⟩
  cases hoperation : b.operation v with
  | some operation =>
    have hgroup : k.group b v = k.operationMoves operation := by
      unfold group
      rw [hoperation]
    dsimp only
    rw [← hgroup, readyMoves_eq hready hmoves]
    by_cases hall : (k.group b v).all (k.isReadyToBeScheduled s.scheduled) = true
    · rw [if_pos hall]
      exact ⟨_, rfl, hpush (List.all_eq_true.1 hall), rfl, fun _ => List.mem_cons_of_mem _,
        fun _ _ => List.mem_cons_self⟩
    · rw [if_neg hall]
      exact ⟨s, rfl, hs, rfl, fun _ => id, fun _ hall' => absurd (List.all_eq_true.2 hall') hall⟩
  | none =>
    have hgroup : k.group b v = [v] := by
      unfold group
      rw [hoperation]
    dsimp only
    rw [if_pos (h.legal v hv hoperation), ← hgroup]
    refine ⟨_, rfl, hpush ?_, rfl, fun _ => List.mem_cons_of_mem _, fun _ _ => List.mem_cons_self⟩
    intro m hm
    rw [hgroup, List.mem_singleton] at hm
    rwa [hm]

theorem foldlM_mightBeReady (h : k.Lawful b) (vs : List N) : ∀ {s : SelectorState N}, k.Inv b s →
    (∀ v ∈ vs, v ∈ b.nodes) → ∃ s', vs.foldlM (k.mightBeReady b) s = .ok s' ∧ k.Inv b s' ∧
      s'.scheduled = s.scheduled ∧ (∀ moves ∈ s.readyList, moves ∈ s'.readyList) ∧
      ∀ v ∈ vs, s.scheduled v = false → (∀ m ∈ k.group b v, k.isReadyToBeScheduled s.scheduled m = true) →
        k.group b v ∈ s'.readyList := by
  induction vs with
  | nil =>
    intro s hs _
    exact ⟨s, rfl, hs, rfl, fun _ => id, fun v hv => by cases hv⟩
  | cons v vs ih =>
    intro s hs hvs
    obtain ⟨hv, hvs⟩ := List.forall_mem_cons.1 hvs
    obtain ⟨s', hok, hs', hsame, hkept, hpushed⟩ := mightBeReady_spec h hs hv
    obtain ⟨s'', hok', hs'', hsame', hkept', hpushed'⟩ := ih hs' hvs
    refine ⟨s'', ?_, hs'', hsame'.trans hsame, fun moves hm => hkept' moves (hkept moves hm), ?_⟩
    · rw [List.foldlM_cons, hok]
      exact hok'
    · intro u hu
      rw [hsame] at hpushed'
      cases List.mem_cons.1 hu with
      | inl heq =>
        subst heq
        exact fun hfalse hall => hkept' _ (hpushed hfalse hall)
      | inr hu => exact hpushed' u hu

/-- The top is a group to keep, unless all are dropped. -/
theorem top_spec (choice : Nat → List (List N) → Nat) {drops : List N → Bool} (hempty : drops [] = true) {fuel : Nat} :
    ∀ {s : SelectorState N}, s.readyList.length ≤ fuel →
      ∃ s' moves, top choice drops fuel s = (s', moves) ∧ s'.scheduled = s.scheduled ∧
        (∀ group ∈ s'.readyList, group ∈ s.readyList) ∧
        (moves = [] ∧ (∀ group ∈ s.readyList, drops group = true) ∨
          moves ≠ [] ∧ moves ∈ s.readyList ∧ drops moves = false) := by
  induction fuel with
  | zero =>
    intro s hfuel
    have hnil := List.length_eq_zero_iff.1 (Nat.le_zero.1 hfuel)
    refine ⟨s, [], rfl, rfl, fun _ => id, .inl ⟨rfl, fun group hgroup => ?_⟩⟩
    rw [hnil] at hgroup
    cases hgroup
  | succ fuel ih =>
    intro s hfuel
    unfold top
    cases hlist : s.readyList with
    | nil => exact ⟨s, [], rfl, rfl, fun _ hg => hlist ▸ hg, .inl ⟨rfl, fun _ hg => by cases hg⟩⟩
    | cons first rest =>
      rw [hlist] at hfuel
      dsimp only
      generalize hi : choice s.tick (first :: rest) % (first :: rest).length = i
      have hlt : i < (first :: rest).length := by
        rw [← hi]
        exact Nat.mod_lt _ (by simp)
      have hget : (first :: rest).getD i first = (first :: rest)[i] := by
        rw [List.getD_eq_getElem?_getD, List.getElem?_eq_getElem hlt]
        rfl
      rw [hget]
      by_cases hdrop : drops (first :: rest)[i] = true
      · rw [if_pos hdrop]
        obtain ⟨s', moves, hok, hsame, hsub, hcases⟩ := ih (s := { s with
          readyList := (first :: rest).eraseIdx i
          tick := s.tick + 1 }) (by
            have := List.length_eraseIdx_of_lt hlt
            dsimp only
            omega)
        refine ⟨s', moves, hok, hsame, fun group hg => List.mem_of_mem_eraseIdx (hsub group hg), ?_⟩
        refine hcases.imp (fun hall => ⟨hall.1, fun group hg => ?_⟩) (fun hkeep => ⟨hkeep.1, ?_, hkeep.2.2⟩)
        · by_cases heq : group = (first :: rest)[i]
          · rwa [heq]
          · apply hall.2
            obtain ⟨j, hj, rfl⟩ := List.getElem_of_mem hg
            exact List.mem_eraseIdx_iff_getElem.2 ⟨j, hj, fun hji => heq (by subst hji; rfl), rfl⟩
        · exact List.mem_of_mem_eraseIdx hkeep.2.1
      · rw [if_neg hdrop]
        refine ⟨_, _, rfl, rfl, fun _ hg => hlist ▸ hg, .inr ⟨fun hnil => ?_, List.getElem_mem hlt, by simpa using hdrop⟩⟩
        rw [hnil] at hdrop
        exact hdrop hempty

/-- There is a candidate unless all moves are scheduled. -/
theorem candidates_spec (h : k.Lawful b) (choice : Nat → List (List N) → Nat) {s : SelectorState N} (hs : k.Inv b s) :
    ∃ s' moves, k.candidates b choice s = .ok (s', moves) ∧ k.Inv b s' ∧ s'.scheduled = s.scheduled ∧
      (moves = [] ∧ (∀ v ∈ b.nodes, s.scheduled v = true) ∨ moves ≠ [] ∧ k.Candidate b s.scheduled moves) := by
  -- a group of the list that is not scheduled is a candidate
  have hcandidate {moves : List N} (hpending : k.Pending b s.scheduled moves)
      (hleft : isScheduled s.scheduled moves = false) : k.Candidate b s.scheduled moves := by
    obtain ⟨v, hv, rfl, hready⟩ := hpending
    have hfalse : s.scheduled v = false := by
      by_contra htrue
      have hall : isScheduled s.scheduled (k.group b v) = true :=
        List.all_eq_true.2 fun u hu => (hs.whole v hv u hu).trans (by simpa using htrue)
      rw [hleft] at hall
      cases hall
    refine ⟨⟨v, hv, rfl⟩, fun m hm => (hs.whole v hv m hm).trans hfalse, hready.resolve_left fun htrue => ?_⟩
    rw [hfalse] at htrue
    cases htrue
  have hempty : k.isDropped b s.scheduled [] = true := by simp [isDropped, isScheduled]
  obtain ⟨s₁, moves, hok, hsame, hsub, hcases⟩ := top_spec choice hempty (Nat.le_refl s.readyList.length)
  have hs₁ : k.Inv b s₁ := ⟨hsame ▸ hs.whole, fun group hg => hsame ▸ hs.pending group (hsub group hg)⟩
  unfold candidates
  rw [hok]
  dsimp only
  cases hcases with
  | inr hkeep =>
    obtain ⟨hne, hmem, hkeep⟩ := hkeep
    rw [if_pos hne]
    have hleft : isScheduled s.scheduled moves = false := by
      unfold isDropped at hkeep
      simp only [Bool.or_eq_false_iff] at hkeep
      exact hkeep.1.2
    exact ⟨s₁, moves, rfl, hs₁, hsame, .inr ⟨hne, hcandidate (hs.pending moves hmem) hleft⟩⟩
  | inl hnone =>
    rw [if_neg (by simp [hnone.1])]
    obtain ⟨s₂, hok₂, hs₂, hsame₂, -, hpushed⟩ := foldlM_mightBeReady h (b.nodes.filter fun v => !s₁.scheduled v)
      hs₁ fun v hv => (List.mem_filter.1 hv).1
    rw [hok₂]
    obtain ⟨s₃, moves₃, hok₃, hsame₃, hsub₃, hcases₃⟩ := top_spec choice
      (show isScheduled s₂.scheduled [] = true from rfl) (Nat.le_refl s₂.readyList.length)
    have hscheduled : s₂.scheduled = s.scheduled := hsame₂.trans hsame
    refine ⟨s₃, moves₃, congrArg _ hok₃,
      ⟨hsame₃ ▸ hs₂.whole, fun group hg => hsame₃ ▸ hs₂.pending group (hsub₃ group hg)⟩, hsame₃.trans hscheduled, ?_⟩
    cases hcases₃ with
    | inr hkeep =>
      obtain ⟨hne, hmem, hkeep⟩ := hkeep
      rw [hscheduled] at hkeep
      exact .inr ⟨hne, hcandidate (hscheduled ▸ hs₂.pending moves₃ hmem) hkeep⟩
    | inl hnone₃ =>
      refine .inl ⟨hnone₃.1, fun v hv => ?_⟩
      by_contra hleft
      -- some group is ready, and the rescan has put it into the list
      obtain ⟨u, hu, hfalse, hall⟩ := h.progress hs.whole ⟨v, hv, by simpa using hleft⟩
      rw [hsame] at hpushed
      have hmem := hpushed u (List.mem_filter.2 ⟨hu, by simpa using hfalse⟩) hfalse hall
      have hdropped := hnone₃.2 _ hmem
      rw [hscheduled] at hdropped
      have htrue := List.all_eq_true.1 hdropped u (h.mem_group u hu)
      rw [hfalse] at htrue
      cases htrue

theorem notifyScheduled_spec (h : k.Lawful b) {s : SelectorState N} (hs : k.Inv b s) {v : N} (hv : v ∈ b.nodes) :
    ∃ s', k.notifyScheduled b s v = .ok s' ∧ k.Inv b s' ∧ s'.scheduled = s.scheduled := by
  obtain ⟨s', hok, hs', hsame, -⟩ := foldlM_mightBeReady h _ hs (h.announced v hv)
  exact ⟨s', hok, hs', hsame⟩

theorem foldlM_notifyScheduled (h : k.Lawful b) {vs : List N} : ∀ {s : SelectorState N}, k.Inv b s →
    (∀ v ∈ vs, v ∈ b.nodes) →
    ∃ s', vs.foldlM (k.notifyScheduled b) s = .ok s' ∧ k.Inv b s' ∧ s'.scheduled = s.scheduled := by
  induction vs with
  | nil =>
    intro s hs _
    exact ⟨s, rfl, hs, rfl⟩
  | cons v vs ih =>
    intro s hs hvs
    obtain ⟨hv, hvs⟩ := List.forall_mem_cons.1 hvs
    obtain ⟨s', hok, hs', hsame⟩ := notifyScheduled_spec h hs hv
    obtain ⟨s'', hok', hs'', hsame'⟩ := ih hs' hvs
    refine ⟨s'', ?_, hs'', hsame'.trans hsame⟩
    rw [List.foldlM_cons, hok]
    exact hok'

/-- Scheduling a group keeps the invariant. -/
theorem scheduleGroup_spec (h : k.Lawful b) {s : SelectorState N} (hs : k.Inv b s) {v : N} (hv : v ∈ b.nodes) :
    ∃ s', k.scheduleGroup b s (k.group b v) = .ok s' ∧ k.Inv b s' ∧
      s'.scheduled = fun u => s.scheduled u || (k.group b v).contains u := by
  have hmono : ∀ u, s.scheduled u = true → (s.scheduled u || (k.group b v).contains u) = true :=
    fun u hu => by rw [hu, Bool.true_or]
  have hinv : k.Inv b { s with scheduled := fun u => s.scheduled u || (k.group b v).contains u } := by
    constructor
    · intro w hw u hu
      have hmem : u ∈ k.group b v ↔ w ∈ k.group b v := by
        constructor
        · intro huv
          rw [← h.group_eq v hv u huv, h.group_eq w hw u hu]
          exact h.mem_group w hw
        · intro hwv
          rwa [← h.group_eq v hv w hwv]
      dsimp only
      rw [hs.whole w hw u hu]
      congr 1
      exact Bool.eq_iff_iff.2 (by simpa using hmem)
    · intro moves hm
      obtain ⟨w, hw, rfl, hready⟩ := hs.pending moves hm
      exact ⟨w, hw, rfl, hready.imp (hmono w) fun hall m hm => h.mono hmono (hall m hm)⟩
  exact foldlM_notifyScheduled h hinv (h.mem_nodes v hv)

omit [DecidableEq N] in
theorem countP_lt {p q : N → Bool} {v : N} {vs : List N} (hv : v ∈ vs) (hpq : ∀ u, p u = true → q u = true)
    (hq : q v = true) (hp : p v = false) : vs.countP p < vs.countP q := by
  obtain ⟨before, after, rfl⟩ := List.append_of_mem hv
  have hbefore := List.countP_mono_left (l := before) fun u _ => hpq u
  have hafter := List.countP_mono_left (l := after) fun u _ => hpq u
  rw [List.countP_append, List.countP_append, List.countP_cons_of_neg (by simp [hp]), List.countP_cons_of_pos hq]
  omega

/-- The client schedules all moves, one candidate after another. -/
theorem schedule_spec (h : k.Lawful b) (choice : Nat → List (List N) → Nat) {fuel : Nat} :
    ∀ {s : SelectorState N}, k.Inv b s → b.nodes.countP (fun v => !s.scheduled v) < fuel →
      ∃ s' groups, k.schedule b choice fuel s = .ok (s', groups) ∧ (∀ v ∈ b.nodes, s'.scheduled v = true) ∧
        ∀ g ∈ groups, g.2 ≠ [] ∧ k.Candidate b g.1 g.2 := by
  induction fuel with
  | zero =>
    intro s _ hfuel
    cases hfuel
  | succ fuel ih =>
    intro s hs hfuel
    obtain ⟨s₁, moves, hok, hs₁, hsame, hcases⟩ := candidates_spec h choice hs
    unfold schedule
    rw [hok]
    cases hcases with
    | inl hnone =>
      refine ⟨s₁, [], ?_, hsame ▸ hnone.2, fun g hg => by cases hg⟩
      change (if moves = [] then _ else _) = _
      rw [if_pos hnone.1]
      rfl
    | inr hmoves =>
      obtain ⟨hne, hcandidate⟩ := hmoves
      obtain ⟨v, hv, rfl⟩ := hcandidate.group
      obtain ⟨s₂, hok₂, hs₂, hscheduled⟩ := scheduleGroup_spec h hs₁ hv
      -- the group has a move that was left
      have hless : b.nodes.countP (fun u => !s₂.scheduled u) < b.nodes.countP (fun u => !s.scheduled u) := by
        rw [hscheduled, hsame]
        apply countP_lt hv
        · intro u hu
          rw [Bool.not_eq_true', Bool.or_eq_false_iff] at hu
          rw [hu.1, Bool.not_false]
        · rw [hcandidate.unscheduled v (h.mem_group v hv), Bool.not_false]
        · dsimp only
          rw [List.contains_iff_mem.2 (h.mem_group v hv), Bool.or_true, Bool.not_true]
      obtain ⟨s₃, groups, hok₃, hall, hgroups⟩ := ih hs₂ (by omega)
      refine ⟨s₃, (s₁.scheduled, k.group b v) :: groups, ?_, hall, List.forall_mem_cons.2 ⟨⟨hne, hsame ▸ hcandidate⟩, hgroups⟩⟩
      change (if k.group b v = [] then _ else _) = _
      rw [if_neg hne, hok₂]
      change (do let r ← k.schedule b choice fuel s₂; _) = _
      rw [hok₃]
      rfl

end SelectorKind

end Tce.Selector
