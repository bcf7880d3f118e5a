import Tce.Base.MapM
import Tce.ResourceManager.SimpleBrokerDirector

/-!
# The search of the director

With brokers that undo what they have assigned, the rounds of the loops follow a
backtracking search: they find the first choice of a resource of each applicable
broker, and a test leaves the brokers and the node as they were.
-/

namespace Tce.BrokerDirector

open ResourceManager (BrokerError)
open Backtracking

variable {N : Type} {n : Nat} {σ M R : Type}

/-! ## Lawful brokers -/

/-- In this state the broker has nothing assigned to the node, wherever the move leads. -/
def ResourceBroker.Free (broker : ResourceBroker n σ M R) (cycle : Int) (x : σ) : Prop :=
  ∀ node, broker.isAlreadyAssigned cycle x node = false

/-- What the broker assigns it also undoes, whatever other brokers do to the move in between. -/
structure ResourceBroker.Lawful (broker : Fin n → ResourceBroker n σ M R) (k : Fin n) : Prop where
  assigned {cycle : Int} {states : Fin n → σ} {node : Node M} {resource : R} : (broker k).Free cycle (states k) →
    resource ∈ (broker k).allAvailableResources cycle states node →
    ∀ node', (broker k).isAlreadyAssigned cycle ((broker k).assign cycle resource (states k) node).1 node' = true
  undoes {cycle : Int} {states : Fin n → σ} {node : Node M} {resource : R} : (broker k).Free cycle (states k) →
    resource ∈ (broker k).allAvailableResources cycle states node →
    ∀ node', ((broker k).unassign ((broker k).assign cycle resource (states k) node).1 node').1 = states k
  restores {cycle : Int} {states : Fin n → σ} {node : Node M} {resource : R} : (broker k).Free cycle (states k) →
    resource ∈ (broker k).allAvailableResources cycle states node →
    ((broker k).unassign ((broker k).assign cycle resource (states k) node).1
      { node with move := ((broker k).assign cycle resource (states k) node).2 }).2 = node.move
  isAvailable {cycle : Int} {states : Fin n → σ} {node : Node M} {resource : R} :
    (broker k).isAvailable cycle states node resource = true ↔
      resource ∈ (broker k).allAvailableResources cycle states node

namespace Plan
variable {broker : Fin n → ResourceBroker n σ M R} {cycle : Int} {ks : List (Fin n)} {s : State n σ M}

/-! ## Assignments along a path -/

variable (broker cycle ks s) in
/-- The state after the brokers have assigned the resources of the path. -/
def along (path : List R) : State n σ M :=
  (ks.zip path).foldl (fun s choice => assign broker cycle choice.1 choice.2 s) s

variable (broker cycle ks s) in
/-- What the next broker has, once those before it have assigned the path. -/
def candidates (path : List R) : List R :=
  match ks[path.length]? with
  | some k =>
    (broker k).allAvailableResources cycle (along broker cycle ks s path).brokers (along broker cycle ks s path).node
  | none => []

/-- A choice of an available resource for each of the brokers in turn. -/
def IsChoice (broker : Fin n → ResourceBroker n σ M R) (cycle : Int) (ks : List (Fin n)) (s : State n σ M)
    (path : List R) : Prop :=
  IsPath (candidates broker cycle ks s) [] path ∧ path.length = ks.length

theorem zip_concat {A B : Type} {as : List A} {bs : List B} {a : A} (h : as[bs.length]? = some a) (b : B) :
    as.zip (bs ++ [b]) = as.zip bs ++ [(a, b)] := by
  induction bs generalizing as with
  | nil =>
    cases as with
    | nil => cases h
    | cons a' as =>
      cases h
      simp
  | cons b' bs ih =>
    cases as with
    | nil => cases h
    | cons a' as =>
      have h' : as[bs.length]? = some a := h
      rw [List.cons_append, List.zip_cons_cons, List.zip_cons_cons, ih h', List.cons_append]

theorem along_nil (s : State n σ M) : along broker cycle ks s ([] : List R) = s := by
  rw [along, List.zip_nil_right]
  rfl

theorem along_concat {path : List R} {k : Fin n} (h : ks[path.length]? = some k) (resource : R) :
    along broker cycle ks s (path ++ [resource]) = assign broker cycle k resource (along broker cycle ks s path) := by
  rw [along, zip_concat h, List.foldl_append]
  rfl

theorem candidates_eq {path : List R} {k : Fin n} (h : ks[path.length]? = some k) :
    candidates broker cycle ks s path = (broker k).allAvailableResources cycle (along broker cycle ks s path).brokers
      (along broker cycle ks s path).node := by
  rw [candidates, h]

/-- Every resource of the path was available. -/
inductive Reached (broker : Fin n → ResourceBroker n σ M R) (cycle : Int) (ks : List (Fin n)) (s : State n σ M) :
    List R → Prop
  | nil : Reached broker cycle ks s []
  | concat {path : List R} {k : Fin n} {resource : R} : Reached broker cycle ks s path → ks[path.length]? = some k →
    resource ∈ (broker k).allAvailableResources cycle (along broker cycle ks s path).brokers
      (along broker cycle ks s path).node → Reached broker cycle ks s (path ++ [resource])

theorem Reached.of_concat {path : List R} {resource : R} (h : Reached broker cycle ks s (path ++ [resource])) :
    Reached broker cycle ks s path ∧ ∃ k, ks[path.length]? = some k ∧
      resource ∈ (broker k).allAvailableResources cycle (along broker cycle ks s path).brokers
        (along broker cycle ks s path).node := by
  generalize hlong : path ++ [resource] = long at h
  cases h with
  | nil => exact absurd hlong (List.append_ne_nil_of_right_ne_nil _ (List.cons_ne_nil _ _))
  | @concat path' k resource' hpath hk hmem =>
    obtain ⟨rfl, heq⟩ := List.append_inj' hlong rfl
    obtain rfl := List.singleton_inj.1 heq
    exact ⟨hpath, k, hk, hmem⟩

/-- The state of a broker that has assigned a resource, from the state it had at first. -/
def Assigned (broker : Fin n → ResourceBroker n σ M R) (cycle : Int) (s t : State n σ M) (k : Fin n) : Prop :=
  ∃ (states : Fin n → σ) (node : Node M) (resource : R), states k = s.brokers k ∧
    resource ∈ (broker k).allAvailableResources cycle states node ∧
    t.brokers k = ((broker k).assign cycle resource (states k) node).1

theorem along_node_cycle (path : List R) : (along broker cycle ks s path).node.cycle = s.node.cycle := by
  rw [along]
  generalize ks.zip path = choices
  induction choices generalizing s with
  | nil => rfl
  | cons choice choices ih =>
    rw [List.foldl_cons, ih]
    rfl

theorem not_mem_take {i : Nat} {k : Fin n} (hnodup : ks.Nodup) (hk : ks[i]? = some k) : k ∉ ks.take i := by
  intro hmem
  obtain ⟨j, hj, heq⟩ := List.mem_iff_getElem.1 hmem
  rw [List.getElem_take] at heq
  rw [List.length_take] at hj
  obtain ⟨hi, heq'⟩ := List.getElem?_eq_some_iff.1 hk
  have hij := (List.Nodup.getElem_inj_iff hnodup).1 (heq.trans heq'.symm)
  omega

/-- Brokers that have not had their turn are as at first. -/
theorem Reached.brokers_eq {path : List R} (h : Reached broker cycle ks s path) {k : Fin n}
    (hk : k ∉ ks.take path.length) : (along broker cycle ks s path).brokers k = s.brokers k := by
  induction h with
  | nil =>
    rw [along_nil]
  | @concat path j resource _ hj _ ih =>
    rw [List.length_append, List.length_singleton, List.take_add_one, hj, List.mem_append] at hk
    rw [along_concat hj]
    have hne : k ≠ j := fun heq => hk (.inr (heq ▸ List.mem_singleton_self j))
    exact (Function.update_of_ne hne _ _).trans (ih fun hmem => hk (.inl hmem))

/-- Brokers that have had their turn have assigned a resource. -/
theorem Reached.assigned (hnodup : ks.Nodup) {path : List R} (h : Reached broker cycle ks s path) {k : Fin n}
    (hk : k ∈ ks.take path.length) : Assigned broker cycle s (along broker cycle ks s path) k := by
  induction h with
  | nil => cases hk
  | @concat path j resource hpath hj hmem ih =>
    rw [along_concat hj]
    by_cases heq : k = j
    · subst heq
      refine ⟨_, _, resource, hpath.brokers_eq (not_mem_take hnodup hj), hmem, ?_⟩
      exact Function.update_self _ _ _
    · rw [List.length_append, List.length_singleton, List.take_add_one, hj, List.mem_append] at hk
      have hk' : k ∈ ks.take path.length := hk.resolve_right fun hmem => heq (List.mem_singleton.1 hmem)
      obtain ⟨states, node, resource', hstates, havailable, hstate⟩ := ih hk'
      exact ⟨states, node, resource', hstates, havailable, (Function.update_of_ne heq _ _).trans hstate⟩

/-! ## Undoing -/

theorem undo_free {k : Fin n} {t : State n σ M} (h : (broker k).Free cycle (t.brokers k)) :
    undo broker cycle k t = t := by
  rw [undo, isAlreadyAssigned, h]
  exact if_neg Bool.false_ne_true

/-- What was assigned last is undone. -/
theorem undo_assign {k : Fin n} (hlawful : ResourceBroker.Lawful broker k) {t : State n σ M}
    (hfree : (broker k).Free cycle (t.brokers k)) {resource : R}
    (hmem : resource ∈ (broker k).allAvailableResources cycle t.brokers t.node) :
    undo broker cycle k (assign broker cycle k resource t) = t := by
  have hstate : (assign broker cycle k resource t).brokers k =
      ((broker k).assign cycle resource (t.brokers k) t.node).1 := Function.update_self _ _ _
  have hassigned : isAlreadyAssigned broker cycle k (assign broker cycle k resource t) = true := by
    rw [isAlreadyAssigned, hstate]
    exact hlawful.assigned hfree hmem _
  rw [undo, if_pos hassigned, unassign, hstate, hlawful.undoes hfree hmem]
  rw [assign]
  dsimp only
  rw [hlawful.restores hfree hmem, Function.update_idem, Function.update_eq_self]

/-- A broker that has assigned a resource since is as at first. -/
theorem undo_assigned {k : Fin n} (hlawful : ResourceBroker.Lawful broker k) {t : State n σ M}
    (hfree : (broker k).Free cycle (s.brokers k)) (h : Assigned broker cycle s t k) :
    (undo broker cycle k t).brokers k = s.brokers k := by
  obtain ⟨states, node, resource, hstates, hmem, hstate⟩ := h
  rw [← hstates] at hfree
  have hassigned : isAlreadyAssigned broker cycle k t = true := by
    rw [isAlreadyAssigned, hstate]
    exact hlawful.assigned hfree hmem _
  rw [undo, if_pos hassigned, unassign, hstate, hlawful.undoes hfree hmem, ← hstates]
  exact Function.update_self _ _ _

theorem undo_brokers_of_ne {k j : Fin n} (hne : j ≠ k) (t : State n σ M) :
    (undo broker cycle k t).brokers j = t.brokers j := by
  rw [undo]
  split
  · exact Function.update_of_ne hne _ _
  · rfl

/-- In whichever order the brokers give back their resources, they are as at first afterwards. -/
theorem foldl_undo (hlawful : ∀ k, ResourceBroker.Lawful broker k) (hfree : ∀ k, (broker k).Free cycle (s.brokers k))
    {js : List (Fin n)} {t : State n σ M}
    (h : ∀ k, t.brokers k = s.brokers k ∨ k ∈ js ∧ Assigned broker cycle s t k) :
    (js.foldl (fun t k => undo broker cycle k t) t).brokers = s.brokers := by
  induction js generalizing t with
  | nil =>
    funext k
    exact (h k).resolve_right fun hassigned => List.not_mem_nil hassigned.1
  | cons j js ih =>
    rw [List.foldl_cons]
    apply ih
    intro k
    by_cases heq : k = j
    · subst heq
      rcases h k with hsame | ⟨-, hassigned⟩
      · rw [undo_free (hsame ▸ hfree k)]
        exact .inl hsame
      · exact .inl (undo_assigned (hlawful k) (hfree k) hassigned)
    · rw [undo_brokers_of_ne heq]
      refine (h k).imp_right fun ⟨hmem, hassigned⟩ => ?_
      refine ⟨(List.mem_cons.1 hmem).resolve_left heq, ?_⟩
      obtain ⟨states, node, resource, hstates, havailable, hstate⟩ := hassigned
      exact ⟨states, node, resource, hstates, havailable, (undo_brokers_of_ne heq t).trans hstate⟩

/-! ## Rounds -/

/-- The plan is where the search is. -/
structure Tracks (broker : Fin n → ResourceBroker n σ M R) (cycle : Int) (ks : List (Fin n)) (s : State n σ M)
    (c : Config R) (p : Plan N n σ M R) : Prop where
  sound : c.Sound (candidates broker cycle ks s)
  state : p.state = along broker cycle ks s c.path
  applicableAssignments : p.applicableAssignments = ks
  currentBroker : p.currentBroker = c.frames.length
  lt : c.frames.length < ks.length
  before : ∀ (i : Nat) (frame : Frame R), c.frames.reverse[i]? = some frame → ∀ k, ks[i]? = some k →
    (p.pending k).resource = some frame.chosen ∧
      (p.pending k).availableResources.drop (p.pending k).next = frame.untried
  current : ∀ k, ks[c.frames.length]? = some k →
    (p.pending k).lastTriedAssignment = none ∧ c.untried = candidates broker cycle ks s c.path ∨
      (p.pending k).lastTriedAssignment ≠ none ∧
        (p.pending k).availableResources.drop (p.pending k).next = c.untried
  after : ∀ (i : Nat) k, c.frames.length < i → ks[i]? = some k → (p.pending k).lastTriedAssignment = none

theorem length_path (c : Config R) : c.path.length = c.frames.length := by
  rw [Config.path, List.length_reverse, List.length_map]

/-- What the frames give was available. -/
theorem reached_of_frames {frames : List (Frame R)} (h : Frames (candidates broker cycle ks s) frames) :
    Reached broker cycle ks s (frames.map (·.chosen)).reverse := by
  induction h with
  | nil => exact .nil
  | @cons frame frames hframes hmem ih =>
    rw [List.map_cons, List.reverse_cons]
    have hchosen := hmem frame.chosen List.mem_cons_self
    cases hk : ks[((frames.map (·.chosen)).reverse).length]? with
    | none =>
      rw [candidates, hk] at hchosen
      cases hchosen
    | some k =>
      rw [candidates_eq hk] at hchosen
      exact ih.concat hk hchosen

theorem Tracks.reached {c : Config R} {p : Plan N n σ M R} (h : Tracks broker cycle ks s c p) :
    Reached broker cycle ks s c.path := reached_of_frames h.sound.frames

theorem ne_of_index {i j : Nat} {k k' : Fin n} (hnodup : ks.Nodup) (hk : ks[i]? = some k) (hk' : ks[j]? = some k')
    (hne : i ≠ j) : k ≠ k' := by
  rintro rfl
  obtain ⟨hi, hki⟩ := List.getElem?_eq_some_iff.1 hk
  obtain ⟨hj, hkj⟩ := List.getElem?_eq_some_iff.1 hk'
  exact hne ((List.Nodup.getElem_inj_iff hnodup).1 (hki.trans hkj.symm))

theorem drop_cons {A : Type} {as rest : List A} {i : Nat} {a : A} (h : as.drop i = a :: rest) :
    as[i]? = some a ∧ as.drop (i + 1) = rest := by
  constructor
  · have hget : (as.drop i)[0]? = some a := by
      rw [h]
      rfl
    rwa [List.getElem?_drop, Nat.add_zero] at hget
  · rw [← List.drop_drop, h]
    rfl

/-- What is remembered is the whole path. -/
theorem Tracks.tested {c : Config R} {p : Plan N n σ M R} (h : Tracks broker cycle ks s c p) (hnodup : ks.Nodup)
    (hlast : c.frames.length + 1 = ks.length) {k : Fin n} (hk : ks[c.frames.length]? = some k)
    {pending : PendingAssignment R} {resource : R}
    (hresource : pending.availableResources[pending.next]? = some resource) :
    Plan.tested { p with pending := Function.update p.pending k pending } k = some (ks.zip (c.path ++ [resource])) := by
  have hlength : ks.dropLast.length = c.path.length := by
    rw [List.length_dropLast, length_path]
    omega
  have hmapM : ks.dropLast.mapM (fun k' => ((Function.update p.pending k pending k').resource.map (k', ·))) =
      some (ks.dropLast.zip c.path) := by
    rw [MapM.mapM_eq_some_iff, List.forall₂_iff_get]
    refine ⟨by rw [List.length_zip, hlength, Nat.min_self], fun i hi hi' => ?_⟩
    have hpath : i < c.path.length := hlength ▸ hi
    have hframe : i < c.frames.reverse.length := by
      rw [List.length_reverse, ← length_path]
      exact hpath
    have hki : ks[i]? = some ks.dropLast[i] := by
      rw [List.getElem_dropLast]
      exact List.getElem?_eq_getElem _
    have hne : ks.dropLast[i] ≠ k := by
      apply ne_of_index hnodup hki hk
      rw [← length_path]
      omega
    have hchosen : c.frames.reverse[i].chosen = c.path[i] := by
      simp only [Config.path, ← List.map_reverse, List.getElem_map]
    simp only [List.get_eq_getElem, List.getElem_zip]
    rw [Function.update_of_ne hne, (h.before i _ (List.getElem?_eq_getElem hframe) _ hki).1, hchosen]
    rfl
  have hks : ks = ks.dropLast ++ [k] := by
    refine (List.dropLast_append_getLast? k ?_).symm
    rw [List.getLast?_eq_getElem?, ← hlast, Nat.add_sub_cancel]
    exact hk
  rw [Plan.tested, h.applicableAssignments]
  dsimp only
  rw [hmapM, Function.update_self, hresource]
  conv_rhs => rw [hks]
  rw [List.zip_append hlength]
  rfl

theorem Tracks.exists_broker {c : Config R} {p : Plan N n σ M R} (h : Tracks broker cycle ks s c p) :
    ∃ k, ks[c.frames.length]? = some k :=
  ⟨_, List.getElem?_eq_getElem h.lt⟩

/-- The broker is asked, and has a resource if the search has a candidate left. -/
theorem Tracks.asked {c : Config R} {p : Plan N n σ M R} (h : Tracks broker cycle ks s c p) (hnodup : ks.Nodup)
    (node : N) {k : Fin n} (hk : ks[c.frames.length]? = some k) :
    ∃ pending : PendingAssignment R, pending.availableResources.drop pending.next = c.untried ∧
      (c.untried = [] → isTestedAssignmentPossible broker node cycle k p =
        .ok (false, { p with pending := Function.update p.pending k pending })) ∧
      ∀ resource untried, c.untried = resource :: untried →
        isTestedAssignmentPossible broker node cycle k p = .ok (true,
          if c.frames.length + 1 = ks.length then
            { p with
              pending := Function.update p.pending k pending
              cache := ⟨some node, cycle, ks.zip (c.path ++ [resource])⟩ }
          else { p with pending := Function.update p.pending k pending }) := by
  generalize hpending : Plan.asked broker cycle k p = pending
  have hdrop : pending.availableResources.drop pending.next = c.untried := by
    rw [← hpending, Plan.asked]
    rcases h.current k hk with ⟨hnone, huntried⟩ | ⟨hsome, hdrop⟩
    · rw [hnone, huntried, candidates_eq (by rw [length_path]; exact hk), h.state]
      exact List.drop_zero
    · cases htried : (p.pending k).lastTriedAssignment with
      | none => exact absurd htried hsome
      | some j => exact hdrop
  refine ⟨pending, hdrop, fun hempty => ?_, fun resource untried huntried => ?_⟩
  · rw [isTestedAssignmentPossible, hpending]
    rw [hempty, List.drop_eq_nil_iff] at hdrop
    exact if_neg (Nat.not_lt.2 hdrop)
  · rw [huntried] at hdrop
    obtain ⟨hresource, -⟩ := drop_cons hdrop
    have hlt : pending.next < pending.availableResources.length := (List.getElem?_eq_some_iff.1 hresource).1
    rw [isTestedAssignmentPossible, hpending]
    dsimp only
    have hcurrent : p.currentBroker + 1 = p.applicableAssignments.length ↔ c.frames.length + 1 = ks.length := by
      rw [h.currentBroker, h.applicableAssignments]
    rw [if_pos hlt]
    by_cases hlast : c.frames.length + 1 = ks.length
    · rw [if_pos (hcurrent.2 hlast), if_pos hlast, h.tested hnodup hlast hk hresource]
    · rw [if_neg fun h => hlast (hcurrent.1 h), if_neg hlast]

variable (hlawful : ∀ k, ResourceBroker.Lawful broker k) (hnodup : ks.Nodup)
  (hfree : ∀ k, (broker k).Free cycle (s.brokers k))

include hlawful hnodup hfree

/-- The broker before the current one tries its next resource. -/
theorem Tracks.backtrack {frame : Frame R} {frames : List (Frame R)} {p : Plan N n σ M R}
    (h : Tracks broker cycle ks s ⟨frame :: frames, []⟩ p) {k : Fin n} (hk : ks[frames.length + 1]? = some k)
    (pending : PendingAssignment R) :
    ∃ p', Plan.backtrack broker cycle k { p with pending := Function.update p.pending k pending } = .ok p' ∧
      Tracks broker cycle ks s ⟨frames, frame.untried⟩ p' := by
  have hlt := h.lt
  rw [List.length_cons] at hlt
  have hk' : ks[frames.length]? = some ks[frames.length] := List.getElem?_eq_getElem _
  generalize ks[frames.length] = k' at hk'
  have hkfree : (broker k).Free cycle (p.state.brokers k) := by
    rw [h.state, h.reached.brokers_eq (not_mem_take hnodup (by rw [length_path]; exact hk))]
    exact hfree k
  have hcurrent := h.currentBroker
  have hpath : (Config.mk (frame :: frames) []).path = (Config.mk frames frame.untried).path ++ [frame.chosen] := by
    simp [Config.path]
  have hundo : undo broker cycle k' p.state = along broker cycle ks s (Config.mk frames frame.untried).path := by
    have hreached := h.reached
    rw [hpath] at hreached
    obtain ⟨hbefore, j, hj, hmem⟩ := hreached.of_concat
    have hj' := hj
    rw [length_path, hk'] at hj'
    obtain rfl := Option.some.inj hj'
    rw [h.state, hpath, along_concat hj]
    apply undo_assign (hlawful k') _ hmem
    rw [hbefore.brokers_eq (not_mem_take hnodup hj)]
    exact hfree k'
  refine ⟨{ p with
    state := undo broker cycle k' p.state
    pending := Function.update (Function.update p.pending k pending) k (Function.update p.pending k pending k).forget
    currentBroker := frames.length }, ?_, ?_⟩
  · rw [Plan.backtrack]
    dsimp only
    rw [undo_free hkfree, undo_free hkfree, hcurrent]
    dsimp only [List.length_cons]
    rw [h.applicableAssignments, hk']
  · have hother {i : Nat} {j : Fin n} (hj : ks[i]? = some j) (hne : i ≠ frames.length + 1) :
        Function.update (Function.update p.pending k pending) k (Function.update p.pending k pending k).forget j =
          p.pending j := by
      rw [Function.update_idem, Function.update_of_ne (ne_of_index hnodup hj hk hne)]
    refine ⟨h.sound.next (n := ks.length) rfl, hundo, h.applicableAssignments, rfl, Nat.lt_of_succ_lt hlt, ?_, ?_, ?_⟩
    · intro i frame' hi j hj
      have hi' : i < frames.length := by
        have := (List.getElem?_eq_some_iff.1 hi).1
        rwa [List.length_reverse] at this
      dsimp only
      rw [hother hj (by omega)]
      apply h.before i frame' _ j hj
      rw [List.reverse_cons, List.getElem?_append_left (by rwa [List.length_reverse])]
      exact hi
    · intro j hj
      have hframe : (frame :: frames).reverse[frames.length]? = some frame := by
        rw [List.reverse_cons, List.getElem?_append_right (by rw [List.length_reverse]), List.length_reverse,
          Nat.sub_self]
        rfl
      obtain ⟨hresource, hdrop⟩ := h.before frames.length frame hframe j hj
      dsimp only at hj ⊢
      rw [hother hj (by omega)]
      refine .inr ⟨fun hnone => ?_, hdrop⟩
      rw [PendingAssignment.resource, hnone] at hresource
      cases hresource
    · intro i j hi hj
      dsimp only at hi ⊢
      by_cases heq : i = frames.length + 1
      · rw [heq, hk] at hj
        obtain rfl := Option.some.inj hj
        rw [Function.update_self]
        rfl
      · rw [hother hj heq]
        apply h.after i j _ hj
        simp only [List.length_cons]
        omega

omit hlawful in
/-- The broker has not assigned anything in its turn. -/
theorem Tracks.current_free {c : Config R} {p : Plan N n σ M R} (h : Tracks broker cycle ks s c p) {k : Fin n}
    (hk : ks[c.frames.length]? = some k) :
    p.state.brokers k = s.brokers k ∧ (broker k).Free cycle (p.state.brokers k) := by
  have hsame : p.state.brokers k = s.brokers k := by
    rw [h.state, h.reached.brokers_eq (not_mem_take hnodup (by rw [length_path]; exact hk))]
  exact ⟨hsame, hsame ▸ hfree k⟩

omit hlawful in
/-- The current broker assigns its next resource. -/
theorem Tracks.tryNext {frames : List (Frame R)} {resource : R} {untried : List R} {p : Plan N n σ M R}
    (h : Tracks broker cycle ks s ⟨frames, resource :: untried⟩ p) {k : Fin n} (hk : ks[frames.length]? = some k)
    {pending : PendingAssignment R} (hpending : pending.availableResources.drop pending.next = resource :: untried)
    (cache : Cache N n R) :
    tryNextAssignment broker cycle k { p with pending := Function.update p.pending k pending, cache := cache } =
      .ok { p with
        state := along broker cycle ks s ((Config.mk frames (resource :: untried)).path ++ [resource])
        pending := Function.update p.pending k { pending with lastTriedAssignment := some pending.next }
        cache := cache } := by
  obtain ⟨-, hkfree⟩ := h.current_free hnodup hfree hk
  have hfree' : isAlreadyAssigned broker cycle k p.state = false := hkfree _
  rw [tryNextAssignment]
  dsimp only
  rw [hfree', if_neg Bool.false_ne_true, Function.update_self, (drop_cons hpending).1]
  dsimp only
  rw [along_concat (by rw [length_path]; exact hk), ← h.state, Function.update_idem]

omit hlawful in
/-- The next broker has its turn. -/
theorem Tracks.advance {frames : List (Frame R)} {resource : R} {untried : List R} {p : Plan N n σ M R}
    (h : Tracks broker cycle ks s ⟨frames, resource :: untried⟩ p) (hlast : frames.length + 1 ≠ ks.length) {k : Fin n}
    (hk : ks[frames.length]? = some k) {pending : PendingAssignment R}
    (hpending : pending.availableResources.drop pending.next = resource :: untried) :
    ∃ p', (tryNextAssignment broker cycle k { p with pending := Function.update p.pending k pending } >>=
        Plan.advance) = .ok p' ∧
      Tracks broker cycle ks s ⟨⟨resource, untried⟩ :: frames,
        candidates broker cycle ks s ((Config.mk frames (resource :: untried)).path ++ [resource])⟩ p' := by
  have hlt := h.lt
  dsimp only at hlt
  have hcurrent := h.currentBroker
  have hks := h.applicableAssignments
  have hpath (left : List R) : (Config.mk (⟨resource, untried⟩ :: frames) left).path =
      (Config.mk frames (resource :: untried)).path ++ [resource] := by
    simp [Config.path]
  have hnext : (Config.mk frames (resource :: untried)).next (candidates broker cycle ks s) ks.length =
      .inl ⟨⟨resource, untried⟩ :: frames,
        candidates broker cycle ks s ((Config.mk frames (resource :: untried)).path ++ [resource])⟩ := by
    rw [Config.next]
    exact if_neg hlast
  refine ⟨{ p with
    state := along broker cycle ks s ((Config.mk frames (resource :: untried)).path ++ [resource])
    pending := Function.update p.pending k { pending with lastTriedAssignment := some pending.next }
    currentBroker := p.currentBroker + 1 }, ?_, ?_⟩
  · have htry := h.tryNext hnodup hfree hk hpending p.cache
    rw [htry]
    dsimp only [bind, Except.bind]
    rw [Plan.advance]
    exact if_pos (by dsimp only at hcurrent ⊢; rw [hks]; omega)
  · have hother {i : Nat} {j : Fin n} (hj : ks[i]? = some j) (hne : i ≠ frames.length) (after : PendingAssignment R) :
        Function.update p.pending k after j = p.pending j :=
      Function.update_of_ne (ne_of_index hnodup hj hk hne) _ _
    refine ⟨h.sound.next hnext, ?_, hks, ?_, ?_, ?_, ?_, ?_⟩
    · rw [hpath]
    · rw [hcurrent]
      rfl
    · dsimp only [List.length_cons]
      omega
    · intro i frame hi j hj
      dsimp only at hi ⊢
      rw [List.reverse_cons] at hi
      by_cases heq : i = frames.length
      · subst heq
        rw [hk] at hj
        obtain rfl := Option.some.inj hj
        rw [List.getElem?_append_right (by rw [List.length_reverse]), List.length_reverse, Nat.sub_self] at hi
        obtain rfl := Option.some.inj hi
        rw [Function.update_self]
        exact drop_cons hpending
      · have hlt' : i < frames.reverse.length := by
          have := (List.getElem?_eq_some_iff.1 hi).1
          rw [List.length_append, List.length_singleton, List.length_reverse] at this
          rw [List.length_reverse]
          omega
        rw [List.getElem?_append_left hlt'] at hi
        rw [hother hj heq]
        exact h.before i frame hi j hj
    · intro j hj
      dsimp only [List.length_cons] at hj ⊢
      rw [hother hj (by omega)]
      refine .inl ⟨h.after (frames.length + 1) j (Nat.lt_succ_self _) hj, ?_⟩
      rw [hpath]
    · intro i j hi hj
      dsimp only [List.length_cons] at hi ⊢
      rw [hother hj (by omega)]
      exact h.after i j (by dsimp only; omega) hj

/-- After the brokers have given back their resources they are as at first. -/
theorem Tracks.reset {c : Config R} {p : Plan N n σ M R} (h : Tracks broker cycle ks s c p)
    (pending : Fin n → PendingAssignment R) (cache : Cache N n R) :
    (resetAssignments broker cycle { p with pending := pending, cache := cache }).state.brokers = s.brokers ∧
      (resetAssignments broker cycle { p with pending := pending, cache := cache }).state.node.cycle = none ∧
      (resetAssignments broker cycle { p with pending := pending, cache := cache }).cache = cache := by
  refine ⟨?_, rfl, rfl⟩
  rw [resetAssignments]
  dsimp only
  rw [h.applicableAssignments]
  apply foldl_undo hlawful hfree
  intro k
  rw [h.state]
  by_cases hk : k ∈ ks.take c.path.length
  · exact .inr ⟨List.mem_of_mem_take hk, h.reached.assigned hnodup hk⟩
  · exact .inl (h.reached.brokers_eq hk)

/-- The rounds follow the search, if it ends as it does. -/
theorem round_follows {T : Type} (node : N) {failed : Plan N n σ M R → Except BrokerError T}
    {found : Fin n → Plan N n σ M R → Except BrokerError T} {ends : Option (List R) → Except BrokerError T → Prop}
    (hfailed : ∀ (p : Plan N n σ M R) pending, Tracks broker cycle ks s ⟨[], []⟩ p →
      ends none (failed { p with pending := pending }))
    (hfound : ∀ frames resource untried (p : Plan N n σ M R) k pending,
      Tracks broker cycle ks s ⟨frames, resource :: untried⟩ p →
      ks[frames.length]? = some k → frames.length + 1 = ks.length →
      pending.availableResources.drop pending.next = resource :: untried →
      ends (some ((Config.mk frames (resource :: untried)).path ++ [resource]))
        (found k { p with
          pending := Function.update p.pending k pending
          cache := ⟨some node, cycle, ks.zip ((Config.mk frames (resource :: untried)).path ++ [resource])⟩ })) :
    Follows (candidates broker cycle ks s) ks.length (round broker node cycle failed found)
      (Tracks broker cycle ks s) ends := by
  constructor
  · intro c p h c' hnext
    obtain ⟨frames, untried⟩ := c
    obtain ⟨k, hk⟩ := h.exists_broker
    obtain ⟨pending, hdrop, hnone, hsome⟩ := h.asked hnodup node hk
    have hcurrent : p.currentBroker = frames.length := h.currentBroker
    have hks := h.applicableAssignments
    dsimp only at hk
    rw [round, hks, hcurrent, hk]
    dsimp only
    cases untried with
    | nil =>
      cases frames with
      | nil => cases hnext
      | cons frame frames =>
        cases hnext
        obtain ⟨p', hback, htracks⟩ := h.backtrack hlawful hnodup hfree hk pending
        rw [hnone rfl]
        dsimp only
        rw [if_neg (by rw [hcurrent]; exact Nat.succ_ne_zero _), hback]
        exact ⟨p', rfl, htracks⟩
    | cons resource untried =>
      rw [Config.next] at hnext
      dsimp only at hnext
      split at hnext
      · cases hnext
      · next hlast =>
        cases hnext
        obtain ⟨p', hadvance, htracks⟩ := h.advance hnodup hfree hlast hk hdrop
        rw [hsome resource untried rfl, if_neg hlast]
        dsimp only
        rw [if_neg (by rw [hcurrent, hks]; exact hlast), hadvance]
        exact ⟨p', rfl, htracks⟩
  · intro c p h result hnext
    obtain ⟨frames, untried⟩ := c
    obtain ⟨k, hk⟩ := h.exists_broker
    obtain ⟨pending, hdrop, hnone, hsome⟩ := h.asked hnodup node hk
    have hcurrent : p.currentBroker = frames.length := h.currentBroker
    have hks := h.applicableAssignments
    dsimp only at hk
    rw [round, hks, hcurrent, hk]
    dsimp only
    cases untried with
    | nil =>
      cases frames with
      | nil =>
        cases hnext
        rw [hnone rfl]
        dsimp only
        rw [if_pos (show p.currentBroker = 0 from hcurrent)]
        exact ⟨_, rfl, hfailed p _ h⟩
      | cons frame frames => cases hnext
    | cons resource untried =>
      rw [Config.next] at hnext
      dsimp only at hnext
      split at hnext
      · next hlast =>
        cases hnext
        rw [hsome resource untried rfl, if_pos hlast]
        dsimp only
        rw [if_pos (by rw [hcurrent, hks]; exact hlast)]
        exact ⟨_, rfl, hfound frames resource untried p k pending h hk hlast hdrop⟩
      · cases hnext

/-- How a test ends: the brokers are as at first, and the path that was found is remembered. -/
def Tested (s : State n σ M) (ks : List (Fin n)) (node : N) (cycle : Int) (found : Option (List R))
    (r : Except BrokerError (Bool × Plan N n σ M R)) : Prop :=
  ∃ q, r = .ok (found.isSome, q) ∧ q.state.brokers = s.brokers ∧ q.state.node.cycle = none ∧
    ∀ path, found = some path → q.cache = ⟨some node, cycle, ks.zip path⟩

theorem canAssignRound_follows (node : N) :
    Follows (candidates broker cycle ks s) ks.length (canAssignRound (N := N) (R := R) broker node cycle)
      (Tracks broker cycle ks s) (Tested s ks node cycle) := by
  apply round_follows hlawful hnodup hfree
  · intro p pending h
    obtain ⟨hbrokers, hcycle, -⟩ := h.reset hlawful hnodup hfree pending p.cache
    exact ⟨_, rfl, hbrokers, hcycle, fun path hpath => absurd hpath (Option.some_ne_none path).symm⟩
  · intro frames resource untried p k pending h hk hlast hdrop
    obtain ⟨hbrokers, hcycle, hcache⟩ := h.reset hlawful hnodup hfree (Function.update p.pending k pending)
      ⟨some node, cycle, ks.zip ((Config.mk frames (resource :: untried)).path ++ [resource])⟩
    refine ⟨_, rfl, hbrokers, hcycle, fun path hpath => ?_⟩
    rw [← Option.some.inj hpath]
    exact hcache

/-- How an assignment ends: the brokers have assigned the path that was found. -/
def Given (broker : Fin n → ResourceBroker n σ M R) (cycle : Int) (ks : List (Fin n)) (s : State n σ M)
    (found : Option (List R)) (r : Except BrokerError (Plan N n σ M R)) : Prop :=
  ∀ path, found = some path → ∃ q, r = .ok q ∧ q.state = along broker cycle ks s path

theorem assignRound_follows (node : N) :
    Follows (candidates broker cycle ks s) ks.length (assignRound (N := N) (R := R) broker node cycle)
      (Tracks broker cycle ks s) (Given broker cycle ks s) := by
  apply round_follows hlawful hnodup hfree
  · intro p pending h path hpath
    cases hpath
  · intro frames resource untried p k pending h hk hlast hdrop path hpath
    rw [h.tryNext hnodup hfree hk hdrop]
    refine ⟨_, rfl, ?_⟩
    rw [← Option.some.inj hpath]

omit hlawful hnodup hfree

/-! ## Requests -/

/-- The brokers that take part. -/
def applicable (broker : Fin n → ResourceBroker n σ M R) (move : M) : List (Fin n) :=
  (List.finRange n).filter fun k => (broker k).isApplicable move

theorem nodup_applicable (broker : Fin n → ResourceBroker n σ M R) (move : M) : (applicable broker move).Nodup :=
  (List.nodup_finRange n).filter _

/-- The state with the node in its cycle. -/
def placed (cycle : Int) (s : State n σ M) : State n σ M := { s with node := { s.node with cycle := some cycle } }

theorem setCycle_eq {s : State n σ M} (h : s.node.cycle = none ∨ s.node.cycle = some cycle) :
    setCycle cycle s = .ok (placed cycle s) := by
  obtain ⟨brokers, move, at_⟩ := s
  rw [setCycle]
  rcases h with h | h
  · dsimp only at h
    subst h
    rfl
  · dsimp only at h
    subst h
    exact if_pos rfl

/-- The search starts with the first of the brokers that apply. -/
theorem setRequest_tracks {p : Plan N n σ M R} (hcycle : p.state.node.cycle = none ∨ p.state.node.cycle = some cycle)
    (happlicable : applicable broker p.state.node.move ≠ []) :
    ∃ q, setRequest broker cycle p = .ok q ∧ q.cache = p.cache ∧
      Tracks broker cycle (applicable broker p.state.node.move) (placed cycle p.state)
        (.start (candidates broker cycle (applicable broker p.state.node.move) (placed cycle p.state))) q := by
  have hmem {k : Fin n} {i : Nat} (hk : (applicable broker p.state.node.move)[i]? = some k) :
      (broker k).isApplicable p.state.node.move = true :=
    (List.mem_filter.1 (List.mem_of_getElem? hk)).2
  refine ⟨{ p with
    state := placed cycle p.state
    applicableAssignments := applicable broker p.state.node.move
    pending := fun k =>
      if (broker k).isApplicable p.state.node.move then (p.pending k).forget else p.pending k
    currentBroker := 0 }, ?_, rfl, ?_⟩
  · rw [setRequest, setCycle_eq hcycle]
    dsimp only [bind, Except.bind]
    exact if_neg (by rw [List.isEmpty_iff]; exact happlicable)
  · refine ⟨Config.sound_start, (along_nil _).symm, rfl, rfl, List.length_pos_of_ne_nil happlicable, ?_, ?_, ?_⟩
    · intro i frame hi
      cases hi
    · intro k hk
      dsimp only
      rw [if_pos (hmem hk)]
      exact .inl ⟨rfl, rfl⟩
    · intro i k _ hk
      dsimp only
      rw [if_pos (hmem hk)]
      rfl

end Plan

namespace SimpleBrokerDirector
open Plan
variable {director : SimpleBrokerDirector n σ M R} {known : Known} {node : N} {cycle : Int} {p : Plan N n σ M R}

/-! ## Tests -/

/-- The first choice of resources. -/
def firstChoice (director : SimpleBrokerDirector n σ M R) (cycle : Int) (s : State n σ M) : Option (List R) :=
  let ks := applicable director.broker s.node.move
  firstPath (candidates director.broker cycle ks (placed cycle s)) ks.length []

/-- The node can be given a resource of each broker that is applicable. -/
def HasChoice (director : SimpleBrokerDirector n σ M R) (cycle : Int) (s : State n σ M) : Prop :=
  ∃ path, IsChoice director.broker cycle (applicable director.broker s.node.move) (placed cycle s) path

theorem firstChoice_isSome {s : State n σ M} :
    (director.firstChoice cycle s).isSome = true ↔ director.HasChoice cycle s :=
  firstPath_isSome

/-- A node that is free to be tested: no broker has assigned it, it is not in another cycle and some broker applies. -/
structure Open (director : SimpleBrokerDirector n σ M R) (cycle : Int) (s : State n σ M) : Prop where
  free : ∀ k, (director.broker k).Free cycle (s.brokers k)
  unplaced : s.node.cycle = none ∨ s.node.cycle = some cycle
  applicable : applicable director.broker s.node.move ≠ []

theorem restore_eq {q : Plan N n σ M R} (hbrokers : q.state.brokers = p.state.brokers)
    (hcycle : q.state.node.cycle = none) : restore p.state.node q = .ok { q with state := p.state } := by
  obtain ⟨⟨brokers, ⟨move, cycle⟩⟩, pending⟩ := p
  obtain ⟨⟨brokers', ⟨move', cycle'⟩⟩, pending'⟩ := q
  dsimp only at hbrokers hcycle
  subst hbrokers hcycle
  cases cycle <;> rfl

/-- A test finds out whether there is a choice, and changes nothing but what is remembered. -/
theorem canAssign_spec (known : Known) (node : N) (hlawful : ∀ k, ResourceBroker.Lawful director.broker k)
    (hscheduled : director.isScheduled p.state.node = false) (hopen : director.Open cycle p.state) :
    ∃ fuel b q, (∀ fuel' ≥ fuel, director.canAssign known fuel' node cycle p = some (.ok (b, q))) ∧
      (b = true ↔ director.instructionFull known cycle = false ∧ director.HasChoice cycle p.state) ∧
      q.state = p.state ∧
      (b = true → ∃ path, director.firstChoice cycle p.state = some path ∧
        q.cache = ⟨some node, cycle, (applicable director.broker p.state.node.move).zip path⟩) := by
  by_cases hfull : director.instructionFull known cycle = true
  · refine ⟨0, false, p, fun fuel _ => ?_, ?_, rfl, fun h => absurd h Bool.false_ne_true⟩
    · rw [canAssign, hscheduled, if_neg Bool.false_ne_true, if_pos hfull]
    · rw [hfull]
      exact ⟨fun h => absurd h Bool.false_ne_true, fun h => absurd h.1 (Ne.symm Bool.false_ne_true)⟩
  · obtain ⟨requested, hrequested, -, htracks⟩ := setRequest_tracks hopen.unplaced hopen.applicable
    have hfollows := canAssignRound_follows (s := placed cycle p.state) hlawful
      (nodup_applicable director.broker p.state.node.move) hopen.free node
    obtain ⟨fuel, r, hloop, q, rfl, hbrokers, hcycle, hcache⟩ :=
      hfollows.ends_search (List.length_pos_of_ne_nil hopen.applicable) htracks
    refine ⟨fuel, (director.firstChoice cycle p.state).isSome, { q with state := p.state }, fun fuel' hle => ?_, ?_,
      rfl, fun h => ?_⟩
    · rw [canAssign, hscheduled, if_neg Bool.false_ne_true, if_neg hfull, hrequested]
      dsimp only
      rw [hloop fuel' hle]
      dsimp only [Option.map, bind, Except.bind]
      rw [restore_eq (p := p) hbrokers hcycle]
      rfl
    · rw [firstChoice_isSome]
      exact (and_iff_right (Bool.not_eq_true _ ▸ hfull)).symm
    · obtain ⟨path, hpath⟩ := Option.isSome_iff_exists.1 h
      exact ⟨path, hpath, hcache path hpath⟩

end SimpleBrokerDirector

end Tce.BrokerDirector
