import Tce.ResourceManager.DirectorSearch

/-!
# Assignments of the director

After a test that has found a choice an assignment gives the same resources,
from the cache or by a search of its own.
-/

namespace Tce.BrokerDirector

open Backtracking
open ResourceManager (BrokerError)

namespace SimpleBrokerDirector
open Plan
variable {N : Type} {n : Nat} {σ M R : Type} {director : SimpleBrokerDirector n σ M R} {known : Known} {node : N}
  {cycle : Int} {p : Plan N n σ M R}

/-! ## Cached assignments -/

theorem sameBrokers_applicable {brokers : List (Fin n)} (hnodup : brokers.Nodup) {s : State n σ M} {path : List R}
    (hlength : path.length = (brokers.filter fun k => (director.broker k).isApplicable s.node.move).length) :
    sameBrokers director.broker s brokers
      ((brokers.filter fun k => (director.broker k).isApplicable s.node.move).zip path) = true := by
  induction brokers generalizing path with
  | nil => rfl
  | cons k brokers ih =>
    obtain ⟨hk, hrest⟩ := List.nodup_cons.1 hnodup
    unfold sameBrokers
    by_cases happlicable : (director.broker k).isApplicable s.node.move = true
    · rw [List.filter_cons_of_pos (p := fun k => (director.broker k).isApplicable s.node.move) happlicable] at hlength ⊢
      rw [if_pos happlicable]
      cases path with
      | nil => cases hlength
      | cons resource path =>
        rw [List.zip_cons_cons]
        dsimp only
        rw [beq_self_eq_true, Bool.true_and]
        exact ih hrest (Nat.succ.inj hlength)
    · rw [List.filter_cons_of_neg (p := fun k => (director.broker k).isApplicable s.node.move) happlicable] at hlength ⊢
      rw [if_neg happlicable]
      have hih := ih hrest hlength
      cases hcached : (brokers.filter fun k => (director.broker k).isApplicable s.node.move).zip path with
      | nil =>
        rw [hcached] at hih
        exact hih
      | cons choice cached =>
        obtain ⟨k', resource⟩ := choice
        rw [hcached] at hih
        have hmem : k' ∈ brokers := by
          have hmem' : (k', resource) ∈
              (brokers.filter fun k => (director.broker k).isApplicable s.node.move).zip path :=
            hcached ▸ List.mem_cons_self
          exact List.mem_of_mem_filter (List.of_mem_zip hmem').1
        have hne : k' ≠ k := fun heq => hk (heq ▸ hmem)
        dsimp only
        rw [bne_iff_ne.2 hne, Bool.true_and]
        exact hih

/-- What is remembered is assigned as it was found. -/
theorem assignCached_along (hlawful : ∀ k, ResourceBroker.Lawful director.broker k) {ks : List (Fin n)}
    {s : State n σ M} {path rest : List R} (h : IsPath (candidates director.broker cycle ks s) path rest) (assigned : List (Fin n)) :
    assignCached director.broker cycle ((ks.drop path.length).zip rest) assigned
      (along director.broker cycle ks s path) = (along director.broker cycle ks s (path ++ rest), true) := by
  induction h generalizing assigned with
  | nil path =>
    rw [List.zip_nil_right, List.append_nil]
    rfl
  | @cons path rest resource hmem _ ih =>
    cases hk : ks[path.length]? with
    | none =>
      rw [candidates, hk] at hmem
      cases hmem
    | some k =>
      obtain ⟨hlt, hget⟩ := List.getElem?_eq_some_iff.1 hk
      rw [List.drop_eq_getElem_cons hlt, hget, List.zip_cons_cons, assignCached,
        if_pos ((hlawful k).isAvailable.2 (candidates_eq hk ▸ hmem)), ← along_concat hk]
      have hrest := ih (k :: assigned)
      rw [List.length_append, List.length_singleton, List.append_assoc, List.singleton_append] at hrest
      exact hrest

/-- The state after the brokers that apply have assigned the resources of the path. -/
def given (director : SimpleBrokerDirector n σ M R) (cycle : Int) (s : State n σ M) (path : List R) : State n σ M :=
  along director.broker cycle (applicable director.broker s.node.move) (placed cycle s) path

/-- The search of the loop ends with the first choice. -/
theorem loop_spec (node : N) (p : Plan N n σ M R) (hlawful : ∀ k, ResourceBroker.Lawful director.broker k)
    (hopen : director.Open cycle p.state) {path : List R} (hpath : director.firstChoice cycle p.state = some path) :
    ∃ requested fuel q, setRequest director.broker cycle p = .ok requested ∧
      (∀ fuel' ≥ fuel, loop (assignRound director.broker node cycle) fuel' requested = some (.ok q)) ∧
      q.state = director.given cycle p.state path := by
  obtain ⟨requested, hrequested, -, htracks⟩ := setRequest_tracks hopen.unplaced hopen.applicable
  have hfollows := assignRound_follows (s := placed cycle p.state) hlawful
    (nodup_applicable director.broker p.state.node.move) hopen.free node
  obtain ⟨fuel, r, hloop, hgiven⟩ := hfollows.ends_search (List.length_pos_of_ne_nil hopen.applicable) htracks
  obtain ⟨q, rfl, hstate⟩ := hgiven path hpath
  exact ⟨requested, fuel, q, hrequested, hloop, hstate⟩

/-- What is remembered of the path is assigned. -/
theorem cached_spec [DecidableEq N] (hlawful : ∀ k, ResourceBroker.Lawful director.broker k)
    (hopen : director.Open cycle p.state) {path : List R} (hpath : director.firstChoice cycle p.state = some path)
    (hcache : p.cache = ⟨some node, cycle, (applicable director.broker p.state.node.move).zip path⟩) :
    tryCachedAssignment director.broker node cycle p =
      .ok ({ p with state := director.given cycle p.state path, cache := clearCache }, true) := by
  obtain ⟨hchoice, hlength⟩ := firstPath_eq_some hpath
  have hzip : ((applicable director.broker p.state.node.move).zip path).isEmpty = false := by
    have hpos := List.length_pos_of_ne_nil hopen.applicable
    rw [List.isEmpty_eq_false_iff]
    apply List.ne_nil_of_length_pos
    rw [List.length_zip, hlength, Nat.min_self]
    exact hpos
  have hsame : sameBrokers director.broker p.state (List.finRange n)
      ((applicable director.broker p.state.node.move).zip path) = true :=
    sameBrokers_applicable (List.nodup_finRange n) hlength
  have hassigned := assignCached_along hlawful hchoice []
  rw [List.length_nil, List.drop_zero, along_nil, List.nil_append] at hassigned
  rw [tryCachedAssignment, hcache]
  dsimp only
  rw [if_neg (by simp [hzip]), hsame, setCycle_eq hopen.unplaced]
  dsimp only [bind, Except.bind]
  rw [hassigned]
  rfl

/-- A broker that applies is found after a cached assignment, too. -/
theorem setRequest_given {path : List R} {q : Plan N n σ M R} (hq : q.state = director.given cycle p.state path)
    (happlicable : applicable director.broker (director.given cycle p.state path).node.move ≠ []) :
    ∃ requested, setRequest director.broker cycle q = .ok requested ∧
      requested.state = director.given cycle p.state path := by
  have hplaced : q.state.node.cycle = some cycle := by
    rw [hq, given, along_node_cycle]
    rfl
  rw [← hq] at happlicable
  obtain ⟨requested, hrequested, -, htracks⟩ := setRequest_tracks (.inr hplaced) happlicable
  refine ⟨requested, hrequested, ?_⟩
  have hsame : placed cycle q.state = q.state := by
    obtain ⟨⟨brokers, ⟨move, at_⟩⟩, _⟩ := q
    dsimp only at hplaced
    rw [placed, ← hplaced]
  rw [htracks.state, hsame, ← hq]
  exact along_nil _

/-- An assignment gives the first choice, whether it is remembered or is searched for. -/
theorem assign_spec [DecidableEq N] (known : Known) (node : N) (p : Plan N n σ M R)
    (hlawful : ∀ k, ResourceBroker.Lawful director.broker k)
    (hopen : director.Open cycle p.state) (hcycle : 0 ≤ cycle ∧ cycle < INT_MAX)
    {path : List R} (hpath : director.firstChoice cycle p.state = some path)
    (happlicable : applicable director.broker (director.given cycle p.state path).node.move ≠ [])
    (hcache : p.cache = ⟨some node, cycle, (applicable director.broker p.state.node.move).zip path⟩ ∨
      p.cache.lastTriedNode ≠ some node ∨ p.cache.lastTriedCycle ≠ cycle) :
    ∃ fuel q, q.state = director.given cycle p.state path ∧ ∀ fuel' ≥ fuel,
      director.assign known fuel' node cycle p = some ((director.assigned known cycle q.state).map (·, q)) := by
  have hplaced : (p.state.node.cycle.any (· != cycle)) = false := by
    obtain hnone | hsame := hopen.unplaced
    · rw [hnone]
      rfl
    · rw [hsame, Option.any_some, bne_self_eq_false]
  have hends (q : Plan N n σ M R) : (do
      let q ← (Except.ok q : Except BrokerError (Plan N n σ M R))
      let known ← director.assigned known cycle q.state
      return (known, q)) = (director.assigned known cycle q.state).map (·, q) := rfl
  obtain hcache | hother := hcache
  · have hcached := cached_spec hlawful hopen hpath hcache
    have hgiven : ({ p with state := director.given cycle p.state path, cache := clearCache } : Plan N n σ M R).state =
        director.given cycle p.state path := rfl
    obtain ⟨requested, hrequested, hstate⟩ := setRequest_given hgiven happlicable
    refine ⟨0, requested, hstate, fun fuel _ => ?_⟩
    rw [assign, if_neg (Int.not_lt.2 hcycle.1), if_neg (Int.ne_of_lt hcycle.2), hplaced, if_neg Bool.false_ne_true,
      hcached]
    dsimp only [bind, Except.bind]
    rw [hrequested]
    exact congrArg some (hends requested)
  · have hcached : tryCachedAssignment director.broker node cycle p = .ok ({ p with cache := clearCache }, false) := by
      rw [tryCachedAssignment, if_pos]
      exact hother.imp_right .inl
    obtain ⟨requested, fuel, q, hrequested, hloop, hstate⟩ :=
      loop_spec node { p with cache := clearCache } hlawful hopen hpath
    refine ⟨fuel, q, hstate, fun fuel' hle => ?_⟩
    rw [assign, if_neg (Int.not_lt.2 hcycle.1), if_neg (Int.ne_of_lt hcycle.2), hplaced, if_neg Bool.false_ne_true,
      hcached]
    dsimp only [bind, Except.bind]
    rw [hrequested]
    dsimp only [pure, Except.pure]
    rw [hloop fuel' hle]
    exact congrArg some (hends q)

/-- When the first choice has been assigned a broker still applies, and no cycle before the first is recorded. -/
def Records (director : SimpleBrokerDirector n σ M R) (known : Known) (cycle : Int) (s : State n σ M) : Prop :=
  ∀ path, director.firstChoice cycle s = some path →
    applicable director.broker (director.given cycle s path).node.move ≠ [] ∧
    ∃ known', director.assigned known cycle (director.given cycle s path) = .ok known'

/-- The second broker has a resource only if the first one has assigned its second. -/
def twoBrokers : SimpleBrokerDirector 2 (Option Nat) Unit Nat where
  broker k :=
    { isApplicable := fun _ => true
      isAlreadyAssigned := fun _ x _ => x.isSome
      allAvailableResources := fun _ states _ =>
        if k.val = 0 then [0, 1] else if states ⟨0, Nat.two_pos⟩ = some 1 then [7] else []
      isAvailable := fun _ states _ resource =>
        decide (resource ∈ if k.val = 0 then [0, 1] else if states ⟨0, Nat.two_pos⟩ = some 1 then [7] else [])
      assign := fun _ resource _ _ => (some resource, ())
      unassign := fun _ _ => (none, ()) }
  busCount := 1
  initiationInterval := 0
  isAssigned _ := false
  guardLatency _ := 0
  immediateWriteCycle _ _ := none

def unassigned : Plan Unit 2 (Option Nat) Unit Nat :=
  ⟨⟨fun _ => none, ⟨(), none⟩⟩, [], fun _ => ⟨none, []⟩, 0, Plan.clearCache⟩

theorem lawful_twoBrokers (k : Fin 2) : ResourceBroker.Lawful twoBrokers.broker k where
  assigned _ _ _ := rfl
  undoes {cycle states node resource} hfree _ _ := by
    have hnone : (states k).isSome = false := hfree ⟨(), none⟩
    rw [Option.isSome_eq_false_iff, Option.isNone_iff_eq_none] at hnone
    rw [hnone]
    rfl
  restores _ _ := rfl
  isAvailable := decide_eq_true_iff

theorem open_unassigned : twoBrokers.Open 5 unassigned.state where
  free _ _ := rfl
  unplaced := .inl rfl
  applicable := by decide

theorem hasChoice_unassigned : twoBrokers.HasChoice 5 unassigned.state :=
  ⟨[1, 7], .cons (by decide) (.cons (by decide) (.nil _)), rfl⟩

end SimpleBrokerDirector

end Tce.BrokerDirector
