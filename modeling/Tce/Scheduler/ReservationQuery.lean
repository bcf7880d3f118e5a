import Tce.Scheduler.ExecutionPipelineResource

/-!
# The query leaves the reservations as they are

What `resourcesAllowTrigger` enters into the table goes into slots that admit
the trigger, into each of them once, and taking it out again restores them.
-/

namespace Tce.ExecutionPipeline

namespace ResourceReservation

/-- The slot is free, or held by one move whose guard excludes that of the trigger. -/
def Open (ddg : Option DataDependenceGraph) (node : MoveNode) (rr : ResourceReservation) : Prop :=
  rr = free ∨ ∃ a, rr = ⟨some a, none⟩ ∧ MutuallyExclusive ddg a node

/-- The slot with the trigger in it. -/
def mark (node : MoveNode) (rr : ResourceReservation) : ResourceReservation :=
  if rr.first = none then { rr with first := some node } else { rr with second := some node }

variable {ddg : Option DataDependenceGraph} {node : MoveNode} {rr : ResourceReservation}

/-- A slot that has been entered does not admit the trigger a second time. -/
theorem not_open_mark (h : Open ddg node rr) : ¬Open ddg node (mark node rr) := by
  rcases h with rfl | ⟨a, rfl, -⟩
  · rintro (h | ⟨b, h, hexcl⟩)
    · cases h
    · cases h
      exact not_mutuallyExclusive_self node hexcl
  · rintro (h | ⟨b, h, -⟩) <;> cases h

theorem undo_mark (h : Open ddg node rr) : ExecutionPipelineResource.undo node (mark node rr) = .ok rr := by
  rcases h with rfl | ⟨a, rfl, hexcl⟩
  · simp [ExecutionPipelineResource.undo, mark, free]
  · have hne : a ≠ node := by
      rintro rfl
      exact not_mutuallyExclusive_self a hexcl
    simp [ExecutionPipelineResource.undo, mark, hne]

theorem Safe.eq_free (h : Safe ddg rr) (hfirst : rr.first = none) : rr = free := by
  obtain ⟨first, second⟩ := rr
  cases second with
  | none =>
    obtain rfl : first = none := hfirst
    rfl
  | some b =>
    obtain ⟨a, ha, -⟩ := h b rfl
    exact absurd (hfirst.symm.trans ha) (by simp)

theorem mark_first_ne (rr : ResourceReservation) : (mark node rr).first ≠ none := by
  unfold mark
  split
  · simp
  · assumption

end ResourceReservation

namespace ExecutionPipelineResource
open ResourceReservation ResourceReservationTable

theorem mem_positions {ep : ExecutionPipelineResource} {p : Nat × Nat} :
    p ∈ ep.positions ↔ p.1 < ep.resources.maximalLatency ∧ p.2 < ep.resources.numberOfResources := by
  obtain ⟨i, j⟩ := p
  have hmem : (i, j) ∈ ep.positions ↔ i ∈ List.range _ ∧ j ∈ List.range _ := List.pair_mem_product
  rwa [List.mem_range, List.mem_range] at hmem

theorem positions_nodup (ep : ExecutionPipelineResource) : ep.positions.Nodup :=
  List.nodup_range.product List.nodup_range

/-- Without modulo scheduling the rows of an operation are its cycles. -/
def Line (ep : ExecutionPipelineResource) (cycle : Nat) : Prop :=
  ep.interval = intMax → ∀ i < ep.resources.maximalLatency, ep.index (cycle + i) = cycle + i

/-- The trigger has been entered at these positions of the loop. -/
structure Tried (ep : ExecutionPipelineResource) (node : MoveNode) (cycle pIndex : Nat) (before after : ResourceReservationTable)
    (assigned : List (Nat × Nat)) : Prop where
  grown : Grown before after
  used : ∀ p ∈ assigned, p ∈ ep.positions ∧ ep.resources.operationPipeline pIndex p.1 p.2 = true ∧
    p.2 < (before.row (ep.index (cycle + p.1))).length
  entered : ∀ i j, (i, j) ∈ assigned →
    after.slot (ep.index (cycle + i)) j = mark node (before.slot (ep.index (cycle + i)) j)
  others : ∀ r j, (∀ i, (i, j) ∈ assigned → ep.index (cycle + i) ≠ r) → after.slot r j = before.slot r j
  admits : ∀ i j, (i, j) ∈ assigned → Open ep.ddg node (before.slot (ep.index (cycle + i)) j)
  distinct : ∀ i i' j, (i, j) ∈ assigned → (i', j) ∈ assigned → ep.index (cycle + i) = ep.index (cycle + i') → i = i'

section query
variable {ep : ExecutionPipelineResource} {scheduled : MoveNode → Option Nat} {node : MoveNode} {cycle pIndex : Nat}
  {before : ResourceReservationTable}

theorem tried_nil : Tried ep node cycle pIndex before before [] where
  grown := grown_refl before
  used p h := by cases h
  entered i j h := by cases h
  others r j _ := rfl
  admits i j h := by cases h
  distinct i i' j h := by cases h

/-- Rows that are only made change nothing. -/
theorem Tried.touch {after : ResourceReservationTable} {assigned : List (Nat × Nat)}
    (h : Tried ep node cycle pIndex before after assigned) (modci : Nat) :
    Tried ep node cycle pIndex before (after.touch modci []) assigned := by
  have hslot (r j : Nat) : slot (after.touch modci []) r j = after.slot r j := by
    rw [slot, row_touch, slot]
  refine ⟨h.grown.trans (grown_touch after modci), h.used, ?_, ?_, h.admits, h.distinct⟩
  · intro i j hij
    rw [hslot, h.entered i j hij]
  · intro r j hr
    rw [hslot, h.others r j hr]

/-- A slot that admits the trigger now has admitted it from the start. -/
theorem Tried.fresh {after : ResourceReservationTable} {assigned : List (Nat × Nat)}
    (h : Tried ep node cycle pIndex before after assigned) {r j : Nat} (hopen : Open ep.ddg node (after.slot r j)) :
    (∀ i, (i, j) ∈ assigned → ep.index (cycle + i) ≠ r) ∧ after.slot r j = before.slot r j := by
  have hfresh : ∀ i, (i, j) ∈ assigned → ep.index (cycle + i) ≠ r := by
    rintro i hij rfl
    rw [h.entered i j hij] at hopen
    exact not_open_mark (h.admits i j hij) hopen
  exact ⟨hfresh, h.others r j hfresh⟩

theorem Tried.mark {after : ResourceReservationTable} {assigned : List (Nat × Nat)}
    (h : Tried ep node cycle pIndex before after assigned) {i j : Nat} (hp : (i, j) ∈ ep.positions)
    (huse : ep.resources.operationPipeline pIndex i j = true) (hrow : j < (before.row (ep.index (cycle + i))).length)
    (hopen : Open ep.ddg node (after.slot (ep.index (cycle + i)) j)) :
    Tried ep node cycle pIndex before
      (after.setSlot (ep.index (cycle + i)) j (mark node (after.slot (ep.index (cycle + i)) j))) ((i, j) :: assigned) := by
  obtain ⟨hfresh, heq⟩ := h.fresh hopen
  have hlen : j < (after.row (ep.index (cycle + i))).length := by rwa [h.grown.length_row]
  refine ⟨h.grown.trans (grown_setSlot hlen _), ?_, ?_, ?_, ?_, ?_⟩
  case refine_1 =>
    intro p hmem
    cases List.mem_cons.1 hmem with
    | inl heq => exact heq ▸ ⟨hp, huse, hrow⟩
    | inr hmem => exact h.used p hmem
  case refine_2 =>
    intro i' j' hmem
    rw [slot_setSlot hlen]
    cases List.mem_cons.1 hmem with
    | inl hij =>
      cases hij
      rw [if_pos ⟨rfl, rfl⟩, heq]
    | inr hold =>
      have hne : ¬(ep.index (cycle + i') = ep.index (cycle + i) ∧ j' = j) := by
        rintro ⟨hindex, rfl⟩
        exact hfresh i' hold hindex
      rw [if_neg hne, h.entered i' j' hold]
  case refine_3 =>
    intro r j' hr
    have hne : ¬(r = ep.index (cycle + i) ∧ j' = j) := by
      rintro ⟨rfl, rfl⟩
      exact hr i List.mem_cons_self rfl
    rw [slot_setSlot hlen, if_neg hne]
    exact h.others r j' fun i' hmem => hr i' (List.mem_cons_of_mem _ hmem)
  case refine_4 =>
    intro i' j' hmem
    cases List.mem_cons.1 hmem with
    | inl hij =>
      cases hij
      rwa [← heq]
    | inr hmem => exact h.admits i' j' hmem
  case refine_5 =>
    intro i₁ i₂ j' h₁ h₂ hindex
    cases List.mem_cons.1 h₁ with
    | inl e₁ =>
      cases e₁
      cases List.mem_cons.1 h₂ with
      | inl e₂ => cases e₂; rfl
      | inr h₂ => exact absurd hindex.symm (hfresh i₂ h₂)
    | inr h₁ =>
      cases List.mem_cons.1 h₂ with
      | inl e₂ => cases e₂; exact absurd hindex (hfresh i₁ h₁)
      | inr h₂ => exact h.distinct i₁ i₂ j' h₁ h₂ hindex

variable (hsafe : ∀ r j, (before.slot r j).Safe ep.ddg)
include hsafe

theorem Tried.slot_free {after : ResourceReservationTable} {assigned : List (Nat × Nat)}
    (h : Tried ep node cycle pIndex before after assigned) {r j : Nat} (hfirst : (after.slot r j).first = none) :
    after.slot r j = .free := by
  by_cases hfresh : ∀ i, (i, j) ∈ assigned → ep.index (cycle + i) ≠ r
  · rw [h.others r j hfresh] at hfirst ⊢
    exact (hsafe r j).eq_free hfirst
  · obtain ⟨i, hij, rfl⟩ : ∃ i, (i, j) ∈ assigned ∧ ep.index (cycle + i) = r := by
      by_contra hnone
      exact hfresh fun i hij heq => hnone ⟨i, hij, heq⟩
    rw [h.entered i j hij] at hfirst
    exact absurd hfirst (mark_first_ne _)

/-- The loop over the resources enters the trigger into slots that admit it, and
into all that are used unless it fails. -/
theorem tryResources_spec {i modCycle : Nat} (hi : i < ep.resources.maximalLatency)
    (hrow : (before.row (ep.index (cycle + i))).length = ep.resources.numberOfResources) {js : List Nat} :
    ∀ {after : ResourceReservationTable} {assigned : List (Nat × Nat)}, (∀ j ∈ js, j < ep.resources.numberOfResources) →
    Tried ep node cycle pIndex before after assigned → ∀ {ok : Bool} {after' : ResourceReservationTable}
      {assigned' : List (Nat × Nat)},
    tryResources ep scheduled node modCycle pIndex i (ep.index (cycle + i)) js after assigned = (ok, after', assigned') →
    Tried ep node cycle pIndex before after' assigned' ∧ (∀ p ∈ assigned, p ∈ assigned') ∧
      (ok = true → ∀ j ∈ js, ep.resources.operationPipeline pIndex i j = true → (i, j) ∈ assigned') := by
  induction js with
  | nil =>
    intro after assigned _ h ok after' assigned' heq
    cases heq
    exact ⟨h, fun p hp => hp, fun _ j hj => by cases hj⟩
  | cons j js ih =>
    intro after assigned hjs h ok after' assigned' heq
    have hj := hjs j List.mem_cons_self
    have hjs' : ∀ j ∈ js, j < ep.resources.numberOfResources := fun k hk => hjs k (List.mem_cons_of_mem _ hk)
    unfold tryResources at heq
    by_cases huse : ep.resources.operationPipeline pIndex i j = true
    swap
    · rw [if_neg huse] at heq
      obtain ⟨htried, hsub, hall⟩ := ih hjs' h heq
      refine ⟨htried, hsub, fun hok k hk hk' => ?_⟩
      cases List.mem_cons.1 hk with
      | inl hkj => exact absurd (hkj ▸ hk') huse
      | inr hk => exact hall hok k hk hk'
    rw [if_pos huse] at heq
    -- the rest of the loop after an entry
    have hnext (hopen : Open ep.ddg node (after.slot (ep.index (cycle + i)) j))
        (heq : tryResources ep scheduled node modCycle pIndex i (ep.index (cycle + i)) js
          (after.setSlot (ep.index (cycle + i)) j (mark node (after.slot (ep.index (cycle + i)) j)))
          ((i, j) :: assigned) = (ok, after', assigned')) :
        Tried ep node cycle pIndex before after' assigned' ∧ (∀ p ∈ assigned, p ∈ assigned') ∧
          (ok = true → ∀ k ∈ j :: js, ep.resources.operationPipeline pIndex i k = true → (i, k) ∈ assigned') := by
      have hmark := h.mark (mem_positions.2 ⟨hi, hj⟩) huse (hrow.symm ▸ hj) hopen
      obtain ⟨htried, hsub, hall⟩ := ih hjs' hmark heq
      refine ⟨htried, fun p hp => hsub p (List.mem_cons_of_mem _ hp), fun hok k hk hk' => ?_⟩
      cases List.mem_cons.1 hk with
      | inl hkj => exact hkj ▸ hsub _ List.mem_cons_self
      | inr hk => exact hall hok k hk hk'
    cases hfirst : (after.slot (ep.index (cycle + i)) j).first with
    | none =>
      have hfree := h.slot_free hsafe hfirst
      simp only [hfirst] at heq
      apply hnext (.inl hfree)
      rw [hfree] at heq
      rwa [hfree]
    | some first =>
      simp only [hfirst] at heq
      by_cases hcond : (after.slot (ep.index (cycle + i)) j).second = none ∧
          exclusiveMoves ep.ddg scheduled first node modCycle = true
      · rw [if_pos hcond] at heq
        have hslot : after.slot (ep.index (cycle + i)) j = ⟨some first, none⟩ := by
          rw [← hfirst, ← hcond.1]
        apply hnext (.inr ⟨first, hslot, mutuallyExclusive_of_exclusiveMoves hcond.2⟩)
        rwa [hslot]
      · rw [if_neg hcond] at heq
        cases heq
        exact ⟨h, fun p hp => hp, fun hok => by cases hok⟩

/-- The loop over the cycles enters the trigger wherever it is used, unless it
fails; it passes over missing and empty rows, and stops after the last row that
is held when the rows of the cycles are in their order. -/
theorem tryCycles_spec (hsized : ∀ r, before.row r = [] ∨ (before.row r).length = ep.resources.numberOfResources)
    (hlast : ep.interval = intMax → ∀ r j, (before.slot r j).first ≠ none → j < ep.resources.numberOfResources ∧
      ∃ entry ∈ ep.assignedDestinationNodes, entry.1 ≤ r) {is : List Nat} (hsorted : is.Pairwise (· < ·)) :
    ∀ {after : ResourceReservationTable} {assigned : List (Nat × Nat)}, (∀ i ∈ is, i < ep.resources.maximalLatency) →
    Tried ep node cycle pIndex before after assigned → ∀ {ok : Bool} {after' : ResourceReservationTable}
      {assigned' : List (Nat × Nat)},
    tryCycles ep scheduled node cycle pIndex is after assigned = (ok, after', assigned') →
    Tried ep node cycle pIndex before after' assigned' ∧ (∀ p ∈ assigned, p ∈ assigned') ∧
      (ok = true → ep.Line cycle → ∀ i ∈ is, ∀ j < ep.resources.numberOfResources,
        ep.resources.operationPipeline pIndex i j = true → (i, j) ∈ assigned' ∨
          before.row (ep.index (cycle + i)) = [] ∨
          (ep.interval = intMax ∧ before.slot (ep.index (cycle + i)) j = .free)) := by
  induction is with
  | nil =>
    intro after assigned _ h ok after' assigned' heq
    cases heq
    exact ⟨h, fun p hp => hp, fun _ _ i hi => by cases hi⟩
  | cons i is ih =>
    intro after assigned his h ok after' assigned' heq
    obtain ⟨hfirst, hsorted'⟩ := List.pairwise_cons.1 hsorted
    have hi := his i List.mem_cons_self
    have his' : ∀ k ∈ is, k < ep.resources.maximalLatency := fun k hk => his k (List.mem_cons_of_mem _ hk)
    -- a cycle whose row is missing or empty is passed over
    have hskip {table : ResourceReservationTable} (htable : Tried ep node cycle pIndex before table assigned)
        (hrow : before.row (ep.index (cycle + i)) = [])
        (heq : tryCycles ep scheduled node cycle pIndex is table assigned = (ok, after', assigned')) :
        Tried ep node cycle pIndex before after' assigned' ∧ (∀ p ∈ assigned, p ∈ assigned') ∧
          (ok = true → ep.Line cycle → ∀ k ∈ i :: is, ∀ j < ep.resources.numberOfResources,
            ep.resources.operationPipeline pIndex k j = true → (k, j) ∈ assigned' ∨
              before.row (ep.index (cycle + k)) = [] ∨
              (ep.interval = intMax ∧ before.slot (ep.index (cycle + k)) j = .free)) := by
      obtain ⟨htried, hsub, hall⟩ := ih hsorted' his' htable heq
      refine ⟨htried, hsub, fun hok hline k hk j hj huse => ?_⟩
      cases List.mem_cons.1 hk with
      | inl hki => exact .inr (.inl (hki ▸ hrow))
      | inr hk => exact hall hok hline k hk j hj huse
    unfold tryCycles at heq
    dsimp only at heq
    by_cases hstop : ep.interval = intMax ∧ ep.size after ≤ ep.index (cycle + i)
    · rw [if_pos hstop] at heq
      cases heq
      refine ⟨h, fun p hp => hp, fun _ hline k hk j hj huse => .inr (.inr ⟨hstop.1, ?_⟩)⟩
      by_contra hheld
      have hk' : k < ep.resources.maximalLatency := his k hk
      have hle : ep.index (cycle + i) ≤ ep.index (cycle + k) := by
        rw [hline hstop.1 i hi, hline hstop.1 k hk']
        cases List.mem_cons.1 hk with
        | inl hki => omega
        | inr hk => have := hfirst k hk; omega
      have hbefore : (before.slot (ep.index (cycle + k)) j).first ≠ none := fun hnone => hheld ((hsafe _ _).eq_free hnone)
      have hafter : (after.slot (ep.index (cycle + k)) j).first ≠ none := by
        intro hnone
        have hfree := h.slot_free hsafe hnone
        have hopen : Open ep.ddg node (after.slot (ep.index (cycle + k)) j) := .inl hfree
        rw [(h.fresh hopen).2] at hnone
        exact hbefore hnone
      obtain ⟨-, entry, hentry, hcycle⟩ := hlast hstop.1 _ _ hbefore
      have := lt_size hafter hj hentry hcycle
      have := hstop.2
      omega
    rw [if_neg hstop] at heq
    by_cases hmissing : ep.interval ≠ intMax ∧ after.size ≤ ep.index (cycle + i)
    · rw [if_pos hmissing] at heq
      refine hskip h ?_ heq
      have hlen := h.grown.length_row (ep.index (cycle + i))
      have hnone : after.find (ep.index (cycle + i)) = none := by
        by_contra hsome
        have := SparseVector.lt_size hsome
        have := hmissing.2
        omega
      rw [row, hnone] at hlen
      exact List.length_eq_zero_iff.1 hlen.symm
    rw [if_neg hmissing] at heq
    have htouch := h.touch (ep.index (cycle + i))
    have hlen : (row (after.touch (ep.index (cycle + i)) []) (ep.index (cycle + i))).length =
        (before.row (ep.index (cycle + i))).length := htouch.grown.length_row _
    by_cases hempty : (row (after.touch (ep.index (cycle + i)) []) (ep.index (cycle + i))).length = 0
    · rw [if_pos hempty] at heq
      exact hskip htouch (List.length_eq_zero_iff.1 (hlen.symm.trans hempty)) heq
    rw [if_neg hempty] at heq
    have hrow : (before.row (ep.index (cycle + i))).length = ep.resources.numberOfResources := by
      refine (hsized _).resolve_left fun hnil => hempty ?_
      rw [hlen, hnil, List.length_nil]
    cases htry : tryResources ep scheduled node (ep.index cycle) pIndex i (ep.index (cycle + i))
        (List.range ep.resources.numberOfResources) (after.touch (ep.index (cycle + i)) []) assigned with
    | mk ok₁ rest =>
      obtain ⟨table, assigned₁⟩ := rest
      obtain ⟨htried₁, hsub₁, hall₁⟩ :=
        tryResources_spec hsafe hi hrow (fun j hj => List.mem_range.1 hj) htouch htry
      rw [htry] at heq
      cases ok₁ with
      | false =>
        cases heq
        exact ⟨htried₁, hsub₁, fun hok => by cases hok⟩
      | true =>
        obtain ⟨htried, hsub, hall⟩ := ih hsorted' his' htried₁ heq
        refine ⟨htried, fun p hp => hsub p (hsub₁ p hp), fun hok hline k hk j hj huse => ?_⟩
        cases List.mem_cons.1 hk with
        | inl hki =>
          subst hki
          exact .inl (hsub _ (hall₁ rfl j (List.mem_range.2 hj) huse))
        | inr hk => exact hall hok hline k hk j hj huse

end query

/-! ## Taking the trigger out again -/

/-- A list without doubles whose members are all equal has at most one. -/
theorem nodup_subsingleton {P : Type} {l : List P} (hnodup : l.Nodup) (hall : ∀ p ∈ l, ∀ q ∈ l, p = q) :
    l = [] ∨ ∃ p, l = [p] := by
  cases l with
  | nil => exact .inl rfl
  | cons p l =>
    cases l with
    | nil => exact .inr ⟨p, rfl⟩
    | cons q l =>
      have := hall p List.mem_cons_self q (List.mem_cons_of_mem _ List.mem_cons_self)
      subst this
      simp at hnodup

/-- The slot of a step of the loops. -/
def place (ep : ExecutionPipelineResource) (cycle : Nat) (p : Nat × Nat) : Nat × Nat := (ep.index (cycle + p.1), p.2)

theorem undo_acts {ep : ExecutionPipelineResource} {node : MoveNode} {cycle : Nat} {before : ResourceReservationTable}
    {assigned : List (Nat × Nat)} {p : Nat × Nat}
    (hrow : p ∈ assigned → p.2 < (before.row (ep.index (cycle + p.1))).length) :
    Pointwise.Acts (Grown before) (fun table k => table.slot k.1 k.2) (ep.place cycle p)
      (fun rr => if decide (p ∈ assigned) then undo node rr else .ok rr) (ep.undoStep cycle node assigned · p) := by
  by_cases hp : p ∈ assigned
  · simp only [decide_eq_true hp, if_true]
    constructor
    · intro table rr hgrown hundo
      have hlen : p.2 < (table.row (ep.index (cycle + p.1))).length := by
        rw [hgrown.length_row]
        exact hrow hp
      refine ⟨table.setSlot (ep.index (cycle + p.1)) p.2 rr, ?_, hgrown.trans (grown_setSlot hlen rr), ?_⟩
      · rw [undoStep, if_pos hp]
        simp only [place] at hundo
        rw [hundo]
        rfl
      · intro k
        rw [slot_setSlot hlen]
        simp only [place, Prod.ext_iff]
    · intro table e _ hundo
      simp only [place] at hundo
      rw [undoStep, if_pos hp, hundo]
      rfl
  · simp only [decide_eq_false hp, Bool.false_eq_true, if_false]
    constructor
    · intro table rr hgrown hundo
      cases hundo
      refine ⟨table, by rw [undoStep, if_neg hp]; rfl, hgrown, fun k => ?_⟩
      split
      · next h => rw [h]
      · rfl
    · intro table e _ hundo
      cases hundo

/-- At most one step of a loop comes to a slot when no two that count come to the same. -/
theorem steps_of_slot {ep : ExecutionPipelineResource} {cycle : Nat} {counts : Nat × Nat → Bool}
    (hinj : ∀ p ∈ ep.positions, ∀ q ∈ ep.positions, counts p = true → counts q = true →
      ep.place cycle p = ep.place cycle q → p = q) (k : Nat × Nat) :
    ((Pointwise.atKey (ep.place cycle) k ep.positions).filter counts = [] ∧
      ∀ p ∈ ep.positions, counts p = true → ep.place cycle p ≠ k) ∨
    ∃ p ∈ ep.positions, counts p = true ∧ ep.place cycle p = k ∧
      (Pointwise.atKey (ep.place cycle) k ep.positions).filter counts = [p] := by
  have hmem (p : Nat × Nat) : p ∈ (Pointwise.atKey (ep.place cycle) k ep.positions).filter counts ↔
      p ∈ ep.positions ∧ counts p = true ∧ ep.place cycle p = k := by
    rw [List.mem_filter, Pointwise.mem_atKey]
    exact ⟨fun h => ⟨h.1.1, h.2, h.1.2⟩, fun h => ⟨⟨h.1, h.2.2⟩, h.2.1⟩⟩
  have hnodup : ((Pointwise.atKey (ep.place cycle) k ep.positions).filter counts).Nodup :=
    ((positions_nodup ep).filter _).filter _
  have hequal : ∀ p ∈ (Pointwise.atKey (ep.place cycle) k ep.positions).filter counts,
      ∀ q ∈ (Pointwise.atKey (ep.place cycle) k ep.positions).filter counts, p = q := by
    intro p hp q hq
    obtain ⟨hp, hcp, hkp⟩ := (hmem p).1 hp
    obtain ⟨hq, hcq, hkq⟩ := (hmem q).1 hq
    exact hinj p hp q hq hcp hcq (hkp.trans hkq.symm)
  cases nodup_subsingleton hnodup hequal with
  | inl hnil =>
    refine .inl ⟨hnil, fun p hp hcount hk => ?_⟩
    have := (hmem p).2 ⟨hp, hcount, hk⟩
    rw [hnil] at this
    cases this
  | inr hone =>
    obtain ⟨p, hone⟩ := hone
    obtain ⟨hp, hcount, hk⟩ := (hmem p).1 (by rw [hone]; exact List.mem_singleton_self _)
    exact .inr ⟨p, hp, hcount, hk, hone⟩

/-- After the undo the reservations are those from before the query. -/
theorem undo_tried {ep : ExecutionPipelineResource} {node : MoveNode} {cycle pIndex : Nat}
    {before after : ResourceReservationTable} {assigned : List (Nat × Nat)}
    (h : Tried ep node cycle pIndex before after assigned) :
    ∃ table, ep.positions.foldlM (ep.undoStep cycle node assigned) after = .ok table ∧ Same before table := by
  have hacts : ∀ p ∈ ep.positions, Pointwise.Acts (Grown before) (fun table k => table.slot k.1 k.2) (ep.place cycle p)
      (fun rr => if decide (p ∈ assigned) then undo node rr else .ok rr) (ep.undoStep cycle node assigned · p) :=
    fun p _ => undo_acts fun hp => (h.used p hp).2.2
  have hinj : ∀ p ∈ ep.positions, ∀ q ∈ ep.positions, decide (p ∈ assigned) = true → decide (q ∈ assigned) = true →
      ep.place cycle p = ep.place cycle q → p = q := by
    rintro ⟨i, j⟩ - ⟨i', j'⟩ - hp hq hplace
    simp only [place, Prod.mk.injEq] at hplace
    obtain ⟨hindex, rfl⟩ := hplace
    rw [h.distinct i i' j (of_decide_eq_true hp) (of_decide_eq_true hq) hindex]
  -- the steps of one slot restore it
  have hslot (k : Nat × Nat) : (Pointwise.atKey (ep.place cycle) k ep.positions).foldlM
      (fun rr p => if decide (p ∈ assigned) then undo node rr else .ok rr) (after.slot k.1 k.2) =
        .ok (before.slot k.1 k.2) := by
    rw [Pointwise.foldlM_filter]
    rcases steps_of_slot hinj k with ⟨hnil, hnone⟩ | ⟨⟨i, j⟩, -, hij, rfl, hone⟩
    · have hothers : ∀ i, (i, k.2) ∈ assigned → ep.index (cycle + i) ≠ k.1 := fun i hi heq =>
        hnone (i, k.2) (h.used _ hi).1 (decide_eq_true hi) (Prod.ext heq rfl)
      rw [hnil, h.others k.1 k.2 hothers]
      rfl
    · rw [hone, List.foldlM_cons]
      simp only [place]
      rw [h.entered i j (of_decide_eq_true hij), undo_mark (h.admits i j (of_decide_eq_true hij))]
      rfl
  obtain ⟨table, htable⟩ := Pointwise.foldlM_total hacts h.grown fun k => ⟨_, hslot k⟩
  obtain ⟨hgrown, hall⟩ := Pointwise.foldlM_ok hacts h.grown htable
  refine ⟨table, htable, hgrown.same fun r j => ?_⟩
  have := hall (r, j)
  rw [hslot (r, j)] at this
  exact (Except.ok.inj this).symm

end ExecutionPipelineResource

end Tce.ExecutionPipeline
