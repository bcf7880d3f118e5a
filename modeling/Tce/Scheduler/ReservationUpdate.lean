import Tce.Scheduler.ReservationQuery

/-!
# Reserving and releasing

What the loops of `assignDestination` and `unassignDestination` do to each slot.
-/

namespace Tce.ExecutionPipeline

namespace ResourceReservation

/-- The slot without the trigger. -/
def without (node : MoveNode) (rr : ResourceReservation) : ResourceReservation :=
  if rr.first = some node then ⟨rr.second, none⟩
  else if rr.second = some node then { rr with second := none } else rr

variable {ddg : Option DataDependenceGraph} {node : MoveNode} {rr : ResourceReservation}

theorem has_mark (h : Open ddg node rr) (m : MoveNode) : (mark node rr).Has m ↔ rr.Has m ∨ m = node := by
  rcases h with rfl | ⟨a, rfl, -⟩
  · simp [mark, Has, free, eq_comm]
  · simp [mark, Has, eq_comm]

theorem safe_mark (h : Open ddg node rr) : (mark node rr).Safe ddg := by
  rcases h with rfl | ⟨a, rfl, hexcl⟩
  · intro b hb
    cases hb
  · intro b hb
    cases hb
    exact ⟨a, rfl, hexcl⟩

theorem has_without (h : rr.Safe ddg) (m : MoveNode) : (rr.without node).Has m ↔ rr.Has m ∧ m ≠ node := by
  obtain ⟨first, second⟩ := rr
  unfold without Has
  by_cases hfirst : first = some node
  · subst hfirst
    have hsecond : second ≠ some node := by
      rintro rfl
      obtain ⟨a, ha, hexcl⟩ := h node rfl
      cases ha
      exact not_mutuallyExclusive_self node hexcl
    simp only [if_true, reduceCtorEq, or_false, Option.some.injEq]
    constructor
    · intro hm
      exact ⟨.inr hm, fun heq => hsecond (heq ▸ hm)⟩
    · rintro ⟨hm | hm, hne⟩
      · exact absurd hm.symm hne
      · exact hm
  · rw [if_neg hfirst]
    by_cases hsecond : second = some node
    · subst hsecond
      simp only [if_true, reduceCtorEq, or_false, Option.some.injEq]
      constructor
      · intro hm
        exact ⟨.inl hm, fun heq => hfirst (heq ▸ hm)⟩
      · rintro ⟨hm | hm, hne⟩
        · exact hm
        · exact absurd hm.symm hne
    · rw [if_neg hsecond]
      constructor
      · intro hm
        refine ⟨hm, ?_⟩
        rintro rfl
        exact hm.elim hfirst hsecond
      · exact And.left

theorem safe_without (h : rr.Safe ddg) : (rr.without node).Safe ddg := by
  obtain ⟨first, second⟩ := rr
  unfold without
  split
  · intro b hb
    cases hb
  · split
    · intro b hb
      cases hb
    · exact h

theorem without_of_not_has (h : ¬rr.Has node) : rr.without node = rr := by
  unfold without
  rw [if_neg fun hfirst => h (.inl hfirst), if_neg fun hsecond => h (.inr hsecond)]

end ResourceReservation

namespace ExecutionPipelineResource
open ResourceReservation ResourceReservationTable

/-! ## Reserving -/

theorem occupy_open {ddg : Option DataDependenceGraph} {node : MoveNode} {rr : ResourceReservation}
    (h : Open ddg node rr) : occupy node rr = .ok (mark node rr) := by
  rcases h with rfl | ⟨a, rfl, -⟩ <;> simp [occupy, mark, free]

/-- A free slot that the operation comes to more than once holds the trigger twice. -/
theorem occupy_twice {node : MoveNode} {l : List (Nat × Nat)} (hl : 2 ≤ l.length) {rr : ResourceReservation}
    (h : l.foldlM (fun rr _ => occupy node rr) ResourceReservation.free = .ok rr) : rr = ⟨some node, some node⟩ := by
  match l with
  | p :: q :: l =>
    have hstart : l.foldlM (fun rr _ => occupy node rr) ⟨some node, some node⟩ = .ok rr := h
    cases l with
    | nil =>
      cases hstart
      rfl
    | cons p l => cases hstart

theorem occupy_error {node : MoveNode} {rr : ResourceReservation} {e : Fault} (h : occupy node rr = .error e) :
    e = .resourceAlreadyInUse := by
  unfold occupy at h
  split_ifs at h
  cases h
  rfl

/-- All rows are empty or have a slot for each resource. -/
def Sized (ep : ExecutionPipelineResource) (table : ResourceReservationTable) : Prop :=
  ∀ r, table.row r = [] ∨ (table.row r).length = ep.resources.numberOfResources

/-- The table with the row for a step of the reservation. -/
def withRow (ep : ExecutionPipelineResource) (table : ResourceReservationTable) (modic : Nat) : ResourceReservationTable :=
  if (table.row modic).length = 0 then table.insert modic (List.replicate ep.resources.numberOfResources .free)
  else table

theorem slot_withRow (ep : ExecutionPipelineResource) (table : ResourceReservationTable) (modic r j : Nat) :
    (ep.withRow table modic).slot r j = table.slot r j := by
  unfold withRow
  split
  · next hempty =>
    by_cases hr : r = modic
    · subst hr
      have hold : table.slot r j = .free := slot_of_length_le (by omega)
      rw [hold]
      simp only [slot, row, SparseVector.find_insert_self, Option.getD_some, List.getElem?_replicate]
      split <;> rfl
    · simp only [slot, row, SparseVector.find_insert_ne _ _ hr]
  · rfl

theorem sized_withRow {ep : ExecutionPipelineResource} {table : ResourceReservationTable} (h : ep.Sized table) (modic : Nat) :
    ep.Sized (ep.withRow table modic) ∧
      ((ep.withRow table modic).row modic).length = ep.resources.numberOfResources := by
  unfold withRow
  split
  · refine ⟨fun r => ?_, by simp [row]⟩
    by_cases hr : r = modic
    · subst hr
      exact .inr (by simp [row])
    · have := h r
      simpa only [row, SparseVector.find_insert_ne _ _ hr] using this
  · next hne =>
    exact ⟨h, (h modic).resolve_left fun hnil => hne (by rw [hnil]; rfl)⟩

theorem sized_setSlot {ep : ExecutionPipelineResource} {table : ResourceReservationTable} (h : ep.Sized table)
    (modic j : Nat) (rr : ResourceReservation) : ep.Sized (table.setSlot modic j rr) := by
  intro r
  have hlen := length_row_setSlot table modic j r rr
  refine (h r).imp (fun hnil => ?_) fun hn => hlen.trans hn
  rw [hnil] at hlen
  exact List.length_eq_zero_iff.1 hlen

theorem reserve_acts {ep : ExecutionPipelineResource} (cycle pIndex : Nat) (node : MoveNode) {p : Nat × Nat}
    (hp : p ∈ ep.positions) :
    Pointwise.Acts ep.Sized (fun table k => table.slot k.1 k.2) (ep.place cycle p)
      (fun rr => if ep.resources.operationPipeline pIndex p.1 p.2 then occupy node rr else .ok rr)
      (ep.reserveStep cycle pIndex node · p) := by
  have hj := (mem_positions.1 hp).2
  constructor
  · intro table rr hsized hocc
    obtain ⟨hsized', hlen⟩ := sized_withRow hsized (ep.index (cycle + p.1))
    simp only [place, ← slot_withRow ep table (ep.index (cycle + p.1))] at hocc
    by_cases huse : ep.resources.operationPipeline pIndex p.1 p.2 = true
    · rw [if_pos huse] at hocc
      refine ⟨(ep.withRow table (ep.index (cycle + p.1))).setSlot (ep.index (cycle + p.1)) p.2 rr, ?_,
        sized_setSlot hsized' _ _ _, fun k => ?_⟩
      · unfold reserveStep
        dsimp only
        rw [if_pos huse]
        unfold withRow at hocc ⊢
        rw [hocc]
        rfl
      · rw [slot_setSlot (hlen.symm ▸ hj), slot_withRow]
        simp only [place, Prod.ext_iff]
    · rw [if_neg huse] at hocc
      cases hocc
      refine ⟨ep.withRow table (ep.index (cycle + p.1)), ?_, hsized', fun k => ?_⟩
      · unfold reserveStep
        dsimp only
        rw [if_neg huse]
        rfl
      · rw [slot_withRow]
        split
        · next h => rw [h, slot_withRow]; rfl
        · rfl
  · intro table e _ hocc
    simp only [place, ← slot_withRow ep table (ep.index (cycle + p.1))] at hocc
    split at hocc
    · next huse =>
      unfold reserveStep
      dsimp only
      rw [if_pos huse]
      unfold withRow at hocc
      rw [hocc]
      rfl
    · cases hocc

/-- Reserving ends well when every slot that is used admits the trigger and is
used once, and then enters it there. -/
theorem reserve_spec {ep : ExecutionPipelineResource} (cycle pIndex : Nat) (node : MoveNode) {table : ResourceReservationTable}
    (hsized : ep.Sized table)
    (hopen : ∀ p ∈ ep.positions, ep.resources.operationPipeline pIndex p.1 p.2 = true →
      Open ep.ddg node (table.slot (ep.index (cycle + p.1)) p.2))
    (honce : ∀ p ∈ ep.positions, ∀ q ∈ ep.positions, ep.resources.operationPipeline pIndex p.1 p.2 = true →
      ep.resources.operationPipeline pIndex q.1 q.2 = true → ep.place cycle p = ep.place cycle q → p = q) :
    ∃ table', ep.positions.foldlM (ep.reserveStep cycle pIndex node) table = .ok table' ∧ ep.Sized table' ∧
      (∀ p ∈ ep.positions, ep.resources.operationPipeline pIndex p.1 p.2 = true →
        table'.slot (ep.index (cycle + p.1)) p.2 = mark node (table.slot (ep.index (cycle + p.1)) p.2)) ∧
      ∀ r j, (∀ p ∈ ep.positions, ep.resources.operationPipeline pIndex p.1 p.2 = true → ep.place cycle p ≠ (r, j)) →
        table'.slot r j = table.slot r j := by
  have hacts := fun p (hp : p ∈ ep.positions) => reserve_acts cycle pIndex node hp
  have hsteps := steps_of_slot honce
  have hslot (k : Nat × Nat) : ∃ rr, (Pointwise.atKey (ep.place cycle) k ep.positions).foldlM
      (fun rr p => if ep.resources.operationPipeline pIndex p.1 p.2 then occupy node rr else .ok rr)
        (table.slot k.1 k.2) = .ok rr := by
    rw [Pointwise.foldlM_filter]
    rcases hsteps k with ⟨hnil, -⟩ | ⟨p, hp, huse, rfl, hone⟩
    · exact ⟨_, by rw [hnil]; rfl⟩
    · rw [hone, List.foldlM_cons]
      simp only [place]
      rw [occupy_open (hopen p hp huse)]
      exact ⟨_, rfl⟩
  obtain ⟨table', htable⟩ := Pointwise.foldlM_total hacts hsized hslot
  obtain ⟨hsized', hall⟩ := Pointwise.foldlM_ok hacts hsized htable
  refine ⟨table', htable, hsized', fun p hp huse => ?_, fun r j hnone => ?_⟩
  · have hp' := hall (ep.place cycle p)
    rw [Pointwise.foldlM_filter] at hp'
    rcases hsteps (ep.place cycle p) with ⟨-, hnone⟩ | ⟨q, hq, huse', hplace, hone⟩
    · exact absurd rfl (hnone p hp huse)
    · rw [hone, List.foldlM_cons] at hp'
      simp only [place] at hp'
      rw [occupy_open (hopen p hp huse)] at hp'
      exact (Except.ok.inj hp').symm
  · have hp' := hall (r, j)
    rw [Pointwise.foldlM_filter] at hp'
    rcases hsteps (r, j) with ⟨hnil, -⟩ | ⟨q, hq, huse', hplace, -⟩
    · rw [hnil] at hp'
      exact (Except.ok.inj hp').symm
    · exact absurd hplace (hnone q hq huse')

/-- Reserving fails by the assertion only. -/
theorem reserve_error {ep : ExecutionPipelineResource} {cycle pIndex : Nat} {node : MoveNode} {e : Fault}
    {table : ResourceReservationTable} (hsized : ep.Sized table)
    (h : ep.positions.foldlM (ep.reserveStep cycle pIndex node) table = .error e) : e = .resourceAlreadyInUse := by
  obtain ⟨p, -, rr, hfail⟩ := Pointwise.foldlM_error (fun p hp => reserve_acts cycle pIndex node hp) hsized h
  split_ifs at hfail
  exact occupy_error hfail

/-- The rows that the loop has come to are there. -/
theorem reserve_rows {ep : ExecutionPipelineResource} {cycle pIndex : Nat} {node : MoveNode} {ps : List (Nat × Nat)}
    (hps : ∀ p ∈ ps, p ∈ ep.positions) : ∀ {table table' : ResourceReservationTable}, ep.Sized table →
    ps.foldlM (ep.reserveStep cycle pIndex node) table = .ok table' →
    (∀ r, table.row r ≠ [] → table'.row r ≠ []) ∧ ∀ p ∈ ps, table'.row (ep.index (cycle + p.1)) ≠ [] := by
  induction ps with
  | nil =>
    intro table table' _ h
    cases h
    exact ⟨fun r hr => hr, fun p hp => by cases hp⟩
  | cons p ps ih =>
    intro table table' hsized h
    have hp := hps p List.mem_cons_self
    rw [List.foldlM_cons] at h
    obtain ⟨hsized₁, hlen⟩ := sized_withRow hsized (ep.index (cycle + p.1))
    -- the row of the step, and the rows that were there before
    have hstep {table₁ : ResourceReservationTable} (hstep : ep.reserveStep cycle pIndex node table p = .ok table₁) :
        ep.Sized table₁ ∧ ∀ r, (table₁.row r).length = ((ep.withRow table (ep.index (cycle + p.1))).row r).length := by
      unfold reserveStep at hstep
      dsimp only at hstep
      split at hstep
      · cases hocc : occupy node (slot (ep.withRow table (ep.index (cycle + p.1))) (ep.index (cycle + p.1)) p.2) with
        | error e =>
          unfold withRow at hocc
          rw [hocc] at hstep
          cases hstep
        | ok rr =>
          unfold withRow at hocc
          rw [hocc] at hstep
          cases hstep
          exact ⟨sized_setSlot hsized₁ _ _ _, fun r => length_row_setSlot _ _ _ _ _⟩
      · cases hstep
        exact ⟨hsized₁, fun r => rfl⟩
    cases hs : ep.reserveStep cycle pIndex node table p with
    | error e =>
      rw [hs] at h
      cases h
    | ok table₁ =>
      rw [hs] at h
      obtain ⟨hsized₂, hrow⟩ := hstep hs
      obtain ⟨hkeep, hall⟩ := ih (fun q hq => hps q (List.mem_cons_of_mem _ hq)) hsized₂ h
      have hgrow (r : Nat) (hr : table.row r ≠ []) : table₁.row r ≠ [] := by
        intro hnil
        have hr' := hrow r
        rw [hnil] at hr'
        unfold withRow at hr'
        split at hr'
        · next hempty =>
          by_cases hindex : r = ep.index (cycle + p.1)
          · exact hr (List.length_eq_zero_iff.1 (hindex ▸ hempty))
          · simp only [row, SparseVector.find_insert_ne _ _ hindex] at hr'
            exact hr (List.length_eq_zero_iff.1 hr'.symm)
        · exact hr (List.length_eq_zero_iff.1 hr'.symm)
      refine ⟨fun r hr => hkeep r (hgrow r hr), fun q hq => ?_⟩
      cases List.mem_cons.1 hq with
      | inl heq =>
        subst heq
        apply hkeep
        intro hnil
        have := hrow (ep.index (cycle + q.1))
        rw [hlen, hnil, List.length_nil] at this
        have := (mem_positions.1 hp).2
        omega
      | inr hq => exact hall q hq

/-- A slot that was free and is used more than once holds the trigger twice. -/
theorem reserve_twice {ep : ExecutionPipelineResource} {cycle pIndex : Nat} {node : MoveNode}
    {table table' : ResourceReservationTable} (hsized : ep.Sized table)
    (h : ep.positions.foldlM (ep.reserveStep cycle pIndex node) table = .ok table') {p q : Nat × Nat}
    (hp : p ∈ ep.positions) (hq : q ∈ ep.positions) (hne : p ≠ q)
    (hup : ep.resources.operationPipeline pIndex p.1 p.2 = true)
    (huq : ep.resources.operationPipeline pIndex q.1 q.2 = true) (hplace : ep.place cycle p = ep.place cycle q)
    (hfree : table.slot (ep.index (cycle + p.1)) p.2 = .free) :
    table'.slot (ep.index (cycle + p.1)) p.2 = ⟨some node, some node⟩ := by
  have hall := (Pointwise.foldlM_ok (fun p hp => reserve_acts cycle pIndex node hp) hsized h).2 (ep.place cycle p)
  have hstart : table.slot (ep.place cycle p).1 (ep.place cycle p).2 = .free := hfree
  rw [Pointwise.foldlM_filter, hstart] at hall
  apply occupy_twice ?_ hall
  have hmem {o : Nat × Nat} (ho : o ∈ ep.positions) (hu : ep.resources.operationPipeline pIndex o.1 o.2 = true)
      (hk : ep.place cycle o = ep.place cycle p) :
      o ∈ (Pointwise.atKey (ep.place cycle) (ep.place cycle p) ep.positions).filter fun p =>
        ep.resources.operationPipeline pIndex p.1 p.2 :=
    List.mem_filter.2 ⟨Pointwise.mem_atKey.2 ⟨ho, hk⟩, hu⟩
  by_contra hlt
  have hp' := hmem hp hup rfl
  have hq' := hmem hq huq hplace.symm
  obtain ⟨o, ho⟩ := List.length_eq_one_iff.1 (Nat.le_antisymm (Nat.not_lt.1 hlt) (List.length_pos_of_mem hp'))
  rw [ho, List.mem_singleton] at hp' hq'
  exact hne (hp'.trans hq'.symm)

/-! ## Releasing -/

theorem release_eq {uses : Bool} {node : MoveNode} {rr rr' : ResourceReservation}
    (h : release uses node rr = .ok rr') : rr' = rr.without node := by
  unfold release at h
  unfold without
  split_ifs at h ⊢ <;> cases h <;> rfl

theorem release_without {uses : Bool} {node : MoveNode} {rr rr' : ResourceReservation} {ddg : Option DataDependenceGraph}
    (hsafe : rr.Safe ddg) (h : release uses node (rr.without node) = .ok rr') : rr' = rr.without node := by
  rw [release_eq h]
  apply without_of_not_has
  rw [has_without hsafe]
  exact fun hhas => hhas.2 rfl

/-- The steps of a slot leave it without the trigger. -/
theorem release_steps {uses : Nat × Nat → Bool} {node : MoveNode} {ddg : Option DataDependenceGraph}
    {l : List (Nat × Nat)} : ∀ {rr rr' : ResourceReservation}, rr.Safe ddg →
    l.foldlM (fun rr p => release (uses p) node rr) (rr.without node) = .ok rr' → rr' = rr.without node := by
  induction l with
  | nil =>
    intro rr rr' _ h
    cases h
    rfl
  | cons p l ih =>
    intro rr rr' hsafe h
    rw [List.foldlM_cons] at h
    cases hrel : release (uses p) node (rr.without node) with
    | error e =>
      rw [hrel] at h
      cases h
    | ok v =>
      rw [hrel, release_without hsafe hrel] at h
      exact ih hsafe h

theorem release_acts {ep : ExecutionPipelineResource} {cycle pIndex : Nat} {node : MoveNode} {p : Nat × Nat}
    {before : ResourceReservationTable} (hsized : ep.Sized before) (hp : p ∈ ep.positions)
    (hne : before.row (ep.index (cycle + p.1)) ≠ []) :
    Pointwise.Acts (fun table => ∀ r, (table.row r).length = (before.row r).length)
      (fun table k => table.slot k.1 k.2) (ep.place cycle p)
      (fun rr => release (ep.resources.operationPipeline pIndex p.1 p.2) node rr)
      (ep.releaseStep cycle pIndex node · p) := by
  have hbefore := (hsized (ep.index (cycle + p.1))).resolve_left hne
  have hzero {table : ResourceReservationTable} (hlen : ∀ r, (table.row r).length = (before.row r).length) :
      ¬(table.row (ep.index (cycle + p.1))).length = 0 := by
    rw [hlen]
    exact fun h => hne (List.length_eq_zero_iff.1 h)
  constructor
  · intro table rr hlen hrel
    have hj : p.2 < (table.row (ep.index (cycle + p.1))).length := by
      rw [hlen, hbefore]
      exact (mem_positions.1 hp).2
    refine ⟨table.setSlot (ep.index (cycle + p.1)) p.2 rr, ?_, fun r => ?_, fun k => ?_⟩
    · unfold releaseStep
      dsimp only
      rw [if_neg (hzero hlen)]
      simp only [place] at hrel
      rw [hrel]
      rfl
    · rw [length_row_setSlot, hlen]
    · rw [slot_setSlot hj]
      simp only [place, Prod.ext_iff]
  · intro table e hlen hrel
    unfold releaseStep
    dsimp only
    rw [if_neg (hzero hlen)]
    simp only [place] at hrel
    rw [hrel]
    rfl

/-- Releasing takes the trigger out of every slot the loop comes to. -/
theorem release_spec {ep : ExecutionPipelineResource} {cycle pIndex : Nat} {node : MoveNode}
    {table table' : ResourceReservationTable} (hsized : ep.Sized table)
    (hrows : ∀ p ∈ ep.positions, table.row (ep.index (cycle + p.1)) ≠ [])
    (hsafe : ∀ r j, (table.slot r j).Safe ep.ddg)
    (hhas : ∀ r j, (table.slot r j).Has node → ∃ p ∈ ep.positions, ep.place cycle p = (r, j))
    (h : ep.positions.foldlM (ep.releaseStep cycle pIndex node) table = .ok table') :
    (∀ r, (table'.row r).length = (table.row r).length) ∧
      ∀ r j, table'.slot r j = (table.slot r j).without node := by
  obtain ⟨hlen, hall⟩ := Pointwise.foldlM_ok (fun p hp => release_acts hsized hp (hrows p hp)) (fun r => rfl) h
  refine ⟨hlen, fun r j => ?_⟩
  have hrj := hall (r, j)
  cases hsteps : Pointwise.atKey (ep.place cycle) (r, j) ep.positions with
  | nil =>
    rw [hsteps] at hrj
    have hsame : table.slot r j = table'.slot r j := Except.ok.inj hrj
    rw [← hsame]
    symm
    apply without_of_not_has
    intro hnode
    obtain ⟨p, hp, hplace⟩ := hhas r j hnode
    have hmem : p ∈ Pointwise.atKey (ep.place cycle) (r, j) ep.positions := Pointwise.mem_atKey.2 ⟨hp, hplace⟩
    rw [hsteps] at hmem
    cases hmem
  | cons p l =>
    rw [hsteps, List.foldlM_cons] at hrj
    cases hrel : release (ep.resources.operationPipeline pIndex p.1 p.2) node (table.slot r j) with
    | error e =>
      rw [hrel] at hrj
      cases hrj
    | ok v =>
      rw [hrel, release_eq hrel] at hrj
      exact release_steps (hsafe r j) hrj

end ExecutionPipelineResource

end Tce.ExecutionPipeline
