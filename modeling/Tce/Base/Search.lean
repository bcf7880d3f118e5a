import Mathlib.Data.Finset.Card

/-!
# Search

Paths are searched from a node by looking at the successors of each node that
is found once.
-/

namespace Tce

namespace Search

open Relation

variable {α : Type} [DecidableEq α] (successors : α → List α) (dest : α)

/-- Whether a successor of a node in the queue, or of one found from there, is `dest`. -/
def search : (fuel : Nat) → (queue found : List α) → Bool
  | 0, _, _ => false
  | _ + 1, [], _ => false
  | fuel + 1, current :: queue, found =>
    if dest ∈ successors current then true
    else
      let new := ((successors current).filter fun a => !found.contains a).dedup
      search fuel (queue ++ new) (found ++ new)

def IsSuccessor (a b : α) : Prop := b ∈ successors a

variable {successors dest}

omit [DecidableEq α] in
/-- Nodes that are closed under successors and do not have `dest` for one have no path to it. -/
theorem not_transGen_of_closed {p : α → Prop} (hclosed : ∀ a, p a → ∀ b ∈ successors a, p b ∧ b ≠ dest) {a : α}
    (ha : p a) : ¬ TransGen (IsSuccessor successors) a dest := by
  intro hpath
  have hboth : ∀ b, TransGen (IsSuccessor successors) a b → p b ∧ b ≠ dest := by
    intro b hb
    induction hb with
    | single hab => exact hclosed a ha _ hab
    | tail _ hbc ih => exact hclosed _ ih.1 _ hbc
  exact (hboth dest hpath).2 rfl

theorem mem_new {current : α} {found : List α} {a : α} :
    a ∈ ((successors current).filter fun a => !found.contains a).dedup ↔ a ∈ successors current ∧ a ∉ found := by
  rw [List.mem_dedup, List.mem_filter, Bool.not_eq_true', ← Bool.not_eq_true, List.contains_iff_mem]

/-- A search that ends well has found a path. -/
theorem exists_of_search {fuel : Nat} {queue found : List α} (h : search successors dest fuel queue found = true) :
    ∃ a ∈ queue, TransGen (IsSuccessor successors) a dest := by
  induction fuel generalizing queue found with
  | zero => cases h
  | succ fuel ih =>
    cases queue with
    | nil => cases h
    | cons current queue =>
      unfold search at h
      by_cases hdest : dest ∈ successors current
      · exact ⟨current, List.mem_cons_self, .single hdest⟩
      · rw [if_neg hdest] at h
        obtain ⟨a, ha, hpath⟩ := ih h
        cases List.mem_append.1 ha with
        | inl ha => exact ⟨a, List.mem_cons_of_mem _ ha, hpath⟩
        | inr ha => exact ⟨current, List.mem_cons_self, .head (mem_new.1 ha).1 hpath⟩

/-- The nodes that were not found before are fewer after new ones are. -/
theorem card_sdiff_new {nodes : Finset α} {current : α} (found : List α) (hnodes : ∀ b ∈ successors current, b ∈ nodes) :
    (nodes \ (found ++ ((successors current).filter fun a => !found.contains a).dedup).toFinset).card +
      (((successors current).filter fun a => !found.contains a).dedup).length ≤ (nodes \ found.toFinset).card := by
  generalize hnew : ((successors current).filter fun a => !found.contains a).dedup = new
  have hnodup : new.Nodup := hnew ▸ List.nodup_dedup _
  have hmem : ∀ a, a ∈ new ↔ a ∈ successors current ∧ a ∉ found := fun a => hnew ▸ mem_new
  rw [← List.toFinset_card_of_nodup hnodup, ← Finset.card_union_of_disjoint]
  · apply Finset.card_le_card
    intro a ha
    rw [Finset.mem_union, Finset.mem_sdiff, List.mem_toFinset, List.mem_toFinset, List.mem_append, not_or] at ha
    rw [Finset.mem_sdiff, List.mem_toFinset]
    cases ha with
    | inl ha => exact ⟨ha.1, ha.2.1⟩
    | inr ha => exact ⟨hnodes a ((hmem a).1 ha).1, ((hmem a).1 ha).2⟩
  · rw [Finset.disjoint_left]
    intro a ha hnew
    rw [Finset.mem_sdiff, List.mem_toFinset, List.mem_append, not_or] at ha
    exact ha.2.2 (List.mem_toFinset.1 hnew)

/-- A search with enough fuel that fails has found all nodes that there are paths to. -/
theorem not_transGen_of_search {nodes : Finset α} (hnodes : ∀ a, ∀ b ∈ successors a, b ∈ nodes) {start : α}
    {fuel : Nat} {queue found : List α} (hfuel : queue.length + (nodes \ found.toFinset).card < fuel)
    (hdone : ∀ a, a = start ∨ a ∈ found → a ∉ queue → ∀ b ∈ successors a, b ∈ found ∧ b ≠ dest)
    (h : search successors dest fuel queue found = false) : ¬ TransGen (IsSuccessor successors) start dest := by
  induction fuel generalizing queue found with
  | zero => cases hfuel
  | succ fuel ih =>
    cases queue with
    | nil =>
      apply not_transGen_of_closed (p := fun a => a = start ∨ a ∈ found) ?_ (.inl rfl)
      intro a ha b hb
      obtain ⟨hfound, hne⟩ := hdone a ha List.not_mem_nil b hb
      exact ⟨.inr hfound, hne⟩
    | cons current queue =>
      unfold search at h
      by_cases hdest : dest ∈ successors current
      · rw [if_pos hdest] at h
        cases h
      · rw [if_neg hdest] at h
        have hcard := card_sdiff_new found (hnodes current)
        apply ih ?_ ?_ h
        · rw [List.length_append]
          rw [List.length_cons] at hfuel
          omega
        · intro a ha hnot b hb
          rw [List.mem_append, not_or] at hnot
          by_cases hcurrent : a = current
          · subst hcurrent
            refine ⟨List.mem_append.2 ?_, fun heq => hdest (heq ▸ hb)⟩
            by_cases hbfound : b ∈ found
            · exact .inl hbfound
            · exact .inr (mem_new.2 ⟨hb, hbfound⟩)
          · have hold : a = start ∨ a ∈ found := by
              cases ha with
              | inl ha => exact .inl ha
              | inr ha => exact .inr ((List.mem_append.1 ha).resolve_right hnot.2)
            obtain ⟨hfound, hne⟩ := hdone a hold (by rw [List.mem_cons, not_or]; exact ⟨hcurrent, hnot.1⟩) b hb
            exact ⟨List.mem_append_left _ hfound, hne⟩

/-- A search from one node finds a path if there is one. -/
theorem search_iff (nodes : Finset α) (hnodes : ∀ a, ∀ b ∈ successors a, b ∈ nodes) {start : α} {fuel : Nat}
    (hfuel : nodes.card + 1 < fuel) :
    search successors dest fuel [start] [] = true ↔ TransGen (IsSuccessor successors) start dest := by
  constructor
  · intro h
    obtain ⟨a, ha, hpath⟩ := exists_of_search h
    rwa [List.mem_singleton.1 ha] at hpath
  · intro hpath
    by_contra hnot
    refine not_transGen_of_search hnodes ?_ ?_ (Bool.not_eq_true _ ▸ hnot) hpath
    · simpa [Nat.add_comm] using hfuel
    · intro a ha hnotmem
      rw [List.mem_singleton] at hnotmem
      cases ha with
      | inl ha => exact absurd ha hnotmem
      | inr ha => cases ha

end Search

end Tce
