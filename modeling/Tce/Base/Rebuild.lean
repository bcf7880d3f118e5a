import Mathlib.Data.Finset.Sort

/-!
# Rebuilding from parts

Sets are filled with their elements in order, and parts are sorted by their positions.
-/

namespace Tce.Rebuild
variable {α : Type} {l : List α}

/-! ## Sets -/

theorem mem_foldl_insert [DecidableEq α] (elements : List α) (set : Finset α) (a : α) :
    a ∈ elements.foldl (fun set a => insert a set) set ↔ a ∈ set ∨ a ∈ elements := by
  induction elements generalizing set with
  | nil => simp
  | cons b elements ih =>
    rw [List.foldl_cons, ih, Finset.mem_insert, List.mem_cons]
    tauto

/-- The set is filled with its elements in their order. -/
theorem foldl_insert_sort [LinearOrder α] (set : Finset α) :
    (set.sort (· ≤ ·)).foldl (fun set a => insert a set) ∅ = set := by
  ext a
  rw [mem_foldl_insert, Finset.mem_sort]
  exact or_iff_right (Finset.notMem_empty a)

/-! ## The order of positions -/

/-- Inserts each element before the first that has a greater key. -/
def inOrder (key : α → Int) (l : List α) : List α :=
  l.foldl (fun sorted a => sorted.orderedInsert (fun a b => key a < key b) a) []

variable {key : α → Int}

theorem pairwise_orderedInsert {a : α} (h : l.Pairwise fun a b => key a ≤ key b) :
    (l.orderedInsert (fun a b => key a < key b) a).Pairwise fun a b => key a ≤ key b := by
  induction l with
  | nil => simp
  | cons b l ih =>
    obtain ⟨hfirst, hrest⟩ := List.pairwise_cons.1 h
    by_cases hlt : key a < key b
    · simp only [List.orderedInsert, hlt, ↓reduceIte]
      apply List.pairwise_cons.2
      refine ⟨?_, h⟩
      intro c hc
      rcases List.mem_cons.1 hc with rfl | hc
      · omega
      · have := hfirst c hc
        omega
    · simp only [List.orderedInsert, hlt, ↓reduceIte]
      apply List.pairwise_cons.2
      refine ⟨?_, ih hrest⟩
      intro c hc
      rcases (List.mem_orderedInsert _).1 hc with rfl | hc
      · omega
      · exact hfirst c hc

theorem orderedInsert_last {a : α} (h : ∀ b ∈ l, key b ≤ key a) :
    l.orderedInsert (fun a b => key a < key b) a = l ++ [a] := by
  induction l with
  | nil => rfl
  | cons b l ih =>
    have hb : ¬key a < key b := Int.not_lt.2 (h b List.mem_cons_self)
    rw [List.orderedInsert, if_neg hb, ih fun c hc => h c (List.mem_cons_of_mem b hc), List.cons_append]

/-- Elements that are in order stay so. -/
theorem inOrder_of_pairwise (h : l.Pairwise fun a b => key a ≤ key b) : inOrder key l = l := by
  suffices hsuffix : ∀ sorted rest : List α, (sorted ++ rest).Pairwise (fun a b => key a ≤ key b) →
      rest.foldl (fun sorted a => sorted.orderedInsert (fun a b => key a < key b) a) sorted = sorted ++ rest from
    hsuffix [] l h
  intro sorted rest
  induction rest generalizing sorted with
  | nil => simp
  | cons a rest ih =>
    intro hall
    have hlast := fun b hb => (List.pairwise_append.1 hall).2.2 b hb a List.mem_cons_self
    rw [List.foldl_cons, orderedInsert_last hlast, ih, List.append_assoc, List.singleton_append]
    rwa [List.append_assoc, List.singleton_append]

/-! ## Missing elements -/

/-- Makes an element for each key that no element has. -/
def fill (key : α → Int) (make : Int → α) (keys : List Int) (l : List α) : List α :=
  keys.foldl (fun l k =>
    if (l.find? (key · = k)).isSome then l else l.orderedInsert (fun a b => key a < key b) (make k)) l

section Fill
variable {make : Int → α} {keys : List Int}

theorem find?_key_isSome (k : Int) : (l.find? (key · = k)).isSome ↔ k ∈ l.map key := by
  simp [List.find?_isSome]

theorem mem_missing (k : Int) : k ∈ keys.filter (· ∉ l.map key) ↔ k ∈ keys ∧ k ∉ l.map key := by
  simp [List.mem_filter]

theorem perm_fill (hmake : ∀ k, key (make k) = k) (hkeys : keys.Nodup) :
    (fill key make keys l).Perm (l ++ (keys.filter (· ∉ l.map key)).map make) := by
  induction keys generalizing l with
  | nil => simp [fill]
  | cons k keys ih =>
    obtain ⟨hk, hkeys⟩ := List.nodup_cons.1 hkeys
    rw [fill, List.foldl_cons]
    by_cases hhas : k ∈ l.map key
    · rw [if_pos (find?_key_isSome k |>.2 hhas), List.filter_cons_of_neg (by simpa using hhas)]
      exact ih hkeys
    · rw [if_neg (mt (find?_key_isSome k).1 hhas), List.filter_cons_of_pos (by simpa using hhas)]
      have hinsert := List.perm_orderedInsert (fun a b => key a < key b) (make k) l
      have hothers : keys.filter (· ∉ (l.orderedInsert (fun a b => key a < key b) (make k)).map key) =
          keys.filter (· ∉ l.map key) := by
        apply List.filter_congr
        intro other hother
        have hne : other ≠ k := fun heq => hk (heq ▸ hother)
        apply decide_eq_decide.2
        exact not_congr (by rw [(hinsert.map key).mem_iff, List.map_cons, hmake, List.mem_cons, or_iff_right hne])
      refine (ih hkeys).trans ?_
      rw [hothers, List.map_cons]
      exact (hinsert.append_right _).trans List.perm_middle.symm

theorem pairwise_fill (h : l.Pairwise fun a b => key a ≤ key b) :
    (fill key make keys l).Pairwise fun a b => key a ≤ key b := by
  induction keys generalizing l with
  | nil => exact h
  | cons k keys ih =>
    rw [fill, List.foldl_cons]
    split
    · exact ih h
    · exact ih (pairwise_orderedInsert h)

/-- Nothing is made when every key is there. -/
theorem fill_of_subset (h : ∀ k ∈ keys, k ∈ l.map key) : fill key make keys l = l := by
  induction keys with
  | nil => rfl
  | cons k keys ih =>
    rw [fill, List.foldl_cons, if_pos ((find?_key_isSome k).2 (h k List.mem_cons_self))]
    exact ih fun other hother => h other (List.mem_cons_of_mem k hother)

/-- The elements have the keys in their order, once each, when no key was there twice. -/
theorem map_key_fill (hmake : ∀ k, key (make k) = k) (hkeys : keys.Pairwise (· < ·)) (hl : l.Pairwise fun a b => key a ≤ key b)
    (hsub : ∀ a ∈ l, key a ∈ keys) : (fill key make keys l).map key = keys ↔ (l.map key).Nodup := by
  have hnodup : keys.Nodup := hkeys.imp fun hlt => Int.ne_of_lt hlt
  have hperm : ((fill key make keys l).map key).Perm (l.map key ++ keys.filter (· ∉ l.map key)) := by
    have hmap := (perm_fill (l := l) hmake hnodup).map key
    have hid : key ∘ make = id := funext hmake
    rwa [List.map_append, List.map_map, hid, List.map_id] at hmap
  constructor
  · intro h
    rw [h] at hperm
    exact (List.nodup_append.1 (hperm.nodup_iff.1 hnodup)).1
  · intro h
    have hall : (l.map key ++ keys.filter (· ∉ l.map key)).Perm keys := by
      apply (List.perm_ext_iff_of_nodup ?_ hnodup).2
      · intro k
        rw [List.mem_append, mem_missing]
        constructor
        · rintro (hk | ⟨hk, _⟩)
          · obtain ⟨a, ha, rfl⟩ := List.mem_map.1 hk
            exact hsub a ha
          · exact hk
        · intro hk
          by_cases hhas : k ∈ l.map key
          · exact Or.inl hhas
          · exact Or.inr ⟨hk, hhas⟩
      · refine List.nodup_append.2 ⟨h, hnodup.filter _, ?_⟩
        rintro k hk other hother rfl
        exact ((mem_missing k).1 hother).2 hk
    exact (hperm.trans hall).eq_of_pairwise (fun _ _ _ _ hab hba => Int.le_antisymm hab hba)
      (List.pairwise_map.2 (pairwise_fill hl)) (hkeys.imp Int.le_of_lt)

theorem mem_fill (hmake : ∀ k, key (make k) = k) (hkeys : keys.Nodup) (a : α) :
    a ∈ fill key make keys l ↔ a ∈ l ∨ ∃ k ∈ keys, k ∉ l.map key ∧ make k = a := by
  rw [(perm_fill hmake hkeys).mem_iff, List.mem_append, List.mem_map]
  apply or_congr_right
  constructor
  · rintro ⟨k, hk, rfl⟩
    exact ⟨k, ((mem_missing k).1 hk).1, ((mem_missing k).1 hk).2, rfl⟩
  · rintro ⟨k, hk, hmissing, rfl⟩
    exact ⟨k, (mem_missing k).2 ⟨hk, hmissing⟩, rfl⟩

end Fill

end Tce.Rebuild
