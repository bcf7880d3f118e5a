import Mathlib.Data.List.Sort

/-!
# Tables of sets

A table has a row for each cycle, and a row is a set, kept as an ordered list without repeats.
Past the end all rows are empty.
-/

namespace Tce.Base.CycleTable
variable {α : Type} {r : α → α → Prop} [DecidableRel r] [DecidableEq α] {table : List (List α)} {a b : α}
  {cycle start duration n : Nat}

def row (table : List (List α)) (cycle : Nat) : List α := table.getD cycle []

/-- A set with one more element. -/
def insertOrdered (r : α → α → Prop) [DecidableRel r] (a : α) (set : List α) : List α :=
  if a ∈ set then set else set.orderedInsert r a

def insertAt (r : α → α → Prop) [DecidableRel r] (a : α) (start duration : Nat) (table : List (List α)) :
    List (List α) :=
  (List.range' start duration).foldl (fun table cycle => table.modify cycle (insertOrdered r a)) table

def removeAt (a : α) (start duration : Nat) (table : List (List α)) : List (List α) :=
  (List.range' start duration).foldl (fun table cycle => table.modify cycle (·.erase a)) table

/-- `resize` of a vector. -/
def resize (n : Nat) (table : List (List α)) : List (List α) :=
  table.take n ++ List.replicate (n - table.length) []

/-- Every row is a set. -/
def Sets (table : List (List α)) : Prop := ∀ cycle, (row table cycle).Nodup

omit [DecidableEq α] in
theorem row_past (h : table.length ≤ cycle) : row table cycle = [] := by
  rw [row, List.getD_eq_getElem?_getD, List.getElem?_eq_none h, Option.getD_none]

omit [DecidableEq α] in
theorem lt_of_mem_row (h : a ∈ row table cycle) : cycle < table.length := by
  by_contra hle
  rw [row_past (Nat.not_lt.mp hle)] at h
  exact List.not_mem_nil h

omit [DecidableEq α] in
theorem row_modify (f : List α → List α) (h : n < table.length) :
    row (table.modify n f) cycle = if cycle = n then f (row table n) else row table cycle := by
  rw [row, row, row, List.getD_eq_getElem?_getD, List.getElem?_modify, List.getD_eq_getElem?_getD,
    List.getD_eq_getElem?_getD]
  by_cases hcycle : cycle = n
  · subst hcycle
    simp [h]
  · simp [hcycle, Ne.symm hcycle]

omit [DecidableEq α] in
theorem row_resize : row (resize n table) cycle = if cycle < n then row table cycle else [] := by
  simp only [row, resize, List.getD_eq_getElem?_getD, List.getElem?_append, List.length_take, List.getElem?_take,
    List.getElem?_replicate]
  by_cases hlength : cycle < table.length
  · by_cases hcycle : cycle < n
    · simp [hcycle, hlength]
    · rw [if_neg (by omega), if_neg (by omega), if_neg hcycle, Option.getD_none]
  · rw [if_neg (by omega), List.getElem?_eq_none (Nat.not_lt.mp hlength)]
    split <;> split <;> rfl

omit [DecidableEq α] in
@[simp] theorem length_resize : (resize n table).length = n := by
  rw [resize, List.length_append, List.length_take, List.length_replicate]
  omega

theorem mem_insertOrdered {set : List α} : b ∈ insertOrdered r a set ↔ b = a ∨ b ∈ set := by
  rw [insertOrdered]
  split
  · exact ⟨.inr, fun h => h.elim (fun hb => hb ▸ ‹_›) id⟩
  · rw [List.mem_orderedInsert]

theorem nodup_insertOrdered {set : List α} (h : set.Nodup) : (insertOrdered r a set).Nodup := by
  rw [insertOrdered]
  split
  · exact h
  · exact (List.perm_orderedInsert r a set).nodup_iff.mpr (List.nodup_cons.mpr ⟨‹_›, h⟩)

theorem length_insertAt : (insertAt r a start duration table).length = table.length := by
  induction duration generalizing start table with
  | zero => rfl
  | succ n ih =>
    rw [insertAt, List.range'_succ, List.foldl_cons]
    exact ih.trans (List.length_modify ..)

theorem length_removeAt : (removeAt a start duration table).length = table.length := by
  induction duration generalizing start table with
  | zero => rfl
  | succ n ih =>
    rw [removeAt, List.range'_succ, List.foldl_cons]
    exact ih.trans (List.length_modify ..)

theorem row_insertAt (h : start + duration ≤ table.length) :
    row (insertAt r a start duration table) cycle =
      if start ≤ cycle ∧ cycle < start + duration then insertOrdered r a (row table cycle) else row table cycle := by
  induction duration generalizing start table with
  | zero => exact (if_neg (by omega)).symm
  | succ n ih =>
    rw [insertAt, List.range'_succ, List.foldl_cons]
    refine (ih (by rw [List.length_modify]; omega)).trans ?_
    rw [row_modify _ (by omega)]
    by_cases hstart : cycle = start
    · rw [if_neg (by omega), if_pos hstart, if_pos (by omega), hstart]
    · rw [if_neg hstart]
      by_cases hcycle : start ≤ cycle ∧ cycle < start + (n + 1)
      · rw [if_pos (by omega), if_pos hcycle]
      · rw [if_neg (by omega), if_neg hcycle]

theorem row_removeAt (h : start + duration ≤ table.length) :
    row (removeAt a start duration table) cycle =
      if start ≤ cycle ∧ cycle < start + duration then (row table cycle).erase a else row table cycle := by
  induction duration generalizing start table with
  | zero => exact (if_neg (by omega)).symm
  | succ n ih =>
    rw [removeAt, List.range'_succ, List.foldl_cons]
    refine (ih (by rw [List.length_modify]; omega)).trans ?_
    rw [row_modify _ (by omega)]
    by_cases hstart : cycle = start
    · rw [if_neg (by omega), if_pos hstart, if_pos (by omega), hstart]
    · rw [if_neg hstart]
      by_cases hcycle : start ≤ cycle ∧ cycle < start + (n + 1)
      · rw [if_pos (by omega), if_pos hcycle]
      · rw [if_neg (by omega), if_neg hcycle]

theorem mem_row_insertAt (h : start + duration ≤ table.length) :
    b ∈ row (insertAt r a start duration table) cycle ↔
      (b = a ∧ start ≤ cycle ∧ cycle < start + duration) ∨ b ∈ row table cycle := by
  rw [row_insertAt h]
  by_cases hcycle : start ≤ cycle ∧ cycle < start + duration
  · rw [if_pos hcycle, mem_insertOrdered, and_iff_left hcycle]
  · rw [if_neg hcycle, iff_or_self]
    exact fun hb => absurd hb.2 hcycle

theorem mem_row_removeAt (hsets : Sets table) (h : start + duration ≤ table.length) :
    b ∈ row (removeAt a start duration table) cycle ↔
      ¬(b = a ∧ start ≤ cycle ∧ cycle < start + duration) ∧ b ∈ row table cycle := by
  rw [row_removeAt h]
  by_cases hcycle : start ≤ cycle ∧ cycle < start + duration
  · rw [if_pos hcycle, (hsets cycle).mem_erase_iff, and_iff_left hcycle]
  · rw [if_neg hcycle, iff_and_self]
    exact fun _ hb => hcycle hb.2

theorem Sets.insertAt (hsets : Sets table) (h : start + duration ≤ table.length) :
    Sets (insertAt r a start duration table) := by
  intro cycle
  rw [row_insertAt h]
  split
  · exact nodup_insertOrdered (hsets cycle)
  · exact hsets cycle

theorem Sets.removeAt (hsets : Sets table) (h : start + duration ≤ table.length) :
    Sets (removeAt a start duration table) := by
  intro cycle
  rw [row_removeAt h]
  split
  · exact (hsets cycle).erase a
  · exact hsets cycle

end Tce.Base.CycleTable
