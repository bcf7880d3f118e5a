import Mathlib.Data.List.GetD

/-!
# Tables of counters

A table is incremented at one index after the other. An access outside of the table
fails.
-/

namespace Tce.Counters
variable {table table' : List Nat} {i k : Nat} {l : List Nat}

def increment (table : List Nat) (i : Nat) : Option (List Nat) :=
  if i < table.length then some (table.modify i (· + 1)) else none

theorem increment_of_lt (h : i < table.length) : increment table i = some (table.modify i (· + 1)) := if_pos h

/-- Increments at all indices of a list. -/
theorem foldlM_increment (h : ∀ i ∈ l, i < table.length) : ∃ table', l.foldlM increment table = some table' ∧
    table'.length = table.length ∧ ∀ k, table'.getD k 0 = table.getD k 0 + l.count k := by
  induction l generalizing table with
  | nil => exact ⟨table, rfl, rfl, fun k => by rw [List.count_nil, Nat.add_zero]⟩
  | cons i l ih =>
    have hi := h i List.mem_cons_self
    have hlength : (table.modify i (· + 1)).length = table.length := List.length_modify ..
    obtain ⟨table', hrun, hsame, hcount⟩ := @ih (table.modify i (· + 1)) fun j hj =>
      hlength ▸ h j (List.mem_cons_of_mem i hj)
    refine ⟨table', ?_, hsame.trans hlength, ?_⟩
    · rw [List.foldlM_cons, increment_of_lt hi]
      exact hrun
    · intro k
      rw [hcount, List.getD_eq_getElem?_getD, List.getD_eq_getElem?_getD, List.getElem?_modify, List.count_cons]
      by_cases hik : i = k
      · subst hik
        simp [hi]
        omega
      · simp [hik]

theorem getD_replicate_zero (n k : Nat) : (List.replicate n 0).getD k 0 = 0 := by
  rw [List.getD_eq_getElem?_getD, List.getElem?_getD_replicate_default_eq]

end Tce.Counters
