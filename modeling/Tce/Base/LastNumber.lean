import Mathlib.Algebra.Order.Ring.Nat
import Mathlib.Data.List.Basic
import Mathlib.Data.List.Induction

/-!
# The next number after a list

A counter goes through numbers that are in use and is set past each number that is
greater than itself. A number that is equal to the counter does not move it. So where
numbers come one after the other, every second one is passed over.
-/

namespace Tce.LastNumber

/-- The counter after one number. -/
def advance (last number : Nat) : Nat := if last < number then number + 1 else last

def recovered (numbers : List Nat) : Nat := numbers.foldl advance 1

/-- The greatest number, with 0 always there. -/
def top (numbers : List Nat) : Nat := numbers.foldl max 0

/-- How many numbers just below this one come before the next greater each, with 0 before
all others. -/
def ascent (numbers : List Nat) : Nat → Nat
  | 0 => 0
  | n + 1 => if (0 :: numbers).idxOf n < (0 :: numbers).idxOf (n + 1) then ascent numbers n + 1 else 0

theorem top_concat (numbers : List Nat) (n : Nat) : top (numbers ++ [n]) = max (top numbers) n := by
  simp [top]

theorem le_top {numbers : List Nat} {n : Nat} (h : n ∈ 0 :: numbers) : n ≤ top numbers := by
  induction numbers using List.reverseRecOn with
  | nil => simp_all [top]
  | append_singleton numbers m ih =>
    rw [top_concat]
    have hcases : n ∈ 0 :: numbers ∨ n = m := by simpa [or_assoc] using h
    rcases hcases with hn | rfl
    · exact le_max_of_le_left (ih hn)
    · exact le_max_right _ _

theorem top_mem (numbers : List Nat) : top numbers ∈ 0 :: numbers := by
  induction numbers using List.reverseRecOn with
  | nil => simp [top]
  | append_singleton numbers m ih =>
    rw [top_concat]
    rcases max_choice (top numbers) m with h | h
    · rw [h, ← List.cons_append]
      exact List.mem_append_left _ ih
    · simp [h]

/-- Numbers that come later do not change how it was reached. -/
theorem ascent_concat {numbers : List Nat} {m n : Nat} (h : n ∈ 0 :: numbers) :
    ascent (numbers ++ [m]) n = ascent numbers n := by
  induction n with
  | zero => rfl
  | succ n ih =>
    have hkept {k : Nat} (hk : k ∈ 0 :: numbers) :
        (0 :: (numbers ++ [m])).idxOf k = (0 :: numbers).idxOf k := by
      rw [← List.cons_append, List.idxOf_append_of_mem hk]
    have hlt := List.idxOf_lt_length_of_mem h
    by_cases hn : n ∈ 0 :: numbers
    · simp only [ascent, hkept h, hkept hn, ih hn]
    · have hnot : ¬(0 :: numbers).idxOf n < (0 :: numbers).idxOf (n + 1) := by
        rw [List.idxOf_eq_length hn]
        omega
      have hnot' : ¬(0 :: (numbers ++ [m])).idxOf n < (0 :: (numbers ++ [m])).idxOf (n + 1) := by
        rw [hkept h, ← List.cons_append, List.idxOf_append_of_notMem hn]
        omega
      simp only [ascent, hnot, hnot', ↓reduceIte]

/-- The number after the greatest one, unless that was passed over. -/
theorem recovered_eq (numbers : List Nat) :
    recovered numbers = if Even (ascent numbers (top numbers)) then top numbers + 1 else top numbers := by
  induction numbers using List.reverseRecOn with
  | nil => simp [recovered, top, ascent]
  | append_singleton numbers n ih =>
    have hstep : recovered (numbers ++ [n]) = advance (recovered numbers) n := by simp [recovered]
    have hmem := top_mem numbers
    rw [hstep, top_concat]
    by_cases hle : n ≤ top numbers
    · -- The counter is at the greatest number or past it.
      rw [max_eq_left hle, ascent_concat hmem, ← ih]
      have hge : top numbers ≤ recovered numbers := by rw [ih]; split <;> omega
      rw [advance, if_neg (by omega)]
    · have hnot : n ∉ 0 :: numbers := fun h => hle (le_top h)
      have hn : (0 :: (numbers ++ [n])).idxOf n = (0 :: numbers).length := by
        rw [← List.cons_append, List.idxOf_append_of_notMem hnot]
        simp
      rw [max_eq_right (by omega)]
      obtain ⟨k, rfl⟩ : ∃ k, n = k + 1 := ⟨n - 1, by omega⟩
      by_cases hk : k = top numbers
      · -- The next greater number is passed over when the one before was not.
        subst hk
        have hbefore : (0 :: (numbers ++ [top numbers + 1])).idxOf (top numbers) < (0 :: numbers).length := by
          rw [← List.cons_append, List.idxOf_append_of_mem hmem]
          exact List.idxOf_lt_length_of_mem hmem
        have hascent : ascent (numbers ++ [top numbers + 1]) (top numbers + 1) = ascent numbers (top numbers) + 1 := by
          rw [ascent, hn, if_pos hbefore, ascent_concat hmem]
        rw [hascent, ih]
        by_cases he : Even (ascent numbers (top numbers))
        · simp [he, advance, Nat.even_add_one]
        · simp [he, advance, Nat.even_add_one]
      · have habsent : k ∉ 0 :: numbers := fun h => hk (by have := le_top h; omega)
        have hafter : ¬(0 :: (numbers ++ [k + 1])).idxOf k < (0 :: (numbers ++ [k + 1])).idxOf (k + 1) := by
          rw [hn, ← List.cons_append, List.idxOf_append_of_notMem habsent]
          omega
        have hascent : ascent (numbers ++ [k + 1]) (k + 1) = 0 := by rw [ascent, if_neg hafter]
        have hlt : recovered numbers < k + 1 := by rw [ih]; split <;> omega
        rw [hascent, advance, if_pos hlt, if_pos Even.zero]

end Tce.LastNumber
