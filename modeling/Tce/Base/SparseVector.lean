import Mathlib.Data.List.DropRight

/-!
# Sparse vectors

A map from indices to values in which `size` is the last key and one more.
A list of optional entries, of which the last one is present, keeps it.
-/

namespace Tce

structure SparseVector (α : Type) where
  entries : List (Option α)
  last_isSome : ∀ h : entries ≠ [], (entries.getLast h).isSome

namespace SparseVector
variable {α : Type}

def empty : SparseVector α := ⟨[], fun h => absurd rfl h⟩

def find (v : SparseVector α) (i : Nat) : Option α := v.entries[i]?.join

def size (v : SparseVector α) : Nat := v.entries.length

/-- The entries up to the index, with the value in its place. -/
def insertEntries (entries : List (Option α)) (i : Nat) (a : α) : List (Option α) :=
  if i < entries.length then entries.set i (some a)
  else entries ++ (List.replicate (i - entries.length) none ++ [some a])

theorem insertEntries_last {entries : List (Option α)} (hlast : ∀ h : entries ≠ [], (entries.getLast h).isSome)
    (i : Nat) (a : α) (h : insertEntries entries i a ≠ []) : ((insertEntries entries i a).getLast h).isSome := by
  unfold insertEntries at h ⊢
  split
  · next hlt =>
    have hne : entries ≠ [] := List.ne_nil_of_length_pos (Nat.zero_lt_of_lt hlt)
    have := hlast hne
    rw [List.getLast_eq_getElem] at this ⊢
    rw [List.getElem_set]
    split
    · rfl
    · simpa using this
  · simp

def insert (v : SparseVector α) (i : Nat) (a : α) : SparseVector α :=
  ⟨insertEntries v.entries i a, insertEntries_last v.last_isSome i a⟩

/-- `operator[]` makes an entry for an index that has none. -/
def touch (v : SparseVector α) (i : Nat) (a : α) : SparseVector α :=
  if (v.find i).isSome then v else v.insert i a

/-- The value is taken out, and what is missing at the end. -/
def erase (v : SparseVector α) (i : Nat) : SparseVector α where
  entries := (v.entries.set i none).rdropWhile Option.isNone
  last_isSome h := by
    have hlast := List.rdropWhile_last_not Option.isNone _ h
    rwa [Bool.not_eq_true, Option.isNone_eq_false_iff] at hlast

theorem find_insert (v : SparseVector α) (i j : Nat) (a : α) :
    (v.insert i a).find j = if j = i then some a else v.find j := by
  simp only [find, insert, insertEntries]
  split
  · next hlt =>
    rw [List.getElem?_set]
    by_cases hj : j = i
    · subst hj
      simp [hlt]
    · simp [hj, Ne.symm hj]
  · next hge =>
    by_cases hj : j < v.entries.length
    · have hne : j ≠ i := by omega
      rw [List.getElem?_append_left hj, if_neg hne]
    · rw [List.getElem?_append_right (by omega), List.getElem?_eq_none (l := v.entries) (by omega)]
      by_cases hji : j = i
      · subst hji
        rw [List.getElem?_append_right (by simp)]
        simp
      · rw [if_neg hji]
        by_cases hlt : j < i
        · rw [List.getElem?_append_left (by simp; omega), List.getElem?_replicate]
          split <;> rfl
        · rw [List.getElem?_append_right (by simp; omega), List.getElem?_eq_none (by simp; omega)]

@[simp] theorem find_insert_self (v : SparseVector α) (i : Nat) (a : α) : (v.insert i a).find i = some a := by
  rw [find_insert, if_pos rfl]

theorem find_insert_ne (v : SparseVector α) {i j : Nat} (a : α) (h : j ≠ i) : (v.insert i a).find j = v.find j := by
  rw [find_insert, if_neg h]

theorem lt_size {v : SparseVector α} {i : Nat} (h : v.find i ≠ none) : i < v.size := by
  by_contra hge
  apply h
  rw [find, List.getElem?_eq_none (Nat.not_lt.1 hge)]
  rfl

/-- A size is one more than the last key. -/
theorem find_last {v : SparseVector α} (h : v.size ≠ 0) : (v.find (v.size - 1)).isSome := by
  have hne : v.entries ≠ [] := fun heq => h (by rw [size, heq]; rfl)
  have := v.last_isSome hne
  rw [List.getLast_eq_getElem] at this
  rw [find, size, List.getElem?_eq_getElem (by have := List.length_pos_iff.2 hne; omega)]
  simpa using this

theorem find_touch (v : SparseVector α) (i j : Nat) (a : α) :
    (v.touch i a).find j = if j = i then some ((v.find i).getD a) else v.find j := by
  unfold touch
  split
  · next h =>
    obtain ⟨b, hb⟩ := Option.isSome_iff_exists.1 h
    by_cases hj : j = i
    · rw [if_pos hj, hj, hb, Option.getD_some]
    · rw [if_neg hj]
  · next h =>
    rw [Option.not_isSome_iff_eq_none.1 h, Option.getD_none, find_insert]

theorem getElem?_rdropWhile (entries : List (Option α)) (j : Nat) :
    (entries.rdropWhile Option.isNone)[j]?.join = entries[j]?.join := by
  induction entries using List.reverseRecOn with
  | nil => rfl
  | append_singleton entries x ih =>
    rw [List.rdropWhile_concat]
    split
    · next hnone =>
      rw [ih]
      obtain rfl := Option.isNone_iff_eq_none.1 hnone
      by_cases hj : j < entries.length
      · rw [List.getElem?_append_left hj]
      · rw [List.getElem?_eq_none (Nat.not_lt.1 hj), List.getElem?_append_right (Nat.not_lt.1 hj)]
        cases j - entries.length <;> rfl
    · rfl

theorem find_erase (v : SparseVector α) (i j : Nat) : (v.erase i).find j = if j = i then none else v.find j := by
  unfold find erase
  rw [getElem?_rdropWhile, List.getElem?_set]
  by_cases hj : j = i
  · subst hj
    rw [if_pos rfl, if_pos rfl]
    split <;> rfl
  · rw [if_neg (Ne.symm hj), if_neg hj]

end SparseVector

end Tce
