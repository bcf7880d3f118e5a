import Mathlib.Data.List.Dedup

/-!
# Dictionaries

A dictionary gives codes to the entries that are added to it, in the order in which
they are first added. It is the list of the entries in the order of their codes.
-/

namespace Tce.Dictionary
variable {α : Type} [DecidableEq α]

/-- An entry that is there already keeps its code. -/
def add (d : List α) (a : α) : List α := if a ∈ d then d else d ++ [a]

def code (d : List α) (a : α) : Option Nat := if a ∈ d then some (d.idxOf a) else none

def build (l : List α) : List α := l.foldl add []

@[simp] theorem mem_add {d : List α} {a b : α} : b ∈ add d a ↔ b ∈ d ∨ b = a := by
  rw [add]
  split
  next h => exact ⟨.inl, fun h' => h'.elim id fun heq => heq ▸ h⟩
  next => simp

theorem nodup_add {d : List α} (h : d.Nodup) (a : α) : (add d a).Nodup := by
  rw [add]
  split
  next => exact h
  next hmem => exact List.nodup_append.mpr ⟨h, by simp, fun x hx y hy heq => by simp_all⟩

theorem mem_foldl_add {l : List α} {d : List α} {a : α} : a ∈ l.foldl add d ↔ a ∈ d ∨ a ∈ l := by
  induction l generalizing d with
  | nil => simp
  | cons b l ih => simp [ih, or_assoc]

theorem nodup_foldl_add {l : List α} {d : List α} (h : d.Nodup) : (l.foldl add d).Nodup := by
  induction l generalizing d with
  | nil => exact h
  | cons b l ih => exact ih (nodup_add h b)

@[simp] theorem mem_build {l : List α} {a : α} : a ∈ build l ↔ a ∈ l := by
  simp [build, mem_foldl_add]

/-- There is one code for each different entry. -/
theorem length_build (l : List α) : (build l).length = l.dedup.length := by
  apply List.Perm.length_eq
  apply (List.perm_ext_iff_of_nodup (nodup_foldl_add .nil) l.nodup_dedup).mpr
  intro a
  rw [List.mem_dedup]
  exact mem_build

theorem code_of_mem {d : List α} {a : α} (h : a ∈ d) :
    ∃ k, code d a = some k ∧ k < d.length ∧ d[k]? = some a := by
  have hlt := List.idxOf_lt_length_iff.mpr h
  exact ⟨d.idxOf a, if_pos h, hlt, by simp [List.getElem?_eq_getElem hlt]⟩

/-! ## Association lists -/

theorem lookup_of_mem {V : Type} {l : List (α × V)} (hl : (l.map (·.1)).Nodup) {a : α} {b : V} (h : (a, b) ∈ l) :
    l.lookup a = some b := by
  cases hlookup : l.lookup a with
  | none =>
    have := List.lookup_eq_none_iff.mp hlookup _ h
    simp at this
  | some b' =>
    obtain ⟨before, after, rfl, _⟩ := List.lookup_eq_some_iff.mp hlookup
    have := List.inj_on_of_nodup_map hl h (show (a, b') ∈ before ++ (a, b') :: after by simp) rfl
    rw [(Prod.mk.inj this).2]

end Tce.Dictionary
