import Mathlib.Algebra.Ring.Nat

/-!
# Paged arrays

An array whose pages are made by their first write. The page table is made for a
number of elements, and an access outside it has no result.
-/

namespace Tce.Storage

/-- The pages that are there; the others have not been written to. -/
structure PagedArray (α : Type) (pageSize : Nat) where
  pageTable : List (Option (Vector α pageSize))

namespace PagedArray
variable {α : Type} {pageSize : Nat}

/-- `PagedArray::PagedArray`: the quotient of the sizes is rounded up. -/
def new (size : Nat) : PagedArray α pageSize :=
  ⟨List.replicate ((size + pageSize - 1) / pageSize) none⟩

/-- `PagedArray::clear`. -/
def clear (a : PagedArray α pageSize) : PagedArray α pageSize := ⟨a.pageTable.map fun _ => none⟩

/-- The page of the index has a place in the page table. -/
def InTable (a : PagedArray α pageSize) (index : Nat) : Prop := index / pageSize < a.pageTable.length

@[simp] theorem length_clear (a : PagedArray α pageSize) : a.clear.pageTable.length = a.pageTable.length :=
  List.length_map _

theorem inTable_new {size index : Nat} : (new size : PagedArray α pageSize).InTable index ↔
    index / pageSize < (size + pageSize - 1) / pageSize := by
  simp [InTable, new]

theorem InTable.mono {a : PagedArray α pageSize} {i j : Nat} (h : a.InTable j) (hij : i ≤ j) : a.InTable i :=
  Nat.lt_of_le_of_lt (Nat.div_le_div_right hij) h

variable [NeZero pageSize]

/-- The place of an element in its page. -/
def offset (pageSize : Nat) [NeZero pageSize] (index : Nat) : Fin pageSize :=
  ⟨index % pageSize, Nat.mod_lt _ (Nat.pos_of_neZero pageSize)⟩

section Access
variable (a : PagedArray α pageSize) (index : Nat)

/-- `PagedArray::readData`. -/
def readData (defaultValue : α) : Option α :=
  (a.pageTable[index / pageSize]?).map fun page =>
    match page with
    | none => defaultValue
    | some page => page[offset pageSize index]

/-- `PagedArray::writeData`: a new page is filled with zeros. -/
def writeData [Zero α] (data : α) : Option (PagedArray α pageSize) :=
  (a.pageTable[index / pageSize]?).map fun page =>
    let page := page.getD (Vector.replicate pageSize 0)
    ⟨a.pageTable.set (index / pageSize) (some (page.set (offset pageSize index) data (offset pageSize index).isLt))⟩

/-- What the array has at an index, when zero stands for what has not been written. -/
def contents [Zero α] : α := (a.readData index 0).getD 0

end Access

section Contents
variable {a : PagedArray α pageSize} {index : Nat}

theorem readData_of_inTable [Zero α] (h : a.InTable index) : a.readData index 0 = some (a.contents index) := by
  simp [contents, readData, List.getElem?_eq_getElem h]

theorem readData_eq_none (defaultValue : α) (h : ¬ a.InTable index) : a.readData index defaultValue = none := by
  simp only [readData, Option.map_eq_none_iff, List.getElem?_eq_none_iff]
  exact Nat.le_of_not_lt h

theorem eq_of_div_of_mod {i j n : Nat} (hdiv : i / n = j / n) (hmod : i % n = j % n) : i = j := by
  rw [← Nat.div_add_mod i n, hdiv, hmod, Nat.div_add_mod]

/-- A write changes one element. -/
theorem writeData_of_inTable [Zero α] (h : a.InTable index) (data : α) :
    ∃ a', a.writeData index data = some a' ∧ a'.pageTable.length = a.pageTable.length ∧
      ∀ i, a'.contents i = if i = index then data else a.contents i := by
  obtain ⟨page, hpage⟩ : ∃ page, a.pageTable[index / pageSize]? = some page := ⟨_, List.getElem?_eq_getElem h⟩
  refine ⟨_, by rw [writeData, hpage, Option.map_some], List.length_set, fun i => ?_⟩
  simp only [contents, readData]
  by_cases hdiv : i / pageSize = index / pageSize
  · rw [hdiv, List.getElem?_set_self h, hpage]
    by_cases hi : i = index
    · subst hi
      simp [offset]
    · have hne : index % pageSize ≠ i % pageSize := fun he => hi (eq_of_div_of_mod hdiv he.symm)
      cases page with
      | none => simp [offset, hi, hne]
      | some page => simp [offset, hi, hne]
  · have hi : i ≠ index := fun he => hdiv (he ▸ rfl)
    rw [List.getElem?_set_ne (Ne.symm hdiv), if_neg hi]

@[simp] theorem contents_clear [Zero α] (i : Nat) : a.clear.contents i = 0 := by
  simp only [contents, clear, readData, List.getElem?_map]
  cases a.pageTable[i / pageSize]? <;> rfl

@[simp] theorem contents_new [Zero α] (size i : Nat) : (new size : PagedArray α pageSize).contents i = 0 := by
  simp only [contents, new, readData, List.getElem?_replicate]
  split <;> rfl

/-- The element at the size itself has a page only if the size is no multiple of that of a page. -/
theorem inTable_new_size {size : Nat} :
    (∀ i ≤ size, (new size : PagedArray α pageSize).InTable i) ↔ size % pageSize ≠ 0 := by
  have hpos := Nat.pos_of_neZero pageSize
  have hsize := Nat.div_add_mod size pageSize
  have hlt := Nat.mod_lt size hpos
  have hceil : size / pageSize < (size + pageSize - 1) / pageSize ↔ size % pageSize ≠ 0 := by
    rw [Nat.lt_iff_add_one_le, Nat.le_div_iff_mul_le hpos, Nat.add_mul, Nat.mul_comm (size / pageSize)]
    omega
  constructor
  · exact fun h => hceil.mp (inTable_new.mp (h size (Nat.le_refl _)))
  · exact fun h i hi => (inTable_new.mpr (hceil.mpr h)).mono hi

end Contents

end PagedArray

end Tce.Storage
