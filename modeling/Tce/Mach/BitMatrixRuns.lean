import Tce.Mach.BitMatrix

/-!
# Bit matrices and their reference

The reference of a matrix is a function of row and column. The rows of the
matrix are stored in whole words. Filling with ones also sets the bits past the
last column; from there they are shifted into the matrix, and they conflict.
-/

namespace Tce.BitMatrix

def setAllToOne (m : BitMatrix) : BitMatrix where
  rows := m.rows
  columns := m.columns
  words := m.words.map fun _ => ~~~0#32
  words_length := by simpa using m.words_length

/-- The calls that have made a matrix and those that it was or-ed with. -/
inductive Calls (width height : Nat) where
  | create (initialValue : Bool)
  | setBit (calls : Calls width height) (column : Fin width) (row : Fin height) (value : Bool)
  | setAllToZero (calls : Calls width height)
  | setAllToOne (calls : Calls width height)
  | orWith (calls another : Calls width height)
  | shiftLeft (calls : Calls width height)

namespace Calls
variable {width height : Nat}

def matrix : Calls width height → BitMatrix
  | create initialValue => BitMatrix.create width height initialValue
  | setBit calls column row value => calls.matrix.setBit column row value
  | setAllToZero calls => calls.matrix.setAllToZero
  | setAllToOne calls => calls.matrix.setAllToOne
  | orWith calls another => calls.matrix.orWith another.matrix
  | shiftLeft calls => calls.matrix.shiftLeft

/-- What the bits should be. -/
def reference : Calls width height → Nat → Nat → Bool
  | create initialValue, _, _ => initialValue
  | setBit calls column row value, r, c => if r = row ∧ c = column then value else calls.reference r c
  | setAllToZero _, _, _ => false
  | setAllToOne _, _, _ => true
  | orWith calls another, r, c => calls.reference r c || another.reference r c
  | shiftLeft calls, r, c => decide (c + 1 < width) && calls.reference r (c + 1)

/-- The matrices on the way, and the last one. -/
def states : Calls width height → List (Calls width height)
  | create initialValue => [create initialValue]
  | setBit calls column row value => setBit calls column row value :: calls.states
  | setAllToZero calls => setAllToZero calls :: calls.states
  | setAllToOne calls => setAllToOne calls :: calls.states
  | orWith calls another => orWith calls another :: (calls.states ++ another.states)
  | shiftLeft calls => shiftLeft calls :: calls.states

/-- A matrix is filled with ones on the way. -/
def fillsWithOnes : Calls width height → Bool
  | create initialValue => initialValue
  | setBit calls _ _ _ => calls.fillsWithOnes
  | setAllToZero calls => calls.fillsWithOnes
  | setAllToOne _ => true
  | orWith calls another => calls.fillsWithOnes || another.fillsWithOnes
  | shiftLeft calls => calls.fillsWithOnes

/-- The bits are those of the reference, and there is a conflict exactly if an element is set in both. -/
structure Faithful (calls : Calls width height) : Prop where
  bits : ∀ row < height, ∀ column < width, calls.matrix.bitAt column row = some (calls.reference row column)
  conflicts : ∀ other : Calls width height, calls.matrix.conflictsWith other.matrix = true ↔
    ∃ row < height, ∃ column < width,
      calls.matrix.bitAt column row = some true ∧ other.matrix.bitAt column row = some true

/-- The words of a row hold its columns, and have no bits past them if the matrix is filled with ones. -/
def Fits (calls : Calls width height) : Prop :=
  height = 0 ∨ Holds width ∧ (calls.fillsWithOnes = true → 32 * wordsPerRow width ≤ width)

@[simp] theorem matrix_rows (calls : Calls width height) : calls.matrix.rows = height := by
  induction calls with
  | create => rfl
  | setBit _ _ _ _ ih => exact ih
  | setAllToZero _ ih => exact ih
  | setAllToOne _ ih => exact ih
  | orWith _ _ ih _ => exact ih
  | shiftLeft _ ih => exact ih

@[simp] theorem matrix_columns (calls : Calls width height) : calls.matrix.columns = width := by
  induction calls with
  | create => rfl
  | setBit _ _ _ _ ih => exact ih
  | setAllToZero _ ih => exact ih
  | setAllToOne _ ih => exact ih
  | orWith _ _ ih _ => exact ih
  | shiftLeft _ ih => exact ih

theorem mem_states (calls : Calls width height) : calls ∈ calls.states := by
  cases calls <;> exact List.mem_cons_self

theorem fillsWithOnes_of_mem {calls s : Calls width height} (hs : s ∈ calls.states) (h : s.fillsWithOnes = true) :
    calls.fillsWithOnes = true := by
  induction calls with
  | create => rwa [List.mem_singleton.1 hs] at h
  | setBit calls column row value ih =>
    rcases List.mem_cons.1 hs with rfl | hs
    · exact h
    · exact ih hs
  | setAllToZero calls ih =>
    rcases List.mem_cons.1 hs with rfl | hs
    · exact h
    · exact ih hs
  | setAllToOne calls ih => rfl
  | orWith calls another ih ih' =>
    rcases List.mem_cons.1 hs with rfl | hs
    · exact h
    · rcases List.mem_append.1 hs with hs | hs
      · exact Bool.or_eq_true_iff.2 (.inl (ih hs))
      · exact Bool.or_eq_true_iff.2 (.inr (ih' hs))
  | shiftLeft calls ih =>
    rcases List.mem_cons.1 hs with rfl | hs
    · exact h
    · exact ih hs

end Calls

/-! ## Filling with ones -/

theorem word_ones {m : BitMatrix} (words : List RowWord) (h : m.words = words.map fun _ => ~~~0#32) {row column : Nat}
    (hr : row < m.rows) (hc : column < 32 * wordsPerRow m.columns) : m.get row column = true := by
  have hlt := wordPos_lt hr hc
  have hk : column % 32 < 32 := Nat.mod_lt _ (by decide)
  have hword : m.words.getD (m.wordPos column row) 0#32 = ~~~0#32 := by
    rw [List.getD_eq_getElem?_getD, List.getElem?_eq_getElem hlt, Option.getD_some]
    simp only [h, List.getElem_map]
  rw [get, hword, decide_eq_true hc, Bool.true_and, BitVec.getLsbD_not, BitVec.getLsbD_zero, decide_eq_true hk]
  rfl

theorem get_create_true {width height row column : Nat} (hr : row < height) (hc : column < 32 * wordsPerRow width) :
    (create width height true).get row column = true :=
  word_ones (List.replicate (height * wordsPerRow width) 0#32) List.map_replicate.symm hr hc

theorem get_setAllToOne {m : BitMatrix} {row column : Nat} (hr : row < m.rows) (hc : column < 32 * wordsPerRow m.columns) :
    m.setAllToOne.get row column = true :=
  word_ones m.words rfl hr hc

namespace Calls
variable {width height : Nat}

/-- A matrix that has no bits past its last column. -/
def Tracks (calls : Calls width height) : Prop :=
  ∀ row < height, ∀ column, calls.matrix.get row column = (decide (column < width) && calls.reference row column)

theorem tracks_ones {calls : Calls width height} (hh : Holds width) (hwhole : 32 * wordsPerRow width ≤ width)
    (hones : ∀ row < height, ∀ column < 32 * wordsPerRow width, calls.matrix.get row column = true)
    (href : ∀ row column, calls.reference row column = true) : calls.Tracks := by
  intro row hrow column
  rw [href, Bool.and_true]
  by_cases hc : column < width
  · rw [hones row hrow column (Nat.lt_of_lt_of_le hc hh), decide_eq_true hc]
  · have hpast : 32 * wordsPerRow calls.matrix.columns ≤ column := by
      rw [matrix_columns]
      exact Nat.le_trans hwhole (Nat.not_lt.1 hc)
    rw [get_eq_false hpast, decide_eq_false hc]

/-- The calls keep the bits past the last column clear. -/
theorem tracks (calls : Calls width height) (hh : Holds width)
    (hwhole : calls.fillsWithOnes = true → 32 * wordsPerRow width ≤ width) : calls.Tracks := by
  induction calls with
  | create initialValue =>
    cases initialValue with
    | false =>
      intro row _ column
      rw [matrix, get_create_false, reference, Bool.and_false]
    | true => exact tracks_ones hh (hwhole rfl) (fun _ hr _ hc => get_create_true hr hc) fun _ _ => rfl
  | setBit calls column row value ih =>
    intro r hr c
    have hcolumn : column.val < 32 * wordsPerRow calls.matrix.columns := by
      rw [matrix_columns]
      exact Nat.lt_of_lt_of_le column.isLt hh
    rw [matrix, get_setBit (by rw [matrix_rows]; exact row.isLt) hcolumn, ih hwhole r hr c, reference]
    by_cases heq : r = row ∧ c = column
    · rw [if_pos heq, if_pos heq, heq.2, decide_eq_true column.isLt, Bool.true_and]
    · rw [if_neg heq, if_neg heq]
  | setAllToZero calls _ =>
    intro row _ column
    rw [matrix, get_setAllToZero, reference, Bool.and_false]
  | setAllToOne calls _ =>
    refine tracks_ones hh (hwhole rfl) (fun _ hr _ hc => ?_) fun _ _ => rfl
    exact get_setAllToOne (by rwa [matrix_rows]) (by rwa [matrix_columns])
  | orWith calls another ih ih' =>
    intro row hr column
    rw [matrix, get_orWith (by simp) (by simp), ih (fun h => hwhole (by simp [fillsWithOnes, h])) row hr column,
      ih' (fun h => hwhole (by simp [fillsWithOnes, h])) row hr column, reference, Bool.and_or_distrib_left]
  | shiftLeft calls ih =>
    intro row hr column
    rw [matrix, get_shiftLeft (by rwa [matrix_rows]), ih hwhole row hr (column + 1), reference]
    by_cases hc : column + 1 < width
    · rw [decide_eq_true hc, decide_eq_true (Nat.lt_of_succ_lt hc)]
      rfl
    · rw [decide_eq_false hc, Bool.false_and, Bool.and_false]

theorem bitAt_matrix (calls : Calls width height) (hh : Holds width) {row column : Nat} (hr : row < height)
    (hc : column < width) : calls.matrix.bitAt column row = some (calls.matrix.get row column) :=
  bitAt_eq (by rwa [matrix_rows]) (by rw [matrix_columns]; exact Nat.lt_of_lt_of_le hc hh)

theorem faithful_of_tracks {calls : Calls width height} (hh : Holds width) (h : calls.Tracks) : calls.Faithful where
  bits row hr column hc := by
    rw [bitAt_matrix calls hh hr hc, h row hr column, decide_eq_true hc, Bool.true_and]
  conflicts other := by
    rw [conflictsWith_iff (by simp) (by simp), matrix_rows]
    constructor
    · rintro ⟨row, hr, column, hm, ho⟩
      have hc : column < width := by
        rw [h row hr column, Bool.and_eq_true, decide_eq_true_eq] at hm
        exact hm.1
      exact ⟨row, hr, column, hc, by rw [bitAt_matrix calls hh hr hc, hm], by rw [bitAt_matrix other hh hr hc, ho]⟩
    · rintro ⟨row, hr, column, hc, hm, ho⟩
      rw [bitAt_matrix calls hh hr hc] at hm
      rw [bitAt_matrix other hh hr hc] at ho
      exact ⟨row, hr, column, Option.some.inj hm, Option.some.inj ho⟩

theorem faithful_of_empty {calls : Calls width height} (h : height = 0) : calls.Faithful where
  bits row hr := by omega
  conflicts other := by
    rw [conflictsWith_iff (by simp) (by simp), matrix_rows]
    constructor
    · rintro ⟨row, hr, -⟩
      omega
    · rintro ⟨row, hr, -⟩
      omega

/-! ## Where the matrix differs -/

/-- The last element of a matrix whose words do not hold its columns is not in its storage. -/
theorem not_faithful_of_not_holds (calls : Calls width height) (hheight : 0 < height) (hh : ¬ Holds width) :
    ¬ calls.Faithful := by
  intro h
  rw [Holds, Nat.not_le] at hh
  have hbit := h.bits (height - 1) (Nat.sub_one_lt_of_lt hheight) (width - 1) (by omega)
  have hout : calls.matrix.words.length ≤ calls.matrix.wordPos (width - 1) (height - 1) := by
    rw [calls.matrix.words_length, wordPos, matrix_rows, matrix_columns]
    calc height * wordsPerRow width = (height - 1 + 1) * wordsPerRow width := by rw [Nat.sub_add_cancel hheight]
      _ = (height - 1) * wordsPerRow width + wordsPerRow width := Nat.succ_mul _ _
      _ ≤ (height - 1) * wordsPerRow width + (width - 1) / 32 := by omega
  rw [bitAt, List.getElem?_eq_none hout] at hbit
  cases hbit

/-- Ones with some elements set to zero. -/
def zeroed : List (Fin height × Fin width) → Calls width height
  | [] => create true
  | (row, column) :: cells => setBit (zeroed cells) column row false

theorem get_zeroed (hh : Holds width) (cells : List (Fin height × Fin width)) {row column : Nat} (hr : row < height)
    (hc : column < 32 * wordsPerRow width) : (zeroed cells).matrix.get row column = true ↔
      ∀ cell ∈ cells, ¬(row = cell.1.val ∧ column = cell.2.val) := by
  induction cells with
  | nil =>
    rw [zeroed, matrix, get_create_true hr hc]
    simp
  | cons cell cells ih =>
    obtain ⟨r, c⟩ := cell
    have hcolumn : c.val < 32 * wordsPerRow (zeroed cells).matrix.columns := by
      rw [matrix_columns]
      exact Nat.lt_of_lt_of_le c.isLt hh
    rw [zeroed, matrix, get_setBit (by rw [matrix_rows]; exact r.isLt) hcolumn, List.forall_mem_cons]
    by_cases heq : row = r.val ∧ column = c.val
    · simp [heq]
    · rw [if_neg heq, ih]
      exact (and_iff_right heq).symm

/-- Ones conflict past the last column with a matrix that has no element set. -/
theorem not_faithful_of_ones {calls : Calls width height} (hheight : 0 < height) (hh : Holds width)
    (hpast : width < 32 * wordsPerRow width) (hones : calls.matrix.get 0 width = true) : ¬ calls.Faithful := by
  intro h
  let cells : List (Fin height × Fin width) :=
    (List.finRange height).flatMap fun row => (List.finRange width).map fun column => (row, column)
  have hcells (row : Fin height) (column : Fin width) : (row, column) ∈ cells := by simp [cells]
  have hconflict : calls.matrix.conflictsWith (zeroed cells).matrix = true := by
    rw [conflictsWith_iff (by simp) (by simp), matrix_rows]
    refine ⟨0, hheight, width, hones, ?_⟩
    rw [get_zeroed hh cells hheight hpast]
    intro cell _ hcell
    exact absurd hcell.2 (Nat.ne_of_gt cell.2.isLt)
  obtain ⟨row, hr, column, hc, -, hzero⟩ := (h.conflicts (zeroed cells)).1 hconflict
  rw [bitAt_matrix _ hh hr hc, Option.some.injEq, get_zeroed hh cells hr (Nat.lt_of_lt_of_le hc hh)] at hzero
  exact hzero _ (hcells ⟨row, hr⟩ ⟨column, hc⟩) ⟨rfl, rfl⟩

theorem exists_not_faithful (calls : Calls width height) (hheight : 0 < height) (hh : Holds width)
    (hpast : width < 32 * wordsPerRow width) (hfills : calls.fillsWithOnes = true) :
    ∃ s ∈ calls.states, ¬ s.Faithful := by
  induction calls with
  | create initialValue =>
    have hvalue : initialValue = true := hfills
    subst hvalue
    exact ⟨_, mem_states _, not_faithful_of_ones hheight hh hpast (get_create_true hheight hpast)⟩
  | setBit calls column row value ih =>
    obtain ⟨s, hs, hnot⟩ := ih hfills
    exact ⟨s, List.mem_cons_of_mem _ hs, hnot⟩
  | setAllToZero calls ih =>
    obtain ⟨s, hs, hnot⟩ := ih hfills
    exact ⟨s, List.mem_cons_of_mem _ hs, hnot⟩
  | setAllToOne calls _ =>
    refine ⟨_, mem_states _, not_faithful_of_ones hheight hh hpast ?_⟩
    exact get_setAllToOne (by rwa [matrix_rows]) (by rwa [matrix_columns])
  | orWith calls another ih ih' =>
    rcases Bool.or_eq_true_iff.1 hfills with hfills | hfills
    · obtain ⟨s, hs, hnot⟩ := ih hfills
      exact ⟨s, List.mem_cons_of_mem _ (List.mem_append_left _ hs), hnot⟩
    · obtain ⟨s, hs, hnot⟩ := ih' hfills
      exact ⟨s, List.mem_cons_of_mem _ (List.mem_append_right _ hs), hnot⟩
  | shiftLeft calls ih =>
    obtain ⟨s, hs, hnot⟩ := ih hfills
    exact ⟨s, List.mem_cons_of_mem _ hs, hnot⟩

/-- **A bit matrix is its reference** throughout exactly if its rows fit their words. -/
theorem faithful_iff (calls : Calls width height) : (∀ s ∈ calls.states, s.Faithful) ↔ calls.Fits := by
  constructor
  · intro h
    by_contra hfits
    rw [Fits, not_or] at hfits
    obtain ⟨hheight, hfits⟩ := hfits
    have hpos := Nat.pos_of_ne_zero hheight
    by_cases hh : Holds width
    · obtain ⟨hfills, hpast⟩ := Classical.not_imp.1 fun himp => hfits ⟨hh, himp⟩
      obtain ⟨s, hs, hnot⟩ := exists_not_faithful calls hpos hh (Nat.not_le.1 hpast) hfills
      exact hnot (h s hs)
    · exact not_faithful_of_not_holds calls hpos hh (h calls calls.mem_states)
  · rintro (hheight | ⟨hh, hwhole⟩) s hs
    · exact faithful_of_empty hheight
    · exact faithful_of_tracks hh (s.tracks hh fun hfills => hwhole (fillsWithOnes_of_mem hs hfills))

/-- A matrix of one element that is filled with a one still has it after a shift. -/
theorem not_faithful_one : ¬ (shiftLeft (create true) : Calls 1 1).Faithful := by
  intro h
  have hbit := h.bits 0 Nat.one_pos 0 Nat.one_pos
  revert hbit
  decide

end Calls

end Tce.BitMatrix
