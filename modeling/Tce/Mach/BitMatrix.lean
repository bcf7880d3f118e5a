import Mathlib.Algebra.Ring.Nat
import Mathlib.Data.List.Basic

/-!
# Bit matrices

`BitMatrix` of the tools library: a matrix of bits kept in 32-bit words, row
after row. Reservation tables, collision matrices and the states of the
function unit automaton are such matrices.

`get` reads the matrix as a function of row and column. Each operation has one
lemma that says what it does to `get`; nothing later looks at the words.
-/

namespace Tce

/-- Storage for a part of a row (`unsigned`). -/
abbrev RowWord := BitVec 32

/-- An `int` converted to `float`: rounded to 24 significant bits, ties to even. -/
def floatOfInt (n : Nat) : Nat :=
  let unit := 2 ^ (n.log2 - 23)
  if 2 * (n % unit) < unit ∨ (2 * (n % unit) = unit ∧ n / unit % 2 = 0) then
    n / unit * unit
  else
    (n / unit + 1) * unit

/-- `ceil(columns_ / float(sizeof(RowWord) * BYTE_BITWIDTH))`. -/
def wordsPerRow (columns : Nat) : Nat := (floatOfInt columns + 31) / 32

structure BitMatrix where
  rows : Nat
  columns : Nat
  words : List RowWord
  words_length : words.length = rows * wordsPerRow columns
  deriving DecidableEq, Repr

namespace BitMatrix

def create (width height : Nat) (initialValue : Bool) : BitMatrix where
  rows := height
  columns := width
  words := List.replicate (height * wordsPerRow width) (if initialValue then ~~~0#32 else 0#32)
  words_length := by simp

/-- Index of the word that holds a bit. -/
def wordPos (m : BitMatrix) (column row : Nat) : Nat :=
  row * wordsPerRow m.columns + column / 32

/-- The bit as the source reads it. `none` is a read past the allocated words,
whose value the program does not determine. -/
def bitAt (m : BitMatrix) (column row : Nat) : Option Bool :=
  (m.words[m.wordPos column row]?).map fun word => (word &&& (1#32 <<< (column % 32))) != 0#32

def setBit (m : BitMatrix) (column row : Nat) (value : Bool) : BitMatrix where
  rows := m.rows
  columns := m.columns
  words := m.words.modify (m.wordPos column row) fun oldWord =>
    if value then oldWord ||| (1#32 <<< (column % 32))
    else oldWord &&& ~~~(1#32 <<< (column % 32))
  words_length := by simpa using m.words_length

def setAllToZero (m : BitMatrix) : BitMatrix where
  rows := m.rows
  columns := m.columns
  words := m.words.map fun _ => 0#32
  words_length := by simpa using m.words_length

def orWith (m another : BitMatrix) : BitMatrix where
  rows := m.rows
  columns := m.columns
  words := m.words.mapIdx fun i (word : RowWord) => word ||| another.words.getD i 0#32
  words_length := by simpa using m.words_length

/-- Each word takes the lowest bit of its right neighbour in the same row. -/
def shiftLeft (m : BitMatrix) : BitMatrix where
  rows := m.rows
  columns := m.columns
  words := m.words.mapIdx fun i (word : RowWord) =>
    if i % wordsPerRow m.columns + 1 < wordsPerRow m.columns then
      (word >>> 1) ||| (m.words.getD (i + 1) 0#32 <<< 31)
    else word >>> 1
  words_length := by simpa using m.words_length

def conflictsWith (m another : BitMatrix) : Bool :=
  (m.words.zip another.words).any fun (word, other) => (word &&& other) != 0#32

/-- Row-major positions of the matrix, the order of the comparison loops. -/
def cells (m : BitMatrix) : List (Nat × Nat) :=
  (List.range m.rows).flatMap fun row => (List.range m.columns).map fun column => (row, column)

/-- `operator<`: the first differing element decides. -/
def lt (m rightHand : BitMatrix) : Bool :=
  match m.cells.find? fun (row, column) => m.bitAt column row != rightHand.bitAt column row with
  | some (row, column) => m.bitAt column row == some false && rightHand.bitAt column row == some true
  | none => false

/-! ## The matrix as a function -/

/-- The bit at a position, `false` past the words of the row. -/
def get (m : BitMatrix) (row column : Nat) : Bool :=
  decide (column < 32 * wordsPerRow m.columns) &&
    (m.words.getD (m.wordPos column row) 0#32).getLsbD (column % 32)

theorem get_eq_false {m : BitMatrix} {row column : Nat}
    (h : 32 * wordsPerRow m.columns ≤ column) : m.get row column = false := by
  simp [get, Nat.not_lt.2 h]

theorem wordPos_lt {m : BitMatrix} {row column : Nat} (hr : row < m.rows)
    (hc : column < 32 * wordsPerRow m.columns) : m.wordPos column row < m.words.length := by
  rw [m.words_length, wordPos]
  have hw : column / 32 < wordsPerRow m.columns := by omega
  calc row * wordsPerRow m.columns + column / 32
      < (row + 1) * wordsPerRow m.columns := by rw [Nat.add_mul]; omega
    _ ≤ m.rows * wordsPerRow m.columns := Nat.mul_le_mul_right _ hr

theorem mask_ne_zero (word : RowWord) {k : Nat} (hk : k < 32) :
    ((word &&& (1#32 <<< k)) != 0#32) = word.getLsbD k := by
  change ((word &&& BitVec.twoPow 32 k) != 0#32) = word.getLsbD k
  rw [BitVec.and_twoPow]
  cases h : word.getLsbD k
  · simp
  · have hne : BitVec.twoPow 32 k ≠ 0#32 := by
      intro h0
      have := congrArg (fun w => w.getLsbD k) h0
      simp [hk] at this
    simpa using hne

theorem bitAt_eq {m : BitMatrix} {row column : Nat} (hr : row < m.rows)
    (hc : column < 32 * wordsPerRow m.columns) : m.bitAt column row = some (m.get row column) := by
  have hw := wordPos_lt hr hc
  have hk : column % 32 < 32 := Nat.mod_lt _ (by decide)
  simp only [bitAt, get, hc, decide_true, Bool.true_and, List.getElem?_eq_getElem hw,
    List.getD_eq_getElem?_getD, Option.map_some, Option.getD_some, mask_ne_zero _ hk]

/-- Two positions of the matrix that share a word are in the same row. -/
theorem wordPos_inj {m : BitMatrix} {row row' column column' : Nat}
    (hc : column < 32 * wordsPerRow m.columns) (hc' : column' < 32 * wordsPerRow m.columns)
    (h : m.wordPos column row = m.wordPos column' row') : row = row' ∧ column / 32 = column' / 32 := by
  have hw : column / 32 < wordsPerRow m.columns := by omega
  have hw' : column' / 32 < wordsPerRow m.columns := by omega
  simp only [wordPos] at h
  have hrow : row = row' := by
    have := congrArg (· / wordsPerRow m.columns) h
    simpa [Nat.mul_comm row, Nat.mul_comm row', Nat.mul_add_div (by omega : wordsPerRow m.columns > 0),
      Nat.div_eq_of_lt hw, Nat.div_eq_of_lt hw'] using this
  subst hrow
  exact ⟨rfl, by omega⟩

@[simp] theorem create_rows (w h : Nat) (b : Bool) : (create w h b).rows = h := rfl
@[simp] theorem create_columns (w h : Nat) (b : Bool) : (create w h b).columns = w := rfl
@[simp] theorem setBit_rows (m : BitMatrix) (c r : Nat) (b : Bool) : (m.setBit c r b).rows = m.rows := rfl
@[simp] theorem setBit_columns (m : BitMatrix) (c r : Nat) (b : Bool) :
    (m.setBit c r b).columns = m.columns := rfl
@[simp] theorem setAllToZero_rows (m : BitMatrix) : m.setAllToZero.rows = m.rows := rfl
@[simp] theorem setAllToZero_columns (m : BitMatrix) : m.setAllToZero.columns = m.columns := rfl
@[simp] theorem orWith_rows (m o : BitMatrix) : (m.orWith o).rows = m.rows := rfl
@[simp] theorem orWith_columns (m o : BitMatrix) : (m.orWith o).columns = m.columns := rfl
@[simp] theorem shiftLeft_rows (m : BitMatrix) : m.shiftLeft.rows = m.rows := rfl
@[simp] theorem shiftLeft_columns (m : BitMatrix) : m.shiftLeft.columns = m.columns := rfl

/-- The word at an index, zero past the storage. -/
def word (m : BitMatrix) (i : Nat) : RowWord := m.words.getD i 0#32

theorem get_eq (m : BitMatrix) (row column : Nat) :
    m.get row column = (decide (column < 32 * wordsPerRow m.columns) &&
      (m.word (m.wordPos column row)).getLsbD (column % 32)) := rfl

@[simp] theorem get_create_false (width height row column : Nat) :
    (create width height false).get row column = false := by
  have hw (i : Nat) : (create width height false).word i = 0#32 := by
    simp only [word, create, List.getD_eq_getElem?_getD, List.getElem?_replicate]
    split <;> rfl
  simp [get_eq, hw]

@[simp] theorem get_setAllToZero (m : BitMatrix) (row column : Nat) :
    m.setAllToZero.get row column = false := by
  have hw (i : Nat) : m.setAllToZero.word i = 0#32 := by
    simp only [word, setAllToZero, List.getD_eq_getElem?_getD, List.getElem?_map]
    cases m.words[i]? <;> rfl
  simp [get_eq, hw]

theorem word_setBit {m : BitMatrix} {row column : Nat} (hr : row < m.rows)
    (hc : column < 32 * wordsPerRow m.columns) (value : Bool) (i : Nat) :
    (m.setBit column row value).word i =
      if i = m.wordPos column row then
        if value then m.word i ||| (1#32 <<< (column % 32))
        else m.word i &&& ~~~(1#32 <<< (column % 32))
      else m.word i := by
  have hw := wordPos_lt hr hc
  simp only [word, setBit, List.getD_eq_getElem?_getD, List.getElem?_modify]
  by_cases hi : m.wordPos column row = i
  · subst hi
    simp [List.getElem?_eq_getElem hw]
  · simp [hi, Ne.symm hi]

theorem get_setBit {m : BitMatrix} {row column : Nat} {value : Bool}
    (hr : row < m.rows) (hc : column < 32 * wordsPerRow m.columns) (row' column' : Nat) :
    (m.setBit column row value).get row' column' =
      if row' = row ∧ column' = column then value else m.get row' column' := by
  by_cases hc' : column' < 32 * wordsPerRow m.columns
  · have hk : column % 32 < 32 := Nat.mod_lt _ (by decide)
    have hk' : column' % 32 < 32 := Nat.mod_lt _ (by decide)
    have hbit : (1#32 <<< (column % 32)).getLsbD (column' % 32) = decide (column' % 32 = column % 32) := by
      have := BitVec.getLsbD_twoPow (w := 32) (column % 32) (column' % 32)
      simpa [BitVec.twoPow, hk, eq_comm] using this
    simp only [get_eq, setBit_columns, hc', decide_true, Bool.true_and, wordPos, word_setBit hr hc]
    by_cases hpos : m.wordPos column' row' = m.wordPos column row
    · obtain ⟨hrow, hcol⟩ := wordPos_inj hc' hc hpos
      have hiff : (row' = row ∧ column' = column) ↔ column' % 32 = column % 32 := by
        constructor
        · rintro ⟨-, rfl⟩; rfl
        · intro h; exact ⟨hrow, by omega⟩
      simp only [wordPos] at hpos
      simp only [hpos, if_true, hiff]
      cases value with
      | true =>
        rw [if_pos rfl, BitVec.getLsbD_or, hbit]
        by_cases he : column' % 32 = column % 32 <;> simp [he]
      | false =>
        rw [if_neg (by decide), BitVec.getLsbD_and, BitVec.getLsbD_not, hbit]
        by_cases he : column' % 32 = column % 32 <;> simp [he, hk']
    · have hne : ¬(row' = row ∧ column' = column) := by
        rintro ⟨rfl, rfl⟩; exact hpos rfl
      simp only [wordPos] at hpos
      simp [hpos, hne]
  · have hne : ¬(row' = row ∧ column' = column) := by
      rintro ⟨rfl, rfl⟩; exact hc' hc
    simp [get_eq, hc', hne]

theorem get_orWith {m o : BitMatrix} (hc : m.columns = o.columns) (hr : m.rows = o.rows)
    (row column : Nat) : (m.orWith o).get row column = (m.get row column || o.get row column) := by
  have hlen : m.words.length = o.words.length := by rw [m.words_length, o.words_length, hr, hc]
  have hw (i : Nat) : (m.orWith o).word i = m.word i ||| o.word i := by
    simp only [word, orWith, List.getD_eq_getElem?_getD, List.getElem?_mapIdx]
    by_cases hi : i < m.words.length
    · simp [List.getElem?_eq_getElem hi]
    · simp [List.getElem?_eq_none (Nat.not_lt.1 hi), List.getElem?_eq_none (hlen ▸ Nat.not_lt.1 hi)]
  simp only [get_eq, orWith_columns, wordPos, hw, hc, BitVec.getLsbD_or, Bool.and_or_distrib_left]

theorem word_shiftLeft (m : BitMatrix) {i : Nat} (hi : i < m.words.length) :
    m.shiftLeft.word i =
      if i % wordsPerRow m.columns + 1 < wordsPerRow m.columns then
        (m.word i >>> 1) ||| (m.word (i + 1) <<< 31)
      else m.word i >>> 1 := by
  simp only [word, shiftLeft, List.getD_eq_getElem?_getD, List.getElem?_mapIdx]
  simp [List.getElem?_eq_getElem hi]

theorem get_shiftLeft {m : BitMatrix} {row : Nat} (hr : row < m.rows) (column : Nat) :
    m.shiftLeft.get row column = m.get row (column + 1) := by
  by_cases hc : column < 32 * wordsPerRow m.columns
  · have hi := wordPos_lt hr hc
    have hw : column / 32 < wordsPerRow m.columns := by omega
    have hmod : m.wordPos column row % wordsPerRow m.columns = column / 32 := by
      simp [wordPos, Nat.mul_comm row, Nat.mod_eq_of_lt hw]
    simp only [get_eq, shiftLeft_columns, hc, decide_true, Bool.true_and]
    change (m.shiftLeft.word (m.wordPos column row)).getLsbD (column % 32) = _
    rw [word_shiftLeft m hi, hmod]
    by_cases hlast : column % 32 = 31
    · -- the bit comes from the right neighbour, if the row has one
      have hnext : m.wordPos (column + 1) row = m.wordPos column row + 1 := by
        simp only [wordPos]; omega
      by_cases hmore : column / 32 + 1 < wordsPerRow m.columns
      · have hc' : column + 1 < 32 * wordsPerRow m.columns := by omega
        have hz : (column + 1) % 32 = 0 := by omega
        simp [hmore, hc', hnext, hlast, hz]
      · have hc' : ¬column + 1 < 32 * wordsPerRow m.columns := by omega
        simp [hmore, hc', hlast]
    · have hc' : column + 1 < 32 * wordsPerRow m.columns := by omega
      have hsame : m.wordPos (column + 1) row = m.wordPos column row := by
        simp only [wordPos]; omega
      have hk : (column + 1) % 32 = column % 32 + 1 := by omega
      have hk' : column % 32 < 31 := by omega
      split <;> simp [hc', hsame, hk, hk', Nat.add_comm 1]
  · have hc' : ¬column + 1 < 32 * wordsPerRow m.columns := by omega
    simp [get_eq, hc, hc']

theorem conflictsWith_words {m o : BitMatrix} (hlen : m.words.length = o.words.length) :
    m.conflictsWith o = true ↔ ∃ i < m.words.length, m.word i &&& o.word i ≠ 0#32 := by
  have hzip (i : Nat) (h : i < m.words.length) :
      (m.words.zip o.words)[i]? = some (m.word i, o.word i) := by
    simp [List.getElem?_zip_eq_some, word, List.getElem?_eq_getElem h,
      List.getElem?_eq_getElem (hlen ▸ h)]
  simp only [conflictsWith, List.any_eq_true, bne_iff_ne]
  constructor
  · rintro ⟨⟨a, b⟩, hab, hne⟩
    obtain ⟨i, hi⟩ := List.mem_iff_getElem?.1 hab
    have hlt : i < m.words.length := by
      have := (List.getElem?_eq_some_iff.1 hi).1
      simp only [List.length_zip] at this
      omega
    rw [hzip i hlt] at hi
    cases hi
    exact ⟨i, hlt, hne⟩
  · rintro ⟨i, hi, hne⟩
    exact ⟨(m.word i, o.word i), List.mem_of_getElem? (hzip i hi), hne⟩

theorem conflictsWith_iff {m o : BitMatrix} (hc : m.columns = o.columns) (hr : m.rows = o.rows) :
    m.conflictsWith o = true ↔
      ∃ row < m.rows, ∃ column, m.get row column = true ∧ o.get row column = true := by
  have hlen : m.words.length = o.words.length := by rw [m.words_length, o.words_length, hr, hc]
  rw [conflictsWith_words hlen]
  constructor
  · rintro ⟨i, hi, hne⟩
    obtain ⟨k, hk, hbit⟩ : ∃ k < 32, (m.word i &&& o.word i).getLsbD k = true := by
      by_contra hno
      apply hne
      apply BitVec.eq_of_getLsbD_eq
      intro k hk
      have := not_exists.1 hno k
      simpa [hk] using this
    rw [m.words_length] at hi
    have hpos : 0 < wordsPerRow m.columns := by
      rcases Nat.eq_zero_or_pos (wordsPerRow m.columns) with h0 | h
      · simp [h0] at hi
      · exact h
    have hmod := Nat.mod_lt i hpos
    have hidx : m.wordPos (32 * (i % wordsPerRow m.columns) + k) (i / wordsPerRow m.columns) = i := by
      have hdiv : (32 * (i % wordsPerRow m.columns) + k) / 32 = i % wordsPerRow m.columns := by omega
      rw [wordPos, hdiv, Nat.div_add_mod']
    have hcol : 32 * (i % wordsPerRow m.columns) + k < 32 * wordsPerRow m.columns := by omega
    have hk' : (32 * (i % wordsPerRow m.columns) + k) % 32 = k := by omega
    rw [BitVec.getLsbD_and, Bool.and_eq_true] at hbit
    refine ⟨i / wordsPerRow m.columns, Nat.div_lt_of_lt_mul (by rwa [Nat.mul_comm] at hi),
      32 * (i % wordsPerRow m.columns) + k, ?_, ?_⟩
    · simp only [get_eq, hcol, decide_true, Bool.true_and, hidx, hk', hbit.1]
    · simp only [wordPos, hc] at hidx
      simp only [get_eq, ← hc, hcol, decide_true, Bool.true_and, wordPos, hk']
      rw [hc, hidx, hbit.2]
  · rintro ⟨row, hrow, column, hm, ho⟩
    simp only [get_eq, Bool.and_eq_true, decide_eq_true_eq] at hm ho
    refine ⟨m.wordPos column row, wordPos_lt hrow hm.1, ?_⟩
    intro hzero
    have := congrArg (fun w => w.getLsbD (column % 32)) hzero
    simp only [wordPos, ← hc] at ho
    simp only [wordPos, BitVec.getLsbD_and, BitVec.getLsbD_zero] at this
    simp only [wordPos] at hm
    simp [hm.2, ho.2] at this

/-! ## Matrices without bits past their last column -/

/-- The storage of a row holds all of its columns. -/
def Holds (columns : Nat) : Prop := columns ≤ 32 * wordsPerRow columns

instance (columns : Nat) : Decidable (Holds columns) := inferInstanceAs (Decidable (_ ≤ _))

theorem floatOfInt_eq {n : Nat} (h : n ≤ 2 ^ 24) : floatOfInt n = n := by
  rcases Nat.eq_or_lt_of_le h with rfl | hlt
  · decide
  · have hlog : n.log2 - 23 = 0 := by
      rcases Nat.eq_zero_or_pos n with rfl | hpos
      · rfl
      · have := (Nat.log2_lt (by omega : n ≠ 0)).2 hlt
        omega
    simp [floatOfInt, hlog, Nat.mod_one]

/-- The `float` quotient is exact for every width up to 2^24. -/
theorem holds_of_le {columns : Nat} (h : columns ≤ 2 ^ 24) : Holds columns := by
  rw [Holds, wordsPerRow, floatOfInt_eq h]
  omega

/-- Bits past the last column are clear: no operation but filling with ones sets them. -/
def Clean (m : BitMatrix) : Prop := ∀ row < m.rows, ∀ column, m.columns ≤ column → m.get row column = false

theorem clean_create (width height : Nat) : Clean (create width height false) := by
  intro row _ column _
  simp

theorem clean_orWith {m o : BitMatrix} (hc : m.columns = o.columns) (hr : m.rows = o.rows)
    (hm : Clean m) (ho : Clean o) : Clean (m.orWith o) := by
  intro row hrow column hcol
  rw [get_orWith hc hr, hm row hrow column hcol, ho row (hr ▸ hrow) column (hc ▸ hcol)]
  rfl

theorem clean_shiftLeft {m : BitMatrix} (hm : Clean m) : Clean m.shiftLeft := by
  intro row hrow column hcol
  rw [get_shiftLeft (m := m) hrow]
  exact hm row hrow (column + 1) (Nat.le_succ_of_le hcol)

theorem clean_setBit {m : BitMatrix} (hm : Clean m) {row column : Nat} (hr : row < m.rows)
    (hc : column < m.columns) (hh : Holds m.columns) (value : Bool) :
    Clean (m.setBit column row value) := by
  intro row' hrow column' hcol
  rw [get_setBit hr (Nat.lt_of_lt_of_le hc hh)]
  have hne : ¬(row' = row ∧ column' = column) := by
    rintro ⟨-, rfl⟩
    exact absurd hc (Nat.not_lt.2 hcol)
  rw [if_neg hne]
  exact hm row' hrow column' hcol

/-- The two matrices are the same matrix of bits. -/
def SameBits (m o : BitMatrix) : Prop :=
  m.rows = o.rows ∧ m.columns = o.columns ∧ ∀ row < m.rows, ∀ column, m.get row column = o.get row column

theorem SameBits.symm {m o : BitMatrix} (h : SameBits m o) : SameBits o m :=
  ⟨h.1.symm, h.2.1.symm, fun row hr column => (h.2.2 row (h.1 ▸ hr) column).symm⟩

theorem mem_cells {m : BitMatrix} {row column : Nat} :
    (row, column) ∈ m.cells ↔ row < m.rows ∧ column < m.columns := by
  simp [cells]

/-- Neither matrix is smaller exactly when no bit differs, so the ordered map of
matrices finds a key exactly when it holds the same matrix. -/
theorem lt_equiv_iff {m o : BitMatrix} (hc : m.columns = o.columns) (hr : m.rows = o.rows)
    (hh : Holds m.columns) (hm : Clean m) (ho : Clean o) :
    (m.lt o = false ∧ o.lt m = false) ↔ SameBits m o := by
  have hcells : o.cells = m.cells := by simp [cells, hc, hr]
  have hbits {row column : Nat} (h : (row, column) ∈ m.cells) :
      m.bitAt column row = some (m.get row column) ∧ o.bitAt column row = some (o.get row column) := by
    obtain ⟨h1, h2⟩ := mem_cells.1 h
    have h3 : column < 32 * wordsPerRow m.columns := Nat.lt_of_lt_of_le h2 hh
    exact ⟨bitAt_eq h1 h3, bitAt_eq (hr ▸ h1) (hc ▸ h3)⟩
  have hsymm : (fun (p : Nat × Nat) => o.bitAt p.2 p.1 != m.bitAt p.2 p.1) =
      fun p => m.bitAt p.2 p.1 != o.bitAt p.2 p.1 := by
    funext p
    exact bne_comm
  constructor
  · rintro ⟨h1, h2⟩
    refine ⟨hr, hc, fun row hrow column => ?_⟩
    by_cases hcol : column < m.columns
    · cases hfind : m.cells.find? fun p => m.bitAt p.2 p.1 != o.bitAt p.2 p.1 with
      | none =>
        have hnone := List.find?_eq_none.1 hfind (row, column) (mem_cells.2 ⟨hrow, hcol⟩)
        obtain ⟨hb, hb'⟩ := hbits (mem_cells.2 ⟨hrow, hcol⟩)
        simpa [hb, hb'] using hnone
      | some p =>
        have hmem := List.mem_of_find?_eq_some hfind
        have hdiff := List.find?_some hfind
        obtain ⟨hb, hb'⟩ : m.bitAt p.2 p.1 = some (m.get p.1 p.2) ∧ o.bitAt p.2 p.1 = some (o.get p.1 p.2) :=
          hbits hmem
        simp only [lt, hcells, hsymm, hfind, hb, hb'] at h1 h2
        simp only [hb, hb'] at hdiff
        cases hg : m.get p.1 p.2 <;> cases hg' : o.get p.1 p.2 <;> simp_all
    · rw [hm row hrow column (Nat.not_lt.1 hcol), ho row (hr ▸ hrow) column (hc ▸ Nat.not_lt.1 hcol)]
  · intro hsame
    have hnone : (m.cells.find? fun p => m.bitAt p.2 p.1 != o.bitAt p.2 p.1) = none := by
      apply List.find?_eq_none.2
      rintro ⟨row, column⟩ hmem
      obtain ⟨hb, hb'⟩ := hbits hmem
      simp [hb, hb', hsame.2.2 row (mem_cells.1 hmem).1 column]
    exact ⟨by simp only [lt, hnone], by simp only [lt, hcells, hsymm, hnone]⟩

/-! ## Filling a matrix element by element -/

/-- A matrix of zeros whose elements are then set one by one, row after row. -/
def fill (width height : Nat) (value : Nat → Nat → Bool) : BitMatrix :=
  (create width height false).cells.foldl
    (fun m (row, column) => m.setBit column row (value row column)) (create width height false)

/-- One run of the filling loop over some of the positions. -/
theorem foldl_setBit (value : Nat → Nat → Bool) (positions : List (Nat × Nat)) (m : BitMatrix)
    (hh : Holds m.columns) (hm : Clean m)
    (hin : ∀ p ∈ positions, p.1 < m.rows ∧ p.2 < m.columns) :
    let r := positions.foldl (fun m p => m.setBit p.2 p.1 (value p.1 p.2)) m
    r.rows = m.rows ∧ r.columns = m.columns ∧ Clean r ∧
      ∀ row column, r.get row column =
        if (row, column) ∈ positions then value row column else m.get row column := by
  induction positions generalizing m with
  | nil => exact ⟨rfl, rfl, hm, fun row column => by simp⟩
  | cons p ps ih =>
    obtain ⟨hrow, hcol⟩ := hin p List.mem_cons_self
    obtain ⟨h1, h2, h3, h4⟩ := ih (m.setBit p.2 p.1 (value p.1 p.2)) hh
      (clean_setBit hm hrow hcol hh _) (fun q hq => hin q (List.mem_cons_of_mem _ hq))
    refine ⟨h1, h2, h3, fun row column => ?_⟩
    rw [List.foldl_cons, h4, get_setBit hrow (Nat.lt_of_lt_of_le hcol hh)]
    by_cases hlater : (row, column) ∈ ps
    · simp [hlater]
    · by_cases hp : row = p.1 ∧ column = p.2
      · obtain ⟨rfl, rfl⟩ := hp
        simp
      · have hne : (row, column) ≠ p := fun h => hp ⟨congrArg Prod.fst h, congrArg Prod.snd h⟩
        simp [hlater, hp, hne]

theorem fill_spec (width height : Nat) (value : Nat → Nat → Bool) (hh : Holds width) :
    (fill width height value).rows = height ∧ (fill width height value).columns = width ∧
      Clean (fill width height value) ∧
      ∀ row < height, ∀ column, (fill width height value).get row column =
        (decide (column < width) && value row column) := by
  obtain ⟨h1, h2, h3, h4⟩ := foldl_setBit value (create width height false).cells
    (create width height false) hh (clean_create _ _) (fun p hp => mem_cells.1 hp)
  refine ⟨h1, h2, h3, fun row hrow column => ?_⟩
  rw [fill, h4]
  by_cases hcol : column < width
  · simp [mem_cells, hrow, hcol]
  · simp [mem_cells, hcol]

end BitMatrix
end Tce
