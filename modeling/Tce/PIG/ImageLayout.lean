import Mathlib.Data.List.Pairwise
import Tce.PIG.FixBits

/-!
# Layout of program images

Where the word of each instruction starts in the image, and what a reference of a
word becomes when the word is added at that place.
-/

namespace Tce.PIG

section Shift
variable {base length : Nat} {t : IndexBoundTable}

theorem incrIndices_start {b : IndexBound} (h : b.slotStartIndex + base < 2 ^ 32) :
    (b.incrIndices base).slotStartIndex = b.slotStartIndex + base := Nat.mod_eq_of_lt h

theorem incrIndices_end {b : IndexBound} (h : b.slotEndIndex + base < 2 ^ 32) :
    (b.incrIndices base).slotEndIndex = b.slotEndIndex + base := Nat.mod_eq_of_lt h

theorem incrIndices_slotWidth {b : IndexBound} (hle : b.slotStartIndex ≤ b.slotEndIndex)
    (h : b.slotEndIndex + base < 2 ^ 32) : (b.incrIndices base).slotWidth = b.slotWidth := by
  rw [IndexBound.slotWidth, incrIndices_start (by omega), incrIndices_end h, IndexBound.slotWidth]
  omega

theorem incrIndices_covers {b : IndexBound} (hle : b.slotStartIndex ≤ b.slotEndIndex)
    (h : b.slotEndIndex + base < 2 ^ 32) {j : Nat} :
    (b.incrIndices base).Covers j ↔ ∃ k, b.Covers k ∧ j = base + k := by
  rw [IndexBound.Covers, incrIndices_start (by omega), incrIndices_end h]
  constructor
  · rintro ⟨hl, hr⟩
    refine ⟨j - base, ⟨?_, ?_⟩, ?_⟩ <;> omega
  · rintro ⟨k, ⟨hl, hr⟩, rfl⟩
    omega

/-- The table of a reference in a vector that its word is added to. -/
def shifted (base : Nat) (t : IndexBoundTable) : IndexBoundTable := t.map (·.incrIndices base)

theorem locate_shifted {bounds : List IndexBound}
    (hbounds : ∀ b ∈ bounds, b.slotStartIndex ≤ b.slotEndIndex ∧ b.slotEndIndex + base < 2 ^ 32 ∧
      b.valueWidth ≤ b.slotWidth) :
    ∀ {currentBit k : Nat}, locate (shifted base bounds) currentBit k = (locate bounds currentBit k).map (base + ·) := by
  induction bounds with
  | nil => intro _ _; rfl
  | cons b bounds ih =>
    intro currentBit k
    obtain ⟨hle, hlt, hwidth⟩ := hbounds b List.mem_cons_self
    have hslot := incrIndices_slotWidth hle hlt
    have hfirst : (b.incrIndices base).firstBit currentBit = b.firstBit currentBit := rfl
    have hvalue : (b.incrIndices base).valueWidth = b.valueWidth := by
      simp only [IndexBound.valueWidth, hslot]
      rfl
    have hrest : locate (shifted base bounds) (b.firstBit currentBit + b.slotWidth) k =
        (locate bounds (b.firstBit currentBit + b.slotWidth) k).map (base + ·) :=
      ih fun b' hb' => hbounds b' (List.mem_cons_of_mem _ hb')
    simp only [shifted, List.map_cons, locate, hfirst, hvalue, hslot, incrIndices_end hlt] at hrest ⊢
    split
    next hin =>
      simp only [IndexBound.slotWidth] at hwidth
      simp only [Option.map_some, Option.some.injEq]
      omega
    next => exact hrest

namespace Reference

theorem end_lt (h : Reference t length) (hsize : base + length ≤ 2 ^ 32) :
    ∀ b ∈ t, b.slotStartIndex ≤ b.slotEndIndex ∧ b.slotEndIndex + base < 2 ^ 32 := by
  intro b hb
  obtain ⟨hle, hlt⟩ := h.bounds b hb
  exact ⟨hle, by omega⟩

theorem covered_shifted (h : Reference t length) (hsize : base + length ≤ 2 ^ 32) {j : Nat} :
    Covered (shifted base t) j ↔ ∃ k, Covered t k ∧ j = base + k := by
  constructor
  · rintro ⟨b', hb', hcov⟩
    obtain ⟨b, hb, rfl⟩ := List.mem_map.mp hb'
    obtain ⟨hle, hlt⟩ := h.end_lt hsize b hb
    obtain ⟨k, hk, rfl⟩ := (incrIndices_covers hle hlt).mp hcov
    exact ⟨k, ⟨b, hb, hk⟩, rfl⟩
  · rintro ⟨k, ⟨b, hb, hk⟩, rfl⟩
    obtain ⟨hle, hlt⟩ := h.end_lt hsize b hb
    exact ⟨_, List.mem_map_of_mem hb, (incrIndices_covers hle hlt).mpr ⟨k, hk, rfl⟩⟩

theorem location_shifted (h : Reference t length) (hsize : base + length ≤ 2 ^ 32) (k : Nat) :
    location (shifted base t) k = (location t k).map (base + ·) := by
  have hreverse : (shifted base t).reverse = shifted base t.reverse := by simp [shifted]
  rw [location, hreverse]
  refine locate_shifted fun b hb => ?_
  have hb : b ∈ t := List.mem_reverse.mp hb
  obtain ⟨hle, hlt⟩ := h.end_lt hsize b hb
  exact ⟨hle, hlt, h.valueWidth_le b hb⟩

theorem availableSize_shifted (h : Reference t length) (hsize : base + length ≤ 2 ^ 32) :
    availableSize (shifted base t) = availableSize t := by
  simp only [availableSize, shifted, List.map_map]
  congr 1
  refine List.map_congr_left fun b hb => ?_
  obtain ⟨hle, hlt⟩ := h.end_lt hsize b hb
  exact incrIndices_slotWidth hle hlt

theorem shifted (h : Reference t length) (hsize : base + length ≤ 2 ^ 32) :
    Reference (shifted base t) (base + length) where
  nonempty := by simpa [PIG.shifted] using h.nonempty
  bounds := by
    intro b' hb'
    obtain ⟨b, hb, rfl⟩ := List.mem_map.mp hb'
    obtain ⟨hle, hlt⟩ := h.end_lt hsize b hb
    have := (h.bounds b hb).2
    rw [incrIndices_start (by omega), incrIndices_end hlt]
    omega
  disjoint := by
    refine List.pairwise_map.mpr (h.disjoint.imp_of_mem fun {b b'} hb hb' hno j hj => ?_)
    obtain ⟨hle, hlt⟩ := h.end_lt hsize b hb
    obtain ⟨hle', hlt'⟩ := h.end_lt hsize b' hb'
    obtain ⟨k, hk, rfl⟩ := (incrIndices_covers hle hlt).mp hj.1
    obtain ⟨k', hk', heq⟩ := (incrIndices_covers hle' hlt').mp hj.2
    have : k = k' := by omega
    exact hno k ⟨hk, this ▸ hk'⟩
  parts := by
    rcases h.parts with hshort | hlong
    · refine .inl fun b' hb' => ?_
      obtain ⟨b, hb, rfl⟩ := List.mem_map.mp hb'
      exact hshort b hb
    · refine .inr fun b' hb' => ?_
      obtain ⟨b, hb, rfl⟩ := List.mem_map.mp hb'
      obtain ⟨hlimm, hcons, hwidth, hleft⟩ := hlong b hb
      obtain ⟨hle, hlt⟩ := h.end_lt hsize b hb
      have hsum : (PIG.shifted base t).map (·.limmWidth) = t.map (·.limmWidth) := by
        simp [PIG.shifted, IndexBound.incrIndices]
      rw [hsum, incrIndices_slotWidth hle hlt]
      exact ⟨hlimm, hcons, hwidth, hleft⟩

theorem mono {length' : Nat} (h : Reference t length) (hle : length ≤ length') : Reference t length' where
  nonempty := h.nonempty
  bounds := fun b hb => ⟨(h.bounds b hb).1, Nat.lt_of_lt_of_le (h.bounds b hb).2 hle⟩
  disjoint := h.disjoint
  parts := h.parts

theorem fits_shifted (h : Reference t length) (hsize : base + length ≤ 2 ^ 32) {value : Nat} :
    Fits (PIG.shifted base t) value ↔ Fits t value := by
  simp only [Fits, h.location_shifted hsize, Option.map_eq_none_iff]

theorem readsBack_shifted (h : Reference t length) (hsize : base + length ≤ 2 ^ 32) {bits : List Bool} {value : Nat} :
    ReadsBack bits 0 (PIG.shifted base t) value ↔ ReadsBack bits base t value := by
  simp only [ReadsBack, h.fits_shifted hsize, h.location_shifted hsize, Option.map_eq_some_iff, Nat.zero_add]
  refine and_congr_right fun _ => ⟨fun hread k j hj => hread k _ ⟨j, hj, rfl⟩, ?_⟩
  rintro hread k _ ⟨j, hj, rfl⟩
  exact hread k j hj

theorem fixable_shifted (h : Reference t length) (hsize : base + length ≤ 2 ^ 32) {value : Nat}
    (hfix : Fixable base t value) : Fixable 0 (PIG.shifted base t) value where
  start := by
    intro b' hb'
    obtain ⟨b, hb, rfl⟩ := List.mem_map.mp hb'
    obtain ⟨hle, hlt⟩ := h.end_lt hsize b hb
    have := hfix.start b hb
    rw [incrIndices_start (by omega)]
    omega
  word := by
    intro b' hb'
    obtain ⟨b, hb, rfl⟩ := List.mem_map.mp hb'
    rw [h.availableSize_shifted hsize]
    exact hfix.word b hb
  fits := (h.fits_shifted hsize).mpr hfix.fits

end Reference

end Shift

namespace ImageLayout
variable {I : Type} (m : ImageLayout I)

/-- The position of the next instruction in an image of the given length. -/
def firstPosition (instruction : I) (length : Nat) : Nat :=
  if m.startsAtBeginningOfMAU instruction ∧ length % m.mau ≠ 0 then length + (m.mau - length % m.mau) else length

/-- The words of the image, each with the position it starts at. -/
def placed : Nat → List (Added I) → List (Nat × Added I)
  | _, [] => []
  | length, a :: added =>
    (m.firstPosition a.instruction length, a) ::
      placed (m.firstPosition a.instruction length + a.word.length) added

def imageEnd : Nat → List (Added I) → Nat
  | length, [] => length
  | length, a :: added => imageEnd (m.firstPosition a.instruction length + a.word.length) added

/-- The position that is marked for an instruction. -/
def start [DecidableEq I] (added : List (Added I)) (instruction : I) : Option Nat :=
  ((m.placed 0 added).find? fun p => p.2.instruction = instruction).map (·.1)

variable {m}

theorem le_firstPosition (instruction : I) (length : Nat) : length ≤ m.firstPosition instruction length := by
  rw [firstPosition]
  split <;> omega

theorem instructionPosition_eq {instruction : I} {length : Nat} (h : m.firstPosition instruction length < 2 ^ 32) :
    m.instructionPosition instruction length = m.firstPosition instruction length := by
  have hlt := Nat.mod_lt length m.mau_pos
  simp only [instructionPosition, nextAddressablePositionFrom, firstPosition] at h ⊢
  by_cases hstart : m.startsAtBeginningOfMAU instruction = true
  · by_cases hmod : length % m.mau = 0
    · simp [hstart, hmod]
    · simp only [hstart, hmod, ne_eq, not_false_eq_true, and_self, ↓reduceIte] at h ⊢
      have hsum : length + m.mau - length % m.mau = length + (m.mau - length % m.mau) := by omega
      rw [hsum]
      exact Nat.mod_eq_of_lt h
  · simp [hstart]

theorem placed_append (length : Nat) (before after : List (Added I)) :
    m.placed length (before ++ after) = m.placed length before ++ m.placed (m.imageEnd length before) after := by
  induction before generalizing length with
  | nil => rfl
  | cons a before ih => simp only [List.cons_append, placed, imageEnd, ih]

theorem imageEnd_append (length : Nat) (before after : List (Added I)) :
    m.imageEnd length (before ++ after) = m.imageEnd (m.imageEnd length before) after := by
  induction before generalizing length with
  | nil => rfl
  | cons a before ih => simp only [List.cons_append, imageEnd, ih]

theorem le_imageEnd (length : Nat) (added : List (Added I)) : length ≤ m.imageEnd length added := by
  induction added generalizing length with
  | nil => exact Nat.le_refl _
  | cons a added ih =>
    have := ih (m.firstPosition a.instruction length + a.word.length)
    have := le_firstPosition (m := m) a.instruction length
    simp only [imageEnd]
    omega

/-- Words do not reach into each other. -/
theorem placed_bounds {length : Nat} {added : List (Added I)} :
    ∀ p ∈ m.placed length added, length ≤ p.1 ∧ p.1 + p.2.word.length ≤ m.imageEnd length added := by
  induction added generalizing length with
  | nil => simp [placed]
  | cons a added ih =>
    intro p hp
    have hfirst := le_firstPosition (m := m) a.instruction length
    have hend := le_imageEnd (m := m) (m.firstPosition a.instruction length + a.word.length) added
    simp only [imageEnd]
    rcases List.mem_cons.mp hp with rfl | hp
    · exact ⟨hfirst, hend⟩
    · have := ih p hp
      omega

theorem placed_pairwise (length : Nat) (added : List (Added I)) :
    (m.placed length added).Pairwise fun p q => p.1 + p.2.word.length ≤ q.1 := by
  induction added generalizing length with
  | nil => exact .nil
  | cons a added ih => exact .cons (fun q hq => (placed_bounds q hq).1) (ih _)

theorem placed_apart {added : List (Added I)} {p q : Nat × Added I} (hp : p ∈ m.placed 0 added)
    (hq : q ∈ m.placed 0 added) (hne : p ≠ q) :
    p.1 + p.2.word.length ≤ q.1 ∨ q.1 + q.2.word.length ≤ p.1 := by
  have hsymm : Std.Symm fun p q : Nat × Added I =>
      p.1 + p.2.word.length ≤ q.1 ∨ q.1 + q.2.word.length ≤ p.1 := ⟨fun _ _ h => h.symm⟩
  have hpairwise : (m.placed 0 added).Pairwise fun p q =>
      p.1 + p.2.word.length ≤ q.1 ∨ q.1 + q.2.word.length ≤ p.1 := (placed_pairwise 0 added).imp .inl
  exact hpairwise.forall hp hq hne

theorem placed_split {length : Nat} {added : List (Added I)} :
    ∀ p ∈ m.placed length added, ∃ before after, added = before ++ p.2 :: after ∧
      p.1 = m.firstPosition p.2.instruction (m.imageEnd length before) := by
  induction added generalizing length with
  | nil => simp [placed]
  | cons a added ih =>
    intro p hp
    rcases List.mem_cons.mp hp with rfl | hp
    · exact ⟨[], added, rfl, rfl⟩
    · obtain ⟨before, after, heq, hfirst⟩ := ih p hp
      exact ⟨a :: before, after, by simp [heq], hfirst⟩

theorem mem_of_placed {length : Nat} {added : List (Added I)} {p : Nat × Added I} (hp : p ∈ m.placed length added) :
    p.2 ∈ added := by
  obtain ⟨before, after, rfl, _⟩ := placed_split p hp
  simp

variable [DecidableEq I]

theorem start_append (before : List (Added I)) (a : Added I) (instruction : I) :
    m.start (before ++ [a]) instruction = (m.start before instruction).or
      (if a.instruction = instruction then some (m.firstPosition a.instruction (m.imageEnd 0 before)) else none) := by
  simp only [start, placed_append, List.find?_append, placed, List.find?_cons, List.find?_nil]
  cases (m.placed 0 before).find? fun p => p.2.instruction = instruction with
  | some p => simp
  | none => by_cases h : a.instruction = instruction <;> simp [h]

theorem start_eq_some {added : List (Added I)} {instruction : I} {s : Nat} (h : m.start added instruction = some s) :
    ∃ p ∈ m.placed 0 added, p.2.instruction = instruction ∧ p.1 = s := by
  obtain ⟨p, hp, rfl⟩ := Option.map_eq_some_iff.mp h
  exact ⟨p, List.mem_of_find?_eq_some hp, by simpa using List.find?_some hp, rfl⟩

theorem start_eq_none {added : List (Added I)} {instruction : I} (h : instruction ∉ added.map (·.instruction)) :
    m.start added instruction = none := by
  by_contra hsome
  obtain ⟨s, hs⟩ := Option.ne_none_iff_exists'.mp hsome
  obtain ⟨p, hp, rfl, _⟩ := start_eq_some hs
  exact h (List.mem_map_of_mem (mem_of_placed hp))

end ImageLayout

end Tce.PIG
