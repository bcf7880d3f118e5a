import Tce.PIG.ProgramImage

/-!
# Fixing instruction references

Where a reference holds each bit of an address, and when `fixBits` writes exactly
these bits: no slot may start at index 0, no bit from 32 on may be asked for, and
an address that passes the size check must fit in the bits that hold it.
-/

namespace Tce.PIG

section Places

def IndexBound.Covers (b : IndexBound) (j : Nat) : Prop := b.slotStartIndex ≤ j ∧ j ≤ b.slotEndIndex

def Covered (t : IndexBoundTable) (j : Nat) : Prop := ∃ b ∈ t, b.Covers j

/-- The number of bits of the value that a slot holds. -/
def IndexBound.valueWidth (b : IndexBound) : Nat := if b.isLimmEncoded then b.limmWidth else b.slotWidth

/-- The index of a bit of the value, with the bounds from the last one on. -/
def locate : List IndexBound → Nat → Nat → Option Nat
  | [], _, _ => none
  | b :: bounds, currentBit, k =>
    if b.firstBit currentBit ≤ k ∧ k < b.firstBit currentBit + b.valueWidth then
      some (b.slotEndIndex - (k - b.firstBit currentBit))
    else locate bounds (b.firstBit currentBit + b.slotWidth) k

/-- The index that holds a bit of the address, if there is one. -/
def location (t : IndexBoundTable) (k : Nat) : Option Nat := locate t.reverse 0 k

/-- The address has no bit that the reference does not hold. -/
def Fits (t : IndexBoundTable) (value : Nat) : Prop := ∀ k, location t k = none → value.testBit k = false

/-- The bits at the reference, in a vector that it starts at the given index of, are those
of the address. -/
def ReadsBack (bits : List Bool) (base : Nat) (t : IndexBoundTable) (value : Nat) : Prop :=
  Fits t value ∧ ∀ k j, location t k = some j → bits[base + j]? = some (value.testBit k)

/-- The reference of a short immediate, or of a long one whose parts are in several
slots, in a word of the given length. -/
structure Reference (t : IndexBoundTable) (length : Nat) : Prop where
  nonempty : t ≠ []
  bounds : ∀ b ∈ t, b.slotStartIndex ≤ b.slotEndIndex ∧ b.slotEndIndex < length
  disjoint : t.Pairwise fun b b' => ∀ j, ¬(b.Covers j ∧ b'.Covers j)
  parts : (∀ b ∈ t, b.isLimmEncoded = false) ∨
    ∀ b ∈ t, b.isLimmEncoded = true ∧ b.limmLeftIndex + 1 = b.limmRightIndex + b.limmWidth ∧
      b.limmWidth ≤ b.slotWidth ∧ b.limmLeftIndex < (t.map (·.limmWidth)).sum

/-- When `fixBits` does what it should for an address that passes its size check; the
slots start at these indices after the given one. -/
structure Fixable (base : Nat) (t : IndexBoundTable) (value : Nat) : Prop where
  start : ∀ b ∈ t, 0 < base + b.slotStartIndex
  word : ∀ b ∈ t, if b.isLimmEncoded then b.limmLeftIndex < 32 else availableSize t ≤ 32 ∨ requiredBits value < 32
  fits : Fits t value

end Places

section Slot
variable (value : BitVec 32) (stopBit : Nat) {startIndex : Nat}

theorem writeSlot_ok (hstart : 0 < startIndex) :
    ∀ (index currentBit : Nat) (bits : List Bool), startIndex ≤ index + 1 → index < bits.length →
      (∀ c < currentBit + (index + 1 - startIndex), c ≤ stopBit → c < 32) →
      ∃ bits', writeSlot value stopBit startIndex index currentBit bits =
          .ok (bits', currentBit + (index + 1 - startIndex)) ∧ bits'.length = bits.length ∧
        ∀ j, bits'[j]? = if startIndex ≤ j ∧ j ≤ index then
            some (if currentBit + (index - j) ≤ stopBit then value.toNat.testBit (currentBit + (index - j)) else false)
          else bits[j]? := by
  intro index
  induction index with
  | zero =>
    intro currentBit bits hle _ _
    have hone : startIndex = 1 := by omega
    refine ⟨bits, by simp [writeSlot, hone], rfl, fun j => ?_⟩
    have hno : ¬(startIndex ≤ j ∧ j ≤ 0) := by omega
    rw [if_neg hno]
  | succ index ih =>
    intro currentBit bits hle hlen hbits
    by_cases hend : index + 1 < startIndex
    · have hsub : index + 1 + 1 - startIndex = 0 := by omega
      refine ⟨bits, by simp [writeSlot, hend, hsub], rfl, fun j => ?_⟩
      have hno : ¬(startIndex ≤ j ∧ j ≤ index + 1) := by omega
      rw [if_neg hno]
    · obtain ⟨b, hb, hbv⟩ : ∃ b, (if currentBit ≤ stopBit then bit value currentBit else some false) = some b ∧
          b = if currentBit ≤ stopBit then value.toNat.testBit currentBit else false := by
        by_cases hc : currentBit ≤ stopBit
        · have := hbits currentBit (by omega) hc
          simp [hc, bit, this]
        · simp [hc]
      obtain ⟨bits', hbits', hlen', hget⟩ := ih (currentBit + 1) (bits.set (index + 1) b) (by omega)
        (by simp; omega) fun c hc => hbits c (by omega)
      have hcount : currentBit + 1 + (index + 1 - startIndex) = currentBit + (index + 1 + 1 - startIndex) := by omega
      refine ⟨bits', ?_, by simpa using hlen', fun j => ?_⟩
      · simp only [writeSlot, hend, ↓reduceIte, hb, hlen, hbits', hcount]
      · rw [hget j]
        by_cases htop : j = index + 1
        · subst htop
          have hno : ¬(startIndex ≤ index + 1 ∧ index + 1 ≤ index) := by omega
          have hyes : startIndex ≤ index + 1 ∧ index + 1 ≤ index + 1 := by omega
          rw [if_neg hno, if_pos hyes, List.getElem?_set_self hlen, hbv]
          simp
        · have hcase : (startIndex ≤ j ∧ j ≤ index) ↔ (startIndex ≤ j ∧ j ≤ index + 1) := by omega
          rw [List.getElem?_set_ne (Ne.symm htop)]
          by_cases hin : startIndex ≤ j ∧ j ≤ index
          · have hbitNo : currentBit + 1 + (index - j) = currentBit + (index + 1 - j) := by omega
            rw [if_pos hin, if_pos (hcase.mp hin), hbitNo]
          · rw [if_neg hin, if_neg fun h => hin (hcase.mpr h)]

end Slot

/-- No bit from 32 on is asked for. -/
def Askable : List IndexBound → Nat → Nat → Prop
  | [], _, _ => True
  | b :: bounds, currentBit, stopBit =>
    (∀ c < b.firstBit currentBit + b.slotWidth, c ≤ b.lastBit stopBit → c < 32) ∧
      Askable bounds (b.firstBit currentBit + b.slotWidth) (b.lastBit stopBit)

theorem locate_covered {bounds : List IndexBound}
    (hwidth : ∀ b ∈ bounds, b.slotStartIndex ≤ b.slotEndIndex ∧ b.valueWidth ≤ b.slotWidth) :
    ∀ {currentBit k j : Nat}, locate bounds currentBit k = some j → Covered bounds j := by
  induction bounds with
  | nil => intro _ _ _ h; cases h
  | cons b bounds ih =>
    intro currentBit k j h
    rw [locate] at h
    split at h
    next hin =>
      have := hwidth b List.mem_cons_self
      simp only [IndexBound.slotWidth] at this
      refine ⟨b, List.mem_cons_self, ?_⟩
      simp only [IndexBound.Covers, ← Option.some.inj h]
      omega
    next =>
      obtain ⟨b', hb', hcov⟩ := ih (fun b' hb' => hwidth b' (List.mem_cons_of_mem _ hb')) h
      exact ⟨b', List.mem_cons_of_mem _ hb', hcov⟩

theorem fixSlots_ok {value : BitVec 32} {bounds : List IndexBound} :
    ∀ {currentBit stopBit : Nat} {bits : List Bool},
      (∀ b ∈ bounds, 0 < b.slotStartIndex ∧ b.slotStartIndex ≤ b.slotEndIndex ∧ b.slotEndIndex < bits.length) →
      bounds.Pairwise (fun b b' => ∀ j, ¬(b.Covers j ∧ b'.Covers j)) →
      ((∀ b ∈ bounds, b.isLimmEncoded = false) ∧ value.toNat < 2 ^ stopBit ∨
        ∀ b ∈ bounds, b.isLimmEncoded = true ∧ b.limmLeftIndex + 1 = b.limmRightIndex + b.limmWidth ∧
          b.limmWidth ≤ b.slotWidth) →
      Askable bounds currentBit stopBit →
      ∃ bits', fixSlots value bounds currentBit stopBit bits = .ok bits' ∧ bits'.length = bits.length ∧
        (∀ j, ¬Covered bounds j → bits'[j]? = bits[j]?) ∧
        ∀ k j, locate bounds currentBit k = some j → bits'[j]? = some (value.toNat.testBit k) := by
  induction bounds with
  | nil =>
    intro _ _ bits _ _ _ _
    exact ⟨bits, rfl, rfl, fun _ _ => rfl, fun _ _ h => by cases h⟩
  | cons b bounds ih =>
    intro currentBit stopBit bits hbounds hdisjoint hparts haskable
    obtain ⟨hstart, hle, hlen⟩ := hbounds b List.mem_cons_self
    obtain ⟨hask, hask'⟩ := haskable
    obtain ⟨hnew, hold⟩ := List.pairwise_cons.mp hdisjoint
    have hwidth : b.slotEndIndex + 1 - b.slotStartIndex = b.slotWidth := rfl
    obtain ⟨written, hwritten, hlen', hget⟩ := writeSlot_ok value (b.lastBit stopBit)
      hstart b.slotEndIndex (b.firstBit currentBit) bits (by omega) hlen hask
    have hparts' : (∀ b' ∈ bounds, b'.isLimmEncoded = false) ∧ value.toNat < 2 ^ b.lastBit stopBit ∨
        ∀ b' ∈ bounds, b'.isLimmEncoded = true ∧ b'.limmLeftIndex + 1 = b'.limmRightIndex + b'.limmWidth ∧
          b'.limmWidth ≤ b'.slotWidth := by
      rcases hparts with ⟨hshort, hlt⟩ | hlong
      · refine .inl ⟨fun b' hb' => hshort b' (List.mem_cons_of_mem _ hb'), ?_⟩
        simpa [IndexBound.lastBit, hshort b List.mem_cons_self] using hlt
      · exact .inr fun b' hb' => hlong b' (List.mem_cons_of_mem _ hb')
    have hbounds' : ∀ b' ∈ bounds, 0 < b'.slotStartIndex ∧ b'.slotStartIndex ≤ b'.slotEndIndex ∧
        b'.slotEndIndex < written.length := fun b' hb' => hlen' ▸ hbounds b' (List.mem_cons_of_mem _ hb')
    obtain ⟨bits', hbits', hlen'', hframe, hread⟩ := ih hbounds' hold hparts' hask'
    have hconsistent : ¬(b.isLimmEncoded ∧ b.limmLeftIndex + 1 ≠ b.limmRightIndex + b.limmWidth) := by
      rcases hparts with ⟨hshort, _⟩ | hlong
      · simp [hshort b List.mem_cons_self]
      · simp [(hlong b List.mem_cons_self).2.1]
    refine ⟨bits', ?_, hlen''.trans hlen', ?_, ?_⟩
    · simp only [fixSlots, hconsistent, ↓reduceIte, hwritten, bind, Except.bind, hwidth]
      exact hbits'
    · intro j hj
      have hb : ¬(b.slotStartIndex ≤ j ∧ j ≤ b.slotEndIndex) := fun hc => hj ⟨b, List.mem_cons_self, hc⟩
      rw [hframe j fun ⟨b', hb', hc⟩ => hj ⟨b', List.mem_cons_of_mem _ hb', hc⟩, hget j, if_neg hb]
    · intro k j hloc
      rw [locate] at hloc
      split at hloc
      next hin =>
        have hvalue : b.valueWidth ≤ b.slotWidth := by
          rcases hparts with ⟨hshort, _⟩ | hlong
          · simp [IndexBound.valueWidth, hshort b List.mem_cons_self]
          · simpa [IndexBound.valueWidth, (hlong b List.mem_cons_self).1] using (hlong b List.mem_cons_self).2.2
        have hj := Option.some.inj hloc
        have hcov : b.slotStartIndex ≤ j ∧ j ≤ b.slotEndIndex := by omega
        have hbitNo : b.firstBit currentBit + (b.slotEndIndex - j) = k := by omega
        rw [hframe j fun ⟨b', hb', hc⟩ => hnew b' hb' j ⟨hcov, hc⟩, hget j, if_pos hcov, hbitNo]
        rcases hparts with ⟨hshort, hlt⟩ | hlong
        · by_cases hk : k ≤ b.lastBit stopBit
          · rw [if_pos hk]
          · rw [if_neg hk]
            have hgt : stopBit ≤ k := by
              simp only [IndexBound.lastBit, hshort b List.mem_cons_self, Bool.false_eq_true, ↓reduceIte] at hk
              omega
            rw [Nat.testBit_lt_two_pow (Nat.lt_of_lt_of_le hlt (Nat.pow_le_pow_right (by omega) hgt))]
        · obtain ⟨hlimm, hcons, _⟩ := hlong b List.mem_cons_self
          have hk : k ≤ b.lastBit stopBit := by
            simp only [IndexBound.valueWidth, IndexBound.firstBit, IndexBound.lastBit, hlimm, ↓reduceIte] at hin ⊢
            omega
          rw [if_pos hk]
      next => exact hread k j hloc

theorem askable_short {bounds : List IndexBound} (hshort : ∀ b ∈ bounds, b.isLimmEncoded = false) :
    ∀ {currentBit stopBit : Nat}, currentBit + availableSize bounds ≤ 32 ∨ stopBit < 32 →
      Askable bounds currentBit stopBit := by
  induction bounds with
  | nil => intro _ _ _; trivial
  | cons b bounds ih =>
    intro currentBit stopBit hsize
    have hb := hshort b List.mem_cons_self
    simp only [availableSize, List.map_cons, List.sum_cons] at hsize
    simp only [Askable, IndexBound.firstBit, IndexBound.lastBit, hb, Bool.false_eq_true, ↓reduceIte]
    refine ⟨fun c hc _ => by omega, ih (fun b' hb' => hshort b' (List.mem_cons_of_mem _ hb')) ?_⟩
    simp only [availableSize]
    omega

theorem askable_long {bounds : List IndexBound} (hlong : ∀ b ∈ bounds, b.isLimmEncoded = true ∧ b.limmLeftIndex < 32) :
    ∀ {currentBit stopBit : Nat}, Askable bounds currentBit stopBit := by
  induction bounds with
  | nil => intro _ _; trivial
  | cons b bounds ih =>
    intro currentBit stopBit
    obtain ⟨hb, hleft⟩ := hlong b List.mem_cons_self
    refine ⟨fun c _ hc => ?_, ih fun b' hb' => hlong b' (List.mem_cons_of_mem _ hb')⟩
    simp only [IndexBound.lastBit, hb, ↓reduceIte] at hc
    omega

theorem locate_short {bounds : List IndexBound} (hshort : ∀ b ∈ bounds, b.isLimmEncoded = false) :
    ∀ {currentBit k j : Nat}, locate bounds currentBit k = some j → k < currentBit + availableSize bounds := by
  induction bounds with
  | nil => intro _ _ _ h; cases h
  | cons b bounds ih =>
    intro currentBit k j h
    have hb := hshort b List.mem_cons_self
    simp only [locate, IndexBound.firstBit, IndexBound.valueWidth, hb, Bool.false_eq_true, ↓reduceIte] at h
    simp only [availableSize, List.map_cons, List.sum_cons]
    split at h
    · omega
    · have := ih (fun b' hb' => hshort b' (List.mem_cons_of_mem _ hb')) h
      simp only [availableSize] at this
      omega

theorem locate_long {bounds : List IndexBound} {size : Nat}
    (hlong : ∀ b ∈ bounds, b.isLimmEncoded = true ∧ b.limmLeftIndex + 1 = b.limmRightIndex + b.limmWidth ∧
      b.limmLeftIndex < size) :
    ∀ {currentBit k j : Nat}, locate bounds currentBit k = some j → k < size := by
  induction bounds with
  | nil => intro _ _ _ h; cases h
  | cons b bounds ih =>
    intro currentBit k j h
    obtain ⟨hb, hcons, hleft⟩ := hlong b List.mem_cons_self
    simp only [locate, IndexBound.firstBit, IndexBound.valueWidth, hb, ↓reduceIte] at h
    split at h
    · omega
    · exact ih (fun b' hb' => hlong b' (List.mem_cons_of_mem _ hb')) h

theorem lt_two_pow_requiredBits (n : Nat) : n < 2 ^ requiredBits n := by
  rw [requiredBits]
  split
  next h => simp [h]
  next => exact Nat.lt_log2_self

theorem availableSize_reverse (t : IndexBoundTable) : availableSize t.reverse = availableSize t := by
  simp [availableSize]

theorem sum_limmWidth_le {t : IndexBoundTable} (h : ∀ b ∈ t, b.limmWidth ≤ b.slotWidth) :
    (t.map (·.limmWidth)).sum ≤ availableSize t := by
  induction t with
  | nil => exact Nat.le_refl _
  | cons b t ih =>
    have := h b List.mem_cons_self
    have := ih fun b' hb' => h b' (List.mem_cons_of_mem _ hb')
    simp only [availableSize, List.map_cons, List.sum_cons] at *
    omega

namespace Reference
variable {t : IndexBoundTable} {length : Nat}

theorem availableSize_pos (h : Reference t length) : 0 < availableSize t := by
  obtain ⟨b, t', rfl⟩ := List.exists_cons_of_ne_nil h.nonempty
  have := h.bounds b List.mem_cons_self
  simp only [availableSize, List.map_cons, List.sum_cons, IndexBound.slotWidth]
  omega

theorem valueWidth_le (h : Reference t length) : ∀ b ∈ t, b.valueWidth ≤ b.slotWidth := by
  intro b hb
  rcases h.parts with hshort | hlong
  · simp [IndexBound.valueWidth, hshort b hb]
  · simpa [IndexBound.valueWidth, (hlong b hb).1] using (hlong b hb).2.2.1

theorem location_covered (h : Reference t length) {k j : Nat} (hj : location t k = some j) : Covered t j := by
  have hwidth : ∀ b ∈ t.reverse, b.slotStartIndex ≤ b.slotEndIndex ∧ b.valueWidth ≤ b.slotWidth := by
    intro b hb
    have hb : b ∈ t := List.mem_reverse.mp hb
    exact ⟨(h.bounds b hb).1, h.valueWidth_le b hb⟩
  obtain ⟨b, hb, hcov⟩ := locate_covered hwidth hj
  exact ⟨b, by simpa using hb, hcov⟩

theorem covered_lt (h : Reference t length) {j : Nat} (hj : Covered t j) : j < length := by
  obtain ⟨b, hb, hcov⟩ := hj
  exact Nat.lt_of_le_of_lt hcov.2 (h.bounds b hb).2

theorem location_lt (h : Reference t length) {k j : Nat} (hj : location t k = some j) : k < availableSize t := by
  rcases h.parts with hshort | hlong
  · have hshort' : ∀ b ∈ t.reverse, b.isLimmEncoded = false := fun b hb => hshort b (List.mem_reverse.mp hb)
    have := locate_short hshort' hj
    simpa [availableSize_reverse] using this
  · have hsize := sum_limmWidth_le fun b hb => (hlong b hb).2.2.1
    have hlong' : ∀ b ∈ t.reverse, b.isLimmEncoded = true ∧ b.limmLeftIndex + 1 = b.limmRightIndex + b.limmWidth ∧
        b.limmLeftIndex < availableSize t := by
      intro b hb
      obtain ⟨hlimm, hcons, _, hleft⟩ := hlong b (List.mem_reverse.mp hb)
      exact ⟨hlimm, hcons, Nat.lt_of_lt_of_le hleft hsize⟩
    exact locate_long hlong' hj

/-- The size check only rejects addresses that have a bit which the reference does not hold. -/
theorem not_fits (h : Reference t length) {value : Nat} (hsize : availableSize t < requiredBits value) :
    ¬Fits t value := by
  intro hfits
  have hpos := h.availableSize_pos
  have hne : value ≠ 0 := by
    rintro rfl
    simp [requiredBits] at hsize
    omega
  have hlog : availableSize t ≤ value.log2 := by
    simp only [requiredBits, hne, ↓reduceIte] at hsize
    omega
  have hnone : location t value.log2 = none := by
    by_contra hsome
    obtain ⟨j, hj⟩ := Option.ne_none_iff_exists'.mp hsome
    have := h.location_lt hj
    omega
  have := hfits _ hnone
  rw [Nat.testBit_log2 hne] at this
  exact absurd this (by simp)

end Reference

/-- `fixBits` either rejects an address that does not fit, or writes all its bits and no others. -/
theorem fixBits_ok {bits : List Bool} {t : IndexBoundTable} {value : BitVec 32} (href : Reference t bits.length)
    (hfix : requiredBits value.toNat ≤ availableSize t → Fixable 0 t value.toNat) :
    (fixBits bits t value = .error .outOfRange ∧ ¬Fits t value.toNat) ∨
    ∃ bits', fixBits bits t value = .ok bits' ∧ bits'.length = bits.length ∧
      (∀ j, ¬Covered t j → bits'[j]? = bits[j]?) ∧ ReadsBack bits' 0 t value.toNat := by
  by_cases hsize : availableSize t < requiredBits value.toNat
  · exact .inl ⟨by simp [fixBits, hsize], href.not_fits hsize⟩
  have hfixable := hfix (Nat.le_of_not_lt hsize)
  have hbounds : ∀ b ∈ t.reverse, 0 < b.slotStartIndex ∧ b.slotStartIndex ≤ b.slotEndIndex ∧
      b.slotEndIndex < bits.length := by
    intro b hb
    have hb : b ∈ t := by simpa using hb
    exact ⟨by simpa using hfixable.start b hb, href.bounds b hb⟩
  have hdisjoint : t.reverse.Pairwise fun b b' => ∀ j, ¬(b.Covers j ∧ b'.Covers j) := by
    rw [List.pairwise_reverse]
    exact href.disjoint.imp fun h j hj => h j hj.symm
  have hparts : (∀ b ∈ t.reverse, b.isLimmEncoded = false) ∧ value.toNat < 2 ^ requiredBits value.toNat ∨
      ∀ b ∈ t.reverse, b.isLimmEncoded = true ∧ b.limmLeftIndex + 1 = b.limmRightIndex + b.limmWidth ∧
        b.limmWidth ≤ b.slotWidth := by
    rcases href.parts with hshort | hlong
    · exact .inl ⟨fun b hb => hshort b (by simpa using hb), lt_two_pow_requiredBits _⟩
    · refine .inr fun b hb => ?_
      obtain ⟨hlimm, hcons, hwidth, _⟩ := hlong b (by simpa using hb)
      exact ⟨hlimm, hcons, hwidth⟩
  have haskable : Askable t.reverse 0 (requiredBits value.toNat) := by
    rcases href.parts with hshort | hlong
    · obtain ⟨b, t', rfl⟩ := List.exists_cons_of_ne_nil href.nonempty
      have hword := hfixable.word b List.mem_cons_self
      simp only [hshort b List.mem_cons_self, Bool.false_eq_true, ↓reduceIte] at hword
      refine askable_short (fun b hb => hshort b (List.mem_reverse.mp hb)) ?_
      rw [availableSize_reverse, Nat.zero_add]
      exact hword
    · refine askable_long fun b hb => ?_
      have hb : b ∈ t := by simpa using hb
      have hword := hfixable.word b hb
      simp only [(hlong b hb).1, ↓reduceIte] at hword
      exact ⟨(hlong b hb).1, hword⟩
  obtain ⟨bits', hbits', hlen, hframe, hread⟩ := fixSlots_ok hbounds hdisjoint hparts haskable
  refine .inr ⟨bits', by simp [fixBits, hsize, hbits'], hlen, fun j hj => hframe j ?_, hfixable.fits, ?_⟩
  · rintro ⟨b, hb, hcov⟩
    exact hj ⟨b, by simpa using hb, hcov⟩
  · intro k j hloc
    simpa using hread k j hloc

/-- What is fixed stays fixed while bits outside the reference change. -/
theorem ReadsBack.congr {bits bits' : List Bool} {base length value : Nat} {t : IndexBoundTable}
    (h : ReadsBack bits base t value) (href : Reference t length)
    (hsame : ∀ j, Covered t j → bits'[base + j]? = bits[base + j]?) : ReadsBack bits' base t value :=
  ⟨h.1, fun k j hj => (hsame j (href.location_covered hj)).trans (h.2 k j hj)⟩

def Apart (t t' : IndexBoundTable) : Prop := ∀ j, ¬(Covered t j ∧ Covered t' j)

theorem fixAll_ok {references : List (IndexBoundTable × BitVec 32)} :
    ∀ {bits : List Bool}, (∀ r ∈ references, Reference r.1 bits.length) →
      references.Pairwise (fun r r' => Apart r.1 r'.1) →
      (∀ r ∈ references, requiredBits r.2.toNat ≤ availableSize r.1 → Fixable 0 r.1 r.2.toNat) →
      (fixAll bits references = .error .outOfRange ∧ ∃ r ∈ references, ¬Fits r.1 r.2.toNat) ∨
      ∃ bits', fixAll bits references = .ok bits' ∧ bits'.length = bits.length ∧
        (∀ j, (∀ r ∈ references, ¬Covered r.1 j) → bits'[j]? = bits[j]?) ∧
        ∀ r ∈ references, ReadsBack bits' 0 r.1 r.2.toNat := by
  induction references with
  | nil =>
    intro bits _ _ _
    exact .inr ⟨bits, rfl, rfl, fun _ _ => rfl, by simp⟩
  | cons r references ih =>
    intro bits href hapart hfix
    obtain ⟨hnew, hold⟩ := List.pairwise_cons.mp hapart
    rcases fixBits_ok (href r List.mem_cons_self) (hfix r List.mem_cons_self) with
      ⟨herr, hno⟩ | ⟨bits₁, hbits₁, hlen₁, hframe₁, hread₁⟩
    · exact .inl ⟨by simp [fixAll, herr, bind, Except.bind], r, List.mem_cons_self, hno⟩
    have hstep : fixAll bits (r :: references) = fixAll bits₁ references := by
      simp [fixAll, hbits₁, bind, Except.bind]
    have href₁ : ∀ r' ∈ references, Reference r'.1 bits₁.length := fun r' hr' =>
      hlen₁ ▸ href r' (List.mem_cons_of_mem _ hr')
    rcases ih href₁ hold (fun r' hr' => hfix r' (List.mem_cons_of_mem _ hr')) with
      ⟨herr, r', hr', hno⟩ | ⟨bits', hbits', hlen', hframe', hread'⟩
    · exact .inl ⟨hstep.trans herr, r', List.mem_cons_of_mem _ hr', hno⟩
    refine .inr ⟨bits', hstep.trans hbits', hlen'.trans hlen₁, fun j hj => ?_, fun r' hr' => ?_⟩
    · rw [hframe' j fun r' hr' => hj r' (List.mem_cons_of_mem _ hr'), hframe₁ j (hj r List.mem_cons_self)]
    · rcases List.mem_cons.mp hr' with rfl | hr'
      · refine hread₁.congr (href r' List.mem_cons_self) fun j hj => ?_
        simpa using hframe' j fun r'' hr'' hcov => hnew r'' hr'' j ⟨hj, hcov⟩
      · exact hread' r' hr'

end Tce.PIG
