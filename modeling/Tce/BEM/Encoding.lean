import Mathlib.Data.List.Sort
import Tce.Base.Bits

/-!
# Encodings

The encodings of the binary encoding map and the calculation that gives one to
each of a set of opposite fields, the widest first. A later encoding is past all
numbers that start with an earlier one, so no two of a calculation are ambiguous.
-/

namespace Tce.BEM

open PrefixCode

/-- `MathTools::bitLength`. -/
def bitLength (number : Nat) : Nat := if number = 0 then 0 else number.log2 + 1

theorem bitLength_le {n k : Nat} : bitLength n ≤ k ↔ n < 2 ^ k := by
  unfold bitLength
  split
  · subst n
    simp [Nat.two_pow_pos]
  · rename_i h
    rw [← Nat.log2_lt h]
    omega

theorem lt_two_pow_bitLength (n : Nat) : n < 2 ^ bitLength n := bitLength_le.mp (Nat.le_refl _)

@[simp] theorem bitLength_zero : bitLength 0 = 0 := rfl

theorem two_pow_le_of_lt_bitLength {n k : Nat} (h : k < bitLength n) : 2 ^ k ≤ n := by
  have := mt bitLength_le.mpr (Nat.not_le.mpr h)
  omega

theorem bitLength_mono {m n : Nat} (h : m ≤ n) : bitLength m ≤ bitLength n :=
  bitLength_le.mpr (Nat.lt_of_le_of_lt h (lt_two_pow_bitLength n))

theorem bitLength_pos {n : Nat} (h : 0 < n) : 0 < bitLength n := by
  by_contra hz
  have := bitLength_le.mp (Nat.le_of_not_lt hz)
  omega

theorem bitLength_succ_le (n : Nat) : bitLength (n + 1) ≤ bitLength n + 1 := by
  have := lt_two_pow_bitLength n
  apply bitLength_le.mpr
  rw [Nat.pow_succ]
  omega

theorem bitLength_shiftLeft {n : Nat} (h : 0 < n) (k : Nat) : bitLength (n <<< k) = bitLength n + k := by
  rw [Nat.shiftLeft_eq]
  apply Nat.le_antisymm
  · apply bitLength_le.mpr
    rw [Nat.pow_add]
    exact Nat.mul_lt_mul_of_pos_right (lt_two_pow_bitLength n) (Nat.two_pow_pos k)
  · by_contra hlt
    have hpos := bitLength_pos h
    have hle : bitLength (n * 2 ^ k) ≤ bitLength n - 1 + k := by omega
    have hmul := bitLength_le.mp hle
    rw [Nat.pow_add] at hmul
    have := Nat.lt_of_mul_lt_mul_right hmul
    have := two_pow_le_of_lt_bitLength (show bitLength n - 1 < bitLength n by omega)
    omega

structure Encoding where
  encoding : Nat
  extraBits : Nat
  deriving DecidableEq, Repr

namespace Encoding

def width (e : Encoding) : Nat := bitLength e.encoding + e.extraBits

/-- The bits of the encoding, with zeros on the left for the extra bits. -/
def bits (e : Encoding) : List Bool := Bits.bits e.encoding e.width

@[simp] theorem length_bits (e : Encoding) : e.bits.length = e.width := Bits.length_bits _ _

theorem encoding_lt (e : Encoding) : e.encoding < 2 ^ e.width :=
  bitLength_le.mp (Nat.le_add_right _ _)

/-- The later encoding is not shorter, and past all numbers that start with the earlier. -/
def Precedes (c d : Encoding) : Prop :=
  c.width ≤ d.width ∧ (c.encoding + 1) * 2 ^ (d.width - c.width) ≤ d.encoding

theorem Precedes.separate {c d : Encoding} (h : c.Precedes d) : Separate c.bits d.bits :=
  separate_bits h.1 d.encoding_lt h.2

theorem Precedes.width_pos {c d : Encoding} (h : c.Precedes d) : 0 < c.width := by
  by_contra hz
  have hc : c.width = 0 := by omega
  have hd := d.encoding_lt
  have := Nat.le_trans (Nat.mul_le_mul_right (2 ^ d.width) (show 1 ≤ c.encoding + 1 by omega)) (by simpa [hc] using h.2)
  omega

theorem Precedes.encoding_lt {c d : Encoding} (h : c.Precedes d) : c.encoding < d.encoding := by
  have := Nat.le_trans (Nat.le_mul_of_pos_right (c.encoding + 1) (Nat.two_pow_pos (d.width - c.width))) h.2
  omega

end Encoding

/-- The value of a calculation with the unsigned integers of the code. -/
def word (n : Nat) : Nat := n % 2 ^ 32

/-- `BEMGenerator::addExtraBits`. -/
def addExtraBits (encodings : List Encoding) (bitCount : Nat) : List Encoding :=
  encodings.map fun e => { e with extraBits := e.extraBits + bitCount }

/-- The widths of a multiset from the largest down. -/
def descending (widths : List Nat) : List Nat := widths.insertionSort (· ≥ ·)

theorem descending_perm (widths : List Nat) : (descending widths).Perm widths :=
  List.perm_insertionSort _ _

theorem descending_sorted (widths : List Nat) : (descending widths).Pairwise (· ≥ ·) :=
  List.pairwise_insertionSort _ _

/-- The search for the number of bits an encoding is expanded by. -/
def expansionFrom (remainder encodingsLeft : Nat) : (freeBits expansion : Nat) → Nat
  | 0, expansion => expansion
  | freeBits + 1, expansion =>
    if word (remainder <<< expansion) < encodingsLeft then
      expansionFrom remainder encodingsLeft freeBits (expansion + 1)
    else expansion

structure Calculation where
  encodings : List Encoding
  remainder : Nat
  encodingsLeft : Nat
  prevEncoding : Nat
  prevOppositeFieldWidth : Nat

namespace Calculation

/-- The calculation after the first of `count` encodings. -/
def first (count oppositeFieldWidth : Nat) : Calculation where
  encodings := [⟨0, 0⟩]
  remainder := 0
  encodingsLeft := count - 1
  prevEncoding := 0
  prevOppositeFieldWidth := oppositeFieldWidth

variable (c : Calculation)

def grows : Bool := bitLength c.prevEncoding < bitLength (c.prevEncoding + 1)

/-- Makes room for the next encoding in front of those that are there. -/
def grow (count : Nat) : Calculation :=
  if c.grows then
    { c with
      encodings := addExtraBits c.encodings 1
      remainder := word (c.remainder <<< 1 + (count - c.encodingsLeft)) }
  else c

def expansion (oppositeFieldWidth : Nat) : Nat :=
  if oppositeFieldWidth = c.prevOppositeFieldWidth then 0
  else expansionFrom c.remainder c.encodingsLeft (c.prevOppositeFieldWidth - oppositeFieldWidth) 0

/-- The next encoding; none when it does not fit in an unsigned integer. -/
def insert (oppositeFieldWidth : Nat) : Option Calculation :=
  let nextEncoding := (c.prevEncoding + 1) <<< c.expansion oppositeFieldWidth
  if nextEncoding < 2 ^ 32 then
    some {
      encodings := c.encodings ++ [⟨nextEncoding, 0⟩]
      remainder := word (word (c.remainder <<< c.expansion oppositeFieldWidth) + (2 ^ 32 - 1))
      encodingsLeft := c.encodingsLeft - 1
      prevEncoding := nextEncoding
      prevOppositeFieldWidth := oppositeFieldWidth }
  else none

def next (count : Nat) (oppositeFieldWidth : Nat) : Option Calculation :=
  (c.grow count).insert oppositeFieldWidth

def run (count : Nat) : List Nat → Calculation → Option Calculation
  | [], c => some c
  | width :: widths, c => (c.next count width).bind (run count widths)

end Calculation

/-- `BEMGenerator::calculateEncodings`: the encodings in the order they are made in, which
is that of their numbers, for the widths from the largest down. -/
def calculateEncodings (oppositeFieldWidths : List Nat) : Option (List Encoding) :=
  match descending oppositeFieldWidths with
  | [] => some []
  | width :: widths =>
    (Calculation.run oppositeFieldWidths.length widths
      (Calculation.first oppositeFieldWidths.length width)).map (·.encodings)

section Order

/-- The encodings made so far, before the next one: each is past the earlier ones, and
what comes next is past all of them. -/
structure Calculation.Ordered (c : Calculation) (room : Nat) : Prop where
  pairwise : c.encodings.Pairwise Encoding.Precedes
  covered : ∀ e ∈ c.encodings, e.width ≤ room ∧
    (e.encoding + 1) * 2 ^ (room - e.width) ≤ c.prevEncoding + 1

variable {c c' : Calculation} {count oppositeFieldWidth : Nat}

theorem Calculation.ordered_first : (Calculation.first count oppositeFieldWidth).Ordered (bitLength 0) where
  pairwise := by simp [Calculation.first]
  covered := by simp [Calculation.first, Encoding.width]

@[simp] theorem width_extra (e : Encoding) (n : Nat) :
    Encoding.width { e with extraBits := e.extraBits + n } = e.width + n := by
  simp [Encoding.width, Nat.add_assoc]

theorem Encoding.Precedes.extra {d e : Encoding} (h : d.Precedes e) (n : Nat) :
    Encoding.Precedes { d with extraBits := d.extraBits + n } { e with extraBits := e.extraBits + n } := by
  simpa [Encoding.Precedes, Nat.add_sub_add_right] using h

@[simp] theorem Calculation.grow_prevEncoding : (c.grow count).prevEncoding = c.prevEncoding := by
  unfold grow
  split <;> rfl

@[simp] theorem Calculation.grow_encodingsLeft : (c.grow count).encodingsLeft = c.encodingsLeft := by
  unfold grow
  split <;> rfl

@[simp] theorem Calculation.grow_prevOppositeFieldWidth :
    (c.grow count).prevOppositeFieldWidth = c.prevOppositeFieldWidth := by
  unfold grow
  split <;> rfl

theorem Calculation.Ordered.grow (h : c.Ordered (bitLength c.prevEncoding)) :
    (c.grow count).Ordered (bitLength (c.prevEncoding + 1)) := by
  by_cases hg : c.grows = true
  · have hroom : bitLength (c.prevEncoding + 1) = bitLength c.prevEncoding + 1 := by
      have := bitLength_succ_le c.prevEncoding
      have : bitLength c.prevEncoding < bitLength (c.prevEncoding + 1) := by simpa [grows] using hg
      omega
    simp only [Calculation.grow, hg, if_true, hroom]
    constructor
    · exact List.pairwise_map.mpr (h.pairwise.imp fun hde => hde.extra 1)
    · intro e he
      obtain ⟨d, hd, rfl⟩ := List.mem_map.mp he
      have := h.covered d hd
      simpa [Nat.add_sub_add_right] using this
  · have hroom : bitLength (c.prevEncoding + 1) = bitLength c.prevEncoding := by
      have := bitLength_mono (Nat.le_add_right c.prevEncoding 1)
      have : ¬ bitLength c.prevEncoding < bitLength (c.prevEncoding + 1) := by simpa [grows] using hg
      omega
    simpa [Calculation.grow, hg, hroom] using h

theorem Calculation.Ordered.insert (h : c.Ordered (bitLength (c.prevEncoding + 1)))
    (hc : c.insert oppositeFieldWidth = some c') :
    c'.Ordered (bitLength c'.prevEncoding) ∧ c'.encodings.length = c.encodings.length + 1 := by
  simp only [Calculation.insert] at hc
  split at hc
  case isFalse => cases hc
  obtain rfl := Option.some.inj hc
  have hwidth := bitLength_shiftLeft (Nat.succ_pos c.prevEncoding) (c.expansion oppositeFieldWidth)
  have hlast : ∀ e ∈ c.encodings, e.Precedes ⟨(c.prevEncoding + 1) <<< c.expansion oppositeFieldWidth, 0⟩ := by
    intro e he
    obtain ⟨hle, hcov⟩ := h.covered e he
    simp only [Encoding.Precedes, Encoding.width, Nat.succ_eq_add_one, Nat.add_zero] at hle hcov hwidth ⊢
    rw [hwidth, Nat.shiftLeft_eq]
    refine ⟨by omega, ?_⟩
    rw [Nat.sub_add_comm hle, Nat.pow_add, ← Nat.mul_assoc]
    exact Nat.mul_le_mul_right _ hcov
  refine ⟨⟨?_, ?_⟩, by simp⟩
  · exact List.pairwise_append.mpr ⟨h.pairwise, by simp, by simpa using hlast⟩
  · intro e he
    rcases List.mem_append.mp he with hold | hnew
    · have hp := hlast e hold
      exact ⟨hp.1, Nat.le_succ_of_le hp.2⟩
    · obtain rfl := List.mem_singleton.mp hnew
      simp [Encoding.width]

theorem Calculation.Ordered.run {widths : List Nat} (h : c.Ordered (bitLength c.prevEncoding))
    (hc : Calculation.run count widths c = some c') :
    c'.encodings.Pairwise Encoding.Precedes ∧ c'.encodings.length = c.encodings.length + widths.length := by
  induction widths generalizing c with
  | nil =>
    obtain rfl := Option.some.inj hc
    exact ⟨h.pairwise, rfl⟩
  | cons w widths ih =>
    obtain ⟨d, hd, hrun⟩ := Option.bind_eq_some_iff.mp hc
    have hgrow : (c.grow count).Ordered (bitLength (c.prevEncoding + 1)) := h.grow
    obtain ⟨hnext, hlen⟩ := Calculation.Ordered.insert (by simpa using hgrow) hd
    obtain ⟨hpair, hall⟩ := ih hnext hrun
    refine ⟨hpair, ?_⟩
    have hsame : (c.grow count).encodings.length = c.encodings.length := by
      unfold Calculation.grow
      split <;> simp [addExtraBits]
    simp only [List.length_cons]
    omega

/-- No encoding of a calculation is ambiguous with an earlier one, and there is one for each width. -/
theorem calculateEncodings_ordered {widths : List Nat} {encodings : List Encoding}
    (h : calculateEncodings widths = some encodings) :
    encodings.Pairwise Encoding.Precedes ∧ encodings.length = widths.length := by
  have hlen := (descending_perm widths).length_eq
  unfold calculateEncodings at h
  split at h
  · rename_i hnil
    obtain rfl := Option.some.inj h
    simpa [hnil] using hlen
  · rename_i w ws hcons
    obtain ⟨c, hc, rfl⟩ := Option.map_eq_some_iff.mp h
    obtain ⟨hpair, hall⟩ := Calculation.ordered_first.run hc
    refine ⟨hpair, ?_⟩
    simp only [hcons, List.length_cons] at hlen
    simp only [hall, Calculation.first, List.length_cons, List.length_nil]
    omega

end Order

section Word
variable {c : Calculation} {n w₂ made : Nat}

/-- The second largest of the widths. -/
def secondWidth (widths : List Nat) : Nat := ((descending widths)[1]?).getD 0

/-- Few enough encodings, and opposite fields narrow enough, for numbers of 32 bits. The
largest width does not count: its encoding is zero. -/
def FitsWord (widths : List Nat) : Prop := 2 * widths.length ^ 2 * 2 ^ secondWidth widths ≤ 2 ^ 32

instance (widths : List Nat) : Decidable (FitsWord widths) := inferInstanceAs (Decidable (_ ≤ _))

theorem expansionFrom_le (remainder encodingsLeft freeBits e : Nat) :
    expansionFrom remainder encodingsLeft freeBits e ≤ e + freeBits := by
  induction freeBits generalizing e with
  | zero => simp [expansionFrom]
  | succ k ih =>
    have := ih (e + 1)
    unfold expansionFrom
    split <;> omega

theorem expansion_le (oppositeFieldWidth : Nat) :
    c.expansion oppositeFieldWidth ≤ c.prevOppositeFieldWidth - oppositeFieldWidth := by
  have := expansionFrom_le c.remainder c.encodingsLeft (c.prevOppositeFieldWidth - oppositeFieldWidth) 0
  unfold Calculation.expansion
  split <;> omega

/-- With one encoding free the search ends at the first power that is large enough. -/
theorem two_pow_expansionFrom_le {encodingsLeft e : Nat} (freeBits : Nat) (hn : encodingsLeft < 2 ^ 31)
    (he : 2 ^ e ≤ 2 * encodingsLeft + 1) : 2 ^ expansionFrom 1 encodingsLeft freeBits e ≤ 2 * encodingsLeft + 1 := by
  induction freeBits generalizing e with
  | zero => exact he
  | succ k ih =>
    unfold expansionFrom
    split
    · rename_i hlt
      apply ih
      have hword : 2 ^ e < 2 ^ 32 := by omega
      rw [word, Nat.one_shiftLeft, Nat.mod_eq_of_lt hword] at hlt
      rw [Nat.pow_succ]
      omega
    · exact he

theorem Calculation.insert_eq_some {oppositeFieldWidth : Nat}
    (h : (c.prevEncoding + 1) * 2 ^ c.expansion oppositeFieldWidth < 2 ^ 32) :
    ∃ c', c.insert oppositeFieldWidth = some c' ∧
      c'.prevEncoding = (c.prevEncoding + 1) * 2 ^ c.expansion oppositeFieldWidth ∧
      c'.prevOppositeFieldWidth = oppositeFieldWidth := by
  simp only [Calculation.insert, Nat.shiftLeft_eq, if_pos h]
  exact ⟨_, rfl, rfl, rfl⟩

/-- Every encoding made multiplies the room by at most the bits the width gave up. -/
theorem Calculation.run_eq_some {widths : List Nat} (hsum : made + widths.length = n) (hmade : 0 < made)
    (hfits : n * (2 * n) * 2 ^ w₂ ≤ 2 ^ 32) (hsorted : (c.prevOppositeFieldWidth :: widths).Pairwise (· ≥ ·))
    (hw : c.prevOppositeFieldWidth ≤ w₂)
    (hc : c.prevEncoding + 1 ≤ made * (2 * n) * 2 ^ (w₂ - c.prevOppositeFieldWidth)) :
    ∃ c', Calculation.run n widths c = some c' := by
  induction widths generalizing c made with
  | nil => exact ⟨c, rfl⟩
  | cons w widths ih =>
    obtain ⟨hall, htail⟩ := List.pairwise_cons.mp hsorted
    have hle : w ≤ c.prevOppositeFieldWidth := hall w List.mem_cons_self
    have hexp : (c.grow n).expansion w ≤ c.prevOppositeFieldWidth - w := by
      simpa using expansion_le (c := c.grow n) w
    have hpow : 2 ^ (w₂ - c.prevOppositeFieldWidth) * 2 ^ (c.grow n).expansion w ≤ 2 ^ (w₂ - w) := by
      rw [← Nat.pow_add]
      exact Nat.pow_le_pow_right (by omega) (by omega)
    have hnext : (c.prevEncoding + 1) * 2 ^ (c.grow n).expansion w ≤ made * (2 * n) * 2 ^ (w₂ - w) :=
      calc (c.prevEncoding + 1) * 2 ^ (c.grow n).expansion w
          ≤ made * (2 * n) * 2 ^ (w₂ - c.prevOppositeFieldWidth) * 2 ^ (c.grow n).expansion w :=
            Nat.mul_le_mul_right _ hc
        _ = made * (2 * n) * (2 ^ (w₂ - c.prevOppositeFieldWidth) * 2 ^ (c.grow n).expansion w) := by
            rw [Nat.mul_assoc]
        _ ≤ made * (2 * n) * 2 ^ (w₂ - w) := Nat.mul_le_mul_left _ hpow
    have hn : 0 < 2 * n := by
      simp only [List.length_cons] at hsum
      omega
    have hroom : made * (2 * n) * 2 ^ (w₂ - w) + 1 ≤ (made + 1) * (2 * n) * 2 ^ (w₂ - w) := by
      have := Nat.mul_pos hn (Nat.two_pow_pos (w₂ - w))
      rw [Nat.add_mul, Nat.add_mul, Nat.one_mul]
      omega
    have hword : (made + 1) * (2 * n) * 2 ^ (w₂ - w) ≤ 2 ^ 32 := by
      refine Nat.le_trans (Nat.mul_le_mul (Nat.mul_le_mul_right _ ?_) ?_) hfits
      · simp only [List.length_cons] at hsum
        omega
      · exact Nat.pow_le_pow_right (by omega) (by omega)
    have hinsert : ((c.grow n).prevEncoding + 1) * 2 ^ (c.grow n).expansion w < 2 ^ 32 := by
      rw [Calculation.grow_prevEncoding]
      omega
    obtain ⟨d, hd, hprev, hwidth⟩ := Calculation.insert_eq_some hinsert
    obtain ⟨c', hc'⟩ := ih (c := d)
      (show made + 1 + widths.length = n by simp only [List.length_cons] at hsum; omega) (by omega)
      (by rwa [hwidth]) (by omega)
      (by rw [hprev, hwidth, Calculation.grow_prevEncoding]; omega)
    exact ⟨c', by simp [Calculation.run, Calculation.next, hd, hc']⟩

theorem calculateEncodings_eq_some {widths : List Nat} (h : FitsWord widths) :
    ∃ encodings, calculateEncodings widths = some encodings := by
  have hlen := (descending_perm widths).length_eq
  have hsorted := descending_sorted widths
  unfold calculateEncodings
  split
  case h_1 => exact ⟨_, rfl⟩
  rename_i w₁ rest hcons
  suffices ∃ c, Calculation.run widths.length rest (Calculation.first widths.length w₁) = some c by
    obtain ⟨c, hc⟩ := this
    exact ⟨_, congrArg (Option.map _) hc⟩
  cases rest with
  | nil => exact ⟨_, rfl⟩
  | cons w₂ rest =>
    rw [hcons] at hsorted
    simp only [hcons, List.length_cons] at hlen
    obtain ⟨hall, htail⟩ := List.pairwise_cons.mp hsorted
    have hsecond : secondWidth widths = w₂ := by simp [secondWidth, hcons]
    have hfits : widths.length * (2 * widths.length) * 2 ^ w₂ ≤ 2 ^ 32 := by
      rw [FitsWord, hsecond, Nat.pow_two, Nat.mul_left_comm 2] at h
      exact h
    have hn : widths.length < 2 ^ 31 := by
      have h1 := Nat.le_trans (Nat.le_mul_of_pos_right _ (Nat.two_pow_pos w₂)) hfits
      have h2 := Nat.mul_le_mul_right (2 * widths.length) (show 2 ≤ widths.length by omega)
      omega
    -- the first encoding leaves one of one bit free, which the second one takes or is expanded from
    have hgrow : ((Calculation.first widths.length w₁).grow widths.length).remainder = 1 := by
      have hone : widths.length - (widths.length - 1) = 1 := by omega
      have : bitLength (0 + 1) = 1 := by decide
      simp [Calculation.grow, Calculation.grows, Calculation.first, this, hone, word]
    have hexp : 2 ^ ((Calculation.first widths.length w₁).grow widths.length).expansion w₂ ≤ 2 * widths.length := by
      unfold Calculation.expansion
      split
      · simp; omega
      · rw [hgrow]
        have : 2 ^ expansionFrom 1 (widths.length - 1) (w₁ - w₂) 0 ≤ 2 * (widths.length - 1) + 1 :=
          two_pow_expansionFrom_le (w₁ - w₂) (by omega) (by omega)
        simp only [Calculation.grow_encodingsLeft, Calculation.grow_prevOppositeFieldWidth, Calculation.first]
        omega
    have hinsert : (((Calculation.first widths.length w₁).grow widths.length).prevEncoding + 1) *
        2 ^ ((Calculation.first widths.length w₁).grow widths.length).expansion w₂ < 2 ^ 32 := by
      simp only [Calculation.grow_prevEncoding, Calculation.first] at hexp ⊢
      omega
    obtain ⟨d, hd, hprev, hwidth⟩ := Calculation.insert_eq_some hinsert
    obtain ⟨c', hc'⟩ := Calculation.run_eq_some (c := d) (show 2 + rest.length = widths.length by omega)
      (by omega) hfits (by rwa [hwidth]) (by omega)
      (by
        rw [hprev, hwidth]
        simp only [Calculation.grow_prevEncoding, Calculation.first, Nat.sub_self, Nat.pow_zero] at hexp ⊢
        omega)
    exact ⟨c', by simp [Calculation.run, Calculation.next, hd, hc']⟩

end Word

end Tce.BEM
