import Mathlib.Data.List.Infix
import Tce.BEM.Encoding

/-!
# The ambiguity test

Two encodings that are aligned at one end are ambiguous when all bits of one of
them are those of the other. The test counts the bits the two have in common.
-/

namespace Tce.BEM

open Bits PrefixCode

/-- `BEMTester::commonBitCount`: the second encoding has `alignment` bits on the right of
the first one. -/
def commonBitCount (enc1 enc2 : Encoding) (alignment : Int) : Nat :=
  let enc1Offset := (-alignment).toNat
  let enc2Offset := alignment.toNat
  (List.range (min (enc1.width - enc1Offset) (enc2.width - enc2Offset))).countP fun i =>
    enc1.encoding.testBit (enc1Offset + i) = enc2.encoding.testBit (enc2Offset + i)

/-- The test of an encoding against one that is there, which is `existingWidth` wide. -/
def ambiguous (enc existing : Encoding) (existingWidth : Nat) (alignment : Int) : Bool :=
  commonBitCount enc existing alignment = enc.width || commonBitCount enc existing alignment = existingWidth

theorem commonBitCount_le (enc1 enc2 : Encoding) (alignment : Int) :
    commonBitCount enc1 enc2 alignment ≤
      min (enc1.width - (-alignment).toNat) (enc2.width - alignment.toNat) := by
  refine Nat.le_trans List.countP_le_length ?_
  rw [List.length_range]

theorem window_eq_iff {v w a b n : Nat} :
    window v a n = window w b n ↔ ∀ i < n, v.testBit (a + i) = w.testBit (b + i) := by
  induction n with
  | zero => simp [window]
  | succ n ih =>
    simp only [window, List.cons.injEq, ih, Nat.lt_succ_iff_lt_or_eq]
    constructor
    · rintro ⟨hn, h⟩ i (hi | rfl)
      · exact h i hi
      · exact hn
    · intro h
      exact ⟨h n (.inr rfl), fun i hi => h i (.inl hi)⟩

theorem countP_range_eq_iff {v w a b n : Nat} :
    (List.range n).countP (fun i => v.testBit (a + i) = w.testBit (b + i)) = n ↔ window v a n = window w b n := by
  have hlen : (List.range n).length = n := List.length_range
  rw [window_eq_iff]
  constructor
  · intro h i hi
    have hall := List.countP_eq_length.mp (h.trans hlen.symm)
    exact of_decide_eq_true (hall i (List.mem_range.mpr hi))
  · intro h
    refine (List.countP_eq_length.mpr fun i hi => ?_).trans hlen
    exact decide_eq_true (h i (List.mem_range.mp hi))

/-- A string starts another one of at least its length when it is its upper bits. -/
theorem bits_prefix_iff {v w m n : Nat} (h : m ≤ n) :
    bits v m <+: bits w n ↔ window v 0 m = window w (n - m) m := by
  have hsplit := window_append w 0 (n - m) m
  rw [Nat.zero_add, Nat.sub_add_cancel h] at hsplit
  constructor
  · intro hpre
    have hle : bits v m <+: window w (n - m) m :=
      List.prefix_of_prefix_length_le hpre ⟨_, hsplit⟩ (by simp)
    exact hle.eq_of_length (by simp)
  · intro he
    exact ⟨_, by rw [bits, he]; exact hsplit⟩

theorem not_separate_iff {a b : List Bool} (h : a.length ≤ b.length) : ¬ Separate a b ↔ a <+: b := by
  constructor
  · intro hn
    by_contra hab
    apply hn
    refine ⟨hab, fun hba => hab ?_⟩
    rw [hba.eq_of_length (Nat.le_antisymm hba.length_le h)]
  · exact fun hab hs => hs.1 hab

theorem ambiguous_of_le {enc existing : Encoding} (hle : existing.width ≤ enc.width) :
    ambiguous enc existing existing.width ((existing.width : Int) - enc.width) ↔
      existing.bits <+: enc.bits := by
  have hoffset : (-((existing.width : Int) - enc.width)).toNat = enc.width - existing.width := by omega
  have hzero : ((existing.width : Int) - enc.width).toNat = 0 := by omega
  have hmin : min (enc.width - (enc.width - existing.width)) existing.width = existing.width := by omega
  have hcount : commonBitCount enc existing ((existing.width : Int) - enc.width) = existing.width ↔
      existing.bits <+: enc.bits := by
    simp only [commonBitCount, hoffset, hzero, Nat.sub_zero, hmin, Encoding.bits, bits_prefix_iff hle]
    rw [countP_range_eq_iff]
    exact eq_comm
  have hbound := commonBitCount_le enc existing ((existing.width : Int) - enc.width)
  rw [← hcount]
  simp only [ambiguous, Bool.or_eq_true, decide_eq_true_eq]
  omega

theorem ambiguous_of_ge {enc existing : Encoding} (hle : enc.width ≤ existing.width) :
    ambiguous enc existing existing.width ((existing.width : Int) - enc.width) ↔
      enc.bits <+: existing.bits := by
  have hoffset : ((existing.width : Int) - enc.width).toNat = existing.width - enc.width := by omega
  have hzero : (-((existing.width : Int) - enc.width)).toNat = 0 := by omega
  have hmin : min enc.width (existing.width - (existing.width - enc.width)) = enc.width := by omega
  have hcount : commonBitCount enc existing ((existing.width : Int) - enc.width) = enc.width ↔
      enc.bits <+: existing.bits := by
    simp only [commonBitCount, hoffset, hzero, Nat.sub_zero, hmin, Encoding.bits, bits_prefix_iff hle]
    exact countP_range_eq_iff
  have hbound := commonBitCount_le enc existing ((existing.width : Int) - enc.width)
  rw [← hcount]
  simp only [ambiguous, Bool.or_eq_true, decide_eq_true_eq]
  omega

/-- At the left end two encodings are ambiguous when one of them starts the other. -/
theorem ambiguous_iff {enc existing : Encoding} :
    ambiguous enc existing existing.width ((existing.width : Int) - enc.width) ↔
      ¬ Separate existing.bits enc.bits := by
  rcases Nat.le_total existing.width enc.width with hle | hge
  · rw [ambiguous_of_le hle, not_separate_iff (by simpa using hle)]
  · rw [ambiguous_of_ge hge, ← not_separate_iff (by simpa using hge)]
    exact not_congr ⟨Separate.symm, Separate.symm⟩

/-- An encoding that is tested as one with the bits of an opposite field at its right is
not found ambiguous: the test then compares bits at different places. -/
theorem not_ambiguous_shifted {enc existing : Encoding} {oppositeWidth : Nat} (hopposite : 0 < oppositeWidth)
    (henc : 0 < enc.width) :
    ambiguous enc existing (oppositeWidth + existing.width)
      (((oppositeWidth + existing.width : Nat) : Int) - enc.width) = false := by
  have := commonBitCount_le enc existing (((oppositeWidth + existing.width : Nat) : Int) - enc.width)
  simp only [ambiguous, Bool.or_eq_false_iff, decide_eq_false_iff_not]
  omega

end Tce.BEM
