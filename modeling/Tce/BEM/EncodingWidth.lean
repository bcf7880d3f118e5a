import Mathlib.Tactic.Linarith
import Mathlib.Tactic.Ring
import Mathlib.Data.Int.ModEq
import Tce.BEM.Encoding

/-!
# The width of the encodings

When the encodings of a calculation, together with their opposite fields, are no
wider than the widths of the opposite fields make necessary.
-/

namespace Tce.BEM

open PrefixCode

/-- The width of a field with the encodings, the first for the widest of the opposite fields. -/
def fieldWidth (encodings : List Encoding) (widths : List Nat) : Nat :=
  (List.zipWith (fun e w => e.width + w) encodings (descending widths)).foldr max 0

/-- The numbers that fields of the given widths take up, all together. -/
def numbers (widths : List Nat) : Nat := (widths.map (2 ^ ·)).sum

/-! ## No field is narrower -/

section Bound
variable {e : Encoding} {es : List Encoding} {ws : List Nat} {T : Nat}

theorem numbers_cons (w : Nat) (ws : List Nat) : numbers (w :: ws) = 2 ^ w + numbers ws := rfl

/-- Encodings that start with the same bits have places of their own among the numbers of the field. -/
theorem place_add_numbers (hes : (e :: es).Pairwise Encoding.Precedes) (hws : List.Forall₂ (fun e w => e.width + w ≤ T) (e :: es) ws) :
    e.encoding * 2 ^ (T - e.width) + numbers ws ≤ 2 ^ T := by
  induction es generalizing e ws with
  | nil =>
    obtain ⟨w, _, hw, hnil, rfl⟩ := List.forall₂_cons_left_iff.1 hws
    obtain rfl := List.forall₂_nil_left_iff.1 hnil
    have hpow : 2 ^ w ≤ 2 ^ (T - e.width) := Nat.pow_le_pow_right (by omega) (by omega)
    have hlt := Nat.mul_le_mul_right (2 ^ (T - e.width)) e.encoding_lt
    rw [← Nat.pow_add, Nat.add_sub_cancel' (by omega), Nat.succ_mul] at hlt
    simp only [numbers, List.map_cons, List.map_nil, List.sum_cons, List.sum_nil]
    omega
  | cons d es ih =>
    obtain ⟨w, ws, hw, hrest, rfl⟩ := List.forall₂_cons_left_iff.1 hws
    obtain ⟨v, _, hv, -, -⟩ := List.forall₂_cons_left_iff.1 hrest
    obtain ⟨hall, hpair⟩ := List.pairwise_cons.1 hes
    obtain ⟨hle, hpast⟩ := hall d (by simp)
    have hpow : 2 ^ w ≤ 2 ^ (T - e.width) := Nat.pow_le_pow_right (by omega) (by omega)
    have hplace := Nat.mul_le_mul_right (2 ^ (T - d.width)) hpast
    rw [Nat.mul_assoc, ← Nat.pow_add, show d.width - e.width + (T - d.width) = T - e.width by omega,
      Nat.succ_mul] at hplace
    have := ih hpair hrest
    rw [numbers_cons]
    omega

theorem numbers_le (hes : es.Pairwise Encoding.Precedes) (hws : List.Forall₂ (fun e w => e.width + w ≤ T) es ws) :
    numbers ws ≤ 2 ^ T := by
  cases es with
  | nil =>
    obtain rfl := List.forall₂_nil_left_iff.1 hws
    exact Nat.zero_le _
  | cons e es =>
    have := place_add_numbers hes hws
    omega

theorem zipWith_le_iff (hlength : es.length = ws.length) :
    (List.zipWith (fun e w => e.width + w) es ws).foldr max 0 ≤ T ↔ List.Forall₂ (fun e w => e.width + w ≤ T) es ws := by
  induction es generalizing ws with
  | nil =>
    obtain rfl := List.length_eq_zero_iff.1 hlength.symm
    simp
  | cons e es ih =>
    cases ws with
    | nil => cases hlength
    | cons w ws => simp [ih (Nat.succ.inj hlength)]

end Bound

/-! ## Codes without gaps -/

section Place
variable (w : Nat → Nat)

/-- The numbers that the `k` widest opposite fields take up. -/
def used (k : Nat) : Nat := ((List.range k).map fun i => 2 ^ w i).sum

/-- All numbers of a field are taken up, so that a field with more is a bit wider. -/
def Full (k : Nat) : Prop := 2 ^ (used w k).log2 = used w k

instance (k : Nat) : Decidable (Full w k) := inferInstanceAs (Decidable (_ = _))

/-- The numbers that are counted as left for the `k`th and later encodings, below zero when too few are. When the
field becomes a bit wider, one code is counted for each of the encodings made, as if they were all equally wide. -/
def room : Nat → Int
  | 0 => 2 ^ w 0
  | k + 1 =>
    if Full w (k + 1) then 2 * (room k - 2 ^ w k) + (k + 1) * 2 ^ w k
    else room k - 2 ^ w k

@[simp] theorem used_succ (k : Nat) : used w (k + 1) = used w k + 2 ^ w k := by
  simp [used, List.range_succ]

variable {w}

theorem used_mono {k m : Nat} (h : k ≤ m) : used w k ≤ used w m := by
  induction m, h using Nat.le_induction with
  | base => exact Nat.le_refl _
  | succ m _ ih =>
    rw [used_succ]
    exact Nat.le_add_right_of_le ih

theorem full_iff {k : Nat} : Full w k ↔ ∃ t, used w k = 2 ^ t :=
  ⟨fun h => ⟨_, h.symm⟩, fun ⟨t, ht⟩ => by rw [Full, ht, Nat.log2_two_pow]⟩

/-- As many equal fields take up no more numbers. -/
theorem mul_le_used (hw : Antitone w) (k : Nat) : (k + 1) * 2 ^ w k ≤ used w (k + 1) := by
  have hall : ∀ m ≤ k + 1, m * 2 ^ w k ≤ used w m := by
    intro m hm
    induction m with
    | zero => simp
    | succ m ih =>
      have hpow : 2 ^ w k ≤ 2 ^ w m := Nat.pow_le_pow_right (by omega) (hw (by omega))
      have := ih (by omega)
      rw [used_succ, Nat.succ_mul]
      omega
  exact hall _ (Nat.le_refl _)

end Place

/-- An encoding for each of the widths up to the `k`th, in a field of the width `T`. -/
def InField (w : Nat → Nat) (k T : Nat) (encodings : List Encoding) : Prop :=
  List.Forall₂ (fun e v => e.width + v ≤ T) encodings ((List.range (k + 1)).map w)

/-- The signed integer that a counter without sign stands for. -/
def Counts (remainder : Nat) (s : Int) : Prop := (remainder : Int) = s % 2 ^ 32

theorem counts_iff {remainder : Nat} {s : Int} : Counts (word remainder) s ↔ (remainder : Int) ≡ s [ZMOD 2 ^ 32] := by
  rw [Counts, word, Int.ModEq]
  push_cast
  rfl

theorem Counts.modEq {remainder : Nat} {s : Int} (h : Counts remainder s) : (remainder : Int) ≡ s [ZMOD 2 ^ 32] := by
  rw [h]
  exact Int.mod_modEq s _

theorem Counts.shiftLeft {remainder : Nat} {s : Int} (h : Counts remainder s) (e : Nat) :
    Counts (word (remainder <<< e)) (s * 2 ^ e) := by
  rw [counts_iff, Nat.shiftLeft_eq]
  push_cast
  exact h.modEq.mul_right _

theorem Counts.pred {remainder : Nat} {s : Int} (h : Counts remainder s) :
    Counts (word (remainder + (2 ^ 32 - 1))) (s - 1) := by
  have hpred : ((2 ^ 32 - 1 : Nat) : Int) ≡ -1 [ZMOD 2 ^ 32] := by decide
  rw [counts_iff]
  push_cast
  exact h.modEq.add hpred

namespace Calculation
variable {w : Nat → Nat} {n k T : Nat} {c : Calculation}

/-- The encodings have no gaps between them: each is as wide as the field leaves room for. -/
structure Tight (w : Nat → Nat) (n k T : Nat) (c : Calculation) : Prop where
  inField : InField w k T c.encodings
  place : (c.prevEncoding + 1) * 2 ^ w k = used w (k + 1)
  width : bitLength c.prevEncoding + w k = T
  left : c.encodingsLeft = n - (k + 1)
  prevWidth : c.prevOppositeFieldWidth = w k
  remainder : ∃ s : Int, Counts c.remainder s ∧ s * 2 ^ w k = room w k - 2 ^ w k
  counted : room w k - 2 ^ w k ≤ 2 ^ T - used w (k + 1)
  needed : 2 ^ T < 2 * used w (k + 1)

/-- There is room for the next encoding. -/
structure Ready (w : Nat → Nat) (n k T : Nat) (c : Calculation) : Prop where
  inField : InField w k T c.encodings
  place : (c.prevEncoding + 1) * 2 ^ w k = used w (k + 1)
  width : bitLength (c.prevEncoding + 1) + w k = T
  left : c.encodingsLeft = n - (k + 1)
  prevWidth : c.prevOppositeFieldWidth = w k
  remainder : ∃ s : Int, Counts c.remainder s ∧ s * 2 ^ w k = room w (k + 1)
  counted : room w (k + 1) ≤ 2 ^ T - used w (k + 1)
  needed : 2 ^ T ≤ 2 * used w (k + 1)

/-- There is room for all encodings that are left. -/
structure Roomy (w : Nat → Nat) (n k T : Nat) (c : Calculation) : Prop where
  inField : InField w k T c.encodings
  width : bitLength c.prevEncoding + w k ≤ T
  fits : bitLength c.prevEncoding ≤ 32
  left : c.encodingsLeft = n - (k + 1)
  prevWidth : c.prevOppositeFieldWidth = w k
  enough : c.encodingsLeft ≤ c.remainder
  remainder : c.prevEncoding + 1 + c.remainder ≤ 2 ^ bitLength c.prevEncoding
  needed : 2 ^ T < 2 * used w (k + 1)

theorem tight_first (w : Nat → Nat) (n : Nat) : Tight w n 0 (w 0) (first n (w 0)) where
  inField := by simp [InField, first, Encoding.width]
  place := by simp [first, used]
  width := by simp [first]
  left := by simp [first]
  prevWidth := rfl
  remainder := ⟨0, by simp [Counts, first], by simp [room]⟩
  counted := by simp [room, used]
  needed := by
    have := Nat.two_pow_pos (w 0)
    simp [used]

/-! ### Making room -/

section Grow
variable (hw : Antitone w) (h : Tight w n k T c)

include h

theorem Tight.used_le : used w (k + 1) ≤ 2 ^ T := by
  rw [← h.place, ← h.width, Nat.pow_add]
  exact Nat.mul_le_mul_right _ (lt_two_pow_bitLength _)

theorem Tight.grows_iff : c.grows = true ↔ used w (k + 1) = 2 ^ T := by
  have hlt := lt_two_pow_bitLength c.prevEncoding
  rw [← h.place, ← h.width, Nat.pow_add, Nat.mul_left_inj (Nat.two_pow_pos _).ne', grows, decide_eq_true_iff,
    ← Nat.not_le, bitLength_le]
  omega

theorem Tight.full_iff : Full w (k + 1) ↔ used w (k + 1) = 2 ^ T := by
  refine ⟨fun hfull => ?_, fun heq => BEM.full_iff.2 ⟨T, heq⟩⟩
  obtain ⟨t, ht⟩ := BEM.full_iff.1 hfull
  have hle := h.used_le
  have hneeded := h.needed
  rw [ht] at hle hneeded ⊢
  rw [← Nat.pow_succ'] at hneeded
  have := (Nat.pow_le_pow_iff_right (Nat.lt_succ_self 1)).1 hle
  have := (Nat.pow_lt_pow_iff_right (Nat.lt_succ_self 1)).1 hneeded
  rw [show t = T by omega]

include hw

theorem Tight.grow (hk : k < n) : ∃ T', Ready w n k T' (c.grow n) := by
  obtain ⟨s, hs, hroom⟩ := h.remainder
  have hsucc := bitLength_succ_le c.prevEncoding
  have hcounted := h.counted
  by_cases hg : c.grows = true
  · have hfull := h.grows_iff.1 hg
    have hlt : bitLength c.prevEncoding < bitLength (c.prevEncoding + 1) := by simpa [grows] using hg
    have hequal := mul_le_used hw k
    refine ⟨T + 1, ?_⟩
    simp only [Calculation.grow, hg, if_true]
    refine ⟨?_, h.place, ?_, h.left, h.prevWidth, ⟨2 * s + (k + 1), ?_, ?_⟩, ?_, ?_⟩
    · simp only [InField, addExtraBits, List.forall₂_map_left_iff, width_extra]
      exact h.inField.imp fun e v hle => by omega
    · have := h.width
      show bitLength (c.prevEncoding + 1) + w k = T + 1
      omega
    · rw [h.left, show n - (n - (k + 1)) = k + 1 by omega]
      simp only [Counts, word, Nat.shiftLeft_eq] at hs ⊢
      push_cast
      omega
    · rw [room, if_pos (h.full_iff.2 hfull), ← hroom]
      ring
    · rw [room, if_pos (h.full_iff.2 hfull)]
      rw [hfull] at hequal hcounted ⊢
      have : ((k + 1 : Nat) * 2 ^ w k : Int) ≤ 2 ^ T := by exact_mod_cast hequal
      push_cast at this hcounted ⊢
      rw [pow_succ]
      linarith
    · rw [hfull, Nat.pow_succ']
  · have hnot := mt h.grows_iff.2 hg
    have heq : bitLength (c.prevEncoding + 1) = bitLength c.prevEncoding := by
      have := bitLength_mono (Nat.le_succ c.prevEncoding)
      have : ¬ bitLength c.prevEncoding < bitLength (c.prevEncoding + 1) := by simpa [grows] using hg
      simp only [Nat.succ_eq_add_one] at *
      omega
    have hsame : room w (k + 1) = room w k - 2 ^ w k := by rw [room, if_neg (mt h.full_iff.1 hnot)]
    refine ⟨T, ?_⟩
    rw [Calculation.grow, if_neg hg]
    exact ⟨h.inField, h.place, by rw [heq, h.width], h.left, h.prevWidth, ⟨s, hs, hsame ▸ hroom⟩, hsame ▸ hcounted,
      Nat.le_of_lt h.needed⟩

end Grow

/-! ### The next encoding -/

theorem expansionFrom_le_of_enough {remainder left freeBits e m : Nat} (he : e ≤ m)
    (henough : left ≤ word (remainder <<< m)) : expansionFrom remainder left freeBits e ≤ m := by
  induction freeBits generalizing e with
  | zero => exact he
  | succ freeBits ih =>
    unfold expansionFrom
    split
    · rename_i hlt
      refine ih (Nat.lt_of_le_of_ne he fun heq => ?_)
      subst heq
      omega
    · exact he

/-- The search ends before all free bits are used when there is room for all encodings. -/
theorem enough_of_expansionFrom_lt {remainder left freeBits e : Nat}
    (h : expansionFrom remainder left freeBits e < e + freeBits) :
    left ≤ word (remainder <<< expansionFrom remainder left freeBits e) := by
  induction freeBits generalizing e with
  | zero => simp [expansionFrom] at h
  | succ freeBits ih =>
    unfold expansionFrom at h ⊢
    split
    · rename_i hlt
      rw [if_pos hlt] at h
      exact ih (by omega)
    · omega

/-- What is made when the next encoding fits in an integer. -/
def inserted (c : Calculation) (oppositeFieldWidth expansion : Nat) : Calculation where
  encodings := c.encodings ++ [⟨(c.prevEncoding + 1) <<< expansion, 0⟩]
  remainder := word (word (c.remainder <<< expansion) + (2 ^ 32 - 1))
  encodingsLeft := c.encodingsLeft - 1
  prevEncoding := (c.prevEncoding + 1) <<< expansion
  prevOppositeFieldWidth := oppositeFieldWidth

theorem insert_inserted {v : Nat} (h : (c.prevEncoding + 1) * 2 ^ c.expansion v < 2 ^ 32) :
    c.insert v = some (c.inserted v (c.expansion v)) := by
  rw [← Nat.shiftLeft_eq] at h
  simp only [insert, if_pos h, inserted]

theorem inField_snoc {encodings : List Encoding} {e : Encoding} (h : InField w k T encodings)
    (he : e.width + w (k + 1) ≤ T) : InField w (k + 1) T (encodings ++ [e]) := by
  rw [InField, List.range_succ, List.map_append]
  exact List.rel_append h (by simpa using he)

theorem width_inserted (c : Calculation) (e : Nat) :
    Encoding.width ⟨(c.prevEncoding + 1) <<< e, 0⟩ = bitLength (c.prevEncoding + 1) + e := by
  rw [Encoding.width, bitLength_shiftLeft (Nat.succ_pos _), Nat.add_zero]

section Insert
variable {e : Nat} (h : Ready w n k T c)

include h

theorem Ready.tight_inserted (he : e + w (k + 1) = w k) :
    Tight w n (k + 1) T (c.inserted (w (k + 1)) e) := by
  obtain ⟨s, hs, hroom⟩ := h.remainder
  have hpow : (2 : Nat) ^ w k = 2 ^ e * 2 ^ w (k + 1) := by rw [← he, Nat.pow_add]
  have hwidth := h.width
  have hpos := Nat.two_pow_pos (w (k + 1))
  refine ⟨inField_snoc h.inField ?_, ?_, ?_, ?_, rfl, ⟨s * 2 ^ e - 1, ?_, ?_⟩, ?_, ?_⟩
  · rw [width_inserted]
    omega
  · simp only [inserted, Nat.shiftLeft_eq]
    rw [used_succ, ← h.place, hpow]
    ring
  · simp only [inserted]
    rw [bitLength_shiftLeft (Nat.succ_pos _)]
    simp only [Nat.succ_eq_add_one]
    omega
  · simp only [inserted, h.left]
    omega
  · exact (hs.shiftLeft e).pred
  · rw [← hroom, ← he, pow_add]
    ring
  · have := h.counted
    rw [used_succ (k := k + 1)]
    push_cast at this ⊢
    linarith
  · have := h.needed
    rw [used_succ (k := k + 1)]
    omega

/-- The codes that are counted are left in the field. -/
theorem Ready.remainder_eq (hroom : 0 ≤ room w (k + 1)) (hword : bitLength (c.prevEncoding + 1) ≤ 32) :
    (c.remainder : Int) * 2 ^ w k = room w (k + 1) ∧
      c.prevEncoding + 1 + c.remainder ≤ 2 ^ bitLength (c.prevEncoding + 1) := by
  obtain ⟨s, hs, hsroom⟩ := h.remainder
  have hpos : (0 : Int) < 2 ^ w k := by positivity
  have hnonneg : 0 ≤ s := by
    rw [← hsroom] at hroom
    exact nonneg_of_mul_nonneg_left hroom hpos
  have hfield : s ≤ 2 ^ bitLength (c.prevEncoding + 1) - (c.prevEncoding + 1) := by
    refine le_of_mul_le_mul_right ?_ hpos
    have hplace : (((c.prevEncoding + 1) * 2 ^ w k : Nat) : Int) = used w (k + 1) := by rw [h.place]
    have hcounted := h.counted
    rw [← hsroom, ← hplace, ← h.width, pow_add] at hcounted
    push_cast at hcounted
    rw [sub_mul]
    exact hcounted
  have hbits : (2 : Int) ^ bitLength (c.prevEncoding + 1) ≤ 2 ^ 32 := pow_le_pow_right₀ (by decide) hword
  have heq : (c.remainder : Int) = s := by
    rw [hs]
    exact Int.emod_eq_of_lt hnonneg (by omega)
  refine ⟨heq ▸ hsroom, ?_⟩
  rw [← heq] at hfield
  have : ((c.prevEncoding + 1 + c.remainder : Nat) : Int) ≤ (2 ^ bitLength (c.prevEncoding + 1) : Nat) := by
    push_cast
    linarith
  exact_mod_cast this

theorem Ready.shiftLeft_remainder (hroom : 0 ≤ room w (k + 1)) (hfits : (c.prevEncoding + 1) * 2 ^ e < 2 ^ 32) :
    (c.prevEncoding + 1 + c.remainder) * 2 ^ e ≤ 2 ^ (bitLength (c.prevEncoding + 1) + e) ∧
      word (c.remainder <<< e) = c.remainder * 2 ^ e := by
  have hbits : bitLength (c.prevEncoding + 1) + e ≤ 32 := by
    rw [← bitLength_shiftLeft (Nat.succ_pos _), bitLength_le, Nat.shiftLeft_eq]
    exact hfits
  have hle := Nat.mul_le_mul_right (2 ^ e) (h.remainder_eq hroom (by omega)).2
  rw [← Nat.pow_add] at hle
  refine ⟨hle, ?_⟩
  rw [word, Nat.shiftLeft_eq]
  refine Nat.mod_eq_of_lt ?_
  have hpow : 2 ^ (bitLength (c.prevEncoding + 1) + e) ≤ 2 ^ 32 := Nat.pow_le_pow_right (by decide) hbits
  have hpos := Nat.two_pow_pos e
  rw [Nat.add_mul, Nat.add_mul] at hle
  omega

theorem Ready.roomy_inserted (hroom : 0 ≤ room w (k + 1)) (he : e + w (k + 1) ≤ w k) (hk : k + 1 < n)
    (henough : c.encodingsLeft ≤ word (c.remainder <<< e)) (hfits : (c.prevEncoding + 1) * 2 ^ e < 2 ^ 32) :
    Roomy w n (k + 1) T (c.inserted (w (k + 1)) e) := by
  obtain ⟨hfield, hword⟩ := h.shiftLeft_remainder hroom hfits
  have hwidth := h.width
  have hleft := h.left
  have hbits := bitLength_shiftLeft (Nat.succ_pos c.prevEncoding) e
  have hcode : (c.prevEncoding + 1) <<< e = (c.prevEncoding + 1) * 2 ^ e := Nat.shiftLeft_eq ..
  have hpos := Nat.two_pow_pos e
  simp only [Nat.succ_eq_add_one] at hbits
  rw [hword] at henough
  rw [Nat.add_mul] at hfield
  have hpred : word (c.remainder * 2 ^ e + (2 ^ 32 - 1)) = c.remainder * 2 ^ e - 1 := by
    rw [Nat.add_mul] at hfits hfield
    have : 2 ^ (bitLength (c.prevEncoding + 1) + e) ≤ 2 ^ 32 := by
      refine Nat.pow_le_pow_right (by decide) ?_
      rw [← hbits, hcode, bitLength_le, Nat.add_mul]
      exact hfits
    rw [word]
    omega
  refine ⟨inField_snoc h.inField ?_, ?_, ?_, ?_, rfl, ?_, ?_, ?_⟩
  · rw [width_inserted]
    omega
  · simp only [inserted, hbits]
    omega
  · simp only [inserted]
    rw [hcode, bitLength_le]
    exact hfits
  · simp only [inserted, hleft]
    omega
  · simp only [inserted, hword, hpred]
    omega
  · simp only [inserted, hword, hpred, hbits]
    rw [hcode]
    omega
  · have := h.needed
    have := Nat.two_pow_pos (w (k + 1))
    rw [used_succ (k := k + 1)]
    omega

end Insert

/-! ### Room for all that are left -/

theorem Roomy.next (h : Roomy w n k T c) (hw : Antitone w) (hk : k + 1 < n) :
    ∃ c', c.next n (w (k + 1)) = some c' ∧ Roomy w n (k + 1) T c' := by
  have hleft := h.left
  have henough := h.enough
  have hremainder := h.remainder
  have hwidth := h.width
  have hle : w (k + 1) ≤ w k := hw (Nat.le_succ k)
  have hword : 2 ^ bitLength c.prevEncoding ≤ 2 ^ 32 := Nat.pow_le_pow_right (by decide) h.fits
  have hbits : bitLength (c.prevEncoding + 1) = bitLength c.prevEncoding :=
    Nat.le_antisymm (bitLength_le.2 (by omega)) (bitLength_mono (Nat.le_succ _))
  have hgrow : c.grow n = c := by simp [grow, grows, hbits]
  have hexpansion : c.expansion (w (k + 1)) = 0 := by
    have hfirst : expansionFrom c.remainder c.encodingsLeft (c.prevOppositeFieldWidth - w (k + 1)) 0 ≤ 0 := by
      refine expansionFrom_le_of_enough (Nat.le_refl 0) ?_
      rw [Nat.shiftLeft_zero, word, Nat.mod_eq_of_lt (by omega)]
      exact henough
    unfold expansion
    split
    · rfl
    · omega
  have hfits : (c.prevEncoding + 1) * 2 ^ c.expansion (w (k + 1)) < 2 ^ 32 := by
    rw [hexpansion]
    omega
  refine ⟨_, by rw [Calculation.next, hgrow, insert_inserted hfits], ?_⟩
  rw [hexpansion]
  have hpred : word (word c.remainder + (2 ^ 32 - 1)) = c.remainder - 1 := by
    rw [word, word, Nat.mod_eq_of_lt (show c.remainder < 2 ^ 32 by omega)]
    omega
  refine ⟨inField_snoc h.inField ?_, ?_, ?_, ?_, rfl, ?_, ?_, ?_⟩
  · rw [width_inserted]
    omega
  · simp only [inserted, Nat.shiftLeft_zero, hbits]
    omega
  · simp only [inserted, Nat.shiftLeft_zero, hbits, h.fits]
  · simp only [inserted, hleft]
    omega
  · simp only [inserted, Nat.shiftLeft_zero, hpred]
    omega
  · simp only [inserted, Nat.shiftLeft_zero, hpred, hbits]
    omega
  · have := h.needed
    have := Nat.two_pow_pos (w (k + 1))
    rw [used_succ (k := k + 1)]
    omega

end Calculation

/-! ## When the field is as narrow as it can be -/

section Condition
variable (w : Nat → Nat) (n : Nat)

/-- Where the opposite fields get narrower, no fewer codes are counted than there are. -/
def Counted : Prop := ∀ k < n - 1, w (k + 1) < w k → 0 ≤ room w (k + 1)

/-- The codes have 32 bits, when the opposite fields narrower than `v` are taken as `v` bits wide and codes
enough are counted where the widths get below it. -/
def FitsFrom (v : Nat) : Prop :=
  v ≤ w 0 ∧ used (fun i => max (w i) v) (n - 1) < 2 ^ (32 + max (w (n - 1)) v) ∧
    ∀ k < n - 1, w (k + 1) < v → v ≤ w k → ((n - (k + 1) : Nat) : Int) * 2 ^ v ≤ room w (k + 1)

end Condition

namespace Calculation
variable {w : Nat → Nat} {n k T v : Nat} {c : Calculation} (hw : Antitone w) (hcounted : Counted w n)
  (hfits : FitsFrom w n v)

theorem used_le_max (w : Nat → Nat) (v m : Nat) : used w m ≤ used (fun i => max (w i) v) m := by
  induction m with
  | zero => simp [used]
  | succ m ih =>
    rw [used_succ, used_succ]
    exact Nat.add_le_add ih (Nat.pow_le_pow_right (by decide) (Nat.le_max_left ..))

include hw hcounted hfits

theorem Ready.next (h : Ready w n k T c) (hv : v ≤ w k) (hk : k + 1 < n) :
    ∃ c', c.insert (w (k + 1)) = some c' ∧
      (Tight w n (k + 1) T c' ∧ v ≤ w (k + 1) ∨ Roomy w n (k + 1) T c') := by
  obtain ⟨-, hused, henough⟩ := hfits
  have hle : w (k + 1) ≤ w k := hw (Nat.le_succ k)
  have hcode : ∀ e, e + max (w (k + 1)) v ≤ w k → (c.prevEncoding + 1) * 2 ^ e < 2 ^ 32 := by
    intro e he
    refine Nat.lt_of_mul_lt_mul_right (a := 2 ^ max (w (k + 1)) v) ?_
    calc (c.prevEncoding + 1) * 2 ^ e * 2 ^ max (w (k + 1)) v
        ≤ (c.prevEncoding + 1) * 2 ^ w k := by
          rw [Nat.mul_assoc, ← Nat.pow_add]
          exact Nat.mul_le_mul_left _ (Nat.pow_le_pow_right (by decide) he)
      _ = used w (k + 1) := h.place
      _ ≤ used (fun i => max (w i) v) (n - 1) := Nat.le_trans (used_le_max w v _) (used_mono (by omega))
      _ < 2 ^ (32 + max (w (n - 1)) v) := hused
      _ ≤ 2 ^ 32 * 2 ^ max (w (k + 1)) v := by
          rw [← Nat.pow_add]
          have := hw (show k + 1 ≤ n - 1 by omega)
          exact Nat.pow_le_pow_right (by decide) (by omega)
  by_cases heq : w (k + 1) = w k
  · have hexpansion : c.expansion (w (k + 1)) = 0 := by rw [expansion, h.prevWidth, if_pos heq]
    have hsome := insert_inserted (c := c) (v := w (k + 1)) (by rw [hexpansion]; exact hcode 0 (by omega))
    rw [hexpansion] at hsome
    exact ⟨_, hsome, .inl ⟨h.tight_inserted (by omega), by omega⟩⟩
  · have hroom := hcounted k (by omega) (by omega)
    have hexpansion : c.expansion (w (k + 1)) = expansionFrom c.remainder c.encodingsLeft (w k - w (k + 1)) 0 := by
      rw [expansion, h.prevWidth, if_neg heq]
    generalize he : c.expansion (w (k + 1)) = e at hexpansion
    have hfree : e ≤ w k - w (k + 1) := by
      have := expansionFrom_le c.remainder c.encodingsLeft (w k - w (k + 1)) 0
      omega
    -- the search has ended when codes of `v` bits are enough
    have hlast : w (k + 1) < v → e + v ≤ w k := by
      intro hlt
      have hword := (h.shiftLeft_remainder hroom (hcode (w k - v) (by omega))).2
      have hm : e ≤ w k - v := by
        rw [hexpansion]
        refine expansionFrom_le_of_enough (Nat.zero_le _) ?_
        rw [hword, h.left]
        have hbits : bitLength (c.prevEncoding + 1) ≤ 32 := bitLength_le.2 (by simpa using hcode 0 (by omega))
        have hle := henough k (by omega) hlt hv
        rw [← (h.remainder_eq hroom hbits).1, show w k = w k - v + v by omega, pow_add, ← mul_assoc] at hle
        have hle := le_of_mul_le_mul_right hle (by positivity)
        exact_mod_cast hle
      omega
    have hfits := hcode e (by omega)
    have hsome := insert_inserted (c := c) (v := w (k + 1)) (by rw [he]; exact hfits)
    rw [he] at hsome
    refine ⟨_, hsome, ?_⟩
    by_cases htight : e + w (k + 1) = w k ∧ v ≤ w (k + 1)
    · exact .inl ⟨h.tight_inserted htight.1, htight.2⟩
    · have hlt : e < 0 + (w k - w (k + 1)) := by omega
      rw [hexpansion] at hlt
      have hstop := enough_of_expansionFrom_lt hlt
      rw [← hexpansion] at hstop
      exact .inr (h.roomy_inserted hroom (by omega) hk hstop hfits)

/-- The next encoding, in a calculation that has no gaps or room for all that are left. -/
theorem next_made (hk : k + 1 < n) (h : (∃ T, Tight w n k T c) ∧ v ≤ w k ∨ ∃ T, Roomy w n k T c) :
    ∃ c', c.next n (w (k + 1)) = some c' ∧
      ((∃ T, Tight w n (k + 1) T c') ∧ v ≤ w (k + 1) ∨ ∃ T, Roomy w n (k + 1) T c') := by
  rcases h with ⟨⟨T, htight⟩, hv⟩ | ⟨T, hroomy⟩
  · obtain ⟨T', hready⟩ := htight.grow hw (by omega)
    obtain ⟨c', hc', h | h⟩ := hready.next hw hcounted hfits hv hk
    · exact ⟨c', hc', .inl ⟨⟨T', h.1⟩, h.2⟩⟩
    · exact ⟨c', hc', .inr ⟨T', h⟩⟩
  · obtain ⟨c', hc', h⟩ := hroomy.next hw hk
    exact ⟨c', hc', .inr ⟨T, h⟩⟩

theorem run_made {m : Nat} (hm : k + 1 + m = n)
    (h : (∃ T, Tight w n k T c) ∧ v ≤ w k ∨ ∃ T, Roomy w n k T c) :
    ∃ c', run n ((List.range' (k + 1) m).map w) c = some c' ∧
      ((∃ T, Tight w n (n - 1) T c') ∧ v ≤ w (n - 1) ∨ ∃ T, Roomy w n (n - 1) T c') := by
  induction m generalizing k c with
  | zero =>
    obtain rfl : k = n - 1 := by omega
    exact ⟨c, rfl, h⟩
  | succ m ih =>
    obtain ⟨d, hd, hmade⟩ := next_made hw hcounted hfits (by omega) h
    obtain ⟨c', hc', h'⟩ := ih (by omega) hmade
    exact ⟨c', by simp [List.range'_succ, run, hd, hc'], h'⟩

end Calculation

/-! ## The least width -/

section Least
variable {widths : List Nat} {encodings : List Encoding}

/-- The widths of the opposite fields, from the widest on. -/
def widest (widths : List Nat) (i : Nat) : Nat := (descending widths).getD i 0

/-- As many encodings as there are opposite fields, in increasing order and none the beginning of another, with
which the field is as wide as it has to be for the numbers of all opposite fields. -/
def MinimizesWidth (widths : List Nat) : Prop :=
  ∃ encodings, calculateEncodings widths = some encodings ∧ encodings.length = widths.length ∧
    encodings.Pairwise (fun c d => c.encoding < d.encoding ∧ Separate c.bits d.bits) ∧
    IsLeast {W | numbers widths ≤ 2 ^ W} (fieldWidth encodings widths)

theorem length_descending (widths : List Nat) : (descending widths).length = widths.length :=
  (descending_perm widths).length_eq

theorem descending_eq (widths : List Nat) : descending widths = (List.range widths.length).map (widest widths) := by
  refine List.ext_getElem (by simp [length_descending]) fun i hi _ => ?_
  simp [widest, hi]

theorem antitone_widest (widths : List Nat) : Antitone (widest widths) := by
  intro i j hij
  rcases Nat.lt_or_ge j (descending widths).length with hj | hj
  · rcases Nat.eq_or_lt_of_le hij with rfl | hlt
    · exact Nat.le_refl _
    · have := List.pairwise_iff_getElem.1 (descending_sorted widths) i j (by omega) hj hlt
      simpa [widest, hj, Nat.lt_trans hlt hj] using this
  · simp [widest, List.getElem?_eq_none hj]

theorem numbers_eq_used (widths : List Nat) : numbers widths = used (widest widths) widths.length := by
  rw [numbers, ← ((descending_perm widths).map (2 ^ ·)).sum_nat, descending_eq, List.map_map, used]
  rfl

theorem fieldWidth_le_iff (hlength : encodings.length = widths.length) {T : Nat} :
    fieldWidth encodings widths ≤ T ↔ List.Forall₂ (fun e w => e.width + w ≤ T) encodings (descending widths) :=
  zipWith_le_iff (by rw [hlength, length_descending])

/-- No field with encodings that have places of their own is narrower. -/
theorem numbers_le_fieldWidth (hlength : encodings.length = widths.length)
    (hes : encodings.Pairwise Encoding.Precedes) : numbers widths ≤ 2 ^ fieldWidth encodings widths := by
  rw [numbers, ← ((descending_perm widths).map (2 ^ ·)).sum_nat]
  exact numbers_le hes ((fieldWidth_le_iff hlength).1 (Nat.le_refl _))

theorem calculateEncodings_made (hne : widths ≠ []) (hcounted : Counted (widest widths) widths.length) {v : Nat}
    (hfits : FitsFrom (widest widths) widths.length v) :
    ∃ encodings T, calculateEncodings widths = some encodings ∧
      List.Forall₂ (fun e w => e.width + w ≤ T) encodings (descending widths) ∧ 2 ^ T < 2 * numbers widths := by
  obtain ⟨m, hm⟩ : ∃ m, widths.length = m + 1 := Nat.exists_eq_succ_of_ne_zero (List.length_pos_iff.2 hne).ne'
  have hdescending : descending widths =
      widest widths 0 :: (List.range' 1 m).map (widest widths) := by
    rw [descending_eq, hm, List.range_eq_range', List.range'_succ]
    rfl
  obtain ⟨c, hc, hmade⟩ := Calculation.run_made (antitone_widest widths) hcounted hfits (by omega : 0 + 1 + m = _)
    (.inl ⟨⟨_, Calculation.tight_first _ _⟩, hfits.1⟩)
  have hall : ∃ T, InField (widest widths) (widths.length - 1) T c.encodings ∧
      2 ^ T < 2 * used (widest widths) (widths.length - 1 + 1) := by
    rcases hmade with ⟨⟨T, h⟩, -⟩ | ⟨T, h⟩
    · exact ⟨T, h.inField, h.needed⟩
    · exact ⟨T, h.inField, h.needed⟩
  obtain ⟨T, hfield, hneeded⟩ := hall
  rw [show widths.length - 1 + 1 = widths.length by omega] at hneeded
  rw [InField, show widths.length - 1 + 1 = widths.length by omega, ← descending_eq] at hfield
  refine ⟨c.encodings, T, ?_, hfield, by rwa [numbers_eq_used]⟩
  have hc : Calculation.run widths.length ((List.range' 1 m).map (widest widths))
      (Calculation.first widths.length (widest widths 0)) = some c := hc
  rw [calculateEncodings, hdescending]
  simp only [hc, Option.map_some]

end Least

end Tce.BEM
