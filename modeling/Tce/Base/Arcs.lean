import Mathlib.Tactic.Common

/-!
# Ranges on a line and arcs on a circle

The half-open range `(first, last]`, on the line when the circumference is 0
and wrapped around a circle otherwise. Positions on the circle are remainders.
-/

namespace Tce.Arcs

/-- The position of a point. -/
def position (circumference point : Nat) : Nat :=
  if circumference = 0 then point else point % circumference

/-- `k` is the position of a point of `(first, last]`. -/
def OnArc (circumference first last k : Nat) : Prop :=
  ∃ c, first < c ∧ c ≤ last ∧ position circumference c = k

/-- A range that is not empty and goes around at most once. -/
def Proper (circumference first last : Nat) : Prop :=
  first < last ∧ (circumference = 0 ∨ last - first ≤ circumference)

/-- Membership by the positions of the two ends: past the first and up to the
last, where an arc whose last position is not greater wraps around. -/
def Between (a b k : Nat) : Prop := if a < b then a < k ∧ k ≤ b else a < k ∨ k ≤ b

theorem position_lt {circumference : Nat} (point : Nat) (h : circumference ≠ 0) :
    position circumference point < circumference := by
  rw [position, if_neg h]
  exact Nat.mod_lt _ (Nat.pos_of_ne_zero h)

/-- The position of a point at most one turn further. -/
theorem position_add {circumference steps : Nat} (point : Nat) (h : circumference ≠ 0) (hle : steps ≤ circumference) :
    position circumference (point + steps) =
      if position circumference point + steps < circumference then position circumference point + steps
      else position circumference point + steps - circumference := by
  simp only [position, if_neg h]
  have hlt := Nat.mod_lt point (Nat.pos_of_ne_zero h)
  rw [← Nat.mod_add_mod]
  split
  · next hsmall => exact Nat.mod_eq_of_lt hsmall
  · next hbig =>
    rw [Nat.mod_eq_sub_mod (Nat.not_lt.1 hbig)]
    exact Nat.mod_eq_of_lt (by omega)

theorem onArc_iff {circumference first last : Nat} (h : Proper circumference first last) (k : Nat)
    (hk : circumference = 0 ∨ k < circumference) : OnArc circumference first last k ↔
      Between (position circumference first) (position circumference last) k := by
  obtain ⟨hlt, hturn⟩ := h
  by_cases hzero : circumference = 0
  · subst hzero
    simp only [OnArc, position, if_true, Between, if_pos hlt]
    constructor
    · rintro ⟨c, h1, h2, rfl⟩
      exact ⟨h1, h2⟩
    · rintro ⟨h1, h2⟩
      exact ⟨k, h1, h2, rfl⟩
  · have hk' : k < circumference := hk.resolve_left hzero
    have hle : last - first ≤ circumference := hturn.resolve_left hzero
    have hfirst := position_lt first hzero
    have hlast := position_add first hzero hle
    rw [show first + (last - first) = last by omega] at hlast
    constructor
    · rintro ⟨c, h1, h2, rfl⟩
      have hc := position_add first hzero (show c - first ≤ circumference by omega)
      rw [show first + (c - first) = c by omega] at hc
      rw [hc, hlast, Between]
      split_ifs <;> omega
    · intro hb
      -- the point on the arc at position `k`
      obtain ⟨steps, h1, h2, hsteps⟩ : ∃ steps, 0 < steps ∧ steps ≤ last - first ∧
          (if position circumference first + steps < circumference then position circumference first + steps
            else position circumference first + steps - circumference) = k := by
        rw [hlast, Between] at hb
        by_cases hpast : position circumference first < k
        · refine ⟨k - position circumference first, by omega, ?_, ?_⟩
          · split_ifs at hb <;> omega
          · rw [if_pos (by omega)]
            omega
        · refine ⟨k + circumference - position circumference first, by omega, ?_, ?_⟩
          · split_ifs at hb <;> omega
          · rw [if_neg (by omega)]
            omega
      refine ⟨first + steps, by omega, by omega, ?_⟩
      rw [position_add _ hzero (by omega), hsteps]

/-- `x` is where the arc begins or a position inside it, but not its last one. -/
def Begins (a b x : Nat) : Prop := if a < b then a ≤ x ∧ x < b else a ≤ x ∨ x < b

/-- Two arcs meet exactly when one begins inside the other; it may also be seen
from the last position of the one being inside the other. -/
theorem meet_iff {circumference first last first' last' : Nat} (h : Proper circumference first last)
    (h' : Proper circumference first' last') :
    (∃ k, OnArc circumference first last k ∧ OnArc circumference first' last' k) ↔
      (Between (position circumference first') (position circumference last') (position circumference last) ∨
        Begins (position circumference first') (position circumference last') (position circumference first)) ∨
        Begins (position circumference first) (position circumference last) (position circumference first') := by
  have hin {k : Nat} (hk : OnArc circumference first last k) : circumference = 0 ∨ k < circumference := by
    obtain ⟨c, -, -, rfl⟩ := hk
    exact (Nat.eq_zero_or_pos circumference).imp_right fun hpos => position_lt _ (Nat.ne_of_gt hpos)
  have hpos (x : Nat) : circumference = 0 ∨ position circumference x < circumference :=
    (Nat.eq_zero_or_pos circumference).imp_right fun hpos => position_lt _ (Nat.ne_of_gt hpos)
  have hline (hzero : circumference = 0) : position circumference first < position circumference last ∧
      position circumference first' < position circumference last' := by
    simp only [position, if_pos hzero]
    exact ⟨h.1, h'.1⟩
  have ha := hpos first
  have hb := hpos last
  have ha' := hpos first'
  have hb' := hpos last'
  constructor
  · rintro ⟨k, hk, hk'⟩
    have hlt := hin hk
    rw [onArc_iff h k hlt] at hk
    rw [onArc_iff h' k hlt] at hk'
    simp only [Between, Begins] at *
    split_ifs at * <;> omega
  · intro hmeet
    -- the last position, or the one after where an arc begins
    obtain ⟨k, hlt, hk, hk'⟩ : ∃ k, (circumference = 0 ∨ k < circumference) ∧
        Between (position circumference first) (position circumference last) k ∧
        Between (position circumference first') (position circumference last') k := by
      rcases hmeet with (hlast | hbegins) | hbegins
      · refine ⟨position circumference last, hb, ?_, hlast⟩
        simp only [Between]
        split_ifs <;> omega
      · by_cases hwrap : position circumference first + 1 = circumference
        · refine ⟨0, by omega, ?_, ?_⟩ <;> simp only [Between, Begins] at * <;> split_ifs at * <;> omega
        · refine ⟨position circumference first + 1, by omega, ?_, ?_⟩ <;>
            simp only [Between, Begins] at * <;> split_ifs at * <;> omega
      · by_cases hwrap : position circumference first' + 1 = circumference
        · refine ⟨0, by omega, ?_, ?_⟩ <;> simp only [Between, Begins] at * <;> split_ifs at * <;> omega
        · refine ⟨position circumference first' + 1, by omega, ?_, ?_⟩ <;>
            simp only [Between, Begins] at * <;> split_ifs at * <;> omega
    exact ⟨k, (onArc_iff h k hlt).2 hk, (onArc_iff h' k hlt).2 hk'⟩

end Tce.Arcs
