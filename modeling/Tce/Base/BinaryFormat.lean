import Mathlib.Data.Nat.Log
import Mathlib.Data.Rat.Floor

/-!
# Binary floating point formats

The magnitudes of a format are numbered by their bit patterns. The numbers they stand for are
an increasing sequence, which goes on past infinity: a result is rounded on it and then bounded.

## Rounding to the nearest number of a grid

The grid is a strictly increasing sequence; of two that are equally near the one with the
even index is taken.
-/

namespace Tce.Base

section Grid
variable {K : Type*} [Field K] [LinearOrder K] {v : ℕ → K} {x : K} {k m n : ℕ}

structure IsNearestEven (v : ℕ → K) (x : K) (m : ℕ) : Prop where
  nearest : ∀ n, |x - v m| ≤ |x - v n|
  even : ∀ n, n ≠ m → |x - v n| = |x - v m| → m % 2 = 0

/-- The number above is nearer, or as near and even. -/
def RoundsUp (v : ℕ → K) (x : K) (k : ℕ) : Prop := v k + v (k + 1) < 2 * x ∨ (v k + v (k + 1) = 2 * x ∧ k % 2 = 1)

instance [DecidableLT K] [DecidableEq K] : Decidable (RoundsUp v x k) :=
  inferInstanceAs (Decidable (_ ∨ _))

def nearestEven [DecidableLT K] [DecidableEq K] (v : ℕ → K) (x : K) (k : ℕ) : ℕ := if RoundsUp v x k then k + 1 else k

section Nearest
variable [IsStrictOrderedRing K]

theorem le_abs_of_le (hv : StrictMono v) (hn : n ≤ k) : x - v k ≤ |x - v n| :=
  (sub_le_sub_left (hv.monotone hn) x).trans (le_abs_self _)

theorem le_abs_of_lt (hv : StrictMono v) (hn : k < n) : v (k + 1) - x ≤ |x - v n| := by
  rw [abs_sub_comm]
  exact (sub_le_sub_right (hv.monotone hn) x).trans (le_abs_self _)

theorem lt_abs_of_lt (hv : StrictMono v) (hn : n < k) : x - v k < |x - v n| :=
  (sub_lt_sub_left (hv hn) x).trans_le (le_abs_self _)

theorem lt_abs_of_succ_lt (hv : StrictMono v) (hn : k + 1 < n) : v (k + 1) - x < |x - v n| := by
  rw [abs_sub_comm]
  exact (sub_lt_sub_right (hv hn) x).trans_le (le_abs_self _)

theorem isNearestEven_succ (hv : StrictMono v) (hhigh : x ≤ v (k + 1)) (h : RoundsUp v x k) :
    IsNearestEven v x (k + 1) := by
  have habs : |x - v (k + 1)| = v (k + 1) - x := by
    rw [abs_sub_comm, abs_of_nonneg (sub_nonneg.mpr hhigh)]
  have hle : v (k + 1) - x ≤ x - v k := by
    rcases h with h | ⟨h, -⟩ <;> linarith
  constructor
  case nearest =>
    intro n
    rw [habs]
    rcases Nat.lt_or_ge k n with hn | hn
    · exact le_abs_of_lt hv hn
    · exact hle.trans (le_abs_of_le hv hn)
  case even =>
    intro n hne heq
    rw [habs] at heq
    rcases h with h | ⟨-, hodd⟩
    · rcases Nat.lt_or_ge k n with hn | hn
      · exact absurd heq.symm (lt_abs_of_succ_lt hv (by omega)).ne
      · have := le_abs_of_le (x := x) hv hn
        linarith
    · omega

theorem isNearestEven_self (hv : StrictMono v) (hlow : v k ≤ x) (h : ¬RoundsUp v x k) :
    IsNearestEven v x k := by
  have habs : |x - v k| = x - v k := abs_of_nonneg (sub_nonneg.mpr hlow)
  rw [RoundsUp, not_or, not_lt, not_and] at h
  constructor
  case nearest =>
    intro n
    rw [habs]
    rcases Nat.lt_or_ge k n with hn | hn
    · have := le_abs_of_lt (x := x) hv hn
      linarith [h.1]
    · exact le_abs_of_le hv hn
  case even =>
    intro n hne heq
    rw [habs] at heq
    rcases Nat.lt_or_ge k n with hn | hn
    · have := le_abs_of_lt (x := x) hv hn
      have := h.2 (le_antisymm (by linarith) (by linarith [h.1]))
      omega
    · exact absurd heq.symm (lt_abs_of_lt hv (by omega)).ne

theorem isNearestEven_nearestEven (hv : StrictMono v) (hlow : v k ≤ x) (hhigh : x ≤ v (k + 1)) :
    IsNearestEven v x (nearestEven v x k) := by
  rw [nearestEven]
  by_cases h : RoundsUp v x k
  · rw [if_pos h]
    exact isNearestEven_succ hv hhigh h
  · rw [if_neg h]
    exact isNearestEven_self hv hlow h

/-- A number of the grid is its own nearest. -/
theorem nearestEven_self (hv : StrictMono v) (k : ℕ) : nearestEven v (v k) k = k := by
  have hlt := hv (Nat.lt_succ_self k)
  refine if_neg ?_
  rintro (h | ⟨h, -⟩) <;> linarith

end Nearest

end Grid

/-! ## Formats -/

/-- The bits of the fraction and of the exponent. -/
structure BinaryFormat where
  fractionBits : ℕ
  exponentBits : ℕ
  deriving DecidableEq, Repr

/-- A magnitude as a multiple of the least one, for `t` bits of fraction. -/
def scaled (t m : ℕ) : ℕ := if m / 2 ^ t = 0 then m % 2 ^ t else (2 ^ t + m % 2 ^ t) * 2 ^ (m / 2 ^ t - 1)

/-- The last magnitude that is at most a multiple of the least one. -/
def scaledFloor (t n : ℕ) : ℕ := if n < 2 ^ t then n else n / 2 ^ (Nat.log 2 n - t) + (Nat.log 2 n - t) * 2 ^ t

section Scaled
variable {t m n s : ℕ}

theorem scaled_succ (t m : ℕ) : scaled t (m + 1) = scaled t m + 2 ^ (m / 2 ^ t - 1) := by
  have hpos : 0 < 2 ^ t := Nat.two_pow_pos t
  have hdiv := Nat.div_add_mod m (2 ^ t)
  have hmod := Nat.mod_lt m hpos
  by_cases hlast : m % 2 ^ t + 1 = 2 ^ t
  · obtain ⟨hquot, hrem⟩ : (m + 1) / 2 ^ t = m / 2 ^ t + 1 ∧ (m + 1) % 2 ^ t = 0 :=
      (Nat.div_mod_unique hpos).mpr ⟨by rw [Nat.mul_add]; omega, hpos⟩
    rw [scaled, hquot, hrem, if_neg (Nat.succ_ne_zero _), scaled]
    cases hexp : m / 2 ^ t with
    | zero => simpa using hlast.symm
    | succ e =>
      rw [if_neg (by omega)]
      simp only [Nat.add_sub_cancel, Nat.add_zero, Nat.pow_succ]
      calc 2 ^ t * (2 ^ e * 2) = (2 ^ t + 2 ^ t) * 2 ^ e := by ring
        _ = (2 ^ t + (m % 2 ^ t + 1)) * 2 ^ e := by rw [hlast]
        _ = _ := by ring
  · obtain ⟨hquot, hrem⟩ : (m + 1) / 2 ^ t = m / 2 ^ t ∧ (m + 1) % 2 ^ t = m % 2 ^ t + 1 :=
      (Nat.div_mod_unique hpos).mpr ⟨by omega, by omega⟩
    rw [scaled, scaled, hquot, hrem]
    by_cases hexp : m / 2 ^ t = 0
    · rw [if_pos hexp, if_pos hexp, hexp]
      rfl
    · rw [if_neg hexp, if_neg hexp]
      ring

theorem scaled_strictMono (t : ℕ) : StrictMono (scaled t) := by
  refine strictMono_nat_of_lt_succ fun m => ?_
  rw [scaled_succ]
  exact Nat.lt_add_of_pos_right (Nat.two_pow_pos _)

theorem log_sub_bounds (h : 2 ^ t ≤ n) :
    2 ^ t ≤ n / 2 ^ (Nat.log 2 n - t) ∧ n / 2 ^ (Nat.log 2 n - t) < 2 ^ (t + 1) := by
  have hlog : t ≤ Nat.log 2 n := (Nat.le_log_iff_pow_le Nat.one_lt_two (by have := Nat.two_pow_pos t; omega)).mpr h
  have hpos : 0 < 2 ^ (Nat.log 2 n - t) := Nat.two_pow_pos _
  have hn : n ≠ 0 := by have := Nat.two_pow_pos t; omega
  constructor
  · rw [Nat.le_div_iff_mul_le hpos, ← Nat.pow_add, Nat.add_sub_cancel' hlog]
    exact Nat.pow_log_le_self 2 hn
  · rw [Nat.div_lt_iff_lt_mul hpos, ← Nat.pow_add]
    have hexp : t + 1 + (Nat.log 2 n - t) = Nat.log 2 n + 1 := by omega
    rw [hexp]
    exact Nat.lt_pow_succ_log_self Nat.one_lt_two n

/-- The parts of the last magnitude: its exponent, and what it stands for. -/
theorem scaledFloor_parts (h : 2 ^ t ≤ n) :
    scaledFloor t n / 2 ^ t - 1 = Nat.log 2 n - t ∧
      scaled t (scaledFloor t n) = n / 2 ^ (Nat.log 2 n - t) * 2 ^ (Nat.log 2 n - t) := by
  obtain ⟨hlow, hhigh⟩ := log_sub_bounds h
  have hpos : 0 < 2 ^ t := Nat.two_pow_pos t
  rw [scaled, scaledFloor, if_neg (by omega)]
  generalize n / 2 ^ (Nat.log 2 n - t) = c at hlow hhigh ⊢
  generalize Nat.log 2 n - t = s
  rw [Nat.pow_succ] at hhigh
  obtain ⟨hquot, hrem⟩ : (c + s * 2 ^ t) / 2 ^ t = s + 1 ∧ (c + s * 2 ^ t) % 2 ^ t = c - 2 ^ t := by
    refine (Nat.div_mod_unique hpos).mpr ⟨?_, by omega⟩
    rw [Nat.mul_add, Nat.mul_comm s]
    omega
  rw [hquot, hrem, if_neg (by omega), Nat.add_sub_cancel, Nat.add_sub_cancel' hlow]
  exact ⟨rfl, rfl⟩

theorem scaled_of_lt (h : n < 2 ^ t) : scaled t n = n := by
  rw [scaled, Nat.div_eq_of_lt h, if_pos rfl, Nat.mod_eq_of_lt h]

theorem scaled_scaledFloor_le (t n : ℕ) : scaled t (scaledFloor t n) ≤ n := by
  rcases Nat.lt_or_ge n (2 ^ t) with h | h
  · rw [scaledFloor, if_pos h, scaled_of_lt h]
  · rw [(scaledFloor_parts h).2]
    exact Nat.div_mul_le_self n _

theorem lt_scaled_scaledFloor_succ (t n : ℕ) : n < scaled t (scaledFloor t n + 1) := by
  rcases Nat.lt_or_ge n (2 ^ t) with h | h
  · have hlt := scaled_strictMono t (Nat.lt_succ_self n)
    rw [scaled_of_lt h] at hlt
    rw [scaledFloor, if_pos h]
    exact hlt
  · obtain ⟨hexp, hscaled⟩ := scaledFloor_parts h
    rw [scaled_succ, hexp, hscaled]
    exact Nat.lt_div_mul_add (Nat.two_pow_pos _)

/-- Where few bits are needed the last magnitude is exact. -/
theorem scaled_scaledFloor_mul (hn : n < 2 ^ (t + 1)) (s : ℕ) : scaled t (scaledFloor t (n * 2 ^ s)) = n * 2 ^ s := by
  rcases Nat.lt_or_ge (n * 2 ^ s) (2 ^ t) with h | h
  · rw [scaledFloor, if_pos h, scaled_of_lt h]
  · have hne : n ≠ 0 := by
      rintro rfl
      have := Nat.two_pow_pos t
      omega
    rw [(scaledFloor_parts h).2, Nat.div_mul_cancel]
    refine Nat.dvd_mul_left_of_dvd (Nat.pow_dvd_pow 2 ?_) n
    have hlog : Nat.log 2 (n * 2 ^ s) < t + 1 + s := by
      refine Nat.log_lt_of_lt_pow (by positivity) ?_
      rw [Nat.pow_add]
      exact Nat.mul_lt_mul_of_pos_right hn (Nat.two_pow_pos s)
    omega

end Scaled

namespace BinaryFormat
variable {F : BinaryFormat} {x : ℚ} {m n s : ℕ}

/-- The exponent of the least magnitude. -/
def least (F : BinaryFormat) : ℤ := 2 - 2 ^ (F.exponentBits - 1) - F.fractionBits

def value (F : BinaryFormat) (m : ℕ) : ℚ := scaled F.fractionBits m * 2 ^ F.least

def infinity (F : BinaryFormat) : ℕ := (2 ^ F.exponentBits - 1) * 2 ^ F.fractionBits

/-- The pattern nearest to a nonnegative number; too great ones become infinity. -/
def round (F : BinaryFormat) (x : ℚ) : ℕ :=
  min (nearestEven F.value x (scaledFloor F.fractionBits ⌊x / 2 ^ F.least⌋₊)) F.infinity

theorem least_pos (F : BinaryFormat) : (0 : ℚ) < 2 ^ F.least := zpow_pos two_pos _

theorem value_strictMono (F : BinaryFormat) : StrictMono F.value := by
  intro m n h
  exact mul_lt_mul_of_pos_right (Nat.cast_lt.mpr (scaled_strictMono _ h)) F.least_pos

theorem value_nonneg (F : BinaryFormat) (m : ℕ) : 0 ≤ F.value m :=
  mul_nonneg (Nat.cast_nonneg _) F.least_pos.le

/-- A number that needs few bits is not changed. -/
theorem round_exact (hn : n < 2 ^ (F.fractionBits + 1)) (hx : x = (n * 2 ^ s : ℕ) * 2 ^ F.least)
    (hfinite : x < F.value F.infinity) : F.value (F.round x) = x ∧ F.round x < F.infinity := by
  have hquot : x / 2 ^ F.least = (n * 2 ^ s : ℕ) := by rw [hx, mul_div_cancel_right₀ _ F.least_pos.ne']
  have hvalue : F.value (scaledFloor F.fractionBits (n * 2 ^ s)) = x := by
    rw [value, scaled_scaledFloor_mul hn, hx]
  have hlt : scaledFloor F.fractionBits (n * 2 ^ s) < F.infinity := by
    rw [← hvalue] at hfinite
    exact F.value_strictMono.lt_iff_lt.mp hfinite
  have hround : F.round x = scaledFloor F.fractionBits (n * 2 ^ s) := by
    rw [round, hquot, Nat.floor_natCast]
    generalize scaledFloor F.fractionBits (n * 2 ^ s) = k at hvalue hlt ⊢
    rw [← hvalue, nearestEven_self F.value_strictMono, Nat.min_eq_left hlt.le]
  rw [hround]
  exact ⟨hvalue, hlt⟩

/-- Rounding gives the nearest number of the format, bounded by infinity. -/
theorem exists_isNearestEven_round (hx : 0 ≤ x) : ∃ m, IsNearestEven F.value x m ∧ F.round x = min m F.infinity := by
  refine ⟨_, isNearestEven_nearestEven F.value_strictMono ?_ ?_, rfl⟩
  · rw [value, ← le_div_iff₀ F.least_pos]
    have hfloor := Nat.floor_le (div_nonneg hx F.least_pos.le)
    exact le_trans (Nat.cast_le.mpr (scaled_scaledFloor_le _ _)) hfloor
  · rw [value, ← div_le_iff₀ F.least_pos]
    have hfloor := Nat.lt_floor_add_one (x / 2 ^ F.least)
    refine hfloor.le.trans ?_
    exact_mod_cast lt_scaled_scaledFloor_succ F.fractionBits ⌊x / 2 ^ F.least⌋₊

end BinaryFormat

/-- A number of a format: its sign and the pattern of its magnitude. -/
structure BinaryNumber where
  negative : Bool
  magnitude : ℕ
  deriving DecidableEq, Repr

namespace BinaryFormat
variable {F : BinaryFormat} {a b : BinaryNumber} {p q : ℚ} {n s : ℕ}

def ofBits (F : BinaryFormat) (bits : ℕ) : BinaryNumber where
  negative := bits.testBit (F.fractionBits + F.exponentBits)
  magnitude := bits % 2 ^ (F.fractionBits + F.exponentBits)

def toBits (F : BinaryFormat) (a : BinaryNumber) : ℕ :=
  (if a.negative then 2 ^ (F.fractionBits + F.exponentBits) else 0) + a.magnitude

def IsFinite (F : BinaryFormat) (a : BinaryNumber) : Prop := a.magnitude < F.infinity

def IsInfinite (F : BinaryFormat) (a : BinaryNumber) : Prop := a.magnitude = F.infinity

def IsNaN (F : BinaryFormat) (a : BinaryNumber) : Prop := F.infinity < a.magnitude

instance : Decidable (F.IsFinite a) := inferInstanceAs (Decidable (_ < _))
instance : Decidable (F.IsInfinite a) := inferInstanceAs (Decidable (_ = _))
instance : Decidable (F.IsNaN a) := inferInstanceAs (Decidable (_ < _))

theorem IsFinite.not_infinite (h : F.IsFinite a) : ¬F.IsInfinite a := Nat.ne_of_lt h

theorem IsFinite.not_nan (h : F.IsFinite a) : ¬F.IsNaN a := Nat.lt_asymm h

/-- What a finite number stands for. -/
def rat (F : BinaryFormat) (a : BinaryNumber) : ℚ := if a.negative then -F.value a.magnitude else F.value a.magnitude

/-- The order of the numbers that are not NaN. -/
def AtMost (F : BinaryFormat) (a b : BinaryNumber) : Prop :=
  (F.IsInfinite a ∧ a.negative = true) ∨ (F.IsInfinite b ∧ b.negative = false) ∨
    (F.IsFinite a ∧ F.IsFinite b ∧ F.rat a ≤ F.rat b)

def nan (F : BinaryFormat) : BinaryNumber := ⟨false, F.infinity + 2 ^ (F.fractionBits - 1)⟩

/-- The number nearest to a rational one. -/
def ofRat (F : BinaryFormat) (q : ℚ) : BinaryNumber := ⟨q < 0, F.round |q|⟩

def mul (F : BinaryFormat) (a b : BinaryNumber) : BinaryNumber :=
  if F.IsNaN a ∨ F.IsNaN b then F.nan
  else if F.IsInfinite a ∨ F.IsInfinite b then
    if a.magnitude = 0 ∨ b.magnitude = 0 then F.nan else ⟨a.negative ^^ b.negative, F.infinity⟩
  else ⟨a.negative ^^ b.negative, F.round (F.value a.magnitude * F.value b.magnitude)⟩

def div (F : BinaryFormat) (a b : BinaryNumber) : BinaryNumber :=
  if F.IsNaN a ∨ F.IsNaN b then F.nan
  else if F.IsInfinite a then
    if F.IsInfinite b then F.nan else ⟨a.negative ^^ b.negative, F.infinity⟩
  else if b.magnitude = 0 then
    if a.magnitude = 0 then F.nan else ⟨a.negative ^^ b.negative, F.infinity⟩
  else if F.IsInfinite b then ⟨a.negative ^^ b.negative, 0⟩
  else ⟨a.negative ^^ b.negative, F.round (F.value a.magnitude / F.value b.magnitude)⟩

/-- The sign and the magnitude of a finite number. -/
structure Is (F : BinaryFormat) (a : BinaryNumber) (negative : Bool) (q : ℚ) : Prop where
  negative : a.negative = negative
  finite : F.IsFinite a
  value : F.value a.magnitude = q

/-- A magnitude that the format has: `n` takes no more bits than a fraction with its leading one. -/
def Has (F : BinaryFormat) (q : ℚ) : Prop :=
  q < F.value F.infinity ∧ ∃ n s : ℕ, n < 2 ^ (F.fractionBits + 1) ∧ q = (n * 2 ^ s : ℕ) * 2 ^ F.least

theorem Has.round (h : F.Has q) : F.value (F.round q) = q ∧ F.round q < F.infinity := by
  obtain ⟨hfinite, n, s, hn, hq⟩ := h
  exact round_exact hn hq hfinite

theorem is_ofRat (h : F.Has |q|) : F.Is (F.ofRat q) (q < 0) |q| := ⟨rfl, h.round.2, h.round.1⟩

theorem Is.mul {na nb : Bool} (ha : F.Is a na p) (hb : F.Is b nb q) (h : F.Has (p * q)) :
    F.Is (F.mul a b) (na ^^ nb) (p * q) := by
  obtain ⟨rfl, hfa, rfl⟩ := ha
  obtain ⟨rfl, hfb, rfl⟩ := hb
  have hnan : ¬(F.IsNaN a ∨ F.IsNaN b) := fun h => h.elim hfa.not_nan hfb.not_nan
  have hinf : ¬(F.IsInfinite a ∨ F.IsInfinite b) := fun h => h.elim hfa.not_infinite hfb.not_infinite
  rw [BinaryFormat.mul, if_neg hnan, if_neg hinf]
  exact ⟨rfl, h.round.2, h.round.1⟩

theorem Is.div {na nb : Bool} (ha : F.Is a na p) (hb : F.Is b nb q) (hq : 0 < q) (h : F.Has (p / q)) :
    F.Is (F.div a b) (na ^^ nb) (p / q) := by
  obtain ⟨rfl, hfa, rfl⟩ := ha
  obtain ⟨rfl, hfb, rfl⟩ := hb
  have hnan : ¬(F.IsNaN a ∨ F.IsNaN b) := fun h => h.elim hfa.not_nan hfb.not_nan
  have hzero : b.magnitude ≠ 0 := by
    intro hzero
    rw [hzero, BinaryFormat.value, scaled_of_lt (Nat.two_pow_pos _), Nat.cast_zero, zero_mul] at hq
    exact lt_irrefl _ hq
  rw [BinaryFormat.div, if_neg hnan, if_neg hfa.not_infinite, if_neg hzero, if_neg hfb.not_infinite]
  exact ⟨rfl, h.round.2, h.round.1⟩

end BinaryFormat

end Tce.Base
