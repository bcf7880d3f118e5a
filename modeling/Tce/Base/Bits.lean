import Mathlib.Data.Nat.Bitwise

/-!
# Bits of numbers

The bits of a number as a list with the most significant one first. A window has
a number of bits from a given one up; the low bits are the window from bit 0.
-/

namespace Tce.Bits

def window (v low : Nat) : Nat → List Bool
  | 0 => []
  | n + 1 => v.testBit (low + n) :: window v low n

def bits (v n : Nat) : List Bool := window v 0 n

def value : List Bool → Nat
  | [] => 0
  | b :: l => b.toNat * 2 ^ l.length + value l

@[simp] theorem length_window (v low n : Nat) : (window v low n).length = n := by
  induction n with
  | zero => rfl
  | succ n ih => simp [window, ih]

@[simp] theorem length_bits (v n : Nat) : (bits v n).length = n := length_window v 0 n

/-- A window is the window of its upper part and then that of its lower part. -/
theorem window_append (v low m n : Nat) :
    window v (low + m) n ++ window v low m = window v low (m + n) := by
  induction n with
  | zero => rfl
  | succ n ih => simp [window, ih, Nat.add_assoc]

theorem window_congr {v w low n : Nat} (h : ∀ i < n, v.testBit (low + i) = w.testBit (low + i)) :
    window v low n = window w low n := by
  induction n with
  | zero => rfl
  | succ n ih => simp [window, h n (by omega), ih fun i hi => h i (by omega)]

theorem testBit_of_window_eq {v w low n : Nat} (h : window v low n = window w low n) :
    ∀ i < n, v.testBit (low + i) = w.testBit (low + i) := by
  induction n with
  | zero => intro i hi; omega
  | succ n ih =>
    simp only [window, List.cons.injEq] at h
    intro i hi
    by_cases he : i = n
    · exact he ▸ h.1
    · exact ih h.2 i (by omega)

theorem bits_eq_iff {v w n : Nat} : bits v n = bits w n ↔ v % 2 ^ n = w % 2 ^ n := by
  constructor
  · intro h
    apply Nat.eq_of_testBit_eq
    intro i
    simp only [Nat.testBit_mod_two_pow]
    by_cases hi : i < n
    · simpa [hi] using testBit_of_window_eq h i hi
    · simp [hi]
  · intro h
    apply window_congr
    intro i hi
    have := congrArg (·.testBit i) h
    simpa [Nat.testBit_mod_two_pow, hi] using this

theorem value_lt (l : List Bool) : value l < 2 ^ l.length := by
  induction l with
  | nil => simp [value]
  | cons b l ih =>
    have hb : b.toNat ≤ 1 := by cases b <;> simp
    have := Nat.mul_le_mul_right (2 ^ l.length) hb
    simp only [value, List.length_cons, Nat.pow_succ]
    omega

theorem testBit_value (l : List Bool) (i : Nat) :
    (value l).testBit i = (l.reverse.getD i false) := by
  induction l generalizing i with
  | nil => simp [value]
  | cons b l ih =>
    have hlt := value_lt l
    rw [value, Nat.mul_comm, Nat.testBit_two_pow_mul_add _ hlt]
    by_cases hi : i < l.length
    · simp [hi, ih, List.getElem?_append_left]
    · rw [if_neg hi]
      by_cases he : i = l.length
      · subst he
        cases b <;> simp
      · have hgt : l.length < i := by omega
        have hout : (b :: l).reverse.length ≤ i := by simp; omega
        obtain ⟨k, rfl⟩ : ∃ k, i = l.length + 1 + k := ⟨i - l.length - 1, by omega⟩
        have : l.length + 1 + k - l.length = k + 1 := by omega
        simp only [this, List.getD_eq_getElem?_getD, List.getElem?_eq_none hout, Option.getD_none]
        cases b <;> simp [Nat.testBit_succ]

theorem bits_value (l : List Bool) : bits (value l) l.length = l := by
  induction l with
  | nil => rfl
  | cons b l ih =>
    have hlow : window (value (b :: l)) 0 l.length = l := by
      refine Eq.trans ?_ ih
      apply bits_eq_iff.mpr
      rw [value, Nat.mul_comm, Nat.mul_add_mod]
    have htop : (value (b :: l)).testBit l.length = b := by
      simp [testBit_value]
    simpa [bits, window, htop] using hlow

theorem value_bits (v n : Nat) : value (bits v n) = v % 2 ^ n := by
  have hlt : value (bits v n) < 2 ^ n := by simpa using value_lt (bits v n)
  have heq : bits (value (bits v n)) n = bits v n := by simpa using bits_value (bits v n)
  rw [← Nat.mod_eq_of_lt hlt]
  exact bits_eq_iff.mp heq

end Tce.Bits

/-!
## Prefix codes

Codes of which none starts another, as bit strings. A string that starts with one
of them is decoded by looking for the one it starts with. Numbers written from the
left separate when the later is past every number that starts with the earlier.
-/

namespace Tce.PrefixCode

open Bits

/-- Neither string starts the other. -/
def Separate (a b : List Bool) : Prop := ¬ a <+: b ∧ ¬ b <+: a

theorem Separate.symm {a b : List Bool} (h : Separate a b) : Separate b a := ⟨h.2, h.1⟩

theorem Separate.append_ne {a b : List Bool} (h : Separate a b) (x y : List Bool) : a ++ x ≠ b ++ y := by
  intro e
  have ha : a <+: b ++ y := e ▸ List.prefix_append a x
  rcases List.prefix_or_prefix_of_prefix ha (List.prefix_append b y) with hab | hba
  · exact h.1 hab
  · exact h.2 hba

/-- The upper bits of a number are the number shifted down. -/
theorem bits_append_low (v m n : Nat) : bits v (m + n) = bits (v / 2 ^ n) m ++ bits v n := by
  have hwindow : window v n m = bits (v / 2 ^ n) m := by
    induction m with
    | zero => rfl
    | succ m ih => simpa [bits, window, Nat.testBit_div_two_pow, Nat.add_comm n] using ih
  have h := window_append v 0 n m
  rw [Nat.zero_add, hwindow, Nat.add_comm n m] at h
  exact h.symm

theorem bits_inj {a b n : Nat} (ha : a < 2 ^ n) (hb : b < 2 ^ n) (h : bits a n = bits b n) : a = b := by
  have := bits_eq_iff.mp h
  rwa [Nat.mod_eq_of_lt ha, Nat.mod_eq_of_lt hb] at this

theorem separate_bits {a b m n : Nat} (hmn : m ≤ n) (hb : b < 2 ^ n) (hab : (a + 1) * 2 ^ (n - m) ≤ b) :
    Separate (bits a m) (bits b n) := by
  have hpos : 0 < 2 ^ (n - m) := Nat.two_pow_pos _
  have hpow : 2 ^ n = 2 ^ m * 2 ^ (n - m) := by rw [← Nat.pow_add, Nat.add_sub_cancel' hmn]
  have hup : a + 1 ≤ b / 2 ^ (n - m) := (Nat.le_div_iff_mul_le hpos).mpr hab
  have hlow : b / 2 ^ (n - m) < 2 ^ m := Nat.div_lt_of_lt_mul (by rw [Nat.mul_comm]; omega)
  have hsplit : bits b n = bits (b / 2 ^ (n - m)) m ++ bits b (n - m) := by
    rw [← bits_append_low, Nat.add_sub_cancel' hmn]
  have hne : ¬ bits a m <+: bits b n := by
    rw [hsplit]
    intro hpre
    have hle : bits a m <+: bits (b / 2 ^ (n - m)) m :=
      List.prefix_of_prefix_length_le hpre (List.prefix_append _ _) (by simp)
    have heq : bits a m = bits (b / 2 ^ (n - m)) m := hle.eq_of_length (by simp)
    have := bits_inj (by omega) hlow heq
    omega
  refine ⟨hne, fun hpre => ?_⟩
  have hle : n ≤ m := by simpa using hpre.length_le
  obtain rfl : m = n := by omega
  exact hne ((hpre.eq_of_length (by simp)) ▸ List.prefix_refl _)

section Decoding
variable {α : Type}

/-- What the code at the start of the string stands for, and the string after it. -/
def decode (codes : List (List Bool × α)) (s : List Bool) : Option (α × List Bool) :=
  (codes.find? fun c => c.1.isPrefixOf s).map fun c => (c.2, s.drop c.1.length)

theorem decode_of_mem {codes : List (List Bool × α)} (h : codes.Pairwise fun c d => Separate c.1 d.1)
    {c : List Bool} {x : α} (hc : (c, x) ∈ codes) (rest : List Bool) :
    decode codes (c ++ rest) = some (x, rest) := by
  have hfind : codes.find? (fun d => d.1.isPrefixOf (c ++ rest)) = some (c, x) := by
    induction codes with
    | nil => simp at hc
    | cons d codes ih =>
      obtain ⟨hd, htail⟩ := List.pairwise_cons.mp h
      rcases List.mem_cons.mp hc with rfl | hmem
      · simp
      · have hno : d.1.isPrefixOf (c ++ rest) = false := by
          rw [Bool.eq_false_iff, ne_eq, List.isPrefixOf_iff_prefix]
          rintro ⟨t, ht⟩
          exact (hd _ hmem).append_ne t rest ht
        simp [hno, ih htail hmem]
  simp [decode, hfind]

end Decoding

end Tce.PrefixCode
