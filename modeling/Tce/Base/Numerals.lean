import Mathlib.Tactic.IntervalCases
import Mathlib.Tactic.Ring

/-!
# Numerals

Digits up to base 16 and the number that a list of them denotes, the most significant digit first.
-/

namespace Tce.Numerals

/-- The value of a digit in either case, 16 for other characters. -/
def digitValue (c : Char) : Nat :=
  if '0' ≤ c ∧ c ≤ '9' then c.toNat - 48
  else if 'a' ≤ c ∧ c ≤ 'f' then c.toNat - 87
  else if 'A' ≤ c ∧ c ≤ 'F' then c.toNat - 55
  else 16

def isDigit (base : Nat) (c : Char) : Bool := decide (digitValue c < base)

def value (base : Nat) (digits : List Char) : Nat := digits.foldl (fun n c => base * n + digitValue c) 0

def IsNumeral (base : Nat) (digits : List Char) : Prop := digits ≠ [] ∧ ∀ c ∈ digits, isDigit base c = true

variable {base : Nat} {c : Char} {digits : List Char}

theorem foldl_value (n : Nat) :
    digits.foldl (fun n c => base * n + digitValue c) n = n * base ^ digits.length + value base digits := by
  induction digits generalizing n with
  | nil => simp [value]
  | cons c digits ih =>
    rw [value, List.foldl_cons, List.foldl_cons, ih, ih (base * 0 + digitValue c), List.length_cons, Nat.pow_succ]
    ring

theorem value_cons : value base (c :: digits) = digitValue c * base ^ digits.length + value base digits := by
  rw [value, List.foldl_cons, foldl_value, Nat.mul_zero, Nat.zero_add]

theorem value_append (more : List Char) :
    value base (digits ++ more) = value base digits * base ^ more.length + value base more := by
  rw [value, List.foldl_append, foldl_value]
  rfl

theorem value_lt (h : ∀ c ∈ digits, isDigit base c = true) : value base digits < base ^ digits.length := by
  induction digits with
  | nil => exact Nat.one_pos
  | cons c digits ih =>
    have hc : digitValue c < base := of_decide_eq_true (h c List.mem_cons_self)
    have hrest := ih fun d hd => h d (List.mem_cons_of_mem c hd)
    rw [value_cons, List.length_cons, Nat.pow_succ']
    calc digitValue c * base ^ digits.length + value base digits
      _ < digitValue c * base ^ digits.length + base ^ digits.length := Nat.add_lt_add_left hrest _
      _ = (digitValue c + 1) * base ^ digits.length := by ring
      _ ≤ base * base ^ digits.length := Nat.mul_le_mul_right _ hc

@[simp] theorem value_replicate_zero (k : Nat) : value base (List.replicate k '0') = 0 := by
  induction k with
  | zero => rfl
  | succ k ih => rw [List.replicate_succ, value_cons, ih, show digitValue '0' = 0 from rfl, Nat.zero_mul]

theorem digitValue_digitChar {d : Nat} (h : d < 16) : digitValue d.digitChar = d := by
  interval_cases d <;> rfl

/-- What is printed in a base is a numeral of the number. -/
theorem value_toDigits {n : Nat} (hb : 1 < base) (hle : base ≤ 16) : value base (Nat.toDigits base n) = n := by
  induction n using Nat.base_induction base hb with
  | single m hm =>
    rw [Nat.toDigits_of_lt_base hm, value_cons, digitValue_digitChar (Nat.lt_of_lt_of_le hm hle)]
    simp [value]
  | digit m k hk hm ih =>
    rw [← Nat.toDigits_append_toDigits hb hm hk, value_append, ih, Nat.toDigits_of_lt_base hk, value_cons,
      digitValue_digitChar (Nat.lt_of_lt_of_le hk hle)]
    simp [value, Nat.mul_comm]

theorem isNumeral_toDigits (n : Nat) (hb : 1 < base) (hle : base ≤ 16) : IsNumeral base (Nat.toDigits base n) := by
  refine ⟨Nat.toDigits_ne_nil, ?_⟩
  induction n using Nat.base_induction base hb with
  | single m hm =>
    rw [Nat.toDigits_of_lt_base hm]
    rintro c hc
    rw [List.mem_singleton.1 hc, isDigit, digitValue_digitChar (Nat.lt_of_lt_of_le hm hle)]
    exact decide_eq_true hm
  | digit m k hk hm ih =>
    rw [← Nat.toDigits_append_toDigits hb hm hk, Nat.toDigits_of_lt_base hk]
    intro c hc
    rcases List.mem_append.1 hc with hc | hc
    · exact ih c hc
    · rw [List.mem_singleton.1 hc, isDigit, digitValue_digitChar (Nat.lt_of_lt_of_le hk hle)]
      exact decide_eq_true hk

end Tce.Numerals
