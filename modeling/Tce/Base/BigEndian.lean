import Mathlib.Data.List.Induction
import Mathlib.Data.Nat.Bitwise

/-!
# Big-endian bytes

Numbers as bytes with the most significant one first, and such bytes in the
middle of others.
-/

namespace Tce.BigEndian

/-- The number that bytes stand for. -/
def value (l : List (BitVec 8)) : Nat := l.foldl (fun v b => v <<< 8 ||| b.toNat) 0

/-- The `n` low bytes of a number. -/
def bytes : (n v : Nat) → List (BitVec 8)
  | 0, _ => []
  | n + 1, v => bytes n (v >>> 8) ++ [BitVec.ofNat 8 v]

@[simp] theorem length_bytes (n v : Nat) : (bytes n v).length = n := by
  induction n generalizing v with
  | zero => rfl
  | succ n ih => simp [bytes, ih]

theorem value_append_singleton (l : List (BitVec 8)) (b : BitVec 8) : value (l ++ [b]) = value l * 256 + b.toNat := by
  rw [value, List.foldl_append, List.foldl_cons, List.foldl_nil, ← Nat.shiftLeft_add_eq_or_of_lt b.isLt,
    Nat.shiftLeft_eq]
  rfl

/-- Bytes that are too few leave out the upper part of a number. -/
theorem value_bytes (n v : Nat) : value (bytes n v) = v % 256 ^ n := by
  induction n generalizing v with
  | zero => simp [bytes, value, Nat.mod_one]
  | succ n ih =>
    have hsplit : v % 256 ^ (n + 1) = v % 256 + 256 * (v / 256 % 256 ^ n) := by rw [Nat.pow_succ', Nat.mod_mul]
    have hbyte : 2 ^ 8 = 256 := rfl
    rw [bytes, value_append_singleton, ih, Nat.shiftRight_eq_div_pow, BitVec.toNat_ofNat, hsplit, hbyte]
    omega

theorem value_bytes_of_lt {n v : Nat} (h : v < 256 ^ n) : value (bytes n v) = v := by
  rw [value_bytes, Nat.mod_eq_of_lt h]

theorem bytes_eq_map_range (n v : Nat) :
    ((List.range n).reverse.map fun i => BitVec.ofNat 8 (v >>> (8 * i))) = bytes n v := by
  induction n generalizing v with
  | zero => rfl
  | succ n ih =>
    have hrest : ((List.range n).map Nat.succ).reverse.map (fun i => BitVec.ofNat 8 (v >>> (8 * i))) =
        (List.range n).reverse.map fun i => BitVec.ofNat 8 (v >>> 8 >>> (8 * i)) := by
      rw [← List.map_reverse, List.map_map]
      apply List.map_congr_left
      intro i _
      rw [Function.comp_apply, ← Nat.shiftRight_add, Nat.mul_succ, Nat.add_comm]
    rw [List.range_succ_eq_map, List.reverse_cons, List.map_append, hrest, ih, bytes]
    rfl

theorem bytes_succ (n v : Nat) : bytes (n + 1) v = BitVec.ofNat 8 (v >>> (8 * n)) :: bytes n v := by
  rw [← bytes_eq_map_range, ← bytes_eq_map_range, List.range_succ, List.reverse_append]
  rfl

theorem value_append (l l' : List (BitVec 8)) : value (l ++ l') = value l * 256 ^ l'.length + value l' := by
  induction l' using List.reverseRecOn with
  | nil => simp [value]
  | append_singleton l' b ih =>
    rw [← List.append_assoc, value_append_singleton, ih, value_append_singleton, List.length_append,
      List.length_singleton, Nat.pow_succ, Nat.add_mul, Nat.mul_assoc, Nat.add_assoc]

theorem value_lt_pow (l : List (BitVec 8)) : value l < 256 ^ l.length := by
  induction l using List.reverseRecOn with
  | nil => exact Nat.one_pos
  | append_singleton l b ih =>
    have hbyte : b.toNat < 256 := b.isLt
    rw [value_append_singleton, List.length_append, List.length_singleton, Nat.pow_succ]
    omega

theorem value_replicate_zero (n : Nat) : value (List.replicate n 0) = 0 := by
  induction n with
  | zero => rfl
  | succ n ih =>
    rw [List.replicate_succ', value_append_singleton, ih]
    rfl

/-! ## Overwriting -/

variable {α : Type}

/-- The list with others in place of its elements from `offset` on. -/
def overwrite (l : List α) (offset : Nat) (new : List α) : List α :=
  l.take offset ++ new ++ l.drop (offset + new.length)

def window (l : List α) (offset size : Nat) : List α := (l.drop offset).take size

variable {l new : List α} {offset : Nat}

theorem length_overwrite (h : offset + new.length ≤ l.length) : (overwrite l offset new).length = l.length := by
  simp only [overwrite, List.length_append, List.length_take, List.length_drop]
  omega

theorem getElem?_overwrite (h : offset + new.length ≤ l.length) (k : Nat) :
    (overwrite l offset new)[k]? =
      if k < offset then l[k]? else if k < offset + new.length then new[k - offset]? else l[k]? := by
  have htake : (l.take offset).length = offset := by
    rw [List.length_take]
    omega
  rw [overwrite, List.append_assoc]
  split
  next hlt => rw [List.getElem?_append_left (by omega), List.getElem?_take_of_lt hlt]
  next hge =>
    rw [List.getElem?_append_right (by omega), htake]
    split
    next hlt => rw [List.getElem?_append_left (by omega)]
    next hge' =>
      rw [List.getElem?_append_right (by omega), List.getElem?_drop]
      congr 1
      omega

theorem getElem?_window (size k : Nat) : (window l offset size)[k]? = if k < size then l[offset + k]? else none := by
  rw [window, List.getElem?_take]
  split
  next => rw [List.getElem?_drop]
  next => rfl

theorem window_overwrite (h : offset + new.length ≤ l.length) :
    window (overwrite l offset new) offset new.length = new := by
  apply List.ext_getElem?
  intro k
  rw [getElem?_window, getElem?_overwrite h]
  split
  next hlt => rw [if_neg (by omega), if_pos (by omega), Nat.add_sub_cancel_left]
  next hge => rw [List.getElem?_eq_none (by omega)]

/-- Elements can be overwritten from the last one on. -/
theorem overwrite_set {a : α} (h : offset + new.length < l.length) :
    overwrite (l.set (offset + new.length) a) offset new = overwrite l offset (new ++ [a]) := by
  apply List.ext_getElem?
  intro k
  rw [getElem?_overwrite (by rw [List.length_set]; omega), getElem?_overwrite (by simp; omega), List.length_append,
    List.length_singleton, List.getElem?_set, List.getElem?_append, List.getElem?_singleton]
  by_cases hbefore : k < offset
  · rw [if_pos hbefore, if_pos hbefore, if_neg (by omega)]
  · rw [if_neg hbefore, if_neg hbefore]
    rcases Nat.lt_trichotomy k (offset + new.length) with hlt | rfl | hgt
    · rw [if_pos hlt, if_pos (by omega), if_pos (by omega)]
    · simp [h]
    · rw [if_neg (by omega), if_neg (by omega), if_neg (by omega)]

/-! ## The last bytes -/

theorem value_take_drop (l : List (BitVec 8)) {n : Nat} (h : n ≤ l.length) :
    value (l.take (l.length - n)) = value l / 256 ^ n ∧ value (l.drop (l.length - n)) = value l % 256 ^ n := by
  have hlength : (l.drop (l.length - n)).length = n := by
    rw [List.length_drop]
    omega
  have hsplit := value_append (l.take (l.length - n)) (l.drop (l.length - n))
  have hlt := value_lt_pow (l.drop (l.length - n))
  rw [List.take_append_drop, hlength] at hsplit
  rw [hlength] at hlt
  rw [hsplit]
  constructor
  · rw [Nat.mul_comm, Nat.mul_add_div (Nat.pow_pos (by decide)), Nat.div_eq_of_lt hlt, Nat.add_zero]
  · rw [Nat.mul_comm, Nat.mul_add_mod, Nat.mod_eq_of_lt hlt]

theorem value_window_last (l : List (BitVec 8)) {n : Nat} (h : n ≤ l.length) :
    value (window l (l.length - n) n) = value l % 256 ^ n := by
  rw [window, List.take_of_length_le, (value_take_drop l h).2]
  rw [List.length_drop]
  omega

theorem value_overwrite_last {l new : List (BitVec 8)} (h : new.length ≤ l.length) :
    value (overwrite l (l.length - new.length) new) =
      value l / 256 ^ new.length * 256 ^ new.length + value new := by
  rw [overwrite, Nat.sub_add_cancel h, List.drop_length, List.append_nil, value_append, (value_take_drop l h).1]

end Tce.BigEndian
