import Mathlib.Order.Lattice

/-!
# Bisection

A bisection looks for a key among increasing values. When the key is between
two of them, it ends at the one that it looks at last.
-/

namespace Tce.Bisection

variable {α : Type} [LinearOrder α] (value : Int → α) (key : α)

/-- The place between `first` and `last` that is looked at last, `middle` when there is none. -/
def lastProbe : (fuel : Nat) → (first last middle : Int) → Int
  | 0, _, _, middle => middle
  | fuel + 1, first, last, middle =>
    if first ≤ last then
      let middle := (first + last) / 2
      if value middle < key then lastProbe fuel (middle + 1) last middle
      else if key < value middle then lastProbe fuel first (middle - 1) middle
      else middle
    else middle

/-- The bisection of `first` to `last` for what is between `index` and the next place
looks at the next place first. -/
inductive NextFirst : (first last index : Int) → Prop
  | here {first last index : Int} : (first + last) / 2 = index + 1 → NextFirst first last index
  | left {first last index : Int} : index + 1 < (first + last) / 2 →
      NextFirst first ((first + last) / 2 - 1) index → NextFirst first last index
  | right {first last index : Int} : (first + last) / 2 < index →
      NextFirst ((first + last) / 2 + 1) last index → NextFirst first last index

variable {value key}

theorem lastProbe_of_empty {fuel : Nat} {first last middle : Int} (h : last < first) :
    lastProbe value key fuel first last middle = middle := by
  cases fuel with
  | zero => rfl
  | succ fuel => rw [lastProbe, if_neg (by omega)]

theorem le_lastProbe {fuel : Nat} {first last middle bound : Int} (hfirst : bound ≤ first) (hmiddle : bound ≤ middle) :
    bound ≤ lastProbe value key fuel first last middle := by
  induction fuel generalizing first last middle with
  | zero => exact hmiddle
  | succ fuel ih =>
    rw [lastProbe]
    by_cases hle : first ≤ last
    · simp only [if_pos hle]
      split
      · exact ih (by omega) (by omega)
      · split
        · exact ih hfirst (by omega)
        · omega
    · rw [if_neg hle]
      exact hmiddle

theorem lastProbe_of_lt {fuel : Nat} {first last m : Int} (h : first ≤ last) (hfuel : last + 1 - first ≤ fuel)
    (hbelow : ∀ j, first ≤ j → j ≤ last → value j < key) : lastProbe value key fuel first last m = last := by
  induction fuel generalizing first m with
  | zero => omega
  | succ fuel ih =>
    have hmiddle : value ((first + last) / 2) < key := hbelow _ (by omega) (by omega)
    simp only [lastProbe, if_pos h, if_pos hmiddle]
    by_cases hrest : (first + last) / 2 + 1 ≤ last
    · exact ih hrest (by omega) fun j hj hj' => hbelow j (by omega) hj'
    · rw [lastProbe_of_empty (by omega)]
      omega

theorem lastProbe_of_gt {fuel : Nat} {first last m : Int} (h : first ≤ last) (hfuel : last + 1 - first ≤ fuel)
    (habove : ∀ j, first ≤ j → j ≤ last → key < value j) : lastProbe value key fuel first last m = first := by
  induction fuel generalizing last m with
  | zero => omega
  | succ fuel ih =>
    have hmiddle : key < value ((first + last) / 2) := habove _ (by omega) (by omega)
    simp only [lastProbe, if_pos h, if_neg (lt_asymm hmiddle), if_pos hmiddle]
    by_cases hrest : first ≤ (first + last) / 2 - 1
    · exact ih hrest (by omega) fun j hj hj' => habove j hj (by omega)
    · rw [lastProbe_of_empty (by omega)]
      omega

/-- A key that is one of the values is found. -/
theorem lastProbe_of_eq {fuel : Nat} {first last m index : Int} (hfuel : last + 1 - first ≤ fuel)
    (hfirst : first ≤ index) (hlast : index ≤ last) (hkey : value index = key)
    (hbelow : ∀ j, first ≤ j → j < index → value j < key) (habove : ∀ j, index < j → j ≤ last → key < value j) :
    lastProbe value key fuel first last m = index := by
  induction fuel generalizing first last m with
  | zero => omega
  | succ fuel ih =>
    have hle : first ≤ last := Int.le_trans hfirst hlast
    simp only [lastProbe, if_pos hle]
    rcases Int.lt_trichotomy ((first + last) / 2) index with hlt | heq | hgt
    · rw [if_pos (hbelow _ (by omega) hlt)]
      exact ih (by omega) (by omega) hlast (fun j hj => hbelow j (by omega)) habove
    · rw [heq, hkey, if_neg (lt_irrefl key), if_neg (lt_irrefl key)]
    · have hmiddle : key < value ((first + last) / 2) := habove _ hgt (by omega)
      rw [if_neg (lt_asymm hmiddle), if_pos hmiddle]
      exact ih (by omega) hfirst (by omega) hbelow fun j hj hj' => habove j hj (by omega)

/-- A key between two values is found at the lower one when the upper one is looked at first. -/
theorem lastProbe_eq_iff {fuel : Nat} {first last m index : Int} (hfuel : last + 1 - first ≤ fuel)
    (hfirst : first ≤ index) (hlast : index < last)
    (hbelow : ∀ j, first ≤ j → j ≤ index → value j < key) (habove : ∀ j, index < j → j ≤ last → key < value j) :
    lastProbe value key fuel first last m = index ↔ NextFirst first last index := by
  induction fuel generalizing first last m with
  | zero => omega
  | succ fuel ih =>
    have hle : first ≤ last := by omega
    simp only [lastProbe, if_pos hle]
    by_cases hmiddle : (first + last) / 2 ≤ index
    · rw [if_pos (hbelow _ (by omega) hmiddle)]
      rcases Int.lt_or_eq_of_le hmiddle with hlt | heq
      · rw [ih (by omega) (by omega) hlast (fun j hj => hbelow j (by omega)) habove]
        constructor
        · exact .right hlt
        · intro h
          cases h with
          | here h => omega
          | left h _ => omega
          | right _ h => exact h
      · rw [lastProbe_of_gt (by omega) (by omega) fun j hj hj' => habove j (by omega) hj']
        constructor
        · omega
        · intro h
          cases h <;> omega
    · have hgt : key < value ((first + last) / 2) := habove _ (by omega) (by omega)
      rw [if_neg (lt_asymm hgt), if_pos hgt]
      by_cases hnext : (first + last) / 2 = index + 1
      · rw [lastProbe_of_lt (by omega) (by omega) fun j hj hj' => hbelow j hj (by omega)]
        constructor
        · intro _
          exact .here hnext
        · omega
      · rw [ih (by omega) hfirst (by omega) hbelow fun j hj hj' => habove j hj (by omega)]
        constructor
        · exact .left (by omega)
        · intro h
          cases h with
          | here h => exact absurd h hnext
          | left _ h => exact h
          | right h _ => omega

end Tce.Bisection
