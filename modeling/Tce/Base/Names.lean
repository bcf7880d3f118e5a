import Mathlib

/-!
# Upper and lower case

Tables keyed by upper-case names tell lower-case names apart.
-/

namespace Tce.Names

/-- A lower-case character is not a capital. -/
theorem not_capital {c : Char} (hc : c.toLower = c) : ¬(65 ≤ c.val.toNat ∧ c.val.toNat ≤ 90) := by
  rintro ⟨h1, h2⟩
  have h : c.val ≥ 'A'.val ∧ c.val ≤ 'Z'.val := ⟨UInt32.le_iff_toNat_le.2 h1, UInt32.le_iff_toNat_le.2 h2⟩
  have := congrArg (fun d => d.val.toNat) hc
  simp only [Char.toLower, dif_pos h, UInt32.toNat_add] at this
  have h3 : ('a'.val - 'A'.val).toNat = 32 := by decide
  omega

theorem toUpper_toNat (c : Char) : c.toUpper.val.toNat =
    if 97 ≤ c.val.toNat ∧ c.val.toNat ≤ 122 then c.val.toNat - 32 else c.val.toNat := by
  by_cases h : 97 ≤ c.val.toNat ∧ c.val.toNat ≤ 122
  · have h' : 'a'.val ≤ c.val ∧ c.val ≤ 'z'.val := ⟨UInt32.le_iff_toNat_le.2 h.1, UInt32.le_iff_toNat_le.2 h.2⟩
    rw [if_pos h]
    simp only [Char.toUpper, dif_pos h', UInt32.toNat_add]
    have h3 : ('A'.val - 'a'.val).toNat = 2 ^ 32 - 32 := by decide
    omega
  · have h' : ¬('a'.val ≤ c.val ∧ c.val ≤ 'z'.val) :=
      fun h' => h ⟨UInt32.le_iff_toNat_le.1 h'.1, UInt32.le_iff_toNat_le.1 h'.2⟩
    rw [if_neg h]
    simp only [Char.toUpper, dif_neg h']

theorem toUpper_char_inj {c d : Char} (hc : c.toLower = c) (hd : d.toLower = d) (h : c.toUpper = d.toUpper) : c = d := by
  have hc' := not_capital hc
  have hd' := not_capital hd
  have hval := congrArg (fun e => e.val.toNat) h
  simp only [toUpper_toNat] at hval
  apply Char.ext
  apply UInt32.toNat_inj.1
  split at hval <;> split at hval <;> omega

theorem toUpper_list_inj : ∀ {l l' : List Char}, (∀ c ∈ l, c.toLower = c) → (∀ c ∈ l', c.toLower = c) →
    l.map Char.toUpper = l'.map Char.toUpper → l = l' := by
  intro l
  induction l with
  | nil => intro l' _ _ h; simpa using h
  | cons c l ih =>
    intro l' hl hl' h
    cases l' with
    | nil => simp at h
    | cons d l' =>
      simp only [List.map_cons, List.cons.injEq] at h
      rw [toUpper_char_inj (hl c List.mem_cons_self) (hl' d List.mem_cons_self) h.1,
        ih (fun e he => hl e (List.mem_cons_of_mem _ he)) (fun e he => hl' e (List.mem_cons_of_mem _ he)) h.2]

/-- Every character of a string in upper case. -/
def stringToUpper (source : String) : String := String.ofList (source.toList.map Char.toUpper)

/-- Lower-case strings differ in upper case too. -/
theorem stringToUpper_inj {s t : String} (hs : ∀ c ∈ s.toList, c.toLower = c) (ht : ∀ c ∈ t.toList, c.toLower = c)
    (h : stringToUpper s = stringToUpper t) : s = t := by
  have := congrArg String.toList h
  simp only [stringToUpper, String.toList_ofList] at this
  exact String.toList_inj.1 (toUpper_list_inj hs ht this)

theorem toUpper_toUpper (c : Char) : c.toUpper.toUpper = c.toUpper := by
  apply Char.ext
  apply UInt32.toNat_inj.1
  rw [toUpper_toNat c.toUpper, toUpper_toNat c]
  by_cases hc : 97 ≤ c.val.toNat ∧ c.val.toNat ≤ 122
  · rw [if_pos hc, if_neg]
    omega
  · rw [if_neg hc, if_neg hc]

theorem stringToUpper_stringToUpper (source : String) : stringToUpper (stringToUpper source) = stringToUpper source := by
  have hupper : Char.toUpper ∘ Char.toUpper = Char.toUpper := funext toUpper_toUpper
  rw [stringToUpper, stringToUpper, String.toList_ofList, List.map_map, hupper]

end Tce.Names
