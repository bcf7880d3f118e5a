import Mathlib.Data.List.Forall2

/-!
# Partial maps over lists

What a map over a list gives when the function has a result for every element.
-/

namespace Tce.MapM
variable {α β : Type} {f : α → Option β} {l : List α} {l' : List β}

theorem mapM_eq_some_iff :
    l.mapM f = some l' ↔ List.Forall₂ (fun a b => f a = some b) l l' := by
  induction l generalizing l' with
  | nil => cases l' <;> simp
  | cons a l ih => cases l' <;> simp [ih, Option.bind_eq_some_iff]

theorem mem_of_mapM (h : l.mapM f = some l') (b : β) :
    b ∈ l' ↔ ∃ a ∈ l, f a = some b := by
  have hall := mapM_eq_some_iff.1 h
  clear h
  induction hall with
  | nil => simp
  | @cons a b' l l' hab _ ih => simp [ih, hab, eq_comm]

theorem mapM_isSome_iff :
    (l.mapM f).isSome ↔ ∀ a ∈ l, (f a).isSome := by
  induction l with
  | nil => simp
  | cons a l ih =>
    cases hfa : f a with
    | none => simp [hfa]
    | some b =>
      cases hl : l.mapM f with
      | none => simpa [hfa, hl] using ih
      | some l' => simpa [hfa, hl] using ih

/-- The results are at the places of the elements. -/
theorem getElem?_of_mapM (h : l.mapM f = some l') {n : Nat} :
    (∀ a, l[n]? = some a → ∃ b, l'[n]? = some b ∧ f a = some b) ∧ l'.length = l.length := by
  have hall := mapM_eq_some_iff.1 h
  refine ⟨fun a ha => ?_, hall.length_eq.symm⟩
  obtain ⟨hn, rfl⟩ := List.getElem?_eq_some_iff.mp ha
  have hn' : n < l'.length := hall.length_eq ▸ hn
  exact ⟨l'[n], List.getElem?_eq_getElem hn', hall.get hn hn'⟩

theorem forall₂_comp {γ : Type} {R : α → β → Prop} {S : β → γ → Prop} {T : α → γ → Prop} {n : List γ}
    (hRS : ∀ a b c, R a b → S b c → T a c) (hR : List.Forall₂ R l l') (hS : List.Forall₂ S l' n) : List.Forall₂ T l n := by
  induction hR generalizing n with
  | nil =>
    cases hS
    exact .nil
  | cons hab _ ih =>
    obtain _ | ⟨hbc, hS⟩ := hS
    exact .cons (hRS _ _ _ hab hbc) (ih hS)

theorem exists_forall₂ {R : α → β → Prop} (h : ∀ a ∈ l, ∃ b, R a b) : ∃ l', List.Forall₂ R l l' := by
  induction l with
  | nil => exact ⟨[], .nil⟩
  | cons a l ih =>
    obtain ⟨b, hb⟩ := h a (by simp)
    obtain ⟨l', hl'⟩ := ih fun c hc => h c (by simp [hc])
    exact ⟨b :: l', .cons hb hl'⟩

theorem forall₂_mem {R : α → β → Prop} (h : List.Forall₂ R l l') {a : α} (ha : a ∈ l) : ∃ b ∈ l', R a b := by
  induction h with
  | nil => cases ha
  | @cons a' b l l' hab _ ih =>
    obtain rfl | ha := List.mem_cons.mp ha
    · exact ⟨b, by simp, hab⟩
    · obtain ⟨c, hc, hac⟩ := ih ha
      exact ⟨c, by simp [hc], hac⟩

/-- Where no element has an error, the results have what each of them has. -/
theorem mapM_ok {ε : Type} {g : α → Except ε β} {R : α → β → Prop} (h : ∀ a ∈ l, ∃ b, g a = .ok b ∧ R a b) :
    ∃ l', l.mapM g = .ok l' ∧ List.Forall₂ R l l' := by
  induction l with
  | nil => exact ⟨[], rfl, .nil⟩
  | cons a l ih =>
    obtain ⟨⟨b, hb, hR⟩, hrest⟩ := List.forall_mem_cons.1 h
    obtain ⟨l', hl', hRs⟩ := ih hrest
    refine ⟨b :: l', ?_, .cons hR hRs⟩
    rw [List.mapM_cons, hb, hl']
    rfl

end Tce.MapM
