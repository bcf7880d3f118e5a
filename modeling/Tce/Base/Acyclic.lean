import Mathlib.Order.WellFounded
import Mathlib.Data.Set.Finite.Basic

/-!
# Acyclic relations

Among finitely many elements a relation without cycles has a first one.
-/

namespace Tce

open Relation

def Acyclic {α : Type} (r : α → α → Prop) : Prop := ∀ a, ¬ TransGen r a a

theorem Acyclic.flip {α : Type} {r : α → α → Prop} (h : Acyclic r) : Acyclic fun a b => r b a :=
  fun a ha => h a (transGen_swap.1 ha)

/-- A relation that only goes up has no cycle. -/
theorem acyclic_of_rank {α : Type} {r : α → α → Prop} (rank : α → Nat) (h : ∀ a b, r a b → rank a < rank b) :
    Acyclic r := by
  have hup : ∀ {a b}, TransGen r a b → rank a < rank b := by
    intro a b hab
    induction hab with
    | single hab => exact h _ _ hab
    | tail _ hbc ih => exact Nat.lt_trans ih (h _ _ hbc)
  exact fun a ha => Nat.lt_irrefl _ (hup ha)

/-- Of the elements of a list one has none of the others before it. -/
theorem Acyclic.exists_first {α : Type} {r : α → α → Prop} (h : Acyclic r) {as : List α} (has : as ≠ []) :
    ∃ a ∈ as, ∀ b ∈ as, ¬ r b a := by
  let before (a b : {a // a ∈ as}) : Prop := TransGen r a.1 b.1
  have : IsTrans _ before := ⟨fun _ _ _ hab hbc => TransGen.trans hab hbc⟩
  have : Std.Irrefl before := ⟨fun a ha => h a.1 ha⟩
  have hfinite : Finite {a // a ∈ as} := (List.finite_toSet as).to_subtype
  have hwf := Finite.wellFounded_of_trans_of_irrefl before
  obtain ⟨a, ha⟩ := List.exists_mem_of_ne_nil as has
  obtain ⟨first, -, hfirst⟩ := hwf.has_min Set.univ ⟨⟨a, ha⟩, trivial⟩
  exact ⟨first.1, first.2, fun b hb hr => hfirst ⟨b, hb⟩ trivial (.single hr)⟩

/-- Steps from one element to those that there is no path back from close no cycle. -/
theorem Acyclic.insert {α : Type} {r : α → α → Prop} (h : Acyclic r) {u : α} {q : α → Prop}
    (hq : ∀ t, q t → t ≠ u ∧ ¬ TransGen r t u) : Acyclic fun a b => TransGen r a b ∨ a = u ∧ q b := by
  have hpath : ∀ {a b}, TransGen (fun a b => TransGen r a b ∨ a = u ∧ q b) a b →
      TransGen r a b ∨ ReflTransGen r a u ∧ ∃ t, q t ∧ ReflTransGen r t b := by
    intro a b hab
    induction hab with
    | single hab =>
      rcases hab with hab | ⟨rfl, hb⟩
      · exact .inl hab
      · exact .inr ⟨.refl, _, hb, .refl⟩
    | tail _ hbc ih =>
      rcases ih with hab | ⟨hau, t, ht, htb⟩
      · rcases hbc with hbc | ⟨rfl, hc⟩
        · exact .inl (hab.trans hbc)
        · exact .inr ⟨hab.to_reflTransGen, _, hc, .refl⟩
      · rcases hbc with hbc | ⟨rfl, -⟩
        · exact .inr ⟨hau, t, ht, htb.trans hbc.to_reflTransGen⟩
        · obtain ⟨hne, hnot⟩ := hq t ht
          exact absurd ((reflTransGen_iff_eq_or_transGen.1 htb).resolve_left hne.symm) hnot
  intro a ha
  rcases hpath ha with hcycle | ⟨hau, t, ht, hta⟩
  · exact h a hcycle
  · obtain ⟨hne, hnot⟩ := hq t ht
    exact absurd ((reflTransGen_iff_eq_or_transGen.1 (hta.trans hau)).resolve_left hne.symm) hnot

end Tce
