import Mathlib.Data.Set.Finite.Basic

/-!
# While loops

A loop among finitely many states ends unless it comes back to a state.
-/

namespace Tce.WhileLoop

open Relation

variable {σ : Type} (cond : σ → Bool) (body : σ → σ)

/-- The state in which the loop ends, `none` when it has not after `fuel` tests. -/
def run : (fuel : Nat) → σ → Option σ
  | 0, _ => none
  | fuel + 1, s => if cond s then run fuel (body s) else some s

/-- One more round. -/
def Step (s t : σ) : Prop := cond s = true ∧ t = body s

def Ends (s : σ) : Prop := ∃ fuel, (run cond body fuel s).isSome

variable {cond body} {s t : σ}

theorem run_mono {fuel fuel' : Nat} (h : run cond body fuel s = some t) (hle : fuel ≤ fuel') :
    run cond body fuel' s = some t := by
  induction fuel generalizing fuel' s with
  | zero => simp [run] at h
  | succ fuel ih =>
    obtain ⟨more, rfl⟩ := Nat.exists_eq_add_of_le hle
    rw [Nat.add_right_comm]
    by_cases hs : cond s
    · simp only [run, hs, if_true] at h ⊢
      exact ih h (Nat.le_add_right ..)
    · simpa [run, hs] using h

/-- The loop ends in a state it gets to, in which the condition fails. -/
theorem exit_of_run {fuel : Nat} (h : run cond body fuel s = some t) :
    ReflTransGen (Step cond body) s t ∧ cond t = false := by
  induction fuel generalizing s with
  | zero => simp [run] at h
  | succ fuel ih =>
    by_cases hs : cond s
    · simp only [run, hs, if_true] at h
      obtain ⟨hpath, ht⟩ := ih h
      exact ⟨.head ⟨hs, rfl⟩ hpath, ht⟩
    · simp only [run, hs, Bool.false_eq_true, if_false, Option.some.injEq] at h
      exact ⟨h ▸ .refl, by simpa [h] using hs⟩

theorem ends_iff_of_cond (hs : cond s) : Ends cond body s ↔ Ends cond body (body s) := by
  constructor
  · rintro ⟨fuel, h⟩
    cases fuel with
    | zero => simp [run] at h
    | succ fuel => exact ⟨fuel, by simpa [run, hs] using h⟩
  · rintro ⟨fuel, h⟩
    exact ⟨fuel + 1, by simpa [run, hs] using h⟩

/-- What each round keeps holds at the end. -/
theorem invariant_of_run {inv : σ → Prop} (hstep : ∀ s, cond s → inv s → inv (body s)) (hs : inv s) {fuel : Nat}
    (h : run cond body fuel s = some t) : inv t := by
  induction fuel generalizing s with
  | zero => simp [run] at h
  | succ fuel ih =>
    by_cases hc : cond s
    · simp only [run, hc, if_true] at h
      exact ih (hstep s hc hs) h
    · simp only [run, hc, Bool.false_eq_true, if_false, Option.some.injEq] at h
      exact h ▸ hs

theorem ends_of_not_cond (hs : cond s = false) : Ends cond body s := ⟨1, by simp [run, hs]⟩

/-- A loop that ends does not come back to a state. -/
theorem not_transGen_of_ends (h : Ends cond body s) (hst : ReflTransGen (Step cond body) s t) :
    ¬ TransGen (Step cond body) t t := by
  obtain ⟨fuel, h⟩ := h
  induction fuel generalizing s t with
  | zero => simp [run] at h
  | succ fuel ih =>
    intro hcycle
    -- without another round there is no way back
    have hs : cond s = true := by
      rcases hst.cases_head with rfl | ⟨_, hstep, -⟩
      · obtain ⟨_, hstep, -⟩ := TransGen.head'_iff.1 hcycle
        exact hstep.1
      · exact hstep.1
    have hnext : (run cond body fuel (body s)).isSome := by simpa [run, hs] using h
    rcases hst.cases_head with rfl | ⟨u, ⟨-, rfl⟩, hut⟩
    · obtain ⟨u, ⟨-, rfl⟩, hus⟩ := TransGen.head'_iff.1 hcycle
      exact ih .refl hnext (.tail' hus ⟨hs, rfl⟩)
    · exact ih hut hnext hcycle

/-- Where finitely many states come up, a loop ends that does not come back to one. -/
theorem ends_of_not_transGen {states : Set σ} (hfinite : states.Finite) (hmem : ∀ s, cond s → body s ∈ states)
    (h : ∀ t, ReflTransGen (Step cond body) s t → ¬ TransGen (Step cond body) t t) : Ends cond body s := by
  let after (a b : {t // t ∈ insert s states}) : Prop :=
    ReflTransGen (Step cond body) s b.1 ∧ TransGen (Step cond body) b.1 a.1
  have htrans : IsTrans _ after := ⟨fun _ _ _ hab hbc => ⟨hbc.1, hbc.2.trans hab.2⟩⟩
  have hirrefl : Std.Irrefl after := ⟨fun a ha => h a.1 ha.1 ha.2⟩
  have : Finite {t // t ∈ insert s states} := (hfinite.insert s).to_subtype
  have hwf := Finite.wellFounded_of_trans_of_irrefl after
  have hall : ∀ a : {t // t ∈ insert s states}, ReflTransGen (Step cond body) s a.1 → Ends cond body a.1 := by
    intro a
    induction a using hwf.induction with
    | _ a ih =>
      intro hsa
      cases ha : cond a.1 with
      | false => exact ends_of_not_cond ha
      | true =>
        have hstep : Step cond body a.1 (body a.1) := ⟨ha, rfl⟩
        refine (ends_iff_of_cond ha).2 (ih ⟨body a.1, .inr (hmem _ ha)⟩ ⟨hsa, .single hstep⟩ (hsa.tail hstep))
  exact hall ⟨s, .inl rfl⟩ .refl

/-- A loop ends when each round makes a number smaller. -/
theorem ends_of_measure {inv : σ → Prop} (measure : σ → Nat) (hstep : ∀ s, cond s → inv s → inv (body s))
    (hdecreases : ∀ s, cond s → inv s → measure (body s) < measure s) (hs : inv s) : Ends cond body s := by
  induction h : measure s using Nat.strong_induction_on generalizing s with
  | _ n ih =>
    subst h
    cases hc : cond s with
    | false => exact ends_of_not_cond hc
    | true => exact (ends_iff_of_cond hc).2 (ih _ (hdecreases s hc hs) (hstep s hc hs) rfl)

theorem ends_iff {states : Set σ} (hfinite : states.Finite) (hmem : ∀ s, cond s → body s ∈ states) :
    Ends cond body s ↔ ∀ t, ReflTransGen (Step cond body) s t → ¬ TransGen (Step cond body) t t :=
  ⟨fun h _ hst => not_transGen_of_ends h hst, ends_of_not_transGen hfinite hmem⟩

end Tce.WhileLoop
