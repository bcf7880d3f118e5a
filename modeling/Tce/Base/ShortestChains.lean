import Mathlib.Data.ENat.Lattice

/-!
# Shortest chains

A chain starts at a first node and goes on by steps. Its length is the number of
its nodes; the level of a node is the length of the shortest chain to it.
-/

namespace Tce

variable {ι : Type} {first : ι → Prop} {step : ι → ι → Prop}

/-- There is a chain of this length to the node. -/
inductive Chain (first : ι → Prop) (step : ι → ι → Prop) : Nat → ι → Prop
  | first {i : ι} : first i → Chain first step 1 i
  | step {k : Nat} {j i : ι} : Chain first step k j → step j i → Chain first step (k + 1) i

namespace Chain

/-- The shortest chains to the node have this length. -/
def AtLevel (first : ι → Prop) (step : ι → ι → Prop) (k : Nat) (i : ι) : Prop :=
  Chain first step k i ∧ ∀ k' < k, ¬Chain first step k' i

theorem pos {k : Nat} {i : ι} (h : Chain first step k i) : 0 < k := by
  cases h with
  | first => exact Nat.one_pos
  | step => exact Nat.succ_pos _

theorem one_iff {i : ι} : Chain first step 1 i ↔ first i := by
  refine ⟨fun h => ?_, .first⟩
  cases h with
  | first hfirst => exact hfirst
  | step h _ => exact absurd h.pos (Nat.lt_irrefl 0)

theorem AtLevel.eq {k k' : Nat} {i : ι} (h : AtLevel first step k i) (h' : AtLevel first step k' i) : k = k' :=
  Nat.le_antisymm (Nat.le_of_not_lt fun hlt => h.2 k' hlt h'.1) (Nat.le_of_not_lt fun hlt => h'.2 k hlt h.1)

theorem atLevel_one {i : ι} : AtLevel first step 1 i ↔ first i := by
  refine ⟨fun h => one_iff.1 h.1, fun h => ⟨.first h, fun k hk hchain => ?_⟩⟩
  exact absurd hchain.pos (by omega)

/-- A node with a chain has a level. -/
theorem exists_atLevel {k : Nat} {i : ι} (h : Chain first step k i) : ∃ k' ≤ k, AtLevel first step k' i := by
  induction k using Nat.strongRecOn with
  | ind k ih =>
    by_cases hshorter : ∃ k' < k, Chain first step k' i
    · obtain ⟨k', hlt, hchain⟩ := hshorter
      obtain ⟨k'', hle, hlevel⟩ := ih k' hlt hchain
      exact ⟨k'', by omega, hlevel⟩
    · exact ⟨k, Nat.le_refl k, h, fun k' hlt hchain => hshorter ⟨k', hlt, hchain⟩⟩

/-- A node of the next level is a step from a node of the level. -/
theorem AtLevel.exists_step {k : Nat} {i : ι} (h : AtLevel first step (k + 1) i) (hpos : 0 < k) :
    ∃ j, AtLevel first step k j ∧ step j i := by
  obtain ⟨hchain, hshortest⟩ := h
  cases hchain with
  | first => exact absurd hpos (Nat.lt_irrefl 0)
  | step hprev hstep =>
    rename_i j
    exact ⟨j, ⟨hprev, fun k' hlt hchain => hshortest (k' + 1) (by omega) (.step hchain hstep)⟩, hstep⟩

/-- A step from a level leads to the next one or to one before. -/
theorem atLevel_succ_iff {k : Nat} (hpos : 0 < k) {i : ι} :
    AtLevel first step (k + 1) i ↔ (∃ j, AtLevel first step k j ∧ step j i) ∧ ∀ k' ≤ k, ¬AtLevel first step k' i := by
  constructor
  · intro h
    exact ⟨h.exists_step hpos, fun k' hle h' => absurd (h.eq h') (by omega)⟩
  · rintro ⟨⟨j, hj, hstep⟩, hnew⟩
    refine ⟨.step hj.1 hstep, fun k' hlt hchain => ?_⟩
    obtain ⟨k'', hle, hlevel⟩ := exists_atLevel hchain
    exact hnew k'' (by omega) hlevel

/-- There are nodes at all levels before. -/
theorem AtLevel.exists_before {k : Nat} {i : ι} (h : AtLevel first step k i) {k' : Nat} (hpos : 0 < k') (hle : k' ≤ k) :
    ∃ j, AtLevel first step k' j := by
  obtain ⟨d, rfl⟩ := Nat.exists_eq_add_of_le hle
  clear hle
  induction d generalizing i with
  | zero => exact ⟨i, h⟩
  | succ d ih =>
    obtain ⟨j, hj, -⟩ := AtLevel.exists_step (k := k' + d) h (by omega)
    exact ih hj

/-- After an empty level there are no others. -/
theorem lt_of_empty {k : Nat} (hpos : 0 < k) (hempty : ∀ i, ¬AtLevel first step k i) {k' : Nat} {i : ι}
    (h : AtLevel first step k' i) : k' < k := by
  by_contra hle
  obtain ⟨j, hj⟩ := h.exists_before hpos (Nat.le_of_not_lt hle)
  exact hempty j hj

/-- The least length of a chain that ends at a last node. -/
def IsShortest (first : ι → Prop) (step : ι → ι → Prop) (last : ι → Prop) (k : Nat) : Prop :=
  IsLeast {k | ∃ i, Chain first step k i ∧ last i} k

theorem isShortest_of_levels {last : ι → Prop} {k : Nat} {i : ι} (h : AtLevel first step k i) (hlast : last i)
    (hbefore : ∀ k' < k, ∀ j, AtLevel first step k' j → ¬last j) : IsShortest first step last k := by
  refine ⟨⟨i, h.1, hlast⟩, ?_⟩
  rintro k' ⟨j, hchain, hlast'⟩
  by_contra hlt
  obtain ⟨k'', hle, hlevel⟩ := exists_atLevel hchain
  exact hbefore k'' (by omega) j hlevel hlast'

/-- The fewest nodes of a chain that ends at a last node, `⊤` if there is none. -/
noncomputable def fewest (first : ι → Prop) (step : ι → ι → Prop) (last : ι → Prop) : ℕ∞ :=
  ⨅ k ∈ {k : Nat | ∃ i, Chain first step k i ∧ last i}, (k : ℕ∞)

theorem fewest_eq {last : ι → Prop} {k : Nat} (h : IsShortest first step last k) : fewest first step last = k := by
  apply le_antisymm (iInf₂_le k h.1)
  exact le_iInf₂ fun k' hk' => Nat.cast_le.2 (h.2 hk')

theorem fewest_eq_top {last : ι → Prop} (h : ∀ k i, Chain first step k i → ¬last i) :
    fewest first step last = ⊤ := by
  rw [fewest, iInf₂_eq_top]
  rintro k ⟨i, hchain, hlast⟩
  exact absurd hlast (h k i hchain)

theorem one_le_fewest {last : ι → Prop} : 1 ≤ fewest first step last := by
  apply le_iInf₂
  rintro k ⟨i, hchain, -⟩
  exact Nat.one_le_cast.2 hchain.pos

end Chain

end Tce
