import Mathlib.Data.List.Sort

/-!
# Uses merged to intervals

Single uses, each of a label in a cycle, are merged: a use goes on the first interval of its
label that ends where the use is, and begins a new one if there is none.
-/

namespace Tce.Base

structure Interval (κ : Type) where
  label : κ
  start : Nat
  cycles : Nat
  deriving DecidableEq, Repr

namespace Interval
variable {κ : Type} [DecidableEq κ] {label l : κ} {cycle c : Nat} {intervals : List (Interval κ)}

def extend (label : κ) (cycle : Nat) : List (Interval κ) → List (Interval κ)
  | [] => [⟨label, cycle, 1⟩]
  | i :: intervals =>
    if i.label = label ∧ i.start + i.cycles = cycle then { i with cycles := i.cycles + 1 } :: intervals
    else i :: extend label cycle intervals

def merge (uses : List (κ × Nat)) (intervals : List (Interval κ)) : List (Interval κ) :=
  uses.foldl (fun intervals use => extend use.1 use.2 intervals) intervals

/-- An interval has a use. -/
def Has (i : Interval κ) (label : κ) (cycle : Nat) : Prop :=
  i.label = label ∧ i.start ≤ cycle ∧ cycle < i.start + i.cycles

def Covered (intervals : List (Interval κ)) (label : κ) (cycle : Nat) : Prop := ∃ i ∈ intervals, i.Has label cycle

/-- Intervals of a label are nonempty and apart, so that no use is in two of them. -/
structure Separate (intervals : List (Interval κ)) : Prop where
  nonempty : ∀ i ∈ intervals, 0 < i.cycles
  apart : intervals.Pairwise fun i j => i.label = j.label → i.start + i.cycles ≤ j.start ∨ j.start + j.cycles ≤ i.start

/-- All intervals of the label have ended. -/
def EndedBy (intervals : List (Interval κ)) (label : κ) (cycle : Nat) : Prop :=
  ∀ i ∈ intervals, i.label = label → i.start + i.cycles ≤ cycle

omit [DecidableEq κ] in
theorem covered_cons {i : Interval κ} : Covered (i :: intervals) l c ↔ i.Has l c ∨ Covered intervals l c := by
  simp [Covered]

theorem covered_extend : Covered (extend label cycle intervals) l c ↔
    (l = label ∧ c = cycle) ∨ Covered intervals l c := by
  induction intervals with
  | nil =>
    simp only [extend, Covered, Has, List.mem_singleton, exists_eq_left, List.not_mem_nil, false_and, exists_false,
      or_false]
    constructor
    · rintro ⟨rfl, hle, hlt⟩
      exact ⟨rfl, by omega⟩
    · rintro ⟨rfl, rfl⟩
      exact ⟨rfl, by omega, by omega⟩
  | cons i intervals ih =>
    rw [extend]
    by_cases hi : i.label = label ∧ i.start + i.cycles = cycle
    · rw [if_pos hi, covered_cons, covered_cons, ← or_assoc]
      refine or_congr_left ?_
      simp only [Has]
      constructor
      · rintro ⟨rfl, hle, hlt⟩
        by_cases hc : c = cycle
        · exact .inl ⟨hi.1, hc⟩
        · exact .inr ⟨rfl, hle, by omega⟩
      · rintro (⟨rfl, rfl⟩ | ⟨rfl, hle, hlt⟩)
        · exact ⟨hi.1, by omega, by omega⟩
        · exact ⟨rfl, hle, by omega⟩
    · rw [if_neg hi, covered_cons, covered_cons, ih, or_left_comm]

/-- The interval that a use is put into: a new one, or one that ended there. -/
def Extends (intervals : List (Interval κ)) (label : κ) (cycle : Nat) (j : Interval κ) : Prop :=
  j.label = label ∧ j.start + j.cycles = cycle + 1 ∧
    (j.start = cycle ∨ ∃ i ∈ intervals, i.label = label ∧ i.start = j.start ∧ i.start + i.cycles = cycle)

theorem mem_extend {j : Interval κ} (h : j ∈ extend label cycle intervals) :
    j ∈ intervals ∨ Extends intervals label cycle j := by
  induction intervals with
  | nil =>
    rw [List.mem_singleton.mp h]
    exact .inr ⟨rfl, rfl, .inl rfl⟩
  | cons i intervals ih =>
    rw [extend] at h
    by_cases hi : i.label = label ∧ i.start + i.cycles = cycle
    · rw [if_pos hi] at h
      rcases List.mem_cons.mp h with rfl | hmem
      · exact .inr ⟨hi.1, congrArg (· + 1) hi.2, .inr ⟨i, List.mem_cons_self, hi.1, rfl, hi.2⟩⟩
      · exact .inl (List.mem_cons_of_mem _ hmem)
    · rw [if_neg hi] at h
      rcases List.mem_cons.mp h with rfl | hmem
      · exact .inl List.mem_cons_self
      · rcases ih hmem with hold | ⟨hlabel, hend, hstart⟩
        · exact .inl (List.mem_cons_of_mem _ hold)
        · exact .inr ⟨hlabel, hend, hstart.imp_right fun ⟨k, hk, h⟩ => ⟨k, List.mem_cons_of_mem _ hk, h⟩⟩

theorem Separate.extend (h : Separate intervals) (hended : EndedBy intervals label cycle) :
    Separate (extend label cycle intervals) := by
  constructor
  case nonempty =>
    intro j hj
    rcases mem_extend hj with hold | ⟨-, hend, hstart | ⟨i, hi, -, hstart, hcycle⟩⟩
    · exact h.nonempty j hold
    · omega
    · omega
  case apart =>
    induction intervals with
    | nil => exact List.pairwise_singleton _ _
    | cons i intervals ih =>
      obtain ⟨hapart, hrest⟩ := List.pairwise_cons.mp h.apart
      have hended' : EndedBy intervals label cycle := fun j hj => hended j (List.mem_cons_of_mem _ hj)
      rw [Interval.extend]
      by_cases hi : i.label = label ∧ i.start + i.cycles = cycle
      · rw [if_pos hi]
        refine List.pairwise_cons.mpr ⟨fun j hj hlabel => ?_, hrest⟩
        have hend := hended' j hj (hlabel.symm.trans hi.1)
        have hpos := h.nonempty j (List.mem_cons_of_mem _ hj)
        rcases hapart j hj hlabel with hbefore | hafter
        · omega
        · exact .inr hafter
      · rw [if_neg hi]
        refine List.pairwise_cons.mpr ⟨fun j hj hlabel => ?_,
          ih ⟨fun j hj => h.nonempty j (List.mem_cons_of_mem _ hj), hrest⟩ hended'⟩
        have hpos := h.nonempty i List.mem_cons_self
        rcases mem_extend hj with hold | ⟨hjlabel, hend, hstart⟩
        · exact hapart j hold hlabel
        have hiend := hended i List.mem_cons_self (hlabel.trans hjlabel)
        rcases hstart with hnew | ⟨k, hk, hklabel, hkstart, hkend⟩
        · omega
        · rcases hapart k hk (hlabel.trans (hjlabel.trans hklabel.symm)) with hbefore | hafter
          · omega
          · omega

theorem EndedBy.extend (hended : EndedBy intervals l c) (hlt : label = l → cycle < c) :
    EndedBy (extend label cycle intervals) l c := by
  intro j hj hlabel
  rcases mem_extend hj with hold | ⟨hjlabel, hend, -⟩
  · exact hended j hold hlabel
  · have := hlt (hjlabel.symm.trans hlabel)
    omega

/-- Uses that come in order are covered, and nothing else is, by intervals that are apart. -/
theorem merge_spec {uses : List (κ × Nat)} (hsep : Separate intervals)
    (hended : ∀ use ∈ uses, EndedBy intervals use.1 use.2)
    (hsorted : uses.Pairwise fun u v => u.1 = v.1 → u.2 < v.2) :
    Separate (merge uses intervals) ∧
      ∀ l c, Covered (merge uses intervals) l c ↔ (l, c) ∈ uses ∨ Covered intervals l c := by
  induction uses generalizing intervals with
  | nil => exact ⟨hsep, fun l c => by simp [merge]⟩
  | cons use uses ih =>
    obtain ⟨hfirst, hrest⟩ := List.pairwise_cons.mp hsorted
    obtain ⟨hhead, htail⟩ := List.forall_mem_cons.mp hended
    obtain ⟨hsep', hcovered⟩ := ih (hsep.extend hhead)
      (fun later hlater => (htail later hlater).extend (hfirst later hlater)) hrest
    refine ⟨hsep', fun l c => (hcovered l c).trans ?_⟩
    rw [covered_extend, List.mem_cons, Prod.ext_iff, or_assoc, or_left_comm]

/-! ## Intervals in the order of their starts -/

/-- The interval goes before the first that starts later. -/
def insertByStart (i : Interval κ) : List (Interval κ) → List (Interval κ)
  | [] => [i]
  | j :: intervals => if i.start < j.start then i :: j :: intervals else j :: insertByStart i intervals

def sortByStart (intervals : List (Interval κ)) : List (Interval κ) :=
  intervals.foldl (fun sorted i => insertByStart i sorted) []

omit [DecidableEq κ] in
theorem perm_insertByStart (i : Interval κ) (sorted : List (Interval κ)) :
    (insertByStart i sorted).Perm (i :: sorted) := by
  induction sorted with
  | nil => exact .refl _
  | cons j sorted ih =>
    rw [insertByStart]
    split
    · exact .refl _
    · exact (List.Perm.cons j ih).trans (.swap i j sorted)

omit [DecidableEq κ] in
theorem sorted_insertByStart (i : Interval κ) {sorted : List (Interval κ)}
    (h : sorted.Pairwise fun i j => i.start ≤ j.start) :
    (insertByStart i sorted).Pairwise fun i j => i.start ≤ j.start := by
  induction sorted with
  | nil => exact List.pairwise_singleton _ _
  | cons j sorted ih =>
    obtain ⟨hfirst, hrest⟩ := List.pairwise_cons.mp h
    rw [insertByStart]
    by_cases hlt : i.start < j.start
    · rw [if_pos hlt]
      refine List.pairwise_cons.mpr ⟨List.forall_mem_cons.mpr ⟨hlt.le, fun k hk => ?_⟩, h⟩
      exact hlt.le.trans (hfirst k hk)
    · rw [if_neg hlt]
      refine List.pairwise_cons.mpr ⟨fun k hk => ?_, ih hrest⟩
      rcases List.mem_cons.mp ((perm_insertByStart i sorted).mem_iff.mp hk) with rfl | hmem
      · exact Nat.not_lt.mp hlt
      · exact hfirst k hmem

omit [DecidableEq κ] in
theorem sortByStart_spec (intervals : List (Interval κ)) :
    (sortByStart intervals).Perm intervals ∧ (sortByStart intervals).Pairwise fun i j => i.start ≤ j.start := by
  have hfold (sorted : List (Interval κ)) (h : sorted.Pairwise fun i j => i.start ≤ j.start) :
      (intervals.foldl (fun sorted i => insertByStart i sorted) sorted).Perm (intervals ++ sorted) ∧
        (intervals.foldl (fun sorted i => insertByStart i sorted) sorted).Pairwise fun i j => i.start ≤ j.start := by
    induction intervals generalizing sorted with
    | nil => exact ⟨.refl _, h⟩
    | cons i intervals ih =>
      obtain ⟨hperm, hsorted⟩ := ih (insertByStart i sorted) (sorted_insertByStart i h)
      refine ⟨hperm.trans ?_, hsorted⟩
      exact ((perm_insertByStart i sorted).append_left intervals).trans List.perm_middle
  have h := hfold [] .nil
  rw [List.append_nil] at h
  exact h

omit [DecidableEq κ] in
theorem Separate.perm {sorted : List (Interval κ)} (h : Separate intervals) (hperm : sorted.Perm intervals) :
    Separate sorted := by
  refine ⟨fun i hi => h.nonempty i (hperm.mem_iff.mp hi), ?_⟩
  exact (hperm.pairwise_iff fun happart hlabel => (happart hlabel.symm).symm).mpr h.apart

omit [DecidableEq κ] in
theorem covered_perm {sorted : List (Interval κ)} (hperm : sorted.Perm intervals) :
    Covered sorted l c ↔ Covered intervals l c := by
  simp only [Covered, hperm.mem_iff]

end Interval

end Tce.Base
