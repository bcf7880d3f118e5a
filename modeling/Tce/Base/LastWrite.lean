import Mathlib.Data.List.Induction

/-!
# Last writes

The events of a run write cells. What is in a cell is the last value written to
it, or what was in it at first.
-/

namespace Tce.LastWrite

variable {ε R V : Type} (writes : ε → R → Option V)

def stateAfter (initial : R → V) (run : List ε) : R → V :=
  run.foldl (fun state e r => (writes e r).getD (state r)) initial

/-- The event `e` after `earlier` is the last of the run that writes the cell. -/
def IsLast (run : List ε) (r : R) (earlier : List ε) (e : ε) : Prop :=
  (writes e r).isSome ∧ ∃ later, run = earlier ++ e :: later ∧ ∀ d ∈ later, writes d r = none

variable {writes} {initial : R → V} {run earlier later : List ε} {r : R} {e : ε}

theorem stateAfter_append (run later : List ε) :
    stateAfter writes initial (run ++ later) = stateAfter writes (stateAfter writes initial run) later :=
  List.foldl_append

/-- A cell keeps its value where it is not written. -/
theorem stateAfter_of_unwritten (h : ∀ d ∈ later, writes d r = none) : stateAfter writes initial later r = initial r := by
  induction later generalizing initial with
  | nil => rfl
  | cons d later ih =>
    have hd := h d (by simp)
    simp only [stateAfter, List.foldl_cons] at ih ⊢
    rw [ih fun d hd => h d (by simp [hd]), hd, Option.getD_none]

theorem stateAfter_append_of_unwritten (h : ∀ d ∈ later, writes d r = none) :
    stateAfter writes initial (run ++ later) r = stateAfter writes initial run r := by
  rw [stateAfter_append, stateAfter_of_unwritten h]

theorem IsLast.stateAfter (h : IsLast writes run r earlier e) :
    some (LastWrite.stateAfter writes initial run r) = writes e r := by
  obtain ⟨hwrites, later, rfl, hlater⟩ := h
  obtain ⟨v, hv⟩ := Option.isSome_iff_exists.1 hwrites
  have hrun : earlier ++ e :: later = (earlier ++ [e]) ++ later := by simp
  rw [hrun, stateAfter_append_of_unwritten hlater, stateAfter_append]
  simp [LastWrite.stateAfter, hv]

theorem exists_isLast (h : ∃ e ∈ run, (writes e r).isSome) : ∃ earlier e, IsLast writes run r earlier e := by
  induction run using List.reverseRecOn with
  | nil => simp at h
  | append_singleton run d ih =>
    by_cases hd : (writes d r).isSome
    · exact ⟨run, d, hd, [], rfl, by simp⟩
    · simp only [List.mem_append, List.mem_singleton] at h
      obtain ⟨e, hmem | rfl, he⟩ := h
      · obtain ⟨earlier, e, hlast, later, rfl, hlater⟩ := ih ⟨e, hmem, he⟩
        refine ⟨earlier, e, hlast, later ++ [d], by simp, fun c hc => ?_⟩
        rcases List.mem_append.1 hc with hc | hc
        · exact hlater c hc
        · simpa [List.mem_singleton.1 hc] using hd
      · exact absurd he hd

theorem IsLast.mem (h : IsLast writes run r earlier e) : e ∈ run := by
  obtain ⟨-, later, rfl, -⟩ := h
  simp

theorem IsLast.split (h : IsLast writes run r earlier e) : ∃ later, run = earlier ++ e :: later := by
  obtain ⟨-, later, hrun, -⟩ := h
  exact ⟨later, hrun⟩

end Tce.LastWrite
