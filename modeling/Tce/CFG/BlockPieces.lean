import Tce.CFG.SplitBlocks

/-!
# The pieces of a block

The instruction lists that the blocks split off one block have, and when they are
as they should be: with calls at the end only, and referred to at the beginning only.
-/

namespace Tce.CFG

/-- Where an instruction list is split, as that of a block at the address 0. -/
def splitIndex (split : List Instruction → Nat → Nat → Option Nat) (instructions : List Instruction) : Option Nat :=
  (List.range instructions.length).findSome? fun i => split instructions i i

/-- The lists that an instruction list is split into. -/
inductive Pieces (split : List Instruction → Nat → Nat → Option Nat) : List Instruction → List (List Instruction) → Prop
  | whole {l} : splitIndex split l = none → Pieces split l [l]
  | cut {l i pieces} : splitIndex split l = some i → Pieces split (l.drop i) pieces → Pieces split l (l.take i :: pieces)

/-- Calls are in the last instruction only. -/
def CallsLast (l : List Instruction) : Prop := ∀ i ∈ l.dropLast, i.hasCall = false

/-- References are to the first instruction only. -/
def ReferencesFirst (l : List Instruction) : Prop := ∀ i ∈ l.tail, i.hasReference = false

/-- The number of calls that are not in the last instruction. -/
def middleCalls (l : List Instruction) : Nat := l.dropLast.countP (·.hasCall)

/-- An instruction that is referred to and has a call in the middle of the block, and is not behind a call. -/
def ReferredCall (l : List Instruction) : Prop :=
  ∃ k i j, l[k]? = some i ∧ l[k + 1]? = some j ∧ k + 2 < l.length ∧ i.hasCall = false ∧ j.hasCall = true ∧
    j.hasReference = true

section Finding
variable {split : List Instruction → Nat → Nat → Option Nat} {bb : BasicBlock} {l : List Instruction} {i : Nat}

theorem findSplit_eq (hstart : bb.startAddress = 0) {is : List Nat} (his : ∀ i ∈ is, i < bb.instructionCount) :
    findSplit split bb is = .ok (is.findSome? fun i => split bb.instructions i i) := by
  induction is with
  | nil => rfl
  | cons i is ih =>
    have hat : bb.instructionAt i = some i := by simp [BasicBlock.instructionAt, hstart, his i (by simp)]
    rw [findSplit, hat]
    cases hs : split bb.instructions i i with
    | none => simpa [hs] using ih fun k hk => his k (by simp [hk])
    | some n => simp [hs]

/-- A block at the address 0 is looked at from its first instruction on. -/
theorem findSplit_range (hstart : bb.startAddress = 0) :
    findSplit split bb (List.range bb.instructionCount) = .ok (splitIndex split bb.instructions) :=
  findSplit_eq hstart fun _ hi => List.mem_range.1 hi

/-- In another block the first address is none of its. -/
theorem findSplit_error (hstart : bb.startAddress ≠ 0) (hcount : bb.instructions ≠ []) :
    findSplit split bb (List.range bb.instructionCount) = .error .KeyNotFound := by
  have hpos : 0 < bb.instructionCount := List.length_pos_iff.2 hcount
  obtain ⟨n, hn⟩ := Nat.exists_eq_succ_of_ne_zero (Nat.ne_of_gt hpos)
  have hat : bb.instructionAt 0 = none := by
    simp only [BasicBlock.instructionAt]
    rw [if_neg (by omega)]
  rw [hn, List.range_succ_eq_map, findSplit, hat]

theorem splitsAfterCall_iff : splitsAfterCall l i = true ↔ i + 1 < l.length ∧ ∃ j, l[i]? = some j ∧ j.hasCall = true := by
  cases h : l[i]? with
  | none => simp [splitsAfterCall, h]
  | some j =>
    have hlt : i < l.length := (List.getElem?_eq_some_iff.1 h).1
    simp only [splitsAfterCall, h, Option.any_some, Bool.and_eq_true, bne_iff_ne, ne_eq, Option.some.injEq,
      exists_eq_left']
    constructor
    · rintro ⟨hcall, hne⟩
      exact ⟨by omega, hcall⟩
    · rintro ⟨hne, hcall⟩
      exact ⟨hcall, by omega⟩

theorem splitIndex_none : splitIndex split l = none ↔ ∀ k < l.length, split l k k = none := by
  simp [splitIndex, List.findSome?_eq_none_iff]

theorem splitIndex_some {n : Nat} (hi : i < l.length) (hs : split l i i = some n) (hbefore : ∀ k < i, split l k k = none) :
    splitIndex split l = some n := by
  obtain ⟨rest, hrest⟩ : ∃ rest, List.range l.length = List.range i ++ i :: rest := by
    refine ⟨(List.range (l.length - i - 1)).map (i + 1 + ·), ?_⟩
    have hl : l.length = i + (1 + (l.length - i - 1)) := by omega
    conv_lhs => rw [hl, List.range_add, List.range_add]
    simp [Nat.add_assoc]
  have hnone : (List.range i).findSome? (fun k => split l k k) = none := by
    rw [List.findSome?_eq_none_iff]
    exact fun k hk => hbefore k (List.mem_range.1 hk)
  rw [splitIndex, hrest, List.findSome?_append, hnone]
  simp [hs]

/-- The first instruction that the list is split at, if there is one. -/
theorem splitIndex_cases (split : List Instruction → Nat → Nat → Option Nat) (l : List Instruction) :
    splitIndex split l = none ∨ ∃ before c rest n, l = before ++ c :: rest ∧ splitIndex split l = some n ∧
      split l before.length before.length = some n ∧ ∀ k < before.length, split l k k = none := by
  by_cases h : ∃ k, k < l.length ∧ split l k k ≠ none
  · right
    obtain ⟨hlt, hne⟩ := Nat.find_spec h
    obtain ⟨n, hn⟩ := Option.ne_none_iff_exists'.1 hne
    have hbefore : ∀ k < Nat.find h, split l k k = none := fun k hk => by
      by_contra hk'
      exact Nat.find_min h hk ⟨by omega, hk'⟩
    refine ⟨l.take (Nat.find h), l[Nat.find h], l.drop (Nat.find h + 1), n, ?_, splitIndex_some hlt hn hbefore, ?_, ?_⟩
    · rw [← List.drop_eq_getElem_cons hlt, List.take_append_drop]
    · rwa [List.length_take_of_le (Nat.le_of_lt hlt)]
    · rwa [List.length_take_of_le (Nat.le_of_lt hlt)]
  · left
    simp only [not_exists, not_and, not_not] at h
    exact splitIndex_none.2 h

end Finding

/-! ## Calls -/

section Calls
variable {l before rest : List Instruction} {c : Instruction}

theorem splitsAfterCall_before {k : Nat} (hbefore : ∀ i ∈ before, i.hasCall = false) (hk : k < before.length) :
    splitsAfterCall (before ++ rest) k = false := by
  rw [Bool.eq_false_iff, Ne, splitsAfterCall_iff, List.getElem?_append_left hk]
  rintro ⟨-, j, hj, hcall⟩
  simp [hbefore j (List.mem_of_getElem? hj)] at hcall

theorem splitsAfterCall_call (hc : c.hasCall = true) (hrest : rest ≠ []) :
    splitsAfterCall (before ++ c :: rest) before.length = true := by
  have := List.length_pos_iff.2 hrest
  exact splitsAfterCall_iff.2 ⟨by simp; omega, c, by simp, hc⟩

/-- The first call that is not at the end, or there is none. -/
theorem callsLast_or (l : List Instruction) :
    CallsLast l ∨ ∃ before c rest, l = before ++ c :: rest ∧ rest ≠ [] ∧ (∀ i ∈ before, i.hasCall = false) ∧
      c.hasCall = true := by
  induction l with
  | nil => exact .inl (by simp [CallsLast])
  | cons i l ih =>
    cases l with
    | nil => exact .inl (by simp [CallsLast])
    | cons j l =>
      cases hi : i.hasCall with
      | true => exact .inr ⟨[], i, j :: l, rfl, by simp, by simp, hi⟩
      | false =>
        rcases ih with h | ⟨before, c, rest, hl, hrest, hbefore, hc⟩
        · refine .inl fun k hk => ?_
          rw [List.dropLast_cons_cons] at hk
          rcases List.mem_cons.1 hk with rfl | hk
          · exact hi
          · exact h k hk
        · refine .inr ⟨i :: before, c, rest, by simp [hl], hrest, fun k hk => ?_, hc⟩
          rcases List.mem_cons.1 hk with rfl | hk
          · exact hi
          · exact hbefore k hk

theorem CallsLast.splitsAfterCall (h : CallsLast l) (k : Nat) : splitsAfterCall l k = false := by
  rw [Bool.eq_false_iff, Ne, splitsAfterCall_iff]
  rintro ⟨hk, j, hj, hcall⟩
  have hmem : j ∈ l.dropLast := by
    refine List.mem_of_getElem? (i := k) ?_
    rw [List.getElem?_dropLast, if_pos (by omega), hj]
  simp [h j hmem] at hcall

theorem callsLast_append_call (hbefore : ∀ i ∈ before, i.hasCall = false) : CallsLast (before ++ [c]) := by
  simpa [CallsLast] using hbefore

theorem splitIndex_callSplit (hrest : rest ≠ []) (hbefore : ∀ i ∈ before, i.hasCall = false) (hc : c.hasCall = true) :
    splitIndex callSplit (before ++ c :: rest) = some (before.length + 1) := by
  refine splitIndex_some (by simp) (i := before.length) ?_ fun k hk => ?_
  · simp [callSplit, splitsAfterCall_call hc hrest]
  · simp [callSplit, splitsAfterCall_before hbefore hk]

theorem splitIndex_callSplit_none : splitIndex callSplit l = none ↔ CallsLast l := by
  rcases callsLast_or l with h | ⟨before, c, rest, rfl, hrest, hbefore, hc⟩
  · simp only [h, iff_true]
    exact splitIndex_none.2 fun k _ => by simp [callSplit, h.splitsAfterCall]
  · simp only [splitIndex_callSplit hrest hbefore hc, reduceCtorEq, false_iff]
    intro h
    have hnot := h.splitsAfterCall before.length
    simp [splitsAfterCall_call hc hrest] at hnot

theorem middleCalls_append (hrest : rest ≠ []) (hbefore : ∀ i ∈ before, i.hasCall = false) (hc : c.hasCall = true) :
    middleCalls (before ++ c :: rest) = middleCalls rest + 1 := by
  have hdrop : (before ++ c :: rest).dropLast = before ++ c :: rest.dropLast := by
    rw [List.dropLast_append_of_ne_nil (by simp), List.dropLast_cons_of_ne_nil hrest]
  have hzero : before.countP (·.hasCall) = 0 := List.countP_eq_zero.2 fun i hi => by simp [hbefore i hi]
  simp [middleCalls, hdrop, hzero, hc]

theorem middleCalls_eq_zero : middleCalls l = 0 ↔ CallsLast l := by
  simp [middleCalls, CallsLast, List.countP_eq_zero]

/-- There is a piece more than calls that are not at the end, and the pieces have their calls at the end. -/
theorem pieces_callSplit {pieces : List (List Instruction)} (h : Pieces callSplit l pieces) :
    pieces.length = middleCalls l + 1 ∧ ∀ p ∈ pieces, CallsLast p := by
  induction h with
  | whole h =>
    have hlast := splitIndex_callSplit_none.1 h
    simp [hlast, middleCalls_eq_zero.2 hlast]
  | @cut l i pieces h _ ih =>
    rcases callsLast_or l with hlast | ⟨before, c, rest, rfl, hrest, hbefore, hc⟩
    · rw [splitIndex_callSplit_none.2 hlast] at h
      cases h
    · rw [splitIndex_callSplit hrest hbefore hc] at h
      obtain rfl := Option.some.inj h
      have htake : (before ++ c :: rest).take (before.length + 1) = before ++ [c] := by simp [List.take_append]
      have hdrop : (before ++ c :: rest).drop (before.length + 1) = rest := by simp [List.drop_append]
      rw [hdrop] at ih
      rw [htake, middleCalls_append hrest hbefore hc]
      exact ⟨by simp [ih.1], List.forall_mem_cons.2 ⟨callsLast_append_call hbefore, ih.2⟩⟩

end Calls

/-! ## References -/

section References
variable {l before rest : List Instruction} {c : Instruction}

theorem getElem?_before {k : Nat} (hk : k < before.length) : (before ++ rest)[k]? = some before[k] := by
  rw [List.getElem?_append_left hk, List.getElem?_eq_getElem hk]

theorem getElem?_behind (k : Nat) : (before ++ rest)[before.length + k]? = rest[k]? := by
  rw [List.getElem?_append_right (Nat.le_add_right ..), Nat.add_sub_cancel_left]

theorem callOrReferenceSplit_none {k : Nat} : callOrReferenceSplit l k k = none ↔
    splitsAfterCall l k = false ∧ (k ≠ 0 → ∀ j, l[k]? = some j → j.hasReference = false) := by
  cases hs : splitsAfterCall l k with
  | true => simp [callOrReferenceSplit, hs]
  | false => cases hj : l[k]? <;> simp [callOrReferenceSplit, hs, hj]

/-- The instructions before the first split have no calls, and no references but to the first of them. -/
theorem before_of_none (h : ∀ k < before.length, callOrReferenceSplit (before ++ c :: rest) k k = none) :
    (∀ i ∈ before, i.hasCall = false) ∧ ReferencesFirst before := by
  constructor
  · intro i hi
    obtain ⟨k, hk, rfl⟩ := List.mem_iff_getElem.1 hi
    have hnot := (callOrReferenceSplit_none.1 (h k hk)).1
    rw [Bool.eq_false_iff, Ne, splitsAfterCall_iff] at hnot
    by_contra hcall
    exact hnot ⟨by simp; omega, before[k], getElem?_before hk, by simpa using hcall⟩
  · intro i hi
    obtain ⟨k, hk, rfl⟩ := List.mem_iff_getElem.1 hi
    have hlt : k + 1 < before.length := by
      rw [List.length_tail] at hk
      omega
    have hnot := (callOrReferenceSplit_none.1 (h (k + 1) hlt)).2 (by simp) _ (getElem?_before hlt)
    rwa [List.getElem_tail]

theorem splitIndex_callOrReferenceSplit_none :
    splitIndex callOrReferenceSplit l = none ↔ CallsLast l ∧ ReferencesFirst l := by
  constructor
  · intro h
    have h := splitIndex_none.1 h
    constructor
    · rcases callsLast_or l with hlast | ⟨before, c, rest, rfl, hrest, -, hc⟩
      · exact hlast
      · have hnot := (callOrReferenceSplit_none.1 (h before.length (by simp))).1
        simp [splitsAfterCall_call hc hrest] at hnot
    · intro i hi
      obtain ⟨k, hk, rfl⟩ := List.mem_iff_getElem.1 hi
      have hlt : k + 1 < l.length := by
        rw [List.length_tail] at hk
        omega
      exact (callOrReferenceSplit_none.1 (h (k + 1) hlt)).2 (by simp) _ (by simp [hlt])
  · rintro ⟨hlast, hfirst⟩
    refine splitIndex_none.2 fun k hk => callOrReferenceSplit_none.2 ⟨hlast.splitsAfterCall k, fun hne j hj => ?_⟩
    refine hfirst j (List.mem_of_getElem? (i := k - 1) ?_)
    rw [List.getElem?_tail, Nat.sub_add_cancel (by omega), hj]

theorem not_referredCall (hlast : CallsLast l) : ¬ ReferredCall l := by
  rintro ⟨k, i, j, -, hj, hk, -, hcall, -⟩
  have hmem : j ∈ l.dropLast := by
    refine List.mem_of_getElem? (i := k + 1) ?_
    rw [List.getElem?_dropLast, if_pos (by omega), hj]
  simp [hlast j hmem] at hcall

/-- Behind a call a new list begins. -/
theorem referredCall_call (hrest : rest ≠ []) (hbefore : ∀ i ∈ before, i.hasCall = false) (hc : c.hasCall = true) :
    ReferredCall (before ++ c :: rest) ↔ before ≠ [] ∧ c.hasReference = true ∨ ReferredCall rest := by
  constructor
  · rintro ⟨k, i, j, hi, hj, hk, hicall, hjcall, href⟩
    rcases Nat.lt_trichotomy (k + 1) before.length with hlt | heq | hgt
    · rw [List.getElem?_append_left hlt] at hj
      simp [hbefore j (List.mem_of_getElem? hj)] at hjcall
    · obtain rfl : c = j := by simpa [heq] using hj
      exact .inl ⟨List.length_pos_iff.1 (by omega), href⟩
    · obtain ⟨m, rfl⟩ := Nat.exists_eq_add_of_le (Nat.le_of_lt_succ hgt)
      rw [List.getElem?_append_right (by omega), Nat.add_sub_cancel_left] at hi
      rw [List.getElem?_append_right (by omega), Nat.add_assoc, Nat.add_sub_cancel_left] at hj
      cases m with
      | zero =>
        obtain rfl : c = i := by simpa using hi
        simp [hc] at hicall
      | succ m => exact .inr ⟨m, i, j, by simpa using hi, by simpa using hj, by simp at hk; omega, hicall, hjcall, href⟩
  · rintro (⟨hne, href⟩ | ⟨k, i, j, hi, hj, hk, h⟩)
    · have hpos := List.length_pos_iff.2 hne
      have hrest := List.length_pos_iff.2 hrest
      have hlt : before.length - 1 < before.length := by omega
      exact ⟨before.length - 1, before[before.length - 1], c, getElem?_before hlt, by simp [Nat.sub_add_cancel hpos],
        by simp; omega, hbefore _ (List.getElem_mem hlt), hc, href⟩
    · refine ⟨before.length + 1 + k, i, j, ?_, ?_, by simp; omega, h⟩
      · rw [Nat.add_assoc, Nat.add_comm 1, getElem?_behind, List.getElem?_cons_succ, hi]
      · rw [Nat.add_assoc, Nat.add_assoc, Nat.add_comm 1, getElem?_behind, List.getElem?_cons_succ, hj]

/-- An instruction that a list is split before has no call, or ends the list. -/
theorem referredCall_reference (hbefore : ∀ i ∈ before, i.hasCall = false) (hc : c.hasCall = true → rest = []) :
    ReferredCall (before ++ c :: rest) ↔ ReferredCall (c :: rest) := by
  constructor
  · rintro ⟨k, i, j, hi, hj, hk, hicall, hjcall, href⟩
    rcases Nat.lt_trichotomy (k + 1) before.length with hlt | heq | hgt
    · rw [List.getElem?_append_left hlt] at hj
      simp [hbefore j (List.mem_of_getElem? hj)] at hjcall
    · obtain rfl : c = j := by simpa [heq] using hj
      simp [hc hjcall] at hk
      omega
    · obtain ⟨m, rfl⟩ := Nat.exists_eq_add_of_le (Nat.le_of_lt_succ hgt)
      rw [List.getElem?_append_right (by omega), Nat.add_sub_cancel_left] at hi
      rw [List.getElem?_append_right (by omega), Nat.add_assoc, Nat.add_sub_cancel_left] at hj
      exact ⟨m, i, j, hi, hj, by simp at hk ⊢; omega, hicall, hjcall, href⟩
  · rintro ⟨k, i, j, hi, hj, hk, h⟩
    exact ⟨before.length + k, i, j, by rw [getElem?_behind, hi], by rw [Nat.add_assoc, getElem?_behind, hj],
      by simp at hk ⊢; omega, h⟩

theorem referencesFirst_append_call (h : ReferencesFirst before) :
    ReferencesFirst (before ++ [c]) ↔ ¬ (before ≠ [] ∧ c.hasReference = true) := by
  cases before with
  | nil => simp [ReferencesFirst]
  | cons b before =>
    have h : ∀ i ∈ before, i.hasReference = false := h
    simp only [ReferencesFirst, List.cons_append, List.tail_cons, List.mem_append, List.mem_singleton, ne_eq,
      reduceCtorEq, not_false_eq_true, true_and, Bool.not_eq_true]
    exact ⟨fun hall => hall c (.inr rfl), fun hc i hi => hi.elim (h i) fun hi => hi ▸ hc⟩

/-- The pieces have their calls at the end. They are referred to at the beginning only, unless a call in the
middle is referred to. -/
theorem pieces_callOrReferenceSplit {pieces : List (List Instruction)} (h : Pieces callOrReferenceSplit l pieces) :
    (∀ p ∈ pieces, CallsLast p) ∧ ((∀ p ∈ pieces, ReferencesFirst p) ↔ ¬ ReferredCall l) := by
  induction h with
  | whole h =>
    obtain ⟨hlast, hfirst⟩ := splitIndex_callOrReferenceSplit_none.1 h
    simp [hlast, hfirst, not_referredCall hlast]
  | @cut l i pieces h _ ih =>
    rcases splitIndex_cases callOrReferenceSplit l with hnone | ⟨before, c, rest, n, rfl, hn, hat, hnone⟩
    · rw [hnone] at h
      cases h
    · obtain rfl : n = i := Option.some.inj (hn.symm.trans h)
      obtain ⟨hbefore, hfirst⟩ := before_of_none hnone
      unfold callOrReferenceSplit at hat
      split at hat
      · -- behind a call
        rename_i hcall
        obtain rfl := Option.some.inj hat
        obtain ⟨hlt, j, hj, hc⟩ := splitsAfterCall_iff.1 hcall
        obtain rfl : c = j := by simpa using hj
        have hrest : rest ≠ [] := List.length_pos_iff.1 (by simp at hlt; omega)
        have htake : (before ++ c :: rest).take (before.length + 1) = before ++ [c] := by simp [List.take_append]
        have hdrop : (before ++ c :: rest).drop (before.length + 1) = rest := by simp [List.drop_append]
        rw [hdrop] at ih
        rw [htake, referredCall_call hrest hbefore hc, not_or]
        exact ⟨List.forall_mem_cons.2 ⟨callsLast_append_call hbefore, ih.1⟩,
          by rw [List.forall_mem_cons, referencesFirst_append_call hfirst, ih.2]⟩
      · split at hat
        · -- before a reference
          rename_i hcall href
          obtain rfl := Option.some.inj hat
          simp only [Bool.and_eq_true, bne_iff_ne, ne_eq] at href
          have hc : c.hasCall = true → rest = [] := by
            intro hc
            by_contra hrest
            exact hcall (splitsAfterCall_call hc hrest)
          have htake : (before ++ c :: rest).take before.length = before := by simp
          have hdrop : (before ++ c :: rest).drop before.length = c :: rest := by simp
          rw [hdrop] at ih
          rw [htake, referredCall_reference hbefore hc]
          refine ⟨List.forall_mem_cons.2 ⟨fun i hi => hbefore i (List.dropLast_subset _ hi), ih.1⟩, ?_⟩
          rw [List.forall_mem_cons, ih.2]
          simp [hfirst]
        · cases hat

end References

/-! ## Any lists -/

section Pieces
variable {split : List Instruction → Nat → Nat → Option Nat} {l : List Instruction} {pieces : List (List Instruction)}

/-- A list is split into two that are not empty. -/
def Cuts (split : List Instruction → Nat → Nat → Option Nat) : Prop :=
  ∀ l i, splitIndex split l = some i → 0 < i ∧ i < l.length

theorem exists_pieces (hcuts : Cuts split) (l : List Instruction) : ∃ pieces, Pieces split l pieces := by
  induction h : l.length using Nat.strong_induction_on generalizing l with
  | _ n ih =>
    subst h
    cases hs : splitIndex split l with
    | none => exact ⟨_, .whole hs⟩
    | some i =>
      have hi := hcuts l i hs
      obtain ⟨pieces, hp⟩ := ih (l.drop i).length (by simp; omega) _ rfl
      exact ⟨_, .cut hs hp⟩

theorem Pieces.length_pos (h : Pieces split l pieces) : 0 < pieces.length := by
  cases h <;> simp

theorem Pieces.length_le (hcuts : Cuts split) (h : Pieces split l pieces) : pieces.length ≤ l.length + 1 := by
  induction h with
  | whole => simp
  | @cut l i pieces h _ ih =>
    have hi := hcuts l i h
    rw [List.length_drop] at ih
    simp only [List.length_cons]
    omega

theorem cuts_callSplit : Cuts callSplit := by
  intro l i h
  rcases splitIndex_cases callSplit l with hnone | ⟨before, c, rest, n, rfl, hn, hat, -⟩
  · rw [hnone] at h
    cases h
  · obtain rfl : n = i := Option.some.inj (hn.symm.trans h)
    unfold callSplit at hat
    split at hat
    · rename_i hcall
      obtain rfl := Option.some.inj hat
      exact ⟨Nat.succ_pos _, (splitsAfterCall_iff.1 hcall).1⟩
    · cases hat

theorem cuts_callOrReferenceSplit : Cuts callOrReferenceSplit := by
  intro l i h
  rcases splitIndex_cases callOrReferenceSplit l with hnone | ⟨before, c, rest, n, rfl, hn, hat, -⟩
  · rw [hnone] at h
    cases h
  · obtain rfl : n = i := Option.some.inj (hn.symm.trans h)
    unfold callOrReferenceSplit at hat
    split at hat
    · rename_i hcall
      obtain rfl := Option.some.inj hat
      exact ⟨Nat.succ_pos _, (splitsAfterCall_iff.1 hcall).1⟩
    · split at hat
      · rename_i href
        obtain rfl := Option.some.inj hat
        simp only [Bool.and_eq_true, bne_iff_ne, ne_eq] at href
        exact ⟨Nat.pos_of_ne_zero href.1, by simp⟩
      · cases hat

/-- What is left of a list that is split after a call is not split again. -/
theorem splitIndex_callSplit_take {i : Nat} (h : splitIndex callSplit l = some i) :
    splitIndex callSplit (l.take i) = none := by
  rcases callsLast_or l with hlast | ⟨before, c, rest, rfl, hrest, hbefore, hc⟩
  · rw [splitIndex_callSplit_none.2 hlast] at h
    cases h
  · rw [splitIndex_callSplit hrest hbefore hc] at h
    obtain rfl := Option.some.inj h
    have htake : (before ++ c :: rest).take (before.length + 1) = before ++ [c] := by simp [List.take_append]
    rw [htake]
    exact splitIndex_callSplit_none.2 (callsLast_append_call hbefore)

end Pieces

end Tce.CFG
