import Mathlib.Data.Finset.Card
import Tce.POM.ReferenceOperations

/-!
# Runs of the instruction references

What references denote is a matter of what was done, and the manager keeps to it as long
as no instruction that is referred to is replaced by itself.
-/

namespace Tce.POM.InstructionReferenceManager
variable {I R : Type}

inductive Operation (I R : Type) where
  | createReference (ins : I) (r : R)
  | copy (r ref : R)
  | assign (r ref : R)
  | destroy (r : R)
  | replace (insA insB : I)
  | clearReferences
  deriving DecidableEq, Repr

section Meaning
variable [DecidableEq I] [DecidableEq R]

/-- What references denote after an operation, by what they denoted before. -/
def Operation.after (d : R → Option (Option I)) : Operation I R → R → Option (Option I)
  | createReference ins r => Function.update d r (some (some ins))
  | copy r ref => Function.update d r (d ref)
  | assign r ref => Function.update d r (d ref)
  | destroy r => Function.update d r none
  | replace insA insB => fun r => if d r = some (some insA) then some (some insB) else d r
  | clearReferences => fun r => (d r).map fun _ => none

/-- What references denote after a history: the instruction each was made for, with all
later replacements; `some none` once it was cleared, `none` where there is no reference. -/
def denoted (history : List (Operation I R)) : R → Option (Option I) :=
  history.foldl Operation.after fun _ => none

/-- References that are used exist, those that are made do not exist yet. -/
def Operation.Permitted (d : R → Option (Option I)) : Operation I R → Prop
  | createReference _ r => d r = none
  | copy r ref => d r = none ∧ d ref ≠ none
  | assign r ref => d r ≠ none ∧ d ref ≠ none
  | destroy r => d r ≠ none
  | _ => True

/-- The condition holds of each operation of the history, with what references denote
just before it. -/
def Throughout (P : (R → Option (Option I)) → Operation I R → Prop) (history : List (Operation I R)) : Prop :=
  ∀ before op after, history = before ++ op :: after → P (denoted before) op

def Legal (history : List (Operation I R)) : Prop := Throughout (fun d op => op.Permitted d) history

/-- An instruction that is referred to is replaced by itself. -/
def Operation.ReplacesBySelf (d : R → Option (Option I)) (op : Operation I R) : Prop :=
  ∃ ins, op = .replace ins ins ∧ ∃ r, d r = some (some ins)

def NoneBySelf (history : List (Operation I R)) : Prop := Throughout (fun d op => ¬op.ReplacesBySelf d) history

theorem throughout_nil {P : (R → Option (Option I)) → Operation I R → Prop} : Throughout P [] := by
  intro before op after h
  simp at h

theorem throughout_concat {P : (R → Option (Option I)) → Operation I R → Prop} {before : List (Operation I R)}
    {op : Operation I R} : Throughout P (before ++ [op]) ↔ Throughout P before ∧ P (denoted before) op := by
  constructor
  · intro h
    exact ⟨fun b o a hb => h b o (a ++ [op]) (by simp [hb]), h before op [] rfl⟩
  · rintro ⟨h, hop⟩ b o a hb
    rcases List.eq_nil_or_concat a with rfl | ⟨a, last, rfl⟩
    · obtain ⟨rfl, ho⟩ := List.append_inj' hb rfl
      cases ho
      exact hop
    · have hb' : before ++ [op] = (b ++ o :: a) ++ [last] := by simpa using hb
      exact h b o a (List.append_inj' hb' rfl).1

theorem Throughout.of_append {P : (R → Option (Option I)) → Operation I R → Prop} {before after : List (Operation I R)}
    (h : Throughout P (before ++ after)) : Throughout P before := by
  rintro b op a rfl
  exact h b op (a ++ after) (by simp)

theorem denoted_append (before after : List (Operation I R)) :
    denoted (before ++ after) = after.foldl Operation.after (denoted before) :=
  List.foldl_append

end Meaning

variable [LinearOrder I] [LinearOrder R]

def perform (s : InstructionReferenceManager I R) : Operation I R → Except Failure (InstructionReferenceManager I R)
  | .createReference ins r => s.createReference ins r
  | .copy r ref => s.copy r ref
  | .assign r ref => s.assign r ref
  | .destroy r => s.destroy r
  | .replace insA insB => s.replace insA insB
  | .clearReferences => s.clearReferences

/-- `InstanceNotFound` is thrown before anything is changed. -/
def step (s : InstructionReferenceManager I R) (op : Operation I R) : Except Failure (InstructionReferenceManager I R) :=
  match s.perform op with
  | .error .instanceNotFound => .ok s
  | result => result

def run (history : List (Operation I R)) : Except Failure (InstructionReferenceManager I R) :=
  history.foldlM step empty

/-- The manager is in step with what references denote: one object for each instruction that
has references, and no others. -/
structure Agrees (s : InstructionReferenceManager I R) (d : R → Option (Option I)) : Prop where
  instruction : ∀ r ins, d r = some ins → s.instruction r = .ok ins
  hasReference : ∀ ins, s.hasReference ins = true ↔ ∃ r, d r = some (some ins)
  referenceCount : ∀ ins, ∃ alive : Finset R, (∀ r, r ∈ alive ↔ d r = some (some ins)) ∧
    s.referenceCount ins = .ok alive.card
  object : ∀ ins, (∃ r, d r = some (some ins)) ↔ ∃! p, ∃ i, s.impls p = some i ∧ i.ins = ins
  refs : ∀ p i, s.impls p = some i → ∀ r, r ∈ i.refs ↔ d r = some (some i.ins)

theorem Good.agrees {s : InstructionReferenceManager I R} (h : Good s) : Agrees s s.denotes where
  instruction r ins hr := by
    obtain ⟨p, hp, hlead⟩ := impl_of_denotes h hr
    cases p with
    | none => simp [InstructionReferenceManager.instruction, implOf_eq hp, show ins = none from hlead, bind,
        Except.bind, pure, Except.pure]
    | some p =>
      obtain ⟨i, hi, rfl⟩ := hlead
      simp [InstructionReferenceManager.instruction, implOf_eq hp, implAt_eq hi, bind, Except.bind, pure, Except.pure]
  hasReference ins := by
    rw [InstructionReferenceManager.hasReference, Option.isSome_iff_ne_none, ne_eq, find_none_iff h]
    simp
  referenceCount ins := by
    cases hf : OrderedMap.find s.references ins with
    | none =>
      refine ⟨∅, fun r => ?_, by simp [InstructionReferenceManager.referenceCount, hf]⟩
      simp [(find_none_iff h).mp hf r]
    | some p =>
      obtain ⟨i, hi, rfl⟩ := h.impl_of_find hf
      refine ⟨i.refs.toFinset, fun r => by rw [List.mem_toFinset, mem_refs_iff h hi], ?_⟩
      simp [InstructionReferenceManager.referenceCount, hf, implAt_eq hi, List.toFinset_card_of_nodup (h.nodup p i hi),
        bind, Except.bind, pure, Except.pure]
  object ins := by
    constructor
    · rintro ⟨r, hr⟩
      cases hf : OrderedMap.find s.references ins with
      | none => exact absurd hr ((find_none_iff h).mp hf r)
      | some p =>
        obtain ⟨i, hi, rfl⟩ := h.impl_of_find hf
        exact ⟨p, ⟨i, hi, rfl⟩, fun q ⟨j, hj, hji⟩ => h.impl_unique hj hi hji⟩
    · rintro ⟨p, ⟨i, hi, rfl⟩, -⟩
      obtain ⟨r, hr⟩ := List.exists_mem_of_ne_nil _ (h.used p i hi)
      exact ⟨r, (mem_refs_iff h hi).mp hr⟩
  refs p i hi r := mem_refs_iff h hi

section Step
variable {s : InstructionReferenceManager I R} (h : Good s) {op : Operation I R}
include h

theorem step_gives (hp : op.Permitted s.denotes) (hself : ¬op.ReplacesBySelf s.denotes) :
    Gives (s.step op) (op.after s.denotes) := by
  have lift {result : Except Failure (InstructionReferenceManager I R)} (hresult : s.perform op = result)
      (hg : Gives result (op.after s.denotes)) : Gives (s.step op) (op.after s.denotes) := by
    obtain ⟨t, rfl, hgood, hden⟩ := hg
    exact ⟨t, by simp [step, hresult], hgood, hden⟩
  cases op with
  | createReference ins r => exact lift rfl (createReference_gives h hp)
  | copy r ref =>
    obtain ⟨d, hd⟩ := Option.ne_none_iff_exists'.mp hp.2
    exact lift rfl (by simpa [Operation.after, hd, perform] using copy_gives h hp.1 hd)
  | assign r ref =>
    obtain ⟨d', hd'⟩ := Option.ne_none_iff_exists'.mp hp.1
    obtain ⟨d, hd⟩ := Option.ne_none_iff_exists'.mp hp.2
    exact lift rfl (by simpa [Operation.after, hd, perform] using assign_gives h hd' hd)
  | destroy r =>
    obtain ⟨d, hd⟩ := Option.ne_none_iff_exists'.mp hp
    exact lift rfl (destroy_gives h hd)
  | replace insA insB =>
    by_cases hA : ∃ r, s.denotes r = some (some insA)
    · have hne : insA ≠ insB := by
        rintro rfl
        exact hself ⟨insA, rfl, hA⟩
      exact lift rfl (replace_gives h hA hne)
    · have hnone : ∀ r, s.denotes r ≠ some (some insA) := fun r hr => hA ⟨r, hr⟩
      have hthrow : s.perform (.replace insA insB) = .error .instanceNotFound := by
        simp [perform, InstructionReferenceManager.replace, (find_none_iff h).mpr hnone]
      exact ⟨s, by simp [step, hthrow], h, by simp [Operation.after, hnone]⟩
  | clearReferences => exact lift rfl (clearReferences_gives h)

theorem step_of_replacesBySelf (hself : op.ReplacesBySelf s.denotes) : s.step op = .error .fault := by
  obtain ⟨ins, rfl, hr⟩ := hself
  have hthrow : s.perform (.replace ins ins) = .error .fault := replace_self h hr
  simp [step, hthrow]

end Step

theorem run_concat {before : List (Operation I R)} {op : Operation I R} {s : InstructionReferenceManager I R}
    (hs : run before = .ok s) : run (before ++ [op]) = s.step op := by
  have hs' : before.foldlM step empty = .ok s := hs
  rw [run, List.foldlM_append, hs']
  cases hop : s.step op with
  | ok t => simp [hop, bind, Except.bind, pure, Except.pure]
  | error e => simp [hop, bind, Except.bind]

theorem run_gives {history : List (Operation I R)} (hl : Legal history) (hself : NoneBySelf history) :
    Gives (run history) (denoted history) := by
  induction history using List.reverseRecOn with
  | nil => exact ⟨empty, rfl, good_empty, by funext r; simp [denotes, empty, denoted]⟩
  | append_singleton before op ih =>
    obtain ⟨hl, hpermitted⟩ := throughout_concat.mp hl
    obtain ⟨hself, hop⟩ := throughout_concat.mp hself
    obtain ⟨s, hs, hgood, hden⟩ := ih hl hself
    rw [run_concat hs, denoted_append, ← hden]
    exact step_gives hgood (hden ▸ hpermitted) (hden ▸ hop)

/-- The manager and the references are as they should be throughout the history. -/
def InStep (history : List (Operation I R)) : Prop :=
  ∀ before after, history = before ++ after → ∃ s, run before = .ok s ∧ Agrees s (denoted before)

theorem InStep.of_append {before after : List (Operation I R)} (h : InStep (before ++ after)) : InStep before := by
  rintro b a rfl
  exact h b (a ++ after) (by simp)

theorem InStep.noneBySelf {history : List (Operation I R)} (h : InStep history) (hl : Legal history) :
    NoneBySelf history := by
  induction history using List.reverseRecOn with
  | nil => exact throughout_nil
  | append_singleton before op ih =>
    obtain ⟨hl, -⟩ := throughout_concat.mp hl
    have hself := ih h.of_append hl
    refine throughout_concat.mpr ⟨hself, fun hop => ?_⟩
    obtain ⟨s, hs, hgood, hden⟩ := run_gives hl hself
    obtain ⟨t, ht, -⟩ := h (before ++ [op]) [] (by simp)
    rw [run_concat hs, step_of_replacesBySelf hgood (hden ▸ hop)] at ht
    cases ht

/-- What each reference denotes, the map, the counts and the objects are in step throughout
a history just when no instruction that is referred to is replaced by itself. -/
theorem inStep_iff {history : List (Operation I R)} (hl : Legal history) : InStep history ↔ NoneBySelf history := by
  constructor
  · exact fun h => h.noneBySelf hl
  · rintro hself before after rfl
    obtain ⟨s, hs, hgood, hden⟩ := run_gives (Throughout.of_append hl) (Throughout.of_append hself)
    exact ⟨s, hs, hden ▸ hgood.agrees⟩

/-- Two references, and the instruction of one is replaced by that of the other. -/
theorem inStep_merged :
    InStep ([] ++ [.createReference 0 0] ++ [.createReference 1 1] ++ [.replace 0 1] : List (Operation Nat Nat)) := by
  have hl : Legal ([] ++ [.createReference 0 0] ++ [.createReference 1 1] ++ [.replace 0 1] : List (Operation Nat Nat)) := by
    simp only [Legal, throughout_concat]
    exact ⟨⟨⟨throughout_nil, rfl⟩, rfl⟩, trivial⟩
  apply (inStep_iff hl).mpr
  simp only [NoneBySelf, throughout_concat]
  refine ⟨⟨⟨throughout_nil, ?_⟩, ?_⟩, ?_⟩
  · rintro ⟨ins, h, -⟩
    cases h
  · rintro ⟨ins, h, -⟩
    cases h
  · rintro ⟨ins, h, -⟩
    cases h

/-- With one reference to it, an instruction is replaced by itself. -/
theorem not_inStep_replaced_by_self :
    ¬∀ history : List (Operation Nat Nat), Legal history → InStep history := by
  intro h
  have hl : Legal ([] ++ [.createReference 0 0] ++ [.replace 0 0] : List (Operation Nat Nat)) := by
    simp only [Legal, throughout_concat]
    exact ⟨⟨throughout_nil, rfl⟩, trivial⟩
  obtain ⟨s, hs, -⟩ := h _ hl [.createReference 0 0, .replace 0 0] [] rfl
  have hfault : run ([.createReference 0 0, .replace 0 0] : List (Operation Nat Nat)) = .error .fault := rfl
  cases hfault.symm.trans hs

end Tce.POM.InstructionReferenceManager
