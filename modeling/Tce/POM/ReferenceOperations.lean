import Tce.POM.ReferenceInvariant

/-!
# What the operations on instruction references do

Each ends, keeps the tables in step and changes what references denote as it should.
-/

namespace Tce.POM.InstructionReferenceManager
variable {I R : Type} [LinearOrder I] [LinearOrder R]

/-- The operation ends in a state with the tables in step, in which references denote this. -/
def Gives (result : Except Failure (InstructionReferenceManager I R)) (d : R → Option (Option I)) : Prop :=
  ∃ t, result = .ok t ∧ Good t ∧ t.denotes = d

section Operations
variable {s : InstructionReferenceManager I R} (h : Good s) {r ref : R}
include h

omit h in
theorem Repointed.gives {t : InstructionReferenceManager I R} {x : Option (Option Nat)} {d : Option (Option I)}
    (ht : Repointed s t r x d) : Gives (.ok t) (Function.update s.denotes r d) :=
  ⟨t, rfl, ht.good, funext fun r' => by rw [ht.denotes, Function.update_apply]⟩

omit [LinearOrder R] in
theorem impl_of_denotes {d : Option I} (hr : s.denotes r = some d) : ∃ p, s.impl r = some p ∧ s.Leads p d := by
  cases hp : s.impl r with
  | none => simp [denotes, hp] at hr
  | some p =>
    obtain ⟨d', hd', hr'⟩ := leads_of_impl h hp
    cases hr.symm.trans hr'
    exact ⟨p, rfl, hd'⟩

omit [LinearOrder I] [LinearOrder R] h in
theorem impl_none (hr : s.denotes r = none) : s.impl r = none := by
  simpa [denotes] using hr

theorem copy_gives {d : Option I} (hr : s.denotes r = none) (href : s.denotes ref = some d) :
    Gives (s.copy r ref) (Function.update s.denotes r (some d)) := by
  obtain ⟨p, hp, hlead⟩ := impl_of_denotes h href
  obtain ⟨t, ht, hrep⟩ := construct_spec h (r := r) (by simp [impl_none hr]) hlead
  have heq : s.copy r ref = .ok t := by simp [copy, implOf_eq hp, ht, bind, Except.bind]
  exact heq ▸ hrep.gives

theorem assign_gives {d d' : Option I} (hr : s.denotes r = some d') (href : s.denotes ref = some d) :
    Gives (s.assign r ref) (Function.update s.denotes r (some d)) := by
  obtain ⟨old, hold, hlead'⟩ := impl_of_denotes h hr
  obtain ⟨new, hnew, hlead⟩ := impl_of_denotes h href
  by_cases hne : new = old
  · -- Both already share one object, and nothing is done.
    have hd : d = d' := by
      subst hne
      cases new with
      | none => exact (show d = none from hlead).trans (show d' = none from hlead').symm
      | some p =>
        obtain ⟨i, hi, rfl⟩ := hlead
        obtain ⟨j, hj, rfl⟩ := hlead'
        cases hi.symm.trans hj
        rfl
    have heq : s.assign r ref = .ok s := by
      simp [assign, implOf_eq hold, implOf_eq hnew, hne, bind, Except.bind, pure, Except.pure]
    exact ⟨s, heq, h, by rw [hd, ← hr, Function.update_eq_self]⟩
  · obtain ⟨t, b, ht, hrep⟩ := retarget_spec h hold hlead hne
    have heq : s.assign r ref = .ok t := by
      simp [assign, implOf_eq hold, implOf_eq hnew, hne, ht, bind, Except.bind, pure, Except.pure]
    exact heq ▸ hrep.gives

theorem destroy_gives {d : Option I} (hr : s.denotes r = some d) :
    Gives (s.destroy r) (Function.update s.denotes r none) := by
  obtain ⟨p, hp, -⟩ := impl_of_denotes h hr
  obtain ⟨t, b, ht, hrep⟩ := detach_spec h hp (x := none) (by simp)
  have heq : s.destroy r = .ok (t.setImplField r none) := by
    simp [destroy, implOf_eq hp, ht, bind, Except.bind, pure, Except.pure]
  exact heq ▸ hrep.gives

end Operations

section Creation
variable {s : InstructionReferenceManager I R} (h : Good s) {r : R} {ins : I}
include h

/-- The first reference to an instruction. -/
def withImpl (s : InstructionReferenceManager I R) (ins : I) (r : R) : InstructionReferenceManager I R :=
  { (s.setImplField r (some (some s.next))).setImplAt s.next (some ⟨ins, [r]⟩) with
    references := OrderedMap.set s.references ins s.next, next := s.next + 1 }

theorem rewritten_withImpl (hf : OrderedMap.find s.references ins = none) (hr : s.impl r = none) :
    Rewritten s (s.withImpl ins r) s.next (some ⟨ins, [r]⟩) r (some (some s.next)) where
  impls q := setImplAt_impls ..
  impl r' := setImplField_impl ..
  next := Nat.le_succ _
  ordered := OrderedMap.ordered_set h.ordered _ _
  entry ins' q := by
    show (ins', q) ∈ OrderedMap.set s.references ins s.next ↔ _
    have hnot := OrderedMap.not_mem_of_find hf
    have hlt (hmem : (ins', q) ∈ s.references) : q < s.next := by
      obtain ⟨i, hi, -⟩ := (h.entry _ _).mp hmem
      exact h.fresh q i hi
    rw [OrderedMap.mem_set]
    grind
  elsewhere q hq := by simp [hr, Ne.symm hq]
  object j hj := by
    cases hj
    refine ⟨by simp, by simp, Nat.lt_succ_self _, fun r' => ?_⟩
    rw [show (s.withImpl ins r).impl r' = _ from setImplField_impl ..]
    by_cases hr' : r' = r
    · simp [hr']
    · have hnot : s.impl r' ≠ some (some s.next) := fun hq => by
        obtain ⟨i, hi⟩ := h.alive r' _ hq
        exact lt_irrefl _ (h.fresh _ i hi)
      simp [hr', hnot]
  deleted hd := by cases hd

theorem createReference_gives (hr : s.denotes r = none) :
    Gives (s.createReference ins r) (Function.update s.denotes r (some (some ins))) := by
  have hnone := impl_none hr
  cases hf : OrderedMap.find s.references ins with
  | some p =>
    obtain ⟨i, hi, rfl⟩ := h.impl_of_find hf
    obtain ⟨t, ht, hrep⟩ := @construct_spec _ _ _ _ _ h r (by simp [hnone]) (some p) _ ⟨i, hi, rfl⟩
    have heq : s.createReference i.ins r = .ok t := by simp [createReference, hf, ht]
    exact heq ▸ hrep.gives
  | none =>
    have hw := rewritten_withImpl h hf hnone
    have heq : s.createReference ins r = .ok (s.withImpl ins r) := by
      simp [createReference, hf, construct, attach, addRef, implAt, setImplAt, setImplField, withImpl, bind,
        Except.bind, pure, Except.pure]
    have hd : (s.withImpl ins r).denotes r = some (some ins) := by simp [denotes, hw.impls, hw.impl]
    have hfresh (k) (hk : s.impls s.next = some k) : False := lt_irrefl _ (h.fresh _ k hk)
    exact heq ▸ hd ▸ (hw.repointed h (fun j k _ hk => (hfresh k hk).elim) (by simp)).gives

end Creation

section Replacement
variable {s : InstructionReferenceManager I R} (h : Good s) {insA insB : I}

/-- What references denote after every reference to one instruction is one to another. -/
def redirect (insA insB : I) (d : R → Option (Option I)) : R → Option (Option I) :=
  fun r => if d r = some (some insA) then some (some insB) else d r

/-- The loop of `merge`, over references that all point to another object. -/
theorem mergeLoop_gives {a b : Nat} (hne : b ≠ a) (l : List R) :
    ∀ {s : InstructionReferenceManager I R}, Good s → l.Nodup → (∀ r ∈ l, s.impl r = some (some a)) →
      (∃ j, s.impls b = some j ∧ j.ins = insB) →
        Gives (l.foldlM (fun s r => do
          let (s, _) ← s.setImpl r (some b)
          return s) s) fun r => if r ∈ l then some (some insB) else s.denotes r := by
  induction l with
  | nil => exact fun hs _ _ _ => ⟨_, rfl, hs, by simp⟩
  | cons r l ih =>
    intro s hs hl hfrom ⟨j, hj, hjB⟩
    obtain ⟨hnot, hl⟩ := List.nodup_cons.mp hl
    have hr : s.impl r = some (some a) := hfrom r List.mem_cons_self
    obtain ⟨t, alive, ht, hrep⟩ :=
      @retarget_spec _ _ _ _ _ hs r (some a) (some b) _ hr ⟨j, hj, rfl⟩ (by simpa using hne)
    obtain ⟨k, hk, hkj⟩ := hrep.kept b j hj (by simpa [hr] using hne.symm)
    have hfrom' : ∀ r' ∈ l, t.impl r' = some (some a) := by
      intro r' hr'
      have hrr : r' ≠ r := fun he => hnot (he ▸ hr')
      rw [hrep.impl, if_neg hrr, hfrom r' (List.mem_cons_of_mem _ hr')]
    obtain ⟨u, hu, hgood, hden⟩ := ih hrep.good hl hfrom' ⟨k, hk, hkj.trans hjB⟩
    refine ⟨u, ?_, hgood, ?_⟩
    · have hset : s.setImpl r (some b) = .ok (t, alive) := by
        simp [setImpl, implOf_eq hr, hne, ht, bind, Except.bind]
      rw [List.foldlM_cons]
      simpa [hset, bind, Except.bind, pure, Except.pure] using hu
    · rw [hden]
      funext r'
      rw [hrep.denotes]
      by_cases hrr : r' = r
      · simp [hrr, hnot, hjB]
      · simp [hrr]

include h

omit [LinearOrder R] in
theorem find_none_iff : OrderedMap.find s.references insA = none ↔ ∀ r, s.denotes r ≠ some (some insA) := by
  constructor
  · intro hf r hr
    obtain ⟨p, hp, hlead⟩ := impl_of_denotes h hr
    cases p with
    | none => cases (show some insA = none from hlead)
    | some p =>
      obtain ⟨i, hi, hins⟩ := hlead
      cases hins
      simp [h.find_of_impl hi] at hf
  · intro hnone
    cases hf : OrderedMap.find s.references insA with
    | none => rfl
    | some p =>
      obtain ⟨i, hi, rfl⟩ := h.impl_of_find hf
      obtain ⟨r, hr⟩ := List.exists_mem_of_ne_nil _ (h.used p i hi)
      exact absurd ((mem_refs_iff h hi).mp hr) (hnone r)

/-- The object is given the other instruction, that no reference denotes. -/
theorem rename_gives {a : Nat} {i : InstructionReferenceImpl I R} (hi : s.impls a = some i)
    (hB : OrderedMap.find s.references insB = none) :
    Gives (.ok { s.setImplAt a (some { i with ins := insB }) with
        references := OrderedMap.set (OrderedMap.erase s.references i.ins) insB a })
      (redirect i.ins insB s.denotes) := by
  obtain ⟨r, hr⟩ := List.exists_mem_of_ne_nil _ (h.used a i hi)
  have hra : s.impl r = some (some a) := (h.pointers a i hi r).mp hr
  have hnotB := OrderedMap.not_mem_of_find hB
  have hown (ins : I) : (ins, a) ∈ s.references ↔ ins = i.ins := by simp [h.entry, hi, eq_comm]
  have hone (q : Nat) (hq : (i.ins, q) ∈ s.references) : q = a := by
    obtain ⟨j, hj, hji⟩ := (h.entry _ _).mp hq
    exact h.impl_unique hj hi hji
  generalize ht : ({ s.setImplAt a (some { i with ins := insB }) with
        references := OrderedMap.set (OrderedMap.erase s.references i.ins) insB a } :
    InstructionReferenceManager I R) = t
  have hw : Rewritten s t a (some { i with ins := insB }) r (some (some a)) := by
    subst ht
    constructor
    · exact fun q => setImplAt_impls ..
    · intro r'
      show s.impl r' = _
      by_cases hr' : r' = r
      · simpa [hr'] using hra
      · simp [hr']
    · exact le_refl _
    · exact OrderedMap.ordered_set (OrderedMap.ordered_erase h.ordered _) _ _
    · intro ins q
      simp only [OrderedMap.mem_set, OrderedMap.mem_erase]
      grind
    · intro q hq
      simp [hra, Ne.symm hq]
    · intro j hj
      cases hj
      exact ⟨h.nodup a i hi, h.used a i hi, h.fresh a i hi, h.pointers a i hi⟩
    · intro hd
      cases hd
  refine ⟨t, rfl, h.rewritten hw, funext fun r' => ?_⟩
  by_cases hr' : r' ∈ i.refs
  · have hold : s.denotes r' = some (some i.ins) := (mem_refs_iff h hi).mp hr'
    have hnew : t.impls a = some { i with ins := insB } := by simp [hw.impls]
    rw [redirect, if_pos hold]
    exact (mem_refs_iff (h.rewritten hw) hnew).mp hr'
  · have hold : s.denotes r' ≠ some (some i.ins) := fun hd => hr' ((mem_refs_iff h hi).mpr hd)
    rw [redirect, if_neg hold]
    have hfield : t.impl r' = s.impl r' := by rw [← ht]; rfl
    unfold denotes
    rw [hfield]
    rcases hs : s.impl r' with _ | _ | q
    · rfl
    · rfl
    · have hq : q ≠ a := by
        rintro rfl
        exact hr' ((h.pointers q i hi r').mpr hs)
      simp [hw.impls, hq]

theorem replace_gives (hA : ∃ r, s.denotes r = some (some insA)) (hne : insA ≠ insB) :
    Gives (s.replace insA insB) (redirect insA insB s.denotes) := by
  cases hfA : OrderedMap.find s.references insA with
  | none =>
    obtain ⟨r, hr⟩ := hA
    exact absurd hr ((find_none_iff h).mp hfA r)
  | some a =>
    obtain ⟨i, hi, rfl⟩ := h.impl_of_find hfA
    cases hfB : OrderedMap.find s.references insB with
    | none =>
      have heq : s.replace i.ins insB = .ok { s.setImplAt a (some { i with ins := insB }) with
          references := OrderedMap.set (OrderedMap.erase s.references i.ins) insB a } := by
        simp [replace, hfA, hfB, implAt_eq hi, bind, Except.bind, pure, Except.pure]
      exact heq ▸ rename_gives h hi hfB
    | some b =>
      obtain ⟨j, hj, rfl⟩ := h.impl_of_find hfB
      have hab : b ≠ a := by
        rintro rfl
        cases hi.symm.trans hj
        exact hne rfl
      have hgives := mergeLoop_gives hab i.refs h (h.nodup a i hi)
        (fun r hr => (h.pointers a i hi r).mp hr) ⟨j, hj, rfl⟩
      have heq : s.replace i.ins j.ins = s.merge b a := by simp [replace, hfA, hfB]
      have hmerge : s.merge b a = i.refs.foldlM (fun s r => do
          let (s, _) ← s.setImpl r (some b)
          return s) s := by simp [merge, implAt_eq hi, bind, Except.bind]
      have hred : (fun r => if r ∈ i.refs then some (some j.ins) else s.denotes r) =
          redirect i.ins j.ins s.denotes := by
        funext r
        simp only [redirect, mem_refs_iff h hi]
      exact hred ▸ heq ▸ hmerge ▸ hgives

/-- The first reference is to leave the object for the object itself. -/
theorem replace_self (hA : ∃ r, s.denotes r = some (some insA)) : s.replace insA insA = .error .fault := by
  cases hfA : OrderedMap.find s.references insA with
  | none =>
    obtain ⟨r, hr⟩ := hA
    exact absurd hr ((find_none_iff h).mp hfA r)
  | some a =>
    obtain ⟨i, hi, rfl⟩ := h.impl_of_find hfA
    cases hrefs : i.refs with
    | nil => exact absurd hrefs (h.used a i hi)
    | cons r rest =>
      have hr : s.impl r = some (some a) := (h.pointers a i hi r).mp (by simp [hrefs])
      simp [replace, hfA, merge, implAt_eq hi, hrefs, setImpl, implOf_eq hr, bind, Except.bind, throw, throwThe,
        MonadExceptOf.throw]

end Replacement

section Clearing
variable {s : InstructionReferenceManager I R}

local instance lawfulBEq_references : LawfulBEq R := inferInstance

/-- What references denote after those of one object are null. -/
def nullified (l : List R) (d : R → Option (Option I)) : R → Option (Option I) :=
  fun r => if r ∈ l then some none else d r

theorem setImpl_null_eq (h : Good s) {p : Nat} {i : InstructionReferenceImpl I R} {r : R} (hp : s.impls p = some i)
    (hr : s.impl r = some (some p)) :
    s.setImpl r none = .ok ((s.withoutRef p i r).setImplField r (some none), i.refs.erase r ≠ []) := by
  simp [setImpl, implOf_eq hr, retarget, detach, removeRef_eq h hp hr, attach, bind, Except.bind, pure, Except.pure]

theorem nullifyRounds_gives {p : Nat} (rounds : Nat) :
    ∀ {s : InstructionReferenceManager I R}, Good s → ∀ {i}, s.impls p = some i → i.refs.length ≤ rounds →
      ∃ t, s.nullifyRounds p rounds = .ok t ∧ Good t ∧ t.denotes = nullified i.refs s.denotes ∧
        t.references = OrderedMap.erase s.references i.ins := by
  induction rounds with
  | zero =>
    intro s hs i hi hle
    exact absurd (List.length_eq_zero_iff.mp (Nat.le_zero.mp hle)) (hs.used p i hi)
  | succ rounds ih =>
    intro s hs i hi hle
    cases hrefs : i.refs with
    | nil => exact absurd hrefs (hs.used p i hi)
    | cons r rest =>
      have hn : r ∉ rest := (List.nodup_cons.mp (hrefs ▸ hs.nodup p i hi)).1
      have hr : s.impl r = some (some p) := (hs.pointers p i hi r).mp (by simp [hrefs])
      have hset := setImpl_null_eq hs hi hr
      have hw := rewritten_withoutRef hs hi hr (x := some none) (by simp)
      have hrep := detach_spec hs hr (x := some none) (by simp)
      simp only [detach, removeRef_eq hs hi hr, Except.ok.injEq, Prod.mk.injEq] at hrep
      obtain ⟨_, _, ⟨rfl, -⟩, hrep⟩ := hrep
      have herase : i.refs.erase r = rest := by simp [hrefs]
      rw [herase] at hset
      have hstep : s.nullifyRounds p (rounds + 1) =
          if rest = [] then .ok ((s.withoutRef p i r).setImplField r (some none))
          else ((s.withoutRef p i r).setImplField r (some none)).nullifyRounds p rounds := by
        by_cases hrest : rest = []
        · simp [nullifyRounds, implAt_eq hi, hrefs, hset, hrest, bind, Except.bind, pure, Except.pure]
        · simp [nullifyRounds, implAt_eq hi, hrefs, hset, hrest, bind, Except.bind]
      by_cases hrest : rest = []
      · refine ⟨_, by rw [hstep, if_pos hrest], hrep.good, funext fun r' => ?_, ?_⟩
        · rw [hrep.denotes]
          simp [nullified, hrest]
        · show (if _ then _ else _) = _
          rw [if_pos (herase.trans hrest)]
      · have hp' : ((s.withoutRef p i r).setImplField r (some none)).impls p = some { i with refs := rest } := by
          rw [hw.impls, if_pos rfl, implWithout, herase, if_neg hrest]
        obtain ⟨t, ht, hgood, hden, href⟩ := ih hrep.good hp' (by simpa [hrefs] using hle)
        refine ⟨t, by rw [hstep, if_neg hrest, ht], hgood, ?_, ?_⟩
        · rw [hden]
          funext r'
          simp only [nullified, hrep.denotes, List.mem_cons]
          by_cases hr' : r' = r
          · simp [hr']
          · simp [hr']
        · rw [href]
          show OrderedMap.erase (if _ then _ else _) _ = _
          rw [if_neg (by simpa [herase] using hrest)]

theorem clearRounds_gives (rounds : Nat) :
    ∀ {s : InstructionReferenceManager I R}, Good s → s.references.length < rounds →
      ∃ t, s.clearRounds rounds = .ok t ∧ Good t ∧ t.references = [] ∧
        t.denotes = fun r => (s.denotes r).map fun _ => none := by
  induction rounds with
  | zero => exact fun _ h => absurd h (Nat.not_lt_zero _)
  | succ rounds ih =>
    intro s hs hlt
    cases hrefs : s.references with
    | nil =>
      refine ⟨s, by simp [clearRounds, hrefs], hs, hrefs, funext fun r => ?_⟩
      rcases hr : s.denotes r with _ | _ | ins
      · rfl
      · rfl
      · have hf : OrderedMap.find s.references ins = none := by simp [hrefs, OrderedMap.find]
        exact absurd hr ((find_none_iff hs).mp hf r)
    | cons e rest =>
      obtain ⟨ins, p⟩ := e
      obtain ⟨i, hi, rfl⟩ := (hs.entry ins p).mp (by simp [hrefs])
      obtain ⟨t, ht, hgood, hden, href⟩ :=
        nullifyRounds_gives (i.refs.length + 1) hs hi (Nat.le_succ _)
      have hord : ∀ e ∈ rest, i.ins < e.1 := (List.pairwise_cons.mp (hrefs ▸ hs.ordered)).1
      have hrest : t.references = rest := by
        rw [href, hrefs, OrderedMap.erase, List.filter_cons]
        simpa using fun ins q hq => (hord (ins, q) hq).ne'
      obtain ⟨u, hu, hgood', href', hden'⟩ := ih hgood (by rw [hrest]; simpa [hrefs] using hlt)
      have hnull : s.nullify p = .ok t := by simp [nullify, implAt_eq hi, ht, bind, Except.bind]
      refine ⟨u, by simp [clearRounds, hrefs, hnull, hu, bind, Except.bind], hgood', href', ?_⟩
      rw [hden', hden]
      funext r
      by_cases hr : r ∈ i.refs
      · simp [nullified, hr, (mem_refs_iff hs hi).mp hr]
      · simp [nullified, hr]

theorem clearReferences_gives (h : Good s) : Gives s.clearReferences fun r => (s.denotes r).map fun _ => none := by
  obtain ⟨t, ht, hgood, href, hden⟩ := clearRounds_gives (s.references.length + 1) h (Nat.lt_succ_self _)
  have heq : s.clearReferences = .ok t := by
    simp [clearReferences, ht, bind, Except.bind, pure, Except.pure, ← href]
  exact ⟨t, heq, hgood, hden⟩

end Clearing

end Tce.POM.InstructionReferenceManager
