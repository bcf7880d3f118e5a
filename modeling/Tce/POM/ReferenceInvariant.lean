import Tce.POM.InstructionReferences

/-!
# The invariant of the instruction references

The map has one entry for each implementation object, under its instruction; the object's
list has the references that point to it and is not empty. Each operation keeps this, and
changes what references denote as its name says.
-/

namespace Tce.POM.InstructionReferenceManager
variable {I R : Type} [LinearOrder I]

/-- What a reference denotes: `none` where there is no reference, `some none` for the null
instruction. -/
def denotes (s : InstructionReferenceManager I R) (r : R) : Option (Option I) :=
  (s.impl r).map fun p => p.bind fun p => (s.impls p).map (·.ins)

/-- The tables fit together; an object may be without references. -/
structure Linked (s : InstructionReferenceManager I R) : Prop where
  ordered : OrderedMap.Ordered s.references
  entry : ∀ ins p, (ins, p) ∈ s.references ↔ ∃ i, s.impls p = some i ∧ i.ins = ins
  pointers : ∀ p i, s.impls p = some i → ∀ r, r ∈ i.refs ↔ s.impl r = some (some p)
  nodup : ∀ p i, s.impls p = some i → i.refs.Nodup
  alive : ∀ r p, s.impl r = some (some p) → ∃ i, s.impls p = some i
  fresh : ∀ p i, s.impls p = some i → p < s.next

structure Good (s : InstructionReferenceManager I R) : Prop extends Linked s where
  used : ∀ p i, s.impls p = some i → i.refs ≠ []

theorem good_empty : Good (empty : InstructionReferenceManager I R) := by
  constructor <;> simp [empty]
  constructor <;> simp [OrderedMap.Ordered]

section Lookups
variable {s : InstructionReferenceManager I R} (h : Linked s) {p q : Nat} {i j : InstructionReferenceImpl I R} {ins : I}
include h

theorem Linked.find_of_impl (hp : s.impls p = some i) : OrderedMap.find s.references i.ins = some p :=
  OrderedMap.find_of_mem h.ordered ((h.entry _ _).mpr ⟨i, hp, rfl⟩)

theorem Linked.impl_of_find (hf : OrderedMap.find s.references ins = some p) : ∃ i, s.impls p = some i ∧ i.ins = ins :=
  (h.entry _ _).mp (OrderedMap.mem_of_find hf)

/-- One object for each instruction. -/
theorem Linked.impl_unique (hp : s.impls p = some i) (hq : s.impls q = some j) (hij : i.ins = j.ins) : p = q := by
  have hfp := h.find_of_impl hp
  have hfq := h.find_of_impl hq
  rw [hij, hfq] at hfp
  exact (Option.some.inj hfp).symm

omit h [LinearOrder I] in
theorem denotes_of_impl {r : R} (hp : s.impls p = some i) (hr : s.impl r = some (some p)) :
    s.denotes r = some (some i.ins) := by
  simp [denotes, hr, hp]

end Lookups

omit [LinearOrder I] in
theorem implAt_eq {s : InstructionReferenceManager I R} {p : Nat} {i : InstructionReferenceImpl I R}
    (hp : s.impls p = some i) : s.implAt p = .ok i := by
  simp [implAt, hp]

omit [LinearOrder I] in
theorem implOf_eq {s : InstructionReferenceManager I R} {r : R} {p : Option Nat} (hr : s.impl r = some p) :
    s.implOf r = .ok p := by
  simp [implOf, hr]

variable [LinearOrder R]

/-- At most one object, its entry and the field of one reference are written. -/
structure Rewritten (s t : InstructionReferenceManager I R) (p : Nat) (i : Option (InstructionReferenceImpl I R)) (r : R)
    (x : Option (Option Nat)) : Prop where
  impls : ∀ q, t.impls q = if q = p then i else s.impls q
  impl : ∀ r', t.impl r' = if r' = r then x else s.impl r'
  next : s.next ≤ t.next
  ordered : OrderedMap.Ordered t.references
  entry : ∀ ins q, (ins, q) ∈ t.references ↔ q = p ∧ (∃ j, i = some j ∧ j.ins = ins) ∨ q ≠ p ∧ (ins, q) ∈ s.references
  /-- The reference has nothing to do with other objects, before and after. -/
  elsewhere : ∀ q ≠ p, s.impl r ≠ some (some q) ∧ x ≠ some (some q)
  object : ∀ j, i = some j → j.refs.Nodup ∧ j.refs ≠ [] ∧ p < t.next ∧ ∀ r', r' ∈ j.refs ↔ t.impl r' = some (some p)
  deleted : i = none → ∀ r', t.impl r' ≠ some (some p)

/-- One reference points to something else, and nothing else changes for the others. -/
structure Repointed (s t : InstructionReferenceManager I R) (r : R) (x : Option (Option Nat)) (d : Option (Option I)) :
    Prop where
  good : Good t
  impl : ∀ r', t.impl r' = if r' = r then x else s.impl r'
  denotes : ∀ r', t.denotes r' = if r' = r then d else s.denotes r'
  kept : ∀ q j, s.impls q = some j → s.impl r ≠ some (some q) → ∃ k, t.impls q = some k ∧ k.ins = j.ins

section Rewritten
variable {s t : InstructionReferenceManager I R} {p : Nat} {i : Option (InstructionReferenceImpl I R)} {r : R}
  {x : Option (Option Nat)} (h : Good s) (ht : Rewritten s t p i r x)
include h ht

theorem Good.rewritten : Good t := by
  have cases_impls {q j} (hj : t.impls q = some j) : q = p ∧ i = some j ∨ q ≠ p ∧ s.impls q = some j := by
    rw [ht.impls] at hj
    by_cases hq : q = p
    · exact .inl ⟨hq, by simpa [hq] using hj⟩
    · exact .inr ⟨hq, by simpa [hq] using hj⟩
  have pointers {q j} (hq : q ≠ p) (hj : s.impls q = some j) (r' : R) : r' ∈ j.refs ↔ t.impl r' = some (some q) := by
    rw [h.pointers q j hj r', ht.impl]
    by_cases hr : r' = r
    · simp [hr, ht.elsewhere q hq]
    · simp [hr]
  constructor
  · constructor
    · exact ht.ordered
    · intro ins q
      rw [ht.entry, ht.impls, h.entry]
      by_cases hq : q = p
      · simp [hq]
      · simp [hq]
    · intro q j hj
      rcases cases_impls hj with ⟨rfl, hi⟩ | ⟨hq, hj⟩
      · exact (ht.object j hi).2.2.2
      · exact pointers hq hj
    · intro q j hj
      rcases cases_impls hj with ⟨rfl, hi⟩ | ⟨hq, hj⟩
      · exact (ht.object j hi).1
      · exact h.nodup q j hj
    · intro r' q hr
      rw [ht.impls]
      by_cases hq : q = p
      · cases hi : i with
        | none => exact absurd (hq ▸ hr) (ht.deleted hi r')
        | some j => exact ⟨j, by simp [hq]⟩
      · have hold : s.impl r' = some (some q) := by
          rw [ht.impl] at hr
          by_cases hr' : r' = r
          · simp [hr', ht.elsewhere q hq] at hr
          · simpa [hr'] using hr
        simpa [hq] using h.alive r' q hold
    · intro q j hj
      rcases cases_impls hj with ⟨rfl, hi⟩ | ⟨hq, hj⟩
      · exact (ht.object j hi).2.2.1
      · exact (h.fresh q j hj).trans_le ht.next
  · intro q j hj
    rcases cases_impls hj with ⟨rfl, hi⟩ | ⟨hq, hj⟩
    · exact (ht.object j hi).2.1
    · exact h.used q j hj

/-- Others denote what they did, unless the object is given another instruction. -/
theorem Rewritten.denotes_of_ne (hins : ∀ j k, i = some j → s.impls p = some k → j.ins = k.ins) {r' : R} (hr : r' ≠ r) :
    t.denotes r' = s.denotes r' := by
  have hfield : t.impl r' = s.impl r' := by simp [ht.impl, hr]
  unfold denotes
  rw [hfield]
  rcases hs : s.impl r' with _ | _ | q
  · rfl
  · rfl
  · obtain ⟨k, hk⟩ := h.alive r' q hs
    by_cases hq : q = p
    · subst hq
      cases hi : i with
      | none => exact absurd (hfield.trans hs) (ht.deleted hi r')
      | some j => simp [ht.impls, hi, hk, hins j k hi hk]
    · simp [ht.impls, hq]

theorem Rewritten.repointed (hins : ∀ j k, i = some j → s.impls p = some k → j.ins = k.ins)
    (hkept : i = none → ∀ k, s.impls p = some k → s.impl r = some (some p)) : Repointed s t r x (t.denotes r) where
  good := h.rewritten ht
  impl := ht.impl
  denotes r' := by
    by_cases hr : r' = r
    · simp [hr]
    · simp [hr, ht.denotes_of_ne h hins hr]
  kept q k hk hne := by
    rw [ht.impls]
    by_cases hq : q = p
    · subst hq
      cases hi : i with
      | none => exact absurd (hkept hi k hk) hne
      | some j => exact ⟨j, by simp, hins j k hi hk⟩
    · exact ⟨k, by simp [hq, hk], rfl⟩

end Rewritten

section Removal
variable {s : InstructionReferenceManager I R} {p : Nat} {i : InstructionReferenceImpl I R} {r : R}

/-- The object after one of its references is taken out, deleted when none is left. -/
def implWithout (i : InstructionReferenceImpl I R) (r : R) : Option (InstructionReferenceImpl I R) :=
  if i.refs.erase r = [] then none else some { i with refs := i.refs.erase r }

def withoutRef (s : InstructionReferenceManager I R) (p : Nat) (i : InstructionReferenceImpl I R) (r : R) :
    InstructionReferenceManager I R :=
  { s.setImplAt p (implWithout i r) with
    references := if i.refs.erase r = [] then OrderedMap.erase s.references i.ins else s.references }

@[simp] theorem withoutRef_impl : (s.withoutRef p i r).impl = s.impl := rfl

variable (h : Good s) (hp : s.impls p = some i) (hr : s.impl r = some (some p))
include h hp hr

theorem removeRef_eq : s.removeRef p r = .ok (s.withoutRef p i r, i.refs.erase r ≠ []) := by
  have hmem : r ∈ i.refs := (h.pointers p i hp r).mpr hr
  have hfind := h.find_of_impl hp
  by_cases he : i.refs.erase r = []
  · simp [removeRef, implAt, hp, hmem, he, referenceDied, setImplAt, hfind, withoutRef, implWithout, bind,
      Except.bind, pure, Except.pure]
  · simp [removeRef, implAt, hp, hmem, he, withoutRef, implWithout, setImplAt, bind, Except.bind, pure, Except.pure]

theorem rewritten_withoutRef {x : Option (Option Nat)} (hx : ∀ q, x ≠ some (some q)) :
    Rewritten s ((s.withoutRef p i r).setImplField r x) p (implWithout i r) r x where
  impls q := setImplAt_impls ..
  impl r' := setImplField_impl ..
  next := le_refl _
  ordered := by
    show OrderedMap.Ordered (if _ then _ else _)
    split
    · exact OrderedMap.ordered_erase h.ordered _
    · exact h.ordered
  entry ins q := by
    show (ins, q) ∈ (if _ then _ else _) ↔ _
    have hown : (ins, p) ∈ s.references ↔ ins = i.ins := by simp [h.entry, hp, eq_comm]
    by_cases hq : q = p
    · subst hq
      by_cases he : i.refs.erase r = []
      · simp [he, implWithout, OrderedMap.mem_erase, hown]
      · simp [he, implWithout, hown, eq_comm]
    · by_cases he : i.refs.erase r = []
      · simp only [he, ↓reduceIte, implWithout, OrderedMap.mem_erase, reduceCtorEq, false_and, exists_false, and_false,
          ne_eq, hq, not_false_eq_true, true_and, false_or, and_iff_right_iff_imp]
        rintro hins rfl
        obtain ⟨j, hj, hji⟩ := (h.entry _ _).mp hins
        exact hq (h.impl_unique hj hp hji)
      · simp [he, hq]
  elsewhere q hq := by simp [hr, Ne.symm hq, hx]
  object j hj := by
    have hn := h.nodup p i hp
    by_cases he : i.refs.erase r = []
    · simp [implWithout, he] at hj
    · simp only [implWithout, he, ↓reduceIte, Option.some.injEq] at hj
      subst hj
      refine ⟨hn.erase r, he, h.fresh p i hp, fun r' => ?_⟩
      rw [setImplField_impl]
      by_cases hr' : r' = r
      · simp [hr', hn.mem_erase_iff, hx]
      · simpa [hr', hn.mem_erase_iff] using h.pointers p i hp r'
  deleted hd r' := by
    have hn := h.nodup p i hp
    have he : i.refs.erase r = [] := by
      by_contra he
      simp [implWithout, he] at hd
    rw [setImplField_impl]
    by_cases hr' : r' = r
    · simp [hr', hx]
    · have hnot : r' ∉ i.refs := fun hmem => by
        have : r' ∈ i.refs.erase r := hn.mem_erase_iff.mpr ⟨hr', hmem⟩
        simp [he] at this
      simpa [hr'] using fun hq => hnot ((h.pointers p i hp r').mpr hq)

end Removal

section Addition
variable {s : InstructionReferenceManager I R} {p : Nat} {i : InstructionReferenceImpl I R} {r : R}

/-- The object with one more reference. -/
def withRef (s : InstructionReferenceManager I R) (p : Nat) (i : InstructionReferenceImpl I R) (r : R) :
    InstructionReferenceManager I R :=
  (s.setImplField r (some (some p))).setImplAt p (some { i with refs := i.refs.orderedInsert (· ≤ ·) r })

theorem rewritten_withRef (h : Good s) (hp : s.impls p = some i) (hr : ∀ q, s.impl r ≠ some (some q)) :
    Rewritten s (s.withRef p i r) p (some { i with refs := i.refs.orderedInsert (· ≤ ·) r }) r (some (some p)) where
  impls q := setImplAt_impls ..
  impl r' := setImplField_impl ..
  next := le_refl _
  ordered := h.ordered
  entry ins q := by
    show (ins, q) ∈ s.references ↔ _
    by_cases hq : q = p
    · simp [hq, h.entry, hp]
    · simp [hq]
  elsewhere q hq := by simp [hr, Ne.symm hq]
  object j hj := by
    have hmem : r ∉ i.refs := fun hmem => hr p ((h.pointers p i hp r).mp hmem)
    cases hj
    refine ⟨?_, ?_, h.fresh p i hp, fun r' => ?_⟩
    · exact (List.perm_orderedInsert _ _ _).nodup_iff.mpr (List.nodup_cons.mpr ⟨hmem, h.nodup p i hp⟩)
    · exact List.ne_nil_of_mem ((List.mem_orderedInsert _).mpr (.inl rfl))
    · rw [List.mem_orderedInsert, show (s.withRef p i r).impl r' = _ from setImplField_impl ..]
      by_cases hr' : r' = r
      · simp [hr']
      · simpa [hr'] using h.pointers p i hp r'
  deleted hd := by cases hd

theorem construct_eq (h : Good s) (hp : s.impls p = some i) (hr : ∀ q, s.impl r ≠ some (some q)) :
    s.construct r (some p) = .ok (s.withRef p i r) := by
  have hmem : r ∉ i.refs := fun hmem => hr p ((h.pointers p i hp r).mp hmem)
  simp [construct, attach, addRef, implAt, hp, hmem, withRef, bind, Except.bind, pure, Except.pure]

omit [LinearOrder I] in
/-- The constructors do not look at what the field was. -/
theorem construct_setImplField {x : Option (Option Nat)} {new : Option Nat} :
    (s.setImplField r x).construct r new = s.construct r new := by
  simp [construct, setImplField]

end Addition

/-- What a pointer to an implementation object, or the null pointer, leads to. -/
def Leads (s : InstructionReferenceManager I R) : Option Nat → Option I → Prop
  | none, d => d = none
  | some p, d => ∃ i, s.impls p = some i ∧ d = some i.ins

omit [LinearOrder I] [LinearOrder R] in
theorem denotes_null {s : InstructionReferenceManager I R} {r : R} {x : Option (Option Nat)} (hr : s.impl r = x)
    (hx : ∀ q, x ≠ some (some q)) : s.denotes r = x.map fun _ => none := by
  rcases x with _ | _ | q
  · simp [denotes, hr]
  · simp [denotes, hr]
  · exact absurd rfl (hx q)

section Primitives
variable {s : InstructionReferenceManager I R} (h : Good s) {r : R}
include h

omit [LinearOrder R] in
theorem leads_of_impl {p : Option Nat} (hr : s.impl r = some p) : ∃ d, s.Leads p d ∧ s.denotes r = some d := by
  cases p with
  | none => exact ⟨none, rfl, by simp [denotes, hr]⟩
  | some p =>
    obtain ⟨i, hi⟩ := h.alive r p hr
    exact ⟨some i.ins, ⟨i, hi, rfl⟩, by simp [denotes, hr, hi]⟩

/-- A reference that points to no object, before and after. -/
theorem repointed_setImplField (hr : ∀ q, s.impl r ≠ some (some q)) {x : Option (Option Nat)}
    (hx : ∀ q, x ≠ some (some q)) : Repointed s (s.setImplField r x) r x (x.map fun _ => none) := by
  have hfresh : s.impls s.next = none := by
    by_contra hne
    obtain ⟨i, hi⟩ := Option.ne_none_iff_exists'.mp hne
    exact lt_irrefl _ (h.fresh _ i hi)
  have hfield (r' : R) : (s.setImplField r x).impl r' = if r' = r then x else s.impl r' := setImplField_impl ..
  have ht : Rewritten s (s.setImplField r x) s.next none r x := by
    constructor
    · intro q
      by_cases hq : q = s.next <;> simp [hq, hfresh]
    · exact hfield
    · exact le_refl _
    · exact h.ordered
    · intro ins q
      show (ins, q) ∈ s.references ↔ _
      by_cases hq : q = s.next
      · simp [hq, h.entry, hfresh]
      · simp [hq]
    · exact fun q _ => ⟨hr q, hx q⟩
    · intro j hj
      cases hj
    · intro _ r' hr'
      rw [hfield] at hr'
      by_cases hne : r' = r
      · simp [hne, hx] at hr'
      · obtain ⟨i, hi⟩ := h.alive r' s.next (by simpa [hne] using hr')
        simp [hfresh] at hi
  have hd : (s.setImplField r x).denotes r = x.map fun _ => none := denotes_null (by simp [hfield]) hx
  exact hd ▸ ht.repointed h (by simp) (by simp [hfresh])

theorem detach_spec {old : Option Nat} (hr : s.impl r = some old) {x : Option (Option Nat)}
    (hx : ∀ q, x ≠ some (some q)) :
    ∃ t b, s.detach old r = .ok (t, b) ∧ Repointed s (t.setImplField r x) r x (x.map fun _ => none) := by
  cases old with
  | none => exact ⟨s, true, rfl, repointed_setImplField h (by simp [hr]) hx⟩
  | some p =>
    obtain ⟨i, hp⟩ := h.alive r p hr
    have ht := rewritten_withoutRef h hp hr hx
    have hd : ((s.withoutRef p i r).setImplField r x).denotes r = x.map fun _ => none :=
      denotes_null (by simp [ht.impl]) hx
    refine ⟨_, _, removeRef_eq h hp hr, hd ▸ ht.repointed h (fun j k hj hk => ?_) fun _ _ _ => hr⟩
    obtain rfl : i = k := Option.some.inj (hp.symm.trans hk)
    simp only [implWithout, Option.ite_none_left_eq_some, Option.some.injEq] at hj
    rw [← hj.2]

/-- The reference is new or has let go of what it had. -/
theorem construct_spec (hr : ∀ q, s.impl r ≠ some (some q)) {new : Option Nat} {d : Option I}
    (hnew : s.Leads new d) : ∃ t, s.construct r new = .ok t ∧ Repointed s t r (some new) (some d) := by
  cases new with
  | none =>
    obtain rfl : d = none := hnew
    exact ⟨_, rfl, repointed_setImplField h hr (by simp)⟩
  | some p =>
    obtain ⟨i, hi, rfl⟩ := hnew
    have ht := rewritten_withRef h hi hr
    have hd : (s.withRef p i r).denotes r = some (some i.ins) := by simp [denotes, ht.impls, ht.impl]
    refine ⟨_, construct_eq h hi hr, hd ▸ ht.repointed h (fun j k hj hk => ?_) (by simp)⟩
    cases hj
    cases hi.symm.trans hk
    rfl

theorem retarget_spec {old new : Option Nat} {d : Option I} (hr : s.impl r = some old) (hnew : s.Leads new d)
    (hne : new ≠ old) : ∃ t b, s.retarget r old new = .ok (t, b) ∧ Repointed s t r (some new) (some d) := by
  obtain ⟨t, b, ht, hrep⟩ := detach_spec h hr (x := some none) (by simp)
  have hlead : (t.setImplField r (some none)).Leads new d := by
    cases new with
    | none => exact hnew
    | some q =>
      obtain ⟨j, hj, rfl⟩ := hnew
      obtain ⟨k, hk, hkj⟩ := hrep.kept q j hj (by rw [hr]; exact fun hq => hne (Option.some.inj hq).symm)
      exact ⟨k, hk, by rw [hkj]⟩
  obtain ⟨u, hu, hrep'⟩ := construct_spec hrep.good (r := r) (fun q => by simp [hrep.impl r]) hlead
  rw [construct_setImplField] at hu
  refine ⟨u, b, ?_, hrep'.good, fun r' => ?_, fun r' => ?_, fun q j hj hq => ?_⟩
  · have hu' : (t.setImplField r (some new)).attach new r = .ok u := hu
    simp [retarget, ht, hu', bind, Except.bind, pure, Except.pure]
  · rw [hrep'.impl, hrep.impl]
    split <;> rfl
  · rw [hrep'.denotes, hrep.denotes]
    split <;> rfl
  · obtain ⟨k, hk, hkj⟩ := hrep.kept q j hj hq
    obtain ⟨l, hl, hlk⟩ := hrep'.kept q k hk (by simp [hrep.impl r])
    exact ⟨l, hl, hlk.trans hkj⟩

omit [LinearOrder R] in
/-- The references of an object are those that denote its instruction. -/
theorem mem_refs_iff {p : Nat} {i : InstructionReferenceImpl I R} (hp : s.impls p = some i) :
    r ∈ i.refs ↔ s.denotes r = some (some i.ins) := by
  rw [h.pointers p i hp]
  constructor
  · exact denotes_of_impl hp
  · intro hd
    rcases hr : s.impl r with _ | _ | q
    · simp [denotes, hr] at hd
    · simp [denotes, hr] at hd
    · obtain ⟨j, hj⟩ := h.alive r q hr
      have hij : j.ins = i.ins := by simpa [denotes, hr, hj] using hd
      rw [h.impl_unique hj hp hij]

end Primitives

end Tce.POM.InstructionReferenceManager
