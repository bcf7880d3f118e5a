import Tce.TPEF.SafePointer

/-!
# The tables of the reference manager

What the tables agree on as long as no list is dropped or shared by mistake,
and that each change the operations are made of keeps it.
-/

namespace Tce.TPEF.ReferenceManager
open Function (update update_apply update_self update_of_ne)

variable {O P : Type}

/-- Every list in a table is allocated, an object and its list know each other, and
an alive pointer is in one list at most and points where that list does. -/
structure Valid (s : ReferenceManager O P) : Prop where
  ordered : OrderedMap.Ordered s.keyMap
  fresh : ∀ list, s.next ≤ list → s.lists list = none
  keyed : ∀ key list, (key, list) ∈ s.keyMap → ∃ l, s.lists list = some l
  registered : ∀ obj list, s.referenceMap obj = some list →
    ∃ l o, s.lists list = some l ∧ l.reference = some o ∧ obj = some o ∧ s.live o
  owned : ∀ list l o, s.lists list = some l → l.reference = some o → s.referenceMap (some o) = some list
  agrees : ∀ list l p, s.lists list = some l → p ∈ l.list → s.aliveSafePointers p → s.object p = l.reference
  once : ∀ list l list' l' p, s.lists list = some l → s.lists list' = some l' → p ∈ l.list → p ∈ l'.list →
    s.aliveSafePointers p → list = list'
  kept : ∀ p o, s.aliveSafePointers p → s.object p = some o → ∃ list l, s.lists list = some l ∧ p ∈ l.list

theorem valid_empty : Valid (empty : ReferenceManager O P) where
  ordered := List.Pairwise.nil
  fresh := by simp [empty]
  keyed := by simp [empty]
  registered := by simp [empty]
  owned := by simp [empty]
  agrees := by simp [empty]
  once := by simp [empty]
  kept := by simp [empty]

theorem old_of_newList {s : ReferenceManager O P} {list : Nat} {l : SafePointerList O P}
    (hl : s.newList.lists list = some l) (hne : l ≠ ⟨none, []⟩) : s.lists list = some l := by
  rw [newList_lists] at hl
  split at hl
  · exact absurd (Option.some.inj hl).symm hne
  · exact hl

/-- A list after `setReference` is the one it was, but for what the changed one refers to. -/
theorem list_setReference [DecidableEq P] {s : ReferenceManager O P} {list : Nat} {l : SafePointerList O P}
    (obj : Option O) (hl : s.lists list = some l) {list' : Nat} {l' : SafePointerList O P}
    (hl' : s.lists list' = some l') :
    ∃ m, (s.setReference list l obj).lists list' = some m ∧ m.list = l'.list ∧
      m.reference = if list' = list then obj else l'.reference := by
  rw [setReference_lists]
  by_cases he : list' = list
  · subst he
    cases hl.symm.trans hl'
    exact ⟨_, if_pos rfl, rfl, by simp⟩
  · exact ⟨l', by simp [he, hl'], rfl, by simp [he]⟩

theorem of_list_setReference [DecidableEq P] {s : ReferenceManager O P} {list : Nat} {l : SafePointerList O P}
    {obj : Option O} (hl : s.lists list = some l) {list' : Nat} {m : SafePointerList O P}
    (hm : (s.setReference list l obj).lists list' = some m) :
    ∃ l', s.lists list' = some l' ∧ m.list = l'.list ∧ m.reference = if list' = list then obj else l'.reference := by
  rw [setReference_lists] at hm
  by_cases he : list' = list
  · subst he
    simp only [↓reduceIte, Option.some.injEq] at hm
    subst hm
    exact ⟨l, hl, rfl, by simp⟩
  · simp only [he, ↓reduceIte] at hm
    exact ⟨m, hm, rfl, by simp [he]⟩

namespace Valid
variable {s : ReferenceManager O P} (h : Valid s)
include h

theorem referenceMap_none : s.referenceMap none = none := by
  cases hm : s.referenceMap none with
  | none => rfl
  | some list =>
    obtain ⟨_, _, _, _, hnone, _⟩ := h.registered none list hm
    cases hnone

/-- An object's list refers to it. -/
theorem reference_of_registered {o : O} {list : Nat} (hm : s.referenceMap (some o) = some list) :
    ∃ l, s.lists list = some l ∧ l.reference = some o := by
  obtain ⟨l, x, hl, hr, hx, _⟩ := h.registered _ _ hm
  cases hx
  exact ⟨l, hl, hr⟩

theorem live_of_registered {o : O} {list : Nat} (hm : s.referenceMap (some o) = some list) : s.live o := by
  obtain ⟨_, x, _, _, hx, hlive⟩ := h.registered _ _ hm
  cases hx
  exact hlive

/-- The list of an alive pointer that points to an object is the object's list. -/
theorem listed {p : P} {o : O} (ha : s.aliveSafePointers p) (ho : s.object p = some o) :
    ∃ list l, s.referenceMap (some o) = some list ∧ s.lists list = some l ∧ p ∈ l.list := by
  obtain ⟨list, l, hl, hp⟩ := h.kept p o ha ho
  have hr : l.reference = some o := by
    simpa [ho] using (h.agrees list l p hl hp ha).symm
  exact ⟨list, l, h.owned list l o hl hr, hl, hp⟩

/-- No two objects have one list. -/
theorem distinct {obj obj' : Option O} {list : Nat} (hm : s.referenceMap obj = some list)
    (hm' : s.referenceMap obj' = some list) : obj = obj' := by
  obtain ⟨l, o, hl, hr, ho, _⟩ := h.registered _ _ hm
  obtain ⟨l', o', hl', hr', ho', _⟩ := h.registered _ _ hm'
  simp_all

theorem lt_next {list : Nat} {l : SafePointerList O P} (hl : s.lists list = some l) : list < s.next := by
  by_contra hge
  simp [h.fresh list (by omega)] at hl

theorem newList : Valid s.newList where
  ordered := h.ordered
  fresh list hlist := by
    have hlt : s.next + 1 ≤ list := hlist
    have hne : list ≠ s.next := by omega
    simp only [newList_lists, hne, ↓reduceIte]
    exact h.fresh list (by omega)
  keyed key list hk := by
    obtain ⟨l, hl⟩ := h.keyed key list hk
    exact ⟨l, by simpa only [newList_lists, (h.lt_next hl).ne, ↓reduceIte] using hl⟩
  registered obj list hm := by
    obtain ⟨l, o, hl, rest⟩ := h.registered obj list hm
    exact ⟨l, o, by simpa only [newList_lists, (h.lt_next hl).ne, ↓reduceIte] using hl, rest⟩
  owned list l o hl hr := by
    have hold : s.lists list = some l := old_of_newList hl (by rintro rfl; cases hr)
    exact h.owned list l o hold hr
  agrees list l p hl hp ha := by
    have hold : s.lists list = some l := old_of_newList hl (by rintro rfl; cases hp)
    exact h.agrees list l p hold hp ha
  once list l list' l' p hl hl' hp hp' ha := by
    have hold : s.lists list = some l := old_of_newList hl (by rintro rfl; cases hp)
    have hold' : s.lists list' = some l' := old_of_newList hl' (by rintro rfl; cases hp')
    exact h.once list l list' l' p hold hold' hp hp' ha
  kept p o ha ho := by
    obtain ⟨list, l, hl, hp⟩ := h.kept p o ha ho
    exact ⟨list, l, by simpa only [newList_lists, (h.lt_next hl).ne, ↓reduceIte] using hl, hp⟩

theorem setKey (key : ReferenceKey) {list : Nat} {l : SafePointerList O P} (hl : s.lists list = some l) :
    Valid (s.setKey key list) where
  ordered := OrderedMap.ordered_set h.ordered key list
  fresh := h.fresh
  keyed key' list' hk := by
    rcases OrderedMap.mem_set.mp hk with he | ⟨_, hk⟩
    · cases he
      exact ⟨l, hl⟩
    · exact h.keyed key' list' hk
  registered := h.registered
  owned := h.owned
  agrees := h.agrees
  once := h.once
  kept := h.kept

/-- What is recorded of a pointer that is not alive does not matter. -/
theorem construct [DecidableEq P] {p : P} (hp : s.aliveSafePointers p = false) (obj : Option O) (byKey : Bool) :
    Valid (s.construct p obj byKey) := by
  have unchanged {q : P} (hq : s.aliveSafePointers q) : (s.construct p obj byKey).object q = s.object q := by
    have hne : q ≠ p := by rintro rfl; simp [hp] at hq
    simp [construct_object, hne]
  exact {
    ordered := h.ordered
    fresh := h.fresh
    keyed := h.keyed
    registered := h.registered
    owned := h.owned
    agrees := fun list l q hl hq ha => (unchanged ha).trans (h.agrees list l q hl hq ha)
    once := h.once
    kept := fun q o ha ho => h.kept q o ha ((unchanged ha).symm.trans ho) }

theorem newObject [DecidableEq O] (o : O) : Valid (s.newObject o) where
  ordered := h.ordered
  fresh := h.fresh
  keyed := h.keyed
  registered obj list hm := by
    obtain ⟨l, x, hl, hr, hx, hlive⟩ := h.registered obj list hm
    exact ⟨l, x, hl, hr, hx, by simp [ReferenceManager.newObject, setLive_live, hlive]⟩
  owned := h.owned
  agrees := h.agrees
  once := h.once
  kept := h.kept

theorem forgetObject [DecidableEq O] {o : O} (ho : s.referenceMap (some o) = none) :
    Valid (s.setLive o false) where
  ordered := h.ordered
  fresh := h.fresh
  keyed := h.keyed
  registered obj list hm := by
    obtain ⟨l, x, hl, hr, hx, hlive⟩ := h.registered obj list hm
    have hne : x ≠ o := by
      rintro rfl
      subst hx
      cases ho.symm.trans hm
    exact ⟨l, x, hl, hr, hx, by simpa [setLive_live, hne] using hlive⟩
  owned := h.owned
  agrees := h.agrees
  once := h.once
  kept := h.kept

theorem deletePointer [DecidableEq P] (p : P) : Valid (s.setAlive p false) := by
  have alive {q : P} (hq : (s.setAlive p false).aliveSafePointers q) : s.aliveSafePointers q := by
    rw [setAlive_aliveSafePointers] at hq
    split at hq
    · cases hq
    · exact hq
  exact {
    ordered := h.ordered
    fresh := h.fresh
    keyed := h.keyed
    registered := h.registered
    owned := h.owned
    agrees := fun list l q hl hq ha => h.agrees list l q hl hq (alive ha)
    once := fun list l list' l' q hl hl' hq hq' ha => h.once list l list' l' q hl hl' hq hq' (alive ha)
    kept := fun q o ha ho => h.kept q o (alive ha) ho }

section SetReference
variable [DecidableEq P] {list : Nat} {l : SafePointerList O P} (hl : s.lists list = some l)
include hl

/-- The list of an object, if it has one, is made to refer to another object, or to none. -/
theorem redirect (referenceMap : Option O → Option Nat) (obj : Option O)
    (hmap : ∀ x list', referenceMap x = some list' →
      list' = list ∧ x = obj ∧ (∃ o, obj = some o ∧ s.live o) ∨ list' ≠ list ∧ s.referenceMap x = some list')
    (hown : ∀ o, obj = some o → referenceMap (some o) = some list)
    (hrest : ∀ x list', list' ≠ list → s.referenceMap x = some list' → referenceMap x = some list') :
    Valid { s.setReference list l obj with referenceMap := referenceMap } where
  ordered := h.ordered
  fresh list' hlist := by
    have hne : list' ≠ list := by
      have := h.lt_next hl
      have : s.next ≤ list' := hlist
      omega
    have := h.fresh list' hlist
    simpa [setReference_lists, hne] using this
  keyed key list' hk := by
    obtain ⟨l', hl'⟩ := h.keyed key list' hk
    obtain ⟨m, hm, _⟩ := list_setReference obj hl hl'
    exact ⟨m, hm⟩
  registered x list' hx := by
    rcases hmap x list' hx with ⟨rfl, rfl, o, rfl, hlive⟩ | ⟨hne, hx⟩
    · exact ⟨{ l with reference := some o }, o, by simp [setReference_lists], rfl, rfl, hlive⟩
    · obtain ⟨l', o, hl', rest⟩ := h.registered x list' hx
      exact ⟨l', o, by simpa [setReference_lists, hne] using hl', rest⟩
  owned list' m o hm hr := by
    obtain ⟨l', hl', _, href⟩ := of_list_setReference hl hm
    by_cases he : list' = list
    · subst he
      exact hown o (by simpa [hr] using href.symm)
    · have hr' : l'.reference = some o := by simpa [he, hr] using href.symm
      exact hrest _ _ he (h.owned list' l' o hl' hr')
  agrees list' m p hm hp ha := by
    obtain ⟨l', hl', hlist, href⟩ := of_list_setReference hl hm
    rw [hlist] at hp
    by_cases he : list' = list
    · subst he
      cases hl.symm.trans hl'
      have hp' : p ∈ l.list ∧ s.aliveSafePointers p := ⟨hp, ha⟩
      simp [setReference_object, hp', href]
    · have hne : p ∉ l.list := fun hp' => he (h.once list' l' list l p hl' hl hp hp' ha)
      simpa [setReference_object, hne, href, he] using h.agrees list' l' p hl' hp ha
  once list' m list'' m' p hm hm' hp hp' ha := by
    obtain ⟨l', hl', hlist, _⟩ := of_list_setReference hl hm
    obtain ⟨l'', hl'', hlist', _⟩ := of_list_setReference hl hm'
    exact h.once list' l' list'' l'' p hl' hl'' (hlist ▸ hp) (hlist' ▸ hp') ha
  kept p o ha ho := by
    by_cases hp : p ∈ l.list
    · exact ⟨list, { l with reference := obj }, by simp [setReference_lists], hp⟩
    · have ho' : s.object p = some o := by simpa [setReference_object, hp] using ho
      obtain ⟨list', l', hl', hp'⟩ := h.kept p o ha ho'
      obtain ⟨m, hm, hlist, _⟩ := list_setReference obj hl hl'
      exact ⟨list', m, hm, hlist ▸ hp'⟩

omit [DecidableEq P] in
/-- A list without an object may lose its pointers. -/
theorem clear (hr : l.reference = none) :
    Valid { s with lists := update s.lists list (some ⟨none, []⟩) } := by
  have of_list {list' : Nat} {m : SafePointerList O P} (hm : update s.lists list (some ⟨none, []⟩) list' = some m) :
      ∃ l', s.lists list' = some l' ∧ m.reference = l'.reference ∧ ∀ p ∈ m.list, p ∈ l'.list := by
    rw [update_apply] at hm
    split at hm
    next he =>
      cases hm
      exact ⟨l, he ▸ hl, hr.symm, by simp⟩
    next => exact ⟨m, hm, rfl, fun p hp => hp⟩
  have of_other {list' : Nat} {l' : SafePointerList O P} (hl' : s.lists list' = some l')
      (hne : list' ≠ list) : update s.lists list (some ⟨none, []⟩) list' = some l' := by
    simpa [update_apply, hne] using hl'
  exact {
    ordered := h.ordered
    fresh := by
      intro list' hlist
      have hne : list' ≠ list := by
        have := h.lt_next hl
        have : s.next ≤ list' := hlist
        omega
      simpa [update_apply, hne] using h.fresh list' hlist
    keyed := by
      intro key list' hk
      obtain ⟨l', hl'⟩ := h.keyed key list' hk
      by_cases hne : list' = list
      · exact ⟨⟨none, []⟩, by simp [hne]⟩
      · exact ⟨l', of_other hl' hne⟩
    registered := by
      intro x list' hx
      obtain ⟨l', o, hl', hr', rest⟩ := h.registered x list' hx
      refine ⟨l', o, of_other hl' ?_, hr', rest⟩
      rintro rfl
      cases hl.symm.trans hl'
      cases hr.symm.trans hr'
    owned := by
      intro list' m o hm hr'
      obtain ⟨l', hl', href, _⟩ := of_list hm
      exact h.owned list' l' o hl' (href ▸ hr')
    agrees := by
      intro list' m p hm hp ha
      obtain ⟨l', hl', href, hsub⟩ := of_list hm
      exact (h.agrees list' l' p hl' (hsub p hp) ha).trans href.symm
    once := by
      intro list' m list'' m' p hm hm' hp hp' ha
      obtain ⟨l', hl', _, hsub⟩ := of_list hm
      obtain ⟨l'', hl'', _, hsub'⟩ := of_list hm'
      exact h.once list' l' list'' l'' p hl' hl'' (hsub p hp) (hsub' p hp') ha
    kept := by
      intro p o ha ho
      obtain ⟨list', l', hl', hp⟩ := h.kept p o ha ho
      refine ⟨list', l', of_other hl' ?_, hp⟩
      rintro rfl
      cases hl.symm.trans hl'
      cases ((h.agrees list' l p hl hp ha).symm.trans ho).symm.trans hr }

variable [DecidableEq O]

/-- A list without an object becomes the list of one that has none. -/
theorem adopt {o : O} (hr : l.reference = none) (hm : s.referenceMap (some o) = none) (ho : s.live o) :
    Valid ((s.setObject (some o) (some list)).setReference list l (some o)) := by
  have unowned {x : Option O} : s.referenceMap x ≠ some list := by
    intro hx
    obtain ⟨l', y, hl', hr', _⟩ := h.registered x list hx
    cases hl.symm.trans hl'
    cases hr.symm.trans hr'
  apply h.redirect hl (update s.referenceMap (some o) (some list)) (some o)
  · intro x list' hx
    rw [update_apply] at hx
    split at hx
    next he => exact .inl ⟨(Option.some.inj hx).symm, he, o, rfl, ho⟩
    next => exact .inr ⟨fun he => unowned (he ▸ hx), hx⟩
  · rintro o' ho'
    cases ho'
    simp
  · intro x list' _ hx
    have hne : x ≠ some o := by rintro rfl; cases hm.symm.trans hx
    simpa [update_apply, hne] using hx

/-- To set again what is set changes nothing. -/
theorem setReference_self {o : O} (hr : l.reference = some o) :
    (s.setObject (some o) (some list)).setReference list l (some o) = s := by
  have hm : s.referenceMap (some o) = some list := h.owned list l o hl hr
  have lists_eq : update s.lists list (some { l with reference := some o }) = s.lists := by
    apply Function.update_eq_self_iff.mpr
    simp [hl, ← hr]
  have object_eq : (fun p => if p ∈ l.list ∧ s.aliveSafePointers p then some o else s.object p) = s.object := by
    funext p
    split
    next hp => simp [h.agrees list l p hl hp.1 hp.2, hr]
    next => rfl
  have map_eq : update s.referenceMap (some o) (some list) = s.referenceMap :=
    Function.update_eq_self_iff.mpr hm.symm
  simp only [setReference, setObject, lists_eq, object_eq, map_eq]

/-- All pointers to one object are made to point to another that has none. -/
theorem replaceAll {old new : O} (hm : s.referenceMap (some old) = some list)
    (hm' : s.referenceMap (some new) = none) (hlive : s.live new) :
    Valid (((s.setObject (some new) (some list)).setReference list l (some new)).setObject
      (some old) none) := by
  have hne : new ≠ old := by rintro rfl; cases hm.symm.trans hm'
  apply h.redirect hl (update (update s.referenceMap (some new) (some list)) (some old) none) (some new)
  · intro x list' hx
    simp only [update_apply] at hx
    split at hx
    next => cases hx
    next hold =>
      split at hx
      next he => exact .inl ⟨(Option.some.inj hx).symm, he, new, rfl, hlive⟩
      next => exact .inr ⟨fun he => hold (h.distinct (he ▸ hx) hm), hx⟩
  · rintro o ho
    cases ho
    simp [hne]
  · intro x list' hlist hx
    have hold : x ≠ some old := by rintro rfl; exact hlist (Option.some.inj (hx.symm.trans hm))
    have hnew : x ≠ some new := by rintro rfl; cases hm'.symm.trans hx
    simpa [update_apply, hold, hnew] using hx

/-- The list of an object is emptied and no longer refers to it. -/
theorem cleanup {o : O} (hm : s.referenceMap (some o) = some list) :
    Valid ((s.cleanup list l).setObject (some o) none) := by
  have valid : Valid { s.setReference list l none with
      referenceMap := update s.referenceMap (some o) none } := by
    apply h.redirect hl
    · intro x list' hx
      rw [update_apply] at hx
      split at hx
      next => cases hx
      next hne => exact .inr ⟨fun he => hne (h.distinct (he ▸ hx) hm), hx⟩
    · rintro o' ho'
      cases ho'
    · intro x list' hlist hx
      have hne : x ≠ some o := by rintro rfl; exact hlist (Option.some.inj (hx.symm.trans hm))
      simpa [update_apply, hne] using hx
  apply @Valid.clear _ _ _ valid list { l with reference := none }
  · exact update_self _ _ _
  · rfl

end SetReference

section Lists
variable [DecidableEq P]

/-- A new pointer joins a list; no other list has its address. -/
theorem appendPointer {list : Nat} {l : SafePointerList O P} (hl : s.lists list = some l) {p : P}
    (hp : s.aliveSafePointers p = false)
    (hother : ∀ list' l', s.lists list' = some l' → p ∈ l'.list → list' = list) :
    Valid ((s.appendPointer list l p).setAlive p true) := by
  have of_list {list' : Nat} {m : SafePointerList O P}
      (hm : (s.appendPointer list l p).lists list' = some m) :
      ∃ l', s.lists list' = some l' ∧ m.reference = l'.reference ∧
        (∀ q ∈ m.list, q = p ∧ list' = list ∨ q ∈ l'.list) := by
    rw [appendPointer_lists] at hm
    split at hm
    next he =>
      cases hm
      exact ⟨l, he ▸ hl, rfl, by simp [he, or_comm]⟩
    next => exact ⟨m, hm, rfl, fun q hq => .inr hq⟩
  have to_list {list' : Nat} {l' : SafePointerList O P} (hl' : s.lists list' = some l') :
      ∃ m, (s.appendPointer list l p).lists list' = some m ∧ m.reference = l'.reference ∧
        ∀ q ∈ l'.list, q ∈ m.list := by
    rw [appendPointer_lists]
    split
    next he =>
      cases (he ▸ hl).symm.trans hl'
      exact ⟨_, rfl, rfl, by simp +contextual⟩
    next => exact ⟨l', hl', rfl, fun q hq => hq⟩
  have alive {q : P} (hq : ((s.appendPointer list l p).setAlive p true).aliveSafePointers q) (hne : q ≠ p) :
      s.aliveSafePointers q := by
    rwa [setAlive_aliveSafePointers, if_neg hne] at hq
  have home {list' : Nat} {l' : SafePointerList O P} (hl' : s.lists list' = some l') {q : P}
      (hq : q = p ∧ list' = list ∨ q ∈ l'.list) (he : q = p) : list' = list := by
    subst he
    exact hq.elim (fun hq => hq.2) (hother list' l' hl')
  exact {
    ordered := h.ordered
    fresh := by
      intro list' hlist
      have hne : list' ≠ list := by
        have := h.lt_next hl
        have : s.next ≤ list' := hlist
        omega
      simpa [setAlive, appendPointer_lists, hne] using h.fresh list' hlist
    keyed := by
      intro key list' hk
      obtain ⟨l', hl'⟩ := h.keyed key list' hk
      obtain ⟨m, hm, _⟩ := to_list hl'
      exact ⟨m, hm⟩
    registered := by
      intro x list' hx
      obtain ⟨l', o, hl', hr, rest⟩ := h.registered x list' hx
      obtain ⟨m, hm, href, _⟩ := to_list hl'
      exact ⟨m, o, hm, href.trans hr, rest⟩
    owned := by
      intro list' m o hm hr
      obtain ⟨l', hl', href, _⟩ := of_list hm
      exact h.owned list' l' o hl' (href ▸ hr)
    agrees := by
      intro list' m q hm hq ha
      obtain ⟨l', hl', href, hfrom⟩ := of_list hm
      have hobj : ((s.appendPointer list l p).setAlive p true).object q =
        if q = p then l.reference else s.object q := appendPointer_object s list l p q
      by_cases he : q = p
      · have := home hl' (hfrom q hq) he
        subst this
        cases hl.symm.trans hl'
        rw [hobj, if_pos he, href]
      · have hq' : q ∈ l'.list := (hfrom q hq).resolve_left fun hq => he hq.1
        simpa [hobj, he, href] using h.agrees list' l' q hl' hq' (alive ha he)
    once := by
      intro list' m list'' m' q hm hm' hq hq' ha
      obtain ⟨l', hl', _, hfrom⟩ := of_list hm
      obtain ⟨l'', hl'', _, hfrom'⟩ := of_list hm'
      by_cases he : q = p
      · exact (home hl' (hfrom q hq) he).trans (home hl'' (hfrom' q hq') he).symm
      · exact h.once list' l' list'' l'' q hl' hl'' ((hfrom q hq).resolve_left fun hq => he hq.1)
          ((hfrom' q hq').resolve_left fun hq => he hq.1) (alive ha he)
    kept := by
      intro q o ha ho
      by_cases he : q = p
      · exact ⟨list, { l with list := l.list ++ [p] },
          (appendPointer_lists s list list l p).trans (if_pos rfl), by simp [he]⟩
      · have hobj := appendPointer_object s list l p q
        rw [if_neg he] at hobj
        have ho' : s.object q = some o := hobj.symm.trans ho
        obtain ⟨list', l', hl', hq⟩ := h.kept q o (alive ha he) ho'
        obtain ⟨m, hm, _, hsub⟩ := to_list hl'
        exact ⟨list', m, hm, hsub q hq⟩ }

omit [DecidableEq P] in
/-- A list that no table leads to and that has no pointers can be deleted. -/
theorem deleteList {list : Nat} (hk : ∀ key, (key, list) ∉ s.keyMap)
    (hm : ∀ obj, s.referenceMap obj ≠ some list)
    (he : ∀ l, s.lists list = some l → l.list = []) : Valid (s.deleteList list) := by
  have of_list {list' : Nat} {l' : SafePointerList O P} (hl' : (s.deleteList list).lists list' = some l') :
      s.lists list' = some l' := by
    rw [deleteList_lists] at hl'
    split at hl'
    · cases hl'
    · exact hl'
  have to_list {list' : Nat} {l' : SafePointerList O P} (hl' : s.lists list' = some l')
      (hne : list' ≠ list) : (s.deleteList list).lists list' = some l' := by
    simpa [deleteList_lists, hne] using hl'
  exact {
    ordered := h.ordered
    fresh := by
      intro list' hlist
      have := h.fresh list' hlist
      simp [deleteList_lists, this]
    keyed := by
      intro key list' hkey
      obtain ⟨l', hl'⟩ := h.keyed key list' hkey
      exact ⟨l', to_list hl' fun hne => hk key (hne ▸ hkey)⟩
    registered := by
      intro x list' hx
      obtain ⟨l', o, hl', rest⟩ := h.registered x list' hx
      exact ⟨l', o, to_list hl' fun hne => hm x (hne ▸ hx), rest⟩
    owned := fun list' l' o hl' => h.owned list' l' o (of_list hl')
    agrees := fun list' l' p hl' => h.agrees list' l' p (of_list hl')
    once := fun list' l' list'' l'' p hl' hl'' => h.once list' l' list'' l'' p (of_list hl') (of_list hl'')
    kept := by
      intro p o ha ho
      obtain ⟨list', l', hl', hp⟩ := h.kept p o ha ho
      refine ⟨list', l', to_list hl' ?_, hp⟩
      rintro rfl
      simp [he l' hl'] at hp }

/-- The pointers of a list without an object join those of an object's list. -/
theorem merge {key : ReferenceKey} {keyList refList : Nat} {a r : SafePointerList O P} {o : O}
    (ha : s.lists keyList = some a) (hr : s.lists refList = some r) (hnone : a.reference = none)
    (hsome : r.reference = some o) (hkey : ∀ key', (key', keyList) ∈ s.keyMap → key' = key) :
    Valid (((s.appendList refList keyList r a).deleteList keyList).setKey key refList) := by
  have hne : refList ≠ keyList := by
    rintro rfl
    cases ha.symm.trans hr
    cases hnone.symm.trans hsome
  have merged_lists (list' : Nat) :
      (((s.appendList refList keyList r a).deleteList keyList).setKey key refList).lists list' =
        if list' = keyList then none
        else if list' = refList then some { r with list := r.list ++ a.list } else s.lists list' := by
    refine (deleteList_lists (s.appendList refList keyList r a) keyList list').trans ?_
    by_cases hk : list' = keyList
    · simp [hk]
    · simp [hk, appendList_lists]
  have of_list {list' : Nat} {m : SafePointerList O P}
      (hm : (((s.appendList refList keyList r a).deleteList keyList).setKey key refList).lists list' = some m) :
      list' ≠ keyList ∧ ∃ l', s.lists list' = some l' ∧ m.reference = l'.reference ∧
        ∀ q ∈ m.list, q ∈ l'.list ∨ list' = refList ∧ q ∈ a.list := by
    rw [merged_lists] at hm
    split at hm
    next => cases hm
    next hk =>
      split at hm
      next he =>
        cases hm
        exact ⟨hk, r, he ▸ hr, rfl, by simp [he]⟩
      next => exact ⟨hk, m, hm, rfl, fun q hq => .inl hq⟩
  have to_list {list' : Nat} {l' : SafePointerList O P} (hl' : s.lists list' = some l') (hk : list' ≠ keyList) :
      ∃ m, (((s.appendList refList keyList r a).deleteList keyList).setKey key refList).lists list' = some m ∧
        m.reference = l'.reference ∧ ∀ q ∈ l'.list, q ∈ m.list := by
    rw [merged_lists, if_neg hk]
    split
    next he =>
      cases (he ▸ hr).symm.trans hl'
      exact ⟨_, rfl, rfl, by simp +contextual⟩
    next => exact ⟨l', hl', rfl, fun q hq => hq⟩
  have hobj (q : P) : (((s.appendList refList keyList r a).deleteList keyList).setKey key refList).object q =
      if q ∈ a.list ∧ s.aliveSafePointers q then some o else s.object q :=
    hsome ▸ appendList_object s refList keyList r a q
  exact {
    ordered := OrderedMap.ordered_set h.ordered key refList
    fresh := by
      intro list' hlist
      have hlist' : s.next ≤ list' := hlist
      have hlt := h.lt_next hr
      have hlt' := h.lt_next ha
      have hr' : list' ≠ refList := by omega
      have hk : list' ≠ keyList := by omega
      simpa [merged_lists, hr', hk] using h.fresh list' hlist'
    keyed := by
      intro key' list' hk
      rcases OrderedMap.mem_set.mp hk with he | ⟨hother, hk⟩
      · cases he
        obtain ⟨m, hm, _⟩ := to_list hr hne
        exact ⟨m, hm⟩
      · obtain ⟨l', hl'⟩ := h.keyed key' list' hk
        obtain ⟨m, hm, _⟩ := to_list hl' fun he => hother (hkey key' (he ▸ hk))
        exact ⟨m, hm⟩
    registered := by
      intro x list' hx
      obtain ⟨l', o', hl', href, rest⟩ := h.registered x list' hx
      obtain ⟨m, hm, href', _⟩ := to_list hl' (by
        rintro rfl
        cases ha.symm.trans hl'
        cases hnone.symm.trans href)
      exact ⟨m, o', hm, href'.trans href, rest⟩
    owned := by
      intro list' m o' hm href
      obtain ⟨_, l', hl', href', _⟩ := of_list hm
      exact h.owned list' l' o' hl' (href' ▸ href)
    agrees := by
      intro list' m q hm hq hal
      obtain ⟨hk, l', hl', href, hfrom⟩ := of_list hm
      have hal' : s.aliveSafePointers q := hal
      rcases hfrom q hq with hq' | ⟨rfl, hq'⟩
      · have hnot : q ∉ a.list := fun hqa => hk (h.once list' l' keyList a q hl' ha hq' hqa hal')
        simpa [hobj, hnot, href] using h.agrees list' l' q hl' hq' hal'
      · cases hr.symm.trans hl'
        simp [hobj, hq', hal', href, hsome]
    once := by
      intro list' m list'' m' q hm hm' hq hq' hal
      obtain ⟨hk, l', hl', _, hfrom⟩ := of_list hm
      obtain ⟨hk', l'', hl'', _, hfrom'⟩ := of_list hm'
      rcases hfrom q hq with hq | ⟨rfl, hq⟩
      · rcases hfrom' q hq' with hq' | ⟨rfl, hq'⟩
        · exact h.once list' l' list'' l'' q hl' hl'' hq hq' hal
        · exact absurd (h.once list' l' keyList a q hl' ha hq hq' hal) hk
      · rcases hfrom' q hq' with hq' | ⟨rfl, hq'⟩
        · exact absurd (h.once list'' l'' keyList a q hl'' ha hq' hq hal) hk'
        · rfl
    kept := by
      intro q o' hal ho
      rw [hobj] at ho
      by_cases hqa : q ∈ a.list ∧ s.aliveSafePointers q
      · exact ⟨refList, { r with list := r.list ++ a.list }, by simp [merged_lists, hne], by simp [hqa.1]⟩
      · rw [if_neg hqa] at ho
        obtain ⟨list', l', hl', hq⟩ := h.kept q o' hal ho
        obtain ⟨m, hm, _, hsub⟩ := to_list hl' (by
          rintro rfl
          cases ha.symm.trans hl'
          exact hqa ⟨hq, hal⟩)
        exact ⟨list', m, hm, hsub q hq⟩ }

end Lists

end Valid

end Tce.TPEF.ReferenceManager
