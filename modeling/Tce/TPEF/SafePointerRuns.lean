import Tce.TPEF.SafePointerInvariant

/-!
# Runs of the reference manager

The operations in any order, and what holds of the tables in every state they
reach as long as no operation drops, shares or deletes a list that is in use.
-/

namespace Tce.TPEF
open ReferenceManager

inductive Operation (O P : Type) where
  | newObject (obj : O)
  | createByKey (p : P) (key : ReferenceKey)
  | createByObject (p : P) (obj : Option O)
  | addObjectReference (key : ReferenceKey) (obj : O)
  | replaceReference (old : Option P) (new : P) (obj : Option O)
  | replaceAllReferences (newObj oldObj : Option O)
  | deletePointer (p : P)
  | deleteObject (obj : O)

namespace ReferenceManager
variable {O P : Type}

/-- What any caller keeps to: what it passes or deletes exists, and what it makes
gets an address that is not in use. -/
def Permitted (s : ReferenceManager O P) : Operation O P → Prop
  | .newObject obj => s.live obj = false
  | .createByKey p _ => s.aliveSafePointers p = false
  | .createByObject p obj => s.aliveSafePointers p = false ∧ ∀ o, obj = some o → s.live o
  | .addObjectReference _ obj => s.live obj
  | .replaceReference old new obj =>
    (∀ p, old = some p → s.aliveSafePointers p) ∧ (s.aliveSafePointers new = false ∨ old = some new) ∧
      ∀ o, obj = some o → s.live o
  | .replaceAllReferences newObj oldObj =>
    (∀ o, newObj = some o → s.live o) ∧ ∀ o, oldObj = some o → s.live o
  | .deletePointer p => s.aliveSafePointers p
  | .deleteObject obj => s.live obj

/-- No list but this one, if there is one, has the address of the pointer. -/
def NotElsewhere (s : ReferenceManager O P) (p : P) (target : Option Nat) : Prop :=
  ∀ list l, s.lists list = some l → p ∈ l.list → target = some list

/-- Only this key leads to the list. -/
def Alone (s : ReferenceManager O P) (key : ReferenceKey) (list : Nat) : Prop :=
  ∀ key', (key', list) ∈ s.keyMap → key' = key

/-- When an operation does no harm: a new pointer has an address that no other list
still holds, a key list that is merged is the list of no other key, and references
are moved to an object that has none yet. -/
def Harmless (s : ReferenceManager O P) : Operation O P → Prop
  | .createByKey p key => s.NotElsewhere p (OrderedMap.find s.keyMap key)
  | .createByObject p obj => obj ≠ none → s.NotElsewhere p (s.referenceMap obj)
  | .addObjectReference key obj =>
    ∀ list l, OrderedMap.find s.keyMap key = some list → s.lists list = some l → l.reference = none →
      s.referenceMap (some obj) ≠ none → s.Alone key list
  | .replaceReference _ new obj => obj ≠ none → s.NotElsewhere new (s.referenceMap obj)
  | .replaceAllReferences newObj oldObj =>
    s.referenceMap oldObj ≠ none → newObj ≠ none ∧ s.referenceMap newObj = none
  | _ => True

theorem listAt_eq {s : ReferenceManager O P} {list : Nat} {l : SafePointerList O P}
    (hl : s.lists list = some l) : s.listAt list = .ok l := by
  simp [listAt, hl]

section Step
variable [DecidableEq O] [DecidableEq P]

def perform (s : ReferenceManager O P) : Operation O P → Except Failure (ReferenceManager O P)
  | .newObject obj => .ok (s.newObject obj)
  | .createByKey p key => s.createByKey p key
  | .createByObject p obj => s.createByObject p obj
  | .addObjectReference key obj => s.genericAddObjectReference key obj
  | .replaceReference old new obj => s.replaceReference old new obj
  | .replaceAllReferences newObj oldObj => s.replaceAllReferences newObj oldObj
  | .deletePointer p => s.deletePointer p
  | .deleteObject obj => s.deleteObject obj

/-- An operation that throws leaves everything as it was. -/
inductive Reachable (condition : ReferenceManager O P → Operation O P → Prop) : ReferenceManager O P → Prop where
  | start : Reachable condition .empty
  | next {s t} (op : Operation O P) : Reachable condition s → s.Permitted op → condition s op → s.perform op = .ok t →
    Reachable condition t

end Step

/-- The result is not a fault, and a state that is reached is valid. -/
def Keeps (result : Except Failure (ReferenceManager O P)) : Prop :=
  result ≠ .error .fault ∧ ∀ t, result = .ok t → Valid t

theorem keeps_ok {t : ReferenceManager O P} (ht : Valid t) : Keeps (.ok t) :=
  ⟨by simp, by rintro _ ⟨⟩; exact ht⟩

variable [DecidableEq P]

theorem register_keeps {s : ReferenceManager O P} (h : Valid s) {list : Nat} {l : SafePointerList O P} {p : P}
    (hl : s.lists list = some l) (hset : l.reference = none → s.object p = none)
    (hp : s.aliveSafePointers p = false) (hother : s.NotElsewhere p (some list)) :
    Keeps (s.genericRegisterPointer list p) := by
  have hif : ¬(l.reference = none ∧ s.object p ≠ none) := fun hc => hc.2 (hset hc.1)
  have heq : s.genericRegisterPointer list p = .ok ((s.appendPointer list l p).setAlive p true) := by
    simp only [genericRegisterPointer, listAt_eq hl, bind, Except.bind, hif, ↓reduceIte, pure, Except.pure]
  rw [heq]
  exact keeps_ok (h.appendPointer hl hp fun list' l' hl' hp' => by simpa using (hother list' l' hl' hp').symm)

variable [DecidableEq O]

/-- The first pointer to an object, whose list is new. -/
theorem register_first_keeps {s : ReferenceManager O P} (h : Valid s) {list : Nat} {p : P} {o : O}
    (hl : s.lists list = some ⟨none, []⟩) (hm : s.referenceMap (some o) = none) (hlive : s.live o)
    (ho : s.object p = some o) (hp : s.aliveSafePointers p = false) (hother : s.NotElsewhere p none) :
    Keeps ((s.setObject (some o) (some list)).genericRegisterPointer list p) := by
  have hl' : ((s.setObject (some o) (some list)).setReference list ⟨none, []⟩ (some o)).lists list =
      some ⟨some o, []⟩ := by
    simp [setReference_lists]
  have heq : (s.setObject (some o) (some list)).genericRegisterPointer list p =
      .ok ((((s.setObject (some o) (some list)).setReference list ⟨none, []⟩ (some o)).appendPointer
        list ⟨some o, []⟩ p).setAlive p true) := by
    have ho' : (s.setObject (some o) (some list)).object p = some o := ho
    have hs : (s.setObject (some o) (some list)).lists list = some ⟨none, []⟩ := hl
    simp [genericRegisterPointer, listAt_eq hs, listAt_eq hl', ho', bind, Except.bind, pure, Except.pure]
  rw [heq]
  apply keeps_ok
  apply (h.adopt hl rfl hm hlive).appendPointer hl' hp
  intro list' l' hmem hp'
  obtain ⟨m, hm', hlist, _⟩ := of_list_setReference hl hmem
  cases hother list' m hm' (hlist ▸ hp')

section Add
variable {s : ReferenceManager O P} (h : Valid s) {key : ReferenceKey} {obj : O}
include h

omit [DecidableEq O] [DecidableEq P] in
theorem allocated_of_find {list : Nat} (hf : OrderedMap.find s.keyMap key = some list) :
    ∃ l, s.lists list = some l :=
  h.keyed key list (OrderedMap.mem_of_find hf)

/-- A key that has an object is not given another one. -/
theorem add_known {list : Nat} {l : SafePointerList O P} (hf : OrderedMap.find s.keyMap key = some list)
    (hl : s.lists list = some l) (hr : l.reference ≠ none) :
    s.genericAddObjectReference key obj = .error .keyAlreadyExists := by
  have refused : l.reference = some obj → s.referenceMap (some obj) = some list := h.owned list l obj hl
  by_cases he : l.reference = some obj
  · simp [genericAddObjectReference, hf, referenceOf, listAt_eq hl, refused he, bind, Except.bind,
      throw, throwThe, MonadExceptOf.throw, pure, Except.pure]
  · simp [genericAddObjectReference, hf, referenceOf, listAt_eq hl, hr, he, bind, Except.bind,
      throw, throwThe, MonadExceptOf.throw, pure, Except.pure]

theorem add_merged {list refList : Nat} {l r : SafePointerList O P}
    (hf : OrderedMap.find s.keyMap key = some list) (hl : s.lists list = some l) (hr : l.reference = none)
    (hm : s.referenceMap (some obj) = some refList) (hlr : s.lists refList = some r)
    (hrr : r.reference = some obj) (halone : s.Alone key list) :
    s.genericAddObjectReference key obj =
      .ok (((s.appendList refList list r l).deleteList list).setKey key refList) := by
  have hne : refList ≠ list := by
    rintro rfl
    cases hl.symm.trans hlr
    cases hr.symm.trans hrr
  have hvalid := h.merge hl hlr hr hrr halone
  have hlr' : ((s.appendList refList list r l).deleteList list).lists refList =
      some { r with list := r.list ++ l.list } := by
    simp [deleteList_lists, appendList_lists, hne]
  have hself := hvalid.setReference_self (o := obj) hlr' hrr
  simp [genericAddObjectReference, hf, hm, referenceOf, mergeLists, connect, listAt_eq hl, listAt_eq hlr,
    listAt_eq hlr', hr, hne.symm, bind, Except.bind, pure, Except.pure, hself]

omit h in
theorem add_first {list : Nat} {l : SafePointerList O P} (hf : OrderedMap.find s.keyMap key = some list)
    (hl : s.lists list = some l) (hr : l.reference = none) (hm : s.referenceMap (some obj) = none) :
    s.genericAddObjectReference key obj =
      .ok (((s.setKey key list).setObject (some obj) (some list)).setReference list l (some obj)) := by
  simp [genericAddObjectReference, hf, hm, referenceOf, mergeLists, connect, listAt_eq hl, hr, bind,
    Except.bind, pure, Except.pure]

theorem add_key {refList : Nat} {r : SafePointerList O P} (hf : OrderedMap.find s.keyMap key = none)
    (hm : s.referenceMap (some obj) = some refList) (hlr : s.lists refList = some r)
    (hrr : r.reference = some obj) :
    s.genericAddObjectReference key obj = .ok (s.setKey key refList) := by
  have hself := (h.setKey key hlr).setReference_self (o := obj) hlr hrr
  simp [genericAddObjectReference, hf, hm, referenceOf, mergeLists, connect, listAt_eq hlr, bind,
    Except.bind, pure, Except.pure, hself]

omit h in
theorem add_new (hf : OrderedMap.find s.keyMap key = none) (hm : s.referenceMap (some obj) = none) :
    s.genericAddObjectReference key obj =
      .ok (((s.newList.setKey key s.next).setObject (some obj) (some s.next)).setReference s.next ⟨none, []⟩
        (some obj)) := by
  have hl : s.newList.lists s.next = some ⟨none, []⟩ := by simp [newList_lists]
  simp [genericAddObjectReference, hf, hm, referenceOf, mergeLists, connect, listAt_eq hl, bind,
    Except.bind, pure, Except.pure]

theorem add_keeps (hlive : s.live obj) (hharmless : s.Harmless (.addObjectReference key obj)) :
    Keeps (s.genericAddObjectReference key obj) := by
  cases hf : OrderedMap.find s.keyMap key with
  | some list =>
    obtain ⟨l, hl⟩ := allocated_of_find h hf
    by_cases hr : l.reference = none
    · cases hm : s.referenceMap (some obj) with
      | some refList =>
        obtain ⟨r, hlr, hrr⟩ := h.reference_of_registered hm
        have halone : s.Alone key list := hharmless list l hf hl hr (by simp [hm])
        rw [add_merged h hf hl hr hm hlr hrr halone]
        exact keeps_ok (h.merge hl hlr hr hrr halone)
      | none =>
        rw [add_first hf hl hr hm]
        exact keeps_ok ((h.setKey key hl).adopt hl hr hm hlive)
    · simp [Keeps, add_known h hf hl hr]
  | none =>
    cases hm : s.referenceMap (some obj) with
    | some refList =>
      obtain ⟨r, hlr, hrr⟩ := h.reference_of_registered hm
      rw [add_key h hf hm hlr hrr]
      exact keeps_ok (h.setKey key hlr)
    | none =>
      have hl : s.newList.lists s.next = some ⟨none, []⟩ := by simp [newList_lists]
      rw [add_new hf hm]
      exact keeps_ok ((h.newList.setKey key hl).adopt hl rfl hm hlive)

end Add

section Operations
variable {s : ReferenceManager O P} (h : Valid s)
include h

omit [DecidableEq O] in
theorem createByKey_keeps {p : P} {key : ReferenceKey} (hp : s.aliveSafePointers p = false)
    (hother : s.NotElsewhere p (OrderedMap.find s.keyMap key)) : Keeps (s.createByKey p key) := by
  have hc := h.construct hp none true
  have hobj : (s.construct p none true).object p = none := by simp [construct_object]
  unfold createByKey listForKey
  cases hf : OrderedMap.find s.keyMap key with
  | some list =>
    have hkey : OrderedMap.find (s.construct p none true).keyMap key = some list := hf
    obtain ⟨l, hl⟩ := allocated_of_find h hf
    simp only [hkey]
    exact register_keeps hc hl (fun _ => hobj) hp (hf ▸ hother)
  | none =>
    have hkey : OrderedMap.find (s.construct p none true).keyMap key = none := hf
    have hl : (s.construct p none true).newList.lists s.next = some ⟨none, []⟩ :=
      (newList_lists (s.construct p none true) s.next).trans (if_pos rfl)
    simp only [hkey]
    apply register_keeps (hc.newList.setKey key hl) hl (fun _ => hobj) hp
    intro list' l' hl' hp'
    have hold : s.lists list' = some l' :=
      old_of_newList (s := s.construct p none true) hl' (by rintro rfl; cases hp')
    cases (hf ▸ hother) list' l' hold hp'

theorem createByObject_keeps {p : P} {obj : Option O} (hp : s.aliveSafePointers p = false)
    (hlive : ∀ o, obj = some o → s.live o) (hother : obj ≠ none → s.NotElsewhere p (s.referenceMap obj)) :
    Keeps (s.createByObject p obj) := by
  have hc := h.construct hp obj false
  unfold createByObject
  cases obj with
  | none => exact keeps_ok hc
  | some o =>
    have hobj : (s.construct p (some o) false).object p = some o := by simp [construct_object]
    have hother : s.NotElsewhere p (s.referenceMap (some o)) := hother (by simp)
    unfold listForObject
    cases hm : s.referenceMap (some o) with
    | some list =>
      have hmap : (s.construct p (some o) false).referenceMap (some o) = some list := hm
      obtain ⟨l, hl, hr⟩ := h.reference_of_registered hm
      simp only [hmap]
      exact register_keeps hc hl (by simp [hr]) hp (hm ▸ hother)
    | none =>
      have hmap : (s.construct p (some o) false).referenceMap (some o) = none := hm
      have hl : (s.construct p (some o) false).newList.lists s.next = some ⟨none, []⟩ :=
        (newList_lists (s.construct p (some o) false) s.next).trans (if_pos rfl)
      simp only [hmap]
      apply register_first_keeps hc.newList hl hmap (hlive o rfl) hobj hp
      intro list' l' hl' hp'
      have hold : s.lists list' = some l' :=
        old_of_newList (s := s.construct p (some o) false) hl' (by rintro rfl; cases hp')
      exact (hm ▸ hother) list' l' hold hp'

theorem replaceReference_keeps {old : Option P} {new : P} {obj : Option O}
    (hp : s.Permitted (.replaceReference old new obj)) (hh : s.Harmless (.replaceReference old new obj)) :
    Keeps (s.replaceReference old new obj) := by
  obtain ⟨hold, hnew, hlive⟩ := hp
  cases obj with
  | none =>
    cases old with
    | none => exact keeps_ok h
    | some p =>
      have hp : s.aliveSafePointers p := hold p rfl
      have heq : s.replaceReference (some p) new none = .ok (s.setAlive p false) := by
        simp [replaceReference, deleteOld, ReferenceManager.deletePointer, hp, bind, Except.bind, pure,
          Except.pure]
      exact heq ▸ keeps_ok (h.deletePointer p)
  | some o =>
    cases old with
    | none =>
      have hfree : s.aliveSafePointers new = false := hnew.resolve_right (by simp)
      exact createByObject_keeps h hfree hlive hh
    | some p =>
      have hp : s.aliveSafePointers p := hold p rfl
      have hfree : (s.setAlive p false).aliveSafePointers new = false := by
        rw [setAlive_aliveSafePointers]
        rcases hnew with hnew | hnew
        · simp [hnew]
        · cases hnew
          simp
      have heq : s.replaceReference (some p) new (some o) = (s.setAlive p false).createByObject new (some o) := by
        simp [replaceReference, deleteOld, ReferenceManager.deletePointer, hp, bind, Except.bind]
      exact heq ▸ createByObject_keeps (h.deletePointer p) hfree hlive hh

theorem replaceAllReferences_keeps {newObj oldObj : Option O}
    (hp : s.Permitted (.replaceAllReferences newObj oldObj))
    (hh : s.Harmless (.replaceAllReferences newObj oldObj)) :
    Keeps (s.replaceAllReferences newObj oldObj) := by
  unfold replaceAllReferences
  cases hm : s.referenceMap oldObj with
  | none => simp [Keeps]
  | some list =>
    obtain ⟨hsome, hnone⟩ := hh (by simp [hm])
    obtain ⟨new, rfl⟩ := Option.ne_none_iff_exists'.mp hsome
    obtain ⟨l, old, hl, _, rfl, _⟩ := h.registered oldObj list hm
    simp only [listAt_eq hl, bind, Except.bind, pure, Except.pure]
    exact keeps_ok (h.replaceAll hl hm hnone (hp.1 new rfl))

/-- The state that the deletion of a registered object leaves. -/
theorem notifyDeleted_keeps (o : O) :
    ∃ t, s.notifyDeleted o = .ok t ∧ Valid t ∧ t.referenceMap (some o) = none ∧
      ∀ p, s.aliveSafePointers p → t.object p = if s.object p = some o then none else s.object p := by
  unfold notifyDeleted
  cases hm : s.referenceMap (some o) with
  | none =>
    refine ⟨s, rfl, h, hm, fun p hp => ?_⟩
    split
    next ho =>
      obtain ⟨list, _, hlist, _⟩ := h.listed hp ho
      cases hm.symm.trans hlist
    next => rfl
  | some list =>
    obtain ⟨l, hl, hr⟩ := h.reference_of_registered hm
    have hclean := h.cleanup hl hm
    have hobj (p : P) (hp : s.aliveSafePointers p) :
        (s.cleanup list l).object p = if s.object p = some o then none else s.object p := by
      have hmem : p ∈ l.list ↔ s.object p = some o := by
        constructor
        · intro hpl
          exact (h.agrees list l p hl hpl hp).trans hr
        · intro ho
          obtain ⟨list', l', hm', hl', hpl⟩ := h.listed hp ho
          cases hm.symm.trans hm'
          cases hl.symm.trans hl'
          exact hpl
      simp [cleanup_object, hmem, hp]
    simp only [listAt_eq hl, bind, Except.bind, pure, Except.pure]
    split
    next => exact ⟨_, rfl, hclean, by simp [setObject_referenceMap], hobj⟩
    next hkeys =>
      refine ⟨_, rfl, ?_, by simp [setObject_referenceMap], hobj⟩
      apply @Valid.deleteList _ _ _ hclean list
      · intro key hk
        exact hkeys (List.any_eq_true.mpr ⟨(key, list), hk, by simp⟩)
      · intro x hx
        rw [setObject_referenceMap] at hx
        split at hx
        next => cases hx
        next hne => exact hne (h.distinct hx hm)
      · intro l' hl'
        have hempty := (cleanup_lists s list list l).symm.trans hl'
        simp only [↓reduceIte, Option.some.injEq] at hempty
        exact hempty ▸ rfl

theorem deleteObject_eq (o : O) :
    ∃ t, s.deleteObject o = .ok t ∧ Valid t ∧
      ∀ p, s.aliveSafePointers p → t.object p = if s.object p = some o then none else s.object p := by
  obtain ⟨t, ht, hvalid, hm, hobj⟩ := notifyDeleted_keeps h o
  refine ⟨t.setLive o false, ?_, hvalid.forgetObject hm, hobj⟩
  simp [deleteObject, ht, bind, Except.bind, pure, Except.pure]

/-- An operation that does no harm keeps the tables valid. -/
theorem perform_keeps {op : Operation O P} (hp : s.Permitted op) (hh : s.Harmless op) :
    Keeps (s.perform op) := by
  cases op with
  | newObject obj => exact keeps_ok (h.newObject obj)
  | createByKey p key => exact createByKey_keeps h hp hh
  | createByObject p obj => exact createByObject_keeps h hp.1 hp.2 hh
  | addObjectReference key obj => exact add_keeps h hp hh
  | replaceReference old new obj => exact replaceReference_keeps h hp hh
  | replaceAllReferences newObj oldObj => exact replaceAllReferences_keeps h hp hh
  | deletePointer p =>
    have hp : s.aliveSafePointers p := hp
    simp only [perform, ReferenceManager.deletePointer, hp, ↓reduceIte]
    exact keeps_ok (h.deletePointer p)
  | deleteObject obj =>
    obtain ⟨t, ht, hvalid, _⟩ := deleteObject_eq h obj
    simp only [perform, ht]
    exact keeps_ok hvalid

end Operations

theorem Reachable.valid {s : ReferenceManager O P} (hs : Reachable Harmless s) : Valid s := by
  induction hs with
  | start => exact valid_empty
  | next op _ hp hh hstep ih => exact (perform_keeps ih hp hh).2 _ hstep

/-- The references of a state are intact: an alive pointer is in the list of its object,
which exists; to delete the object makes exactly its pointers null; and no two objects
have one list. -/
structure Intact (s : ReferenceManager O P) : Prop where
  listed : ∀ p o list, s.aliveSafePointers p → s.object p = some o → s.referenceMap (some o) = some list →
    ∃ l, s.lists list = some l ∧ p ∈ l.list
  deletion : ∀ o, s.live o → ∃ t, s.deleteObject o = .ok t ∧
    ∀ p, s.aliveSafePointers p → t.object p = if s.object p = some o then none else s.object p
  noneDeleted : ∀ p o, s.aliveSafePointers p → s.object p = some o → s.live o
  distinct : ∀ obj obj' list, s.referenceMap obj = some list → s.referenceMap obj' = some list → obj = obj'

theorem Valid.intact {s : ReferenceManager O P} (h : Valid s) : Intact s where
  listed p o list ha ho hm := by
    obtain ⟨list', l, hm', hl, hp⟩ := h.listed ha ho
    cases hm.symm.trans hm'
    exact ⟨l, hl, hp⟩
  deletion o _ := by
    obtain ⟨t, ht, _, hobj⟩ := deleteObject_eq h o
    exact ⟨t, ht, hobj⟩
  noneDeleted p o ha ho := by
    obtain ⟨list, _, hm, _⟩ := h.listed ha ho
    exact h.live_of_registered hm
  distinct obj obj' list := h.distinct

end ReferenceManager

end Tce.TPEF
