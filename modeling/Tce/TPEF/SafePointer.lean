import Tce.Base.OrderedMap

/-!
# Safe pointers

The tables of the reference manager and the operations of `SafePointer` on
them. Objects and pointers are named by their addresses, so the address of a
deleted one can be used again. A pointer list is named by the number of its
allocation; one that was deleted is no longer in `lists`, and to use it is a
fault.
-/

namespace Tce.TPEF

/-- The four kinds of keys; each kind has a map of its own. -/
inductive ReferenceKey where
  | sectionKey (sectionId : Nat)
  | sectionIndexKey (sectionId index : Nat)
  | sectionOffsetKey (sectionId offset : Nat)
  | fileOffsetKey (fileOffset : Nat)
  deriving DecidableEq, Repr

inductive KeyKind where
  | section
  | sectionIndex
  | sectionOffset
  | fileOffset
  deriving DecidableEq, Repr

namespace ReferenceKey

def kind : ReferenceKey → KeyKind
  | sectionKey _ => .section
  | sectionIndexKey _ _ => .sectionIndex
  | sectionOffsetKey _ _ => .sectionOffset
  | fileOffsetKey _ => .fileOffset

/-- Keys of one kind are ordered as their `operator<` says. -/
def rank : ReferenceKey → Nat ×ₗ Nat ×ₗ Nat
  | sectionKey s => toLex (0, toLex (s, 0))
  | sectionIndexKey s i => toLex (1, toLex (s, i))
  | sectionOffsetKey s o => toLex (2, toLex (s, o))
  | fileOffsetKey o => toLex (3, toLex (o, 0))

theorem rank_injective : Function.Injective rank := by
  intro a b h
  cases a <;> cases b <;> simp_all [rank]

instance : LinearOrder ReferenceKey := LinearOrder.lift' rank rank_injective

end ReferenceKey

inductive Failure where
  | keyAlreadyExists
  | keyNotFound
  | unresolvedReference
  /-- A failed assertion, or the use of a deleted list. -/
  | fault
  deriving DecidableEq, Repr

variable {O P : Type}

/-- Safe pointers that all point to one object. -/
structure SafePointerList (O P : Type) where
  reference : Option O
  list : List P

/-- `keyMap` has the entries of the four key maps. The last two fields are not
kept by the program: the objects that exist and the pointers created by a key. -/
structure ReferenceManager (O P : Type) where
  keyMap : List (ReferenceKey × Nat)
  referenceMap : Option O → Option Nat
  lists : Nat → Option (SafePointerList O P)
  next : Nat
  aliveSafePointers : P → Bool
  object : P → Option O
  live : O → Bool
  byKey : P → Bool

def ReferenceManager.empty : ReferenceManager O P where
  keyMap := []
  referenceMap := fun _ => none
  lists := fun _ => none
  next := 0
  aliveSafePointers := fun _ => false
  object := fun _ => none
  live := fun _ => false
  byKey := fun _ => false

namespace ReferenceManager
open Function (update update_apply)

def listAt (s : ReferenceManager O P) (list : Nat) : Except Failure (SafePointerList O P) :=
  match s.lists list with
  | some l => .ok l
  | none => .error .fault

def newList (s : ReferenceManager O P) : ReferenceManager O P :=
  { s with lists := update s.lists s.next (some ⟨none, []⟩), next := s.next + 1 }

def deleteList (s : ReferenceManager O P) (list : Nat) : ReferenceManager O P :=
  { s with lists := update s.lists list none }

def setKey (s : ReferenceManager O P) (key : ReferenceKey) (list : Nat) : ReferenceManager O P :=
  { s with keyMap := OrderedMap.set s.keyMap key list }

def setObject [DecidableEq O] (s : ReferenceManager O P) (obj : Option O) (list : Option Nat) :
    ReferenceManager O P :=
  { s with referenceMap := update s.referenceMap obj list }

def setLive [DecidableEq O] (s : ReferenceManager O P) (obj : O) (live : Bool) : ReferenceManager O P :=
  { s with live := update s.live obj live }

@[grind =] theorem newList_lists (s : ReferenceManager O P) (list : Nat) :
    s.newList.lists list = if list = s.next then some ⟨none, []⟩ else s.lists list :=
  update_apply _ _ _ _

@[grind =] theorem deleteList_lists (s : ReferenceManager O P) (list list' : Nat) :
    (s.deleteList list).lists list' = if list' = list then none else s.lists list' :=
  update_apply _ _ _ _

@[grind =] theorem setObject_referenceMap [DecidableEq O] (s : ReferenceManager O P) (obj obj' : Option O)
    (list : Option Nat) :
    (s.setObject obj list).referenceMap obj' = if obj' = obj then list else s.referenceMap obj' :=
  update_apply _ _ _ _

@[grind =] theorem setLive_live [DecidableEq O] (s : ReferenceManager O P) (obj obj' : O) (live : Bool) :
    (s.setLive obj live).live obj' = if obj' = obj then live else s.live obj' :=
  update_apply _ _ _ _

variable [DecidableEq P]

def setAlive (s : ReferenceManager O P) (p : P) (alive : Bool) : ReferenceManager O P :=
  { s with aliveSafePointers := update s.aliveSafePointers p alive }

/-- The object a new pointer starts with, and whether it is created by a key. -/
def construct (s : ReferenceManager O P) (p : P) (object : Option O) (byKey : Bool) :
    ReferenceManager O P :=
  { s with object := update s.object p object, byKey := update s.byKey p byKey }

/-- `SafePointerList::setReference`: dead pointers are not touched. -/
def setReference (s : ReferenceManager O P) (list : Nat) (l : SafePointerList O P) (obj : Option O) :
    ReferenceManager O P :=
  { s with
    lists := update s.lists list (some { l with reference := obj })
    object := fun p => if p ∈ l.list ∧ s.aliveSafePointers p then obj else s.object p }

/-- `SafePointerList::append` of one pointer. -/
def appendPointer (s : ReferenceManager O P) (list : Nat) (l : SafePointerList O P) (p : P) :
    ReferenceManager O P :=
  { s with
    lists := update s.lists list (some { l with list := l.list ++ [p] })
    object := update s.object p l.reference }

/-- `SafePointerList::append` of the pointers of another list. -/
def appendList (s : ReferenceManager O P) (list another : Nat) (l a : SafePointerList O P) :
    ReferenceManager O P :=
  let s := s.setReference another a l.reference
  { s with lists := update s.lists list (some { l with list := l.list ++ a.list }) }

/-- `SafePointerList::cleanup`. -/
def cleanup (s : ReferenceManager O P) (list : Nat) (l : SafePointerList O P) : ReferenceManager O P :=
  let s := s.setReference list l none
  { s with lists := update s.lists list (some ⟨none, []⟩) }

section Fields
variable (s : ReferenceManager O P) (list list' another : Nat) (l a : SafePointerList O P) (p q : P)
  (obj : Option O)

@[grind =] theorem setAlive_aliveSafePointers (alive : Bool) :
    (s.setAlive p alive).aliveSafePointers q = if q = p then alive else s.aliveSafePointers q :=
  update_apply _ _ _ _

@[grind =] theorem construct_object (byKey : Bool) :
    (s.construct p obj byKey).object q = if q = p then obj else s.object q :=
  update_apply _ _ _ _

@[grind =] theorem setReference_lists :
    (s.setReference list l obj).lists list' =
      if list' = list then some { l with reference := obj } else s.lists list' :=
  update_apply _ _ _ _

@[grind =] theorem setReference_object :
    (s.setReference list l obj).object q =
      if q ∈ l.list ∧ s.aliveSafePointers q then obj else s.object q :=
  rfl

@[grind =] theorem appendPointer_lists :
    (s.appendPointer list l p).lists list' =
      if list' = list then some { l with list := l.list ++ [p] } else s.lists list' :=
  update_apply _ _ _ _

@[grind =] theorem appendPointer_object :
    (s.appendPointer list l p).object q = if q = p then l.reference else s.object q :=
  update_apply _ _ _ _

@[grind =] theorem appendList_lists :
    (s.appendList list another l a).lists list' =
      if list' = list then some { l with list := l.list ++ a.list }
      else if list' = another then some { a with reference := l.reference } else s.lists list' := by
  simp only [appendList, setReference, update_apply]

@[grind =] theorem appendList_object :
    (s.appendList list another l a).object q =
      if q ∈ a.list ∧ s.aliveSafePointers q then l.reference else s.object q :=
  rfl

@[grind =] theorem cleanup_lists :
    (s.cleanup list l).lists list' = if list' = list then some ⟨none, []⟩ else s.lists list' := by
  simp only [cleanup, setReference, update_apply]
  split <;> rfl

@[grind =] theorem cleanup_object :
    (s.cleanup list l).object q = if q ∈ l.list ∧ s.aliveSafePointers q then none else s.object q :=
  rfl

end Fields

/-- The list that `keyMap` has for the key, made and entered when there is none. -/
def listForKey (s : ReferenceManager O P) (key : ReferenceKey) : ReferenceManager O P × Nat :=
  match OrderedMap.find s.keyMap key with
  | some list => (s, list)
  | none => (s.newList.setKey key s.next, s.next)

variable [DecidableEq O]

/-- The list that `referenceMap` has for the object, made and entered when there is none. -/
def listForObject (s : ReferenceManager O P) (obj : O) : ReferenceManager O P × Nat :=
  match s.referenceMap (some obj) with
  | some list => (s, list)
  | none => (s.newList.setObject (some obj) (some s.next), s.next)

/-- `genericRegisterPointer`, once its list is found. -/
def genericRegisterPointer (s : ReferenceManager O P) (pointerList : Nat) (newSafePointer : P) :
    Except Failure (ReferenceManager O P) := do
  let l ← s.listAt pointerList
  let s :=
    if l.reference = none ∧ s.object newSafePointer ≠ none then
      s.setReference pointerList l (s.object newSafePointer)
    else s
  let l ← s.listAt pointerList
  return (s.appendPointer pointerList l newSafePointer).setAlive newSafePointer true

def createByKey (s : ReferenceManager O P) (p : P) (key : ReferenceKey) :
    Except Failure (ReferenceManager O P) :=
  let s := s.construct p none true
  (s.listForKey key).1.genericRegisterPointer (s.listForKey key).2 p

/-- A pointer made for the null object is not registered. -/
def createByObject (s : ReferenceManager O P) (p : P) (object : Option O) :
    Except Failure (ReferenceManager O P) :=
  let s := s.construct p object false
  match object with
  | none => .ok s
  | some obj => (s.listForObject obj).1.genericRegisterPointer (s.listForObject obj).2 p

/-- The list for the object and the key that `genericAddObjectReference` settles on. -/
def mergeLists (s : ReferenceManager O P) :
    Option Nat → Option Nat → Except Failure (ReferenceManager O P × Nat)
  | some oldKeyList, some oldRefList => do
    let keyList ← s.listAt oldKeyList
    let refList ← s.listAt oldRefList
    return ((s.appendList oldRefList oldKeyList refList keyList).deleteList oldKeyList, oldRefList)
  | some oldKeyList, none => .ok (s, oldKeyList)
  | none, some oldRefList => .ok (s, oldRefList)
  | none, none => .ok (s.newList, s.next)

/-- The end of `genericAddObjectReference`: both maps lead to the list. -/
def connect (s : ReferenceManager O P) (key : ReferenceKey) (obj : O) (mergedList : Nat) :
    Except Failure (ReferenceManager O P) := do
  let l ← s.listAt mergedList
  return ((s.setKey key mergedList).setObject (some obj) (some mergedList)).setReference
    mergedList l (some obj)

/-- The object that the list of a key refers to, if there is a list. -/
def referenceOf (s : ReferenceManager O P) : Option Nat → Except Failure (Option O)
  | none => .ok none
  | some list => do
    let l ← s.listAt list
    return l.reference

def genericAddObjectReference (s : ReferenceManager O P) (key : ReferenceKey) (obj : O) :
    Except Failure (ReferenceManager O P) := do
  let oldKeyList := OrderedMap.find s.keyMap key
  let oldRefList := s.referenceMap (some obj)
  let reference ← s.referenceOf oldKeyList
  let tryingToChangeReference : Bool := reference ≠ none ∧ reference ≠ some obj
  let tryingToReregister : Bool := oldKeyList ≠ none ∧ oldKeyList = oldRefList
  if tryingToChangeReference || tryingToReregister then
    throw .keyAlreadyExists
  else
    let merged ← s.mergeLists oldKeyList oldRefList
    merged.1.connect key obj merged.2

/-- `notifyDeleted` of a pointer, with its assertion. -/
def deletePointer (s : ReferenceManager O P) (p : P) : Except Failure (ReferenceManager O P) :=
  if s.aliveSafePointers p then .ok (s.setAlive p false) else .error .fault

/-- The old pointer may be the null pointer, which is never deleted. -/
def deleteOld (s : ReferenceManager O P) : Option P → Except Failure (ReferenceManager O P)
  | none => .ok s
  | some p => s.deletePointer p

def replaceReference (s : ReferenceManager O P) (old : Option P) (new : P) (obj : Option O) :
    Except Failure (ReferenceManager O P) := do
  let s ← s.deleteOld old
  match obj with
  | none => return s
  | some obj => s.createByObject new (some obj)

def replaceAllReferences (s : ReferenceManager O P) (newObj oldObj : Option O) :
    Except Failure (ReferenceManager O P) :=
  match s.referenceMap oldObj with
  | none => .error .keyNotFound
  | some listToModify => do
    let l ← s.listAt listToModify
    let s := (s.setObject newObj (some listToModify)).setReference listToModify l newObj
    return s.setObject oldObj none

/-- `notifyDeleted` of an object: a list that no key leads to is deleted. -/
def notifyDeleted (s : ReferenceManager O P) (obj : O) : Except Failure (ReferenceManager O P) :=
  match s.referenceMap (some obj) with
  | none => .ok s
  | some listOfObj => do
    let l ← s.listAt listOfObj
    let s := s.cleanup listOfObj l
    let s := if s.keyMap.any (·.2 = listOfObj) then s else s.deleteList listOfObj
    return s.setObject (some obj) none

def deleteObject (s : ReferenceManager O P) (obj : O) : Except Failure (ReferenceManager O P) := do
  let s ← s.notifyDeleted obj
  return s.setLive obj false

def newObject (s : ReferenceManager O P) (obj : O) : ReferenceManager O P := s.setLive obj true

def keysOf (s : ReferenceManager O P) (kind : KeyKind) : List (ReferenceKey × Nat) :=
  s.keyMap.filter fun e => e.1.kind = kind

/-- `unresolvedReferences`: the first list with pointers answers for the whole map. -/
def unresolvedReferences (s : ReferenceManager O P) : List (ReferenceKey × Nat) → Except Failure Bool
  | [] => .ok false
  | (_, list) :: mapToCheck => do
    let listToCheck ← s.listAt list
    if listToCheck.list.length > 0 then
      return listToCheck.reference.isNone
    else
      unresolvedReferences s mapToCheck

/-- The chunk that `resolve` asks the section of an offset key for. `asSection` says
which objects are sections and what their `chunk` gives for an offset. -/
def requestChunk (s : ReferenceManager O P) (asSection : O → Option (Nat → Option O))
    (sectionId offset : Nat) : Except Failure O :=
  match OrderedMap.find s.keyMap (.sectionKey sectionId) with
  | none => .error .unresolvedReference
  | some pointersToSection => do
    let pointers ← s.listAt pointersToSection
    match (pointers.reference.bind asSection).bind (· offset) with
    | none => .error .unresolvedReference
    | some chunk => return chunk

/-- One entry of the section offset map; a chunk exists from then on. -/
def resolveOffset (asSection : O → Option (Nat → Option O)) (s : ReferenceManager O P)
    (key : ReferenceKey) : Except Failure (ReferenceManager O P) :=
  match key, OrderedMap.find s.keyMap key with
  | .sectionOffsetKey sectionId offset, some list => do
    let l ← s.listAt list
    if s.referenceMap l.reference ≠ none then
      return s
    else
      let chunk ← s.requestChunk asSection sectionId offset
      (s.newObject chunk).genericAddObjectReference key chunk
  | _, _ => .error .fault

/-- The maps that are checked at the end of `resolve`, in this order. -/
def checkedKinds : List KeyKind := [.section, .sectionIndex, .sectionOffset, .fileOffset]

def resolve (asSection : O → Option (Nat → Option O)) (s : ReferenceManager O P) :
    Except Failure (ReferenceManager O P) := do
  let s ← ((s.keysOf .sectionOffset).map (·.1)).foldlM (resolveOffset asSection) s
  let unresolved ← checkedKinds.mapM fun kind => s.unresolvedReferences (s.keysOf kind)
  if unresolved.any id then throw .unresolvedReference else return s

end ReferenceManager

end Tce.TPEF
