import Tce.Base.LastNumber
import Tce.POM.ResourceUpdater

/-!
# What the resource updater knows

The cache after `initCache` has an element for each part that the section names and that the
navigators give, and each counter depends on the ids of its elements alone. A request that
the cache does not answer adds an element, or shares that of the universal function unit.
-/

namespace Tce.POM
open TPEF (HalfWord ResourceType ResourceElement)

namespace Resource
variable {P : Type} (hw : Hardware P)

def type : Resource P → ResourceType
  | bus _ => .bus
  | functionUnit _ => .unit
  | operand _ _ => .op
  | registerFile _ => .rf
  | immediateUnit _ => .imm

def counter : Resource P → Counter
  | bus _ => .busId
  | functionUnit _ => .functionUnitId
  | operand _ _ => .unitPortId
  | registerFile _ => .registerFileId
  | immediateUnit _ => .immediateUnitId

variable [DecidableEq P]

/-- The id of a part of the universal machine. -/
def fixedId : Resource P → Option HalfWord
  | bus b => if hw.ofUniversalMachine b then some ResourceElement.UNIVERSAL_BUS else none
  | functionUnit fu => if hw.ofUniversalMachine fu then some ResourceElement.UNIVERSAL_FU else none
  | registerFile rf =>
    if hw.ofUniversalMachine rf then
      some (if rf = hw.booleanRegisterFile then ResourceElement.BOOL_RF
        else if rf = hw.integerRegisterFile then ResourceElement.INT_RF else ResourceElement.FP_RF)
    else none
  | operand _ _ => none
  | immediateUnit _ => none

/-- What the updater can be asked for: parts of the universal machine that have an id, and
operations that their unit has. -/
def Offered : Resource P → Prop
  | bus b => hw.ofUniversalMachine b → b = hw.universalBus
  | functionUnit fu =>
    hw.ofUniversalMachine fu → fu = hw.universalFunctionUnit ∨ fu = hw.universalControlUnit
  | registerFile rf =>
    hw.ofUniversalMachine rf →
      rf = hw.booleanRegisterFile ∨ rf = hw.integerRegisterFile ∨ rf = hw.doubleRegisterFile
  | operand oper _ => hw.operation (hw.parentUnit oper) (hw.name oper) = some oper
  | immediateUnit _ => True

/-- The parts that have one element with this one. -/
def shares : Resource P → List (Resource P)
  | functionUnit fu =>
    if hw.ofUniversalMachine fu ∧ (fu = hw.universalFunctionUnit ∨ fu = hw.universalControlUnit) then
      [functionUnit hw.universalFunctionUnit, functionUnit hw.universalControlUnit]
    else [functionUnit fu]
  | r => [r]

/-- The element names the part; an operation is one of these units. -/
def NamedBy (units : List P) (e : ResourceElement) : Resource P → Prop
  | bus b => e.type = .bus ∧ hw.item hw.buses e.name = some b
  | functionUnit fu => e.type = .unit ∧ hw.item hw.functionUnits e.name = some fu
  | operand oper operandIndex =>
    e.type = .op ∧ ∃ operName, hw.operandOf e.name = some (operName, operandIndex) ∧
      ∃ fu ∈ units, hw.operation fu operName = some oper
  | registerFile rf => e.type = .rf ∧ hw.item hw.registerFiles e.name = some rf
  | immediateUnit u => e.type = .imm ∧ hw.item hw.immediateUnits e.name = some u

omit [DecidableEq P] in
theorem NamedBy.type_eq {units : List P} {e : ResourceElement} {r : Resource P} (h : r.NamedBy hw units e) :
    e.type = r.type := by
  cases r <;> exact h.1

end Resource

namespace TPEFResourceUpdater
variable {P : Type} [DecidableEq P] (hw : Hardware P)

/-- The counter that the elements of a type advance. -/
def counterOf : ResourceType → Option Counter
  | .null => none
  | .bus => none
  | .unit => some .functionUnitId
  | .rf => some .registerFileId
  | .op => some .unitPortId
  | .imm => some .immediateUnitId
  | .sr => some .unitPortId
  | .port => some .unitPortId

/-- `initCache` finds what the element names; an operation is found in any unit, or in none. -/
def Known (e : ResourceElement) : Prop :=
  match e.type with
  | .null => False
  | .bus => (hw.item hw.buses e.name).isSome
  | .unit => (hw.item hw.functionUnits e.name).isSome
  | .rf => (hw.item hw.registerFiles e.name).isSome
  | .op => (hw.operandOf e.name).isSome
  | .imm => (hw.item hw.immediateUnits e.name).isSome
  | .sr => True
  | .port => True

section Fields
variable (s : TPEFResourceUpdater P) (counter c : Counter) (id : HalfWord) (key r : Resource P) (element : Nat)

omit [DecidableEq P] in
theorem skipId_last : (s.skipId counter id).last c = if counter = c ∧ s.last c < id then id + 1 else s.last c := by
  unfold skipId
  by_cases hc : c = counter
  · subst hc
    by_cases h : s.last c < id <;> simp [h]
  · by_cases h : s.last counter < id <;> simp [h, hc, Ne.symm hc]

omit [DecidableEq P] in
@[simp] theorem skipId_cache : (s.skipId counter id).cache = s.cache := by
  unfold skipId
  split <;> rfl

omit [DecidableEq P] in
@[simp] theorem skipId_resources : (s.skipId counter id).resources = s.resources := by
  unfold skipId
  split <;> rfl

theorem setCache_cache : (s.setCache key element).cache r = if r = key then some element else s.cache r :=
  Function.update_apply _ _ _ _

@[simp] theorem setCache_last : (s.setCache key element).last = s.last := rfl

@[simp] theorem setCache_resources : (s.setCache key element).resources = s.resources := rfl

end Fields

/-- All that a step of `initCache` does. -/
structure Remembered (s t : TPEFResourceUpdater P) (place : Nat) (e : ResourceElement) : Prop where
  resources : t.resources = s.resources
  named : ∀ r, r.NamedBy hw hw.functionUnits e → t.cache r = some place
  others : ∀ r, ¬r.NamedBy hw hw.functionUnits e → t.cache r = s.cache r
  last : ∀ c, t.last c = if counterOf e.type = some c ∧ s.last c < e.id then e.id + 1 else s.last c

/-- One element that names one part. -/
theorem remembered_setCache {s s' : TPEFResourceUpdater P} {place : Nat} {e : ResourceElement} {key : Resource P}
    (hs : s'.cache = s.cache) (hres : s'.resources = s.resources)
    (hlast : ∀ c, s'.last c = if counterOf e.type = some c ∧ s.last c < e.id then e.id + 1 else s.last c)
    (hkey : ∀ r, r.NamedBy hw hw.functionUnits e ↔ r = key) : Remembered hw s (s'.setCache key place) place e where
  resources := hres
  named r hr := by rw [setCache_cache, if_pos ((hkey r).mp hr)]
  others r hr := by rw [setCache_cache, if_neg (fun h => hr ((hkey r).mpr h)), hs]
  last := hlast

/-- The operations of all units that have one of this name. -/
theorem foldl_setCache (operName : String) (operandIndex : Int) (place : Nat) (units : List P)
    (s : TPEFResourceUpdater P) :
    let t := units.foldl (cacheOperand hw operName operandIndex place) s
    t.resources = s.resources ∧ t.last = s.last ∧
      (∀ r, (∃ fu ∈ units, ∃ oper, hw.operation fu operName = some oper ∧ r = .operand oper operandIndex) →
        t.cache r = some place) ∧
      ∀ r, ¬(∃ fu ∈ units, ∃ oper, hw.operation fu operName = some oper ∧ r = .operand oper operandIndex) →
        t.cache r = s.cache r := by
  induction units using List.reverseRecOn with
  | nil => simp
  | append_singleton units fu ih =>
    obtain ⟨hres, hlast, hnamed, hothers⟩ := ih
    simp only [List.foldl_append, List.foldl_cons, List.foldl_nil, cacheOperand]
    cases hop : hw.operation fu operName with
    | none =>
      refine ⟨hres, hlast, fun r hr => hnamed r ?_, fun r hr => hothers r ?_⟩
      · obtain ⟨fu', hfu, oper, ho, rfl⟩ := hr
        rcases List.mem_append.mp hfu with hfu | hfu
        · exact ⟨fu', hfu, oper, ho, rfl⟩
        · rw [List.mem_singleton.mp hfu, hop] at ho
          cases ho
      · rintro ⟨fu', hfu, h⟩
        exact hr ⟨fu', List.mem_append_left _ hfu, h⟩
    | some oper =>
      refine ⟨hres, hlast, fun r hr => ?_, fun r hr => ?_⟩
      · rw [setCache_cache]
        split
        · rfl
        · rename_i hne
          obtain ⟨fu', hfu, oper', ho, rfl⟩ := hr
          rcases List.mem_append.mp hfu with hfu | hfu
          · exact hnamed _ ⟨fu', hfu, oper', ho, rfl⟩
          · rw [List.mem_singleton.mp hfu, hop] at ho
            cases ho
            exact absurd rfl hne
      · have hne : r ≠ .operand oper operandIndex := fun h => hr ⟨fu, by simp, oper, hop, h⟩
        rw [setCache_cache, if_neg hne]
        exact hothers r fun ⟨fu', hfu, h⟩ => hr ⟨fu', List.mem_append_left _ hfu, h⟩

theorem remember_spec {s : TPEFResourceUpdater P} {place : Nat} {e : ResourceElement} (h : Known hw e) :
    ∃ t, s.remember hw place e = some t ∧ Remembered hw s t place e := by
  unfold Known at h
  unfold remember
  cases htype : e.type with
  | null => simp [htype] at h
  | bus =>
    obtain ⟨b, hb⟩ := Option.isSome_iff_exists.mp (by simpa [htype] using h)
    refine ⟨s.setCache (.bus b) place, by simp [hb], remembered_setCache hw rfl rfl ?_ fun r => ?_⟩
    · simp [htype, counterOf]
    · cases r <;> simp [Resource.NamedBy, htype, hb, eq_comm]
  | unit =>
    obtain ⟨fu, hfu⟩ := Option.isSome_iff_exists.mp (by simpa [htype] using h)
    refine ⟨(s.skipId .functionUnitId e.id).setCache (.functionUnit fu) place, by simp [hfu],
      remembered_setCache hw (skipId_cache ..) (skipId_resources ..) ?_ fun r => ?_⟩
    · simp [htype, counterOf, skipId_last]
    · cases r <;> simp [Resource.NamedBy, htype, hfu, eq_comm]
  | rf =>
    obtain ⟨rf, hrf⟩ := Option.isSome_iff_exists.mp (by simpa [htype] using h)
    refine ⟨(s.skipId .registerFileId e.id).setCache (.registerFile rf) place, by simp [hrf],
      remembered_setCache hw (skipId_cache ..) (skipId_resources ..) ?_ fun r => ?_⟩
    · simp [htype, counterOf, skipId_last]
    · cases r <;> simp [Resource.NamedBy, htype, hrf, eq_comm]
  | imm =>
    obtain ⟨u, hu⟩ := Option.isSome_iff_exists.mp (by simpa [htype] using h)
    refine ⟨(s.skipId .immediateUnitId e.id).setCache (.immediateUnit u) place, by simp [hu],
      remembered_setCache hw (skipId_cache ..) (skipId_resources ..) ?_ fun r => ?_⟩
    · simp [htype, counterOf, skipId_last]
    · cases r <;> simp [Resource.NamedBy, htype, hu, eq_comm]
  | op =>
    obtain ⟨⟨operName, index⟩, hop⟩ := Option.isSome_iff_exists.mp (by simpa [htype] using h)
    obtain ⟨hres, hlast, hnamed, hothers⟩ :=
      foldl_setCache hw operName index place hw.functionUnits (s.skipId .unitPortId e.id)
    have hiff (r : Resource P) : r.NamedBy hw hw.functionUnits e ↔
        ∃ fu ∈ hw.functionUnits, ∃ oper, hw.operation fu operName = some oper ∧ r = .operand oper index := by
      cases r with
      | operand oper operandIndex =>
        simp only [Resource.NamedBy, htype, hop, Option.some.injEq, Prod.mk.injEq, Resource.operand.injEq, true_and]
        constructor
        · rintro ⟨_, ⟨rfl, rfl⟩, fu, hfu, ho⟩
          exact ⟨fu, hfu, oper, ho, rfl, rfl⟩
        · rintro ⟨fu, hfu, _, ho, rfl, rfl⟩
          exact ⟨operName, ⟨rfl, rfl⟩, fu, hfu, ho⟩
      | bus _ => simp [Resource.NamedBy, htype]
      | functionUnit _ => simp [Resource.NamedBy, htype]
      | registerFile _ => simp [Resource.NamedBy, htype]
      | immediateUnit _ => simp [Resource.NamedBy, htype]
    refine ⟨_, by simp [hop]; rfl, ?_, ?_, ?_, ?_⟩
    · exact hres.trans (skipId_resources ..)
    · exact fun r hr => hnamed r ((hiff r).mp hr)
    · exact fun r hr => (hothers r fun h => hr ((hiff r).mpr h)).trans (congrFun (skipId_cache ..) r)
    · intro c
      rw [hlast, skipId_last]
      simp [htype, counterOf]
  | port =>
    refine ⟨s.skipId .unitPortId e.id, rfl, skipId_resources .., fun r hr => ?_, fun r _ => ?_, ?_⟩
    · cases r <;> simp [Resource.NamedBy, htype] at hr
    · rw [skipId_cache]
    · simp [htype, counterOf, skipId_last]
  | sr =>
    refine ⟨s.skipId .unitPortId e.id, rfl, skipId_resources .., fun r hr => ?_, fun r _ => ?_, ?_⟩
    · cases r <;> simp [Resource.NamedBy, htype] at hr
    · rw [skipId_cache]
    · simp [htype, counterOf, skipId_last]

/-- A counter after `initCache`. -/
def lastAfter (c : Counter) (elements : List ResourceElement) : HalfWord :=
  elements.foldl (fun last e => if counterOf e.type = some c ∧ last < e.id then e.id + 1 else last) 1

/-- All that `initCache` leaves. -/
structure Created (elements : List ResourceElement) (s : TPEFResourceUpdater P) : Prop where
  named : ∀ r i, s.cache r = some i → ∃ e, elements[i]? = some e ∧ r.NamedBy hw hw.functionUnits e
  cached : ∀ r, ∀ e ∈ elements, r.NamedBy hw hw.functionUnits e → s.cache r ≠ none
  last : ∀ c, s.last c = lastAfter c elements

omit [DecidableEq P] in
theorem created_concat {elements : List ResourceElement} {e : ResourceElement} {s t : TPEFResourceUpdater P}
    (h : Created hw elements s) (ht : Remembered hw s t elements.length e) : Created hw (elements ++ [e]) t where
  named r i hi := by
    by_cases hr : r.NamedBy hw hw.functionUnits e
    · rw [ht.named r hr] at hi
      cases hi
      exact ⟨e, by simp, hr⟩
    · rw [ht.others r hr] at hi
      obtain ⟨e', he', hr'⟩ := h.named r i hi
      exact ⟨e', by rw [List.getElem?_append_left (List.getElem?_eq_some_iff.mp he').1, he'], hr'⟩
  cached r e' he' hr' := by
    by_cases hr : r.NamedBy hw hw.functionUnits e
    · simp [ht.named r hr]
    · rw [ht.others r hr]
      rcases List.mem_append.mp he' with he' | he'
      · exact h.cached r e' he' hr'
      · exact absurd (List.mem_singleton.mp he' ▸ hr') hr
  last c := by
    rw [ht.last, h.last]
    simp [lastAfter]

theorem create_spec {elements : List ResourceElement} (h : ∀ e ∈ elements, Known hw e) :
    ∃ s, create hw elements = some s ∧ s.resources = elements ∧ Created hw elements s := by
  suffices hall : ∀ all : List ResourceElement, ∃ s,
      elements.zipIdx.foldlM (fun s entry => remember hw s entry.2 entry.1)
        (⟨all, fun _ => none, fun _ => 1⟩ : TPEFResourceUpdater P) = some s ∧
      s.resources = all ∧ Created hw elements s from hall elements
  intro all
  induction elements using List.reverseRecOn with
  | nil => exact ⟨_, rfl, rfl, by simp, by simp, fun c => rfl⟩
  | append_singleton elements e ih =>
    obtain ⟨s, hs, hres, hc⟩ := ih fun e' he' => h e' (List.mem_append_left _ he')
    obtain ⟨t, ht, hrem⟩ := @remember_spec _ _ hw s elements.length _ (h e (by simp))
    refine ⟨t, ?_, hrem.resources.trans hres, created_concat hw hc hrem⟩
    rw [List.zipIdx_append, List.foldlM_append, hs]
    simp [ht]

/-- The ids that a counter goes through, in the order of the section. -/
def idsOf (c : Counter) (elements : List ResourceElement) : List Nat :=
  (elements.filter fun e => counterOf e.type = some c).map fun e => e.id.toNat

theorem idsOf_concat {c : Counter} {elements : List ResourceElement} {e : ResourceElement} :
    idsOf c (elements ++ [e]) =
      if counterOf e.type = some c then idsOf c elements ++ [e.id.toNat] else idsOf c elements := by
  simp only [idsOf, List.filter_append, List.map_append, List.filter_singleton]
  split <;> simp_all

/-- Below the greatest half-word, the counter is the next number after the ids. -/
theorem lastAfter_toNat {c : Counter} {elements : List ResourceElement}
    (h : LastNumber.top (idsOf c elements) < 2 ^ 16 - 1) :
    (lastAfter c elements).toNat = LastNumber.recovered (idsOf c elements) := by
  induction elements using List.reverseRecOn with
  | nil => rfl
  | append_singleton elements e ih =>
    have hstep : lastAfter c (elements ++ [e]) =
        if counterOf e.type = some c ∧ lastAfter c elements < e.id then e.id + 1 else lastAfter c elements := by
      simp [lastAfter]
    rw [idsOf_concat] at h ⊢
    by_cases hc : counterOf e.type = some c
    · simp only [hc, ↓reduceIte] at h ⊢
      rw [LastNumber.top_concat] at h
      have hi := ih (by omega)
      have hrec : LastNumber.recovered (idsOf c elements ++ [e.id.toNat]) =
          LastNumber.advance (LastNumber.recovered (idsOf c elements)) e.id.toNat := by
        simp [LastNumber.recovered]
      rw [hstep, hrec, ← hi, LastNumber.advance]
      by_cases hlt : lastAfter c elements < e.id
      · have hlt' : (lastAfter c elements).toNat < e.id.toNat := hlt
        simp only [hc, hlt, hlt', and_self, ↓reduceIte]
        rw [BitVec.toNat_add]
        have : e.id.toNat + 1 < 2 ^ 16 := by omega
        simpa using Nat.mod_eq_of_lt this
      · have hlt' : ¬(lastAfter c elements).toNat < e.id.toNat := hlt
        simp [hlt, hlt']
    · simp only [hc, ↓reduceIte] at h ⊢
      rw [hstep, if_neg (by simp [hc])]
      exact ih h

theorem lastAfter_busId (elements : List ResourceElement) : lastAfter .busId elements = 1 := by
  have hnone : ∀ type, counterOf type ≠ some .busId := by
    intro type
    cases type <;> simp [counterOf]
  simp [lastAfter, hnone]

def request (s : TPEFResourceUpdater P) : Resource P → Option (TPEFResourceUpdater P × Nat)
  | .bus b => s.bus hw b
  | .functionUnit fu => s.functionUnit hw fu
  | .operand oper operandIndex => s.operand hw oper operandIndex
  | .registerFile rf => s.registerFile hw rf
  | .immediateUnit immUnit => s.immediateUnit hw immUnit

section Requests
variable {s : TPEFResourceUpdater P} {r : Resource P}

theorem request_of_cached {element : Nat} (h : s.cache r = some element) : s.request hw r = some (s, element) := by
  cases r with
  | bus b => simp [request, TPEFResourceUpdater.bus, h]
  | functionUnit fu => simp [request, TPEFResourceUpdater.functionUnit, h]
  | operand oper operandIndex => simp [request, TPEFResourceUpdater.operand, h]
  | registerFile rf => simp [request, TPEFResourceUpdater.registerFile, h]
  | immediateUnit immUnit => simp [request, TPEFResourceUpdater.immediateUnit, h]

/-- A part that has one element with a part that is known gets that element. -/
structure Shared (s t : TPEFResourceUpdater P) (r : Resource P) (element : Nat) : Prop where
  known : ∃ r' ∈ r.shares hw, s.cache r' = some element
  signs : ∀ i : Nat, (t.resources[i]?).map (fun e => (e.type, e.id)) = (s.resources[i]?).map fun e => (e.type, e.id)
  cache : ∀ r', t.cache r' = if r' = r then some element else s.cache r'
  last : t.last = s.last

/-- A new element for the part. -/
structure Added (s t : TPEFResourceUpdater P) (r : Resource P) (e : ResourceElement) : Prop where
  alone : ∀ r' ∈ r.shares hw, s.cache r' = none
  type : e.type = r.type
  resources : t.resources = s.resources ++ [e]
  cache : ∀ r', t.cache r' = if r' = r then some s.resources.length else s.cache r'
  last : ∀ c, t.last c = if r.fixedId hw = none ∧ c = r.counter then s.last c + 1 else s.last c
  id : e.id = (r.fixedId hw).getD (s.last r.counter)

/-- A part with the next id. -/
theorem added_numbered {name : String} (hnone : s.cache r = none) (hid : r.fixedId hw = none) (hshares : r.shares hw = [r]) :
    Added hw s (s.addNumbered r r.type r.counter name).1 r ⟨r.type, s.last r.counter, name⟩ where
  alone r' hr' := by
    rw [hshares, List.mem_singleton] at hr'
    rw [hr', hnone]
  type := rfl
  resources := rfl
  cache r' := Function.update_apply ..
  last c := by
    show Function.update s.last r.counter (s.last r.counter + 1) c = _
    rw [Function.update_apply]
    by_cases hc : c = r.counter
    · simp [hc, hid]
    · simp [hc]
  id := by simp [hid]

/-- A part with an id of its own. -/
theorem added_fixed {id : HalfWord} {name : String} (halone : ∀ r' ∈ r.shares hw, s.cache r' = none)
    (hid : r.fixedId hw = some id) : Added hw s (s.addElement r ⟨r.type, id, name⟩).1 r ⟨r.type, id, name⟩ where
  alone := halone
  type := rfl
  resources := rfl
  cache r' := Function.update_apply ..
  last c := by simp [hid, addElement]
  id := by simp [hid]

theorem shared_setName {fu : P} {r' : Resource P} {element : Nat} {name : String}
    (hr : r' ∈ (Resource.functionUnit fu).shares hw) (hknown : s.cache r' = some element) :
    Shared hw s ((s.setName element name).setCache (.functionUnit fu) element) (.functionUnit fu) element where
  known := ⟨r', hr, hknown⟩
  signs i := by
    show ((s.resources.modify element _)[i]?).map _ = _
    rw [List.getElem?_modify]
    cases s.resources[i]? with
    | none => rfl
    | some e =>
      by_cases hi : element = i
      · simp [hi]
      · simp [hi]
  cache r'' := setCache_cache ..
  last := rfl

/-- All that a request does that the cache does not answer. -/
theorem request_of_not_cached (h : s.cache r = none) (hoffered : r.Offered hw) :
    (∃ t element, s.request hw r = some (t, element) ∧ Shared hw s t r element) ∨
      ∃ t e, s.request hw r = some (t, s.resources.length) ∧ Added hw s t r e := by
  cases r with
  | bus b =>
    by_cases hu : hw.ofUniversalMachine b
    · have heq : s.request hw (.bus b) =
          some (s.addElement (.bus b) ⟨.bus, ResourceElement.UNIVERSAL_BUS, hw.name b⟩) := by
        have hb : b = hw.universalBus := hoffered hu
        simp [request, TPEFResourceUpdater.bus, h, hu, ← hb]
      exact .inr ⟨_, _, heq, added_fixed hw (s := s) (r := .bus b) (by simpa [Resource.shares] using h) (if_pos hu)⟩
    · have heq : s.request hw (.bus b) = some (s.addNumbered (.bus b) .bus .busId (hw.name b)) := by
        simp [request, TPEFResourceUpdater.bus, h, hu]
      exact .inr ⟨_, _, heq, added_numbered hw h (if_neg hu) rfl⟩
  | functionUnit fu =>
    by_cases hu : hw.ofUniversalMachine fu
    · have hfu : fu = hw.universalFunctionUnit ∨ fu = hw.universalControlUnit := hoffered hu
      have hshares : (Resource.functionUnit fu).shares hw =
          [.functionUnit hw.universalFunctionUnit, .functionUnit hw.universalControlUnit] := if_pos ⟨hu, hfu⟩
      cases hf : s.cache (.functionUnit hw.universalFunctionUnit) with
      | some element =>
        have heq : s.request hw (.functionUnit fu) =
            some ((s.setName element (hw.name fu)).setCache (.functionUnit fu) element, element) := by
          simp [request, TPEFResourceUpdater.functionUnit, h, hu, hfu, hf]
        exact .inl ⟨_, _, heq, shared_setName hw (by rw [hshares]; simp) hf⟩
      | none =>
        cases hc : s.cache (.functionUnit hw.universalControlUnit) with
        | some element =>
          have heq : s.request hw (.functionUnit fu) =
              some ((s.setName element (hw.name fu)).setCache (.functionUnit fu) element, element) := by
            simp [request, TPEFResourceUpdater.functionUnit, h, hu, hfu, hf, hc]
          exact .inl ⟨_, _, heq, shared_setName hw (by rw [hshares]; simp) hc⟩
        | none =>
          have heq : s.request hw (.functionUnit fu) =
              some (s.addElement (.functionUnit fu) ⟨.unit, ResourceElement.UNIVERSAL_FU, hw.name fu⟩) := by
            simp [request, TPEFResourceUpdater.functionUnit, h, hu, hfu, hf, hc]
          exact .inr ⟨_, _, heq, added_fixed hw (s := s) (r := .functionUnit fu) (by simp [hshares, hf, hc]) (if_pos hu)⟩
    · have heq : s.request hw (.functionUnit fu) =
          some (s.addNumbered (.functionUnit fu) .unit .functionUnitId (hw.name fu)) := by
        simp [request, TPEFResourceUpdater.functionUnit, h, hu]
      exact .inr ⟨_, _, heq, added_numbered hw h (if_neg hu) (by simp [Resource.shares, hu])⟩
  | operand oper operandIndex =>
    have heq : s.request hw (.operand oper operandIndex) =
        some (s.addNumbered (.operand oper operandIndex) .op .unitPortId
          (hw.name oper ++ "." ++ hw.toString operandIndex)) := by
      have hop : hw.operation (hw.parentUnit oper) (hw.name oper) = some oper := hoffered
      simp [request, TPEFResourceUpdater.operand, h, hop]
    exact .inr ⟨_, _, heq, added_numbered hw h rfl rfl⟩
  | registerFile rf =>
    by_cases hu : hw.ofUniversalMachine rf
    · have hid : ((Resource.registerFile rf).fixedId hw) = some (if rf = hw.booleanRegisterFile then
          ResourceElement.BOOL_RF else if rf = hw.integerRegisterFile then ResourceElement.INT_RF
          else ResourceElement.FP_RF) := if_pos hu
      have heq : s.request hw (.registerFile rf) = some (s.addElement (.registerFile rf) ⟨.rf,
          if rf = hw.booleanRegisterFile then ResourceElement.BOOL_RF
          else if rf = hw.integerRegisterFile then ResourceElement.INT_RF else ResourceElement.FP_RF, hw.name rf⟩) := by
        by_cases hb : rf = hw.booleanRegisterFile
        · simp [request, TPEFResourceUpdater.registerFile, h, hu, ← hb]
        · by_cases hi : rf = hw.integerRegisterFile
          · simp [request, TPEFResourceUpdater.registerFile, h, hu, hb, ← hi]
          · have hd : rf = hw.doubleRegisterFile := ((hoffered hu).resolve_left hb).resolve_left hi
            simp [request, TPEFResourceUpdater.registerFile, h, hu, hb, hi, ← hd]
      exact .inr ⟨_, _, heq, added_fixed hw (s := s) (r := .registerFile rf) (by simpa [Resource.shares] using h) hid⟩
    · have heq : s.request hw (.registerFile rf) =
          some (s.addNumbered (.registerFile rf) .rf .registerFileId (hw.name rf)) := by
        simp [request, TPEFResourceUpdater.registerFile, h, hu]
      exact .inr ⟨_, _, heq, added_numbered hw h (if_neg hu) rfl⟩
  | immediateUnit immUnit =>
    have heq : s.request hw (.immediateUnit immUnit) =
        some (s.addNumbered (.immediateUnit immUnit) .imm .immediateUnitId (hw.name immUnit)) := by
      simp [request, TPEFResourceUpdater.immediateUnit, h]
    exact .inr ⟨_, _, heq, added_numbered hw h rfl rfl⟩

end Requests

end TPEFResourceUpdater

end Tce.POM
