import Tce.POM.ResourceNumbers

/-!
# Which sections can be continued

`initCache` does not look at the ids of buses, and passes over an id that is equal to the
counter. The ids after it are free where the buses have none of the first numbers and the
greatest id of each other type was not passed over.
-/

namespace Tce.POM
open TPEF (HalfWord ResourceType ResourceElement)
open TPEFResourceUpdater (Known newCount NewOf create run idsOf counterOf)

section Property
variable {P : Type} [DecidableEq P] (hw : Hardware P)

/-- All units of the target machine. -/
def Hardware.units : List P := hw.functionUnits ++ hw.controlUnit.toList

/-- An element of the section names the part, or a part with the same element. -/
def StandsFor (elements : List ResourceElement) (r : Resource P) : Prop :=
  ∃ e ∈ elements, ∃ r' ∈ r.shares hw, r'.NamedBy hw hw.units e

/-- Every part gets one element: where the section had one for it, one of these with the id it had,
else a new one, with an id that no other element of its type has, for this part alone. -/
def NumbersRight (elements : List ResourceElement) (requests : List (Resource P)) : Prop :=
  ∃ s₀ s given, create hw elements = some s₀ ∧ s₀.run hw requests = some (s, given) ∧
    given.length = requests.length ∧
    (∀ (j k : Nat) r, requests[j]? = some r → requests[k]? = some r → given[j]? = given[k]?) ∧
    ∀ (j : Nat) r element, requests[j]? = some r → given[j]? = some element →
      (StandsFor hw elements r → ∃ e e', elements[element]? = some e ∧ s.resources[element]? = some e' ∧
        e'.type = e.type ∧ e'.id = e.id ∧ ∃ r' ∈ r.shares hw, r'.NamedBy hw hw.units e) ∧
      (¬StandsFor hw elements r → ∃ e, s.resources[element]? = some e ∧ e.type = r.type ∧
        (∀ (i : Nat) e', i ≠ element → s.resources[i]? = some e' → e'.type = e.type → e'.id ≠ e.id) ∧
        ∀ (k : Nat) r', requests[k]? = some r' → given[k]? = some element → r' ∈ r.shares hw)

/-- How many parts take the next id of a counter. -/
noncomputable def newParts (elements : List ResourceElement) (requests : List (Resource P)) (c : Counter) : Nat :=
  newCount hw (fun r => ¬StandsFor hw elements r) c requests

/-- The type whose new elements take their ids from a counter. -/
def Counter.type : Counter → ResourceType
  | busId => .bus
  | unitPortId => .op
  | functionUnitId => .unit
  | registerFileId => .rf
  | immediateUnitId => .imm

/-- The section and the requests do not meet what the updater misses. -/
structure Continues (elements : List ResourceElement) (requests : List (Resource P)) : Prop where
  known : ∀ e ∈ elements, Known hw e
  offered : ∀ r ∈ requests, r.Offered hw
  /-- No operation is asked for that the section names and the control unit alone has. -/
  units : ∀ r ∈ requests, ∀ e ∈ elements, r.NamedBy hw hw.units e → r.NamedBy hw hw.functionUnits e
  /-- No bus has one of the ids from 1 on that new buses get. -/
  buses : newParts hw elements requests .busId < 2 ^ 16 ∧ ∀ e ∈ elements, e.type = .bus →
    e.id.toNat = 0 ∨ newParts hw elements requests .busId < e.id.toNat
  /-- There are enough ids above the greatest one. -/
  room : ∀ c ≠ .busId, newParts hw elements requests c ≠ 0 →
    LastNumber.top (idsOf c elements) + newParts hw elements requests c < 2 ^ 16
  /-- The greatest id does not end an odd number of ids that came one after the other. -/
  passed : ∀ c ≠ .busId, newParts hw elements requests c ≠ 0 →
    ¬Even (LastNumber.ascent (idsOf c elements) (LastNumber.top (idsOf c elements))) →
      ∀ e ∈ elements, e.type = c.type → e.id.toNat ≠ LastNumber.top (idsOf c elements)
  /-- The ids of the universal machine are free. -/
  fixed : ∀ r ∈ requests, ∀ id, r.fixedId hw = some id → ¬StandsFor hw elements r →
    ∀ e ∈ elements, e.type = r.type → e.id ≠ id
  reserved : ∀ rf, .registerFile rf ∈ requests → ∀ id, (Resource.registerFile rf).fixedId hw = some id →
    ¬StandsFor hw elements (.registerFile rf) →
      id.toNat ≤ LastNumber.top (idsOf .registerFileId elements) ∨
        LastNumber.top (idsOf .registerFileId elements) + newParts hw elements requests .registerFileId < id.toNat

end Property

section Proof
variable {P : Type} [DecidableEq P] {hw : Hardware P} {elements : List ResourceElement} {requests : List (Resource P)}

omit [DecidableEq P] in
theorem Resource.counter_type (r : Resource P) : r.counter.type = r.type := by
  cases r <;> rfl

theorem counterOf_type {c : Counter} (h : c ≠ .busId) : counterOf c.type = some c := by
  cases c with
  | busId => exact absurd rfl h
  | _ => rfl

theorem le_top_idsOf {c : Counter} (hc : c ≠ .busId) {e : ResourceElement} (he : e ∈ elements) (htype : e.type = c.type) :
    e.id.toNat ≤ LastNumber.top (idsOf c elements) := by
  apply LastNumber.le_top
  apply List.mem_cons_of_mem
  simp only [idsOf, List.mem_map, List.mem_filter, decide_eq_true_eq]
  exact ⟨e, ⟨he, by rw [htype, counterOf_type hc]⟩, rfl⟩

omit [DecidableEq P] in
theorem Resource.NamedBy.mono {e : ResourceElement} {r : Resource P} (h : r.NamedBy hw hw.functionUnits e) :
    r.NamedBy hw hw.units e := by
  cases r with
  | operand oper operandIndex =>
    obtain ⟨htype, operName, hname, fu, hfu, hop⟩ := h
    exact ⟨htype, operName, hname, fu, List.mem_append_left _ hfu, hop⟩
  | _ => exact h

/-- Only function units share an element, and they are not found by way of their operations. -/
theorem namedBy_of_shares {e : ResourceElement} {r r' : Resource P} (h : r' ∈ r.shares hw) (hne : r' ≠ r)
    (hr' : r'.NamedBy hw hw.units e) : r'.NamedBy hw hw.functionUnits e := by
  cases r with
  | functionUnit fu =>
    cases r' with
    | operand oper operandIndex =>
      by_cases hfu : hw.ofUniversalMachine fu ∧ (fu = hw.universalFunctionUnit ∨ fu = hw.universalControlUnit)
      · simp [Resource.shares, if_pos hfu] at h
      · simp [Resource.shares, if_neg hfu] at h
    | _ => exact hr'
  | _ => exact absurd (List.mem_singleton.mp h) hne

section Created
variable {s₀ : TPEFResourceUpdater P} (hcont : Continues hw elements requests)
  (hcreated : TPEFResourceUpdater.Created hw elements s₀) (hresources : s₀.resources = elements)
include hcreated

omit [DecidableEq P] in
theorem last_busId : (s₀.last .busId).toNat = 1 := by
  rw [hcreated.last, TPEFResourceUpdater.lastAfter_busId]
  rfl

include hcont

theorem fresh_iff {r : Resource P} (hr : r ∈ requests) :
    TPEFResourceUpdater.Fresh hw s₀ r ↔ ¬StandsFor hw elements r := by
  constructor
  · rintro hfresh ⟨e, he, r', hr', hnamed⟩
    have hfound : r'.NamedBy hw hw.functionUnits e := by
      by_cases hne : r' = r
      · subst hne
        exact hcont.units r' hr e he hnamed
      · exact namedBy_of_shares hr' hne hnamed
    exact hcreated.cached r' e he hfound (hfresh r' hr')
  · intro hnot r' hr'
    cases hc : s₀.cache r' with
    | none => rfl
    | some i =>
      obtain ⟨e, he, hnamed⟩ := hcreated.named r' i hc
      exact absurd ⟨e, List.mem_of_getElem? he, r', hr', hnamed.mono⟩ hnot

theorem cache_none_iff {r : Resource P} (hr : r ∈ requests) (hid : r.fixedId hw = none) :
    s₀.cache r = none ↔ ¬StandsFor hw elements r := by
  rw [← fresh_iff hcont hcreated hr]
  constructor
  · intro hc r' hr'
    by_contra hne
    have hrr : r' ≠ r := by
      rintro rfl
      exact hne hc
    exact Resource.fixedId_of_shares hr' hrr hid
  · exact fun hfresh => hfresh r (Resource.mem_shares_self (hcont.offered r hr))

theorem newCount_eq (c : Counter) :
    newCount hw (fun r => s₀.cache r = none) c requests = newParts hw elements requests c := by
  unfold newParts newCount
  congr 1
  ext r
  simp only [NewOf, Set.mem_ofPred_eq]
  constructor
  · rintro ⟨hr, hc, hid, hnone⟩
    exact ⟨hr, hc, hid, (cache_none_iff hcont hcreated hr hid).mp hnone⟩
  · rintro ⟨hr, hc, hid, hnot⟩
    exact ⟨hr, hc, hid, (cache_none_iff hcont hcreated hr hid).mpr hnot⟩

theorem last_eq {c : Counter} (hc : c ≠ .busId) (hnew : newParts hw elements requests c ≠ 0) :
    (s₀.last c).toNat =
      if Even (LastNumber.ascent (idsOf c elements) (LastNumber.top (idsOf c elements))) then
        LastNumber.top (idsOf c elements) + 1
      else LastNumber.top (idsOf c elements) := by
  have hroom := hcont.room c hc hnew
  rw [hcreated.last, TPEFResourceUpdater.lastAfter_toNat (by omega), LastNumber.recovered_eq]

theorem last_pos {c : Counter} (hc : c ≠ .busId) (hnew : newParts hw elements requests c ≠ 0) : 0 < (s₀.last c).toNat := by
  rw [last_eq hcont hcreated hc hnew]
  split
  · omega
  · rename_i hodd
    by_contra hzero
    rw [Nat.eq_zero_of_not_pos hzero] at hodd
    exact hodd Even.zero

/-- The elements that this counter goes through are those that it numbers. -/
theorem last_registerFileId (hnew : newParts hw elements requests .registerFileId ≠ 0) :
    (s₀.last .registerFileId).toNat = LastNumber.top (idsOf .registerFileId elements) + 1 := by
  have hlast := last_eq hcont hcreated (c := .registerFileId) (by simp) hnew
  split at hlast
  · exact hlast
  · rename_i hodd
    have hpos := last_pos hcont hcreated (c := .registerFileId) (by simp) hnew
    have hne : LastNumber.top (idsOf .registerFileId elements) ≠ 0 := by omega
    have hmem := List.mem_of_ne_of_mem hne (LastNumber.top_mem (idsOf .registerFileId elements))
    simp only [idsOf, List.mem_map, List.mem_filter, decide_eq_true_eq] at hmem
    obtain ⟨e, ⟨he, hcounter⟩, hid⟩ := hmem
    have htype : e.type = .rf := by
      cases ht : e.type <;> simp [ht, counterOf] at hcounter
      rfl
    exact absurd hid (hcont.passed .registerFileId (by simp) hnew hodd e he htype)

theorem clear_of_continues (hresources : s₀.resources = elements) : TPEFResourceUpdater.Clear hw s₀ requests where
  offered := hcont.offered
  fits c hnew := by
    rw [newCount_eq hcont hcreated] at hnew ⊢
    by_cases hc : c = .busId
    · subst hc
      have := hcont.buses.1
      rw [last_busId hcreated]
      omega
    · have hroom := hcont.room c hc hnew
      rw [last_eq hcont hcreated hc hnew]
      split <;> omega
  numbers r hr hid hnone k hk e he htype heq := by
    rw [newCount_eq hcont hcreated] at hk
    rw [hresources] at he
    by_cases hc : r.counter = .busId
    · have hbus : e.type = .bus := by rw [htype, ← r.counter_type, hc]; rfl
      rw [hc] at hk heq
      rw [last_busId hcreated] at heq
      rcases hcont.buses.2 e he hbus with h | h <;> omega
    · have hnew : newParts hw elements requests r.counter ≠ 0 := by omega
      have htype' : e.type = r.counter.type := by rw [htype, r.counter_type]
      have hle := le_top_idsOf hc he htype'
      rw [last_eq hcont hcreated hc hnew] at heq
      split at heq
      · omega
      · rename_i heven
        have hne := hcont.passed r.counter hc hnew heven e he htype'
        omega
  fixed r hr id hid hfresh e he htype :=
    hcont.fixed r hr id hid ((fresh_iff hcont hcreated hr).mp hfresh) e (hresources ▸ he) htype
  reserved r hr id hid hfresh k hk heq := by
    have hnot := (fresh_iff hcont hcreated hr).mp hfresh
    rw [newCount_eq hcont hcreated] at hk
    cases r with
    | bus b =>
      have hid' : id = ResourceElement.UNIVERSAL_BUS := by
        simp only [Resource.fixedId, Option.ite_none_right_eq_some, Option.some.injEq] at hid
        exact hid.2.symm
      have hlast := last_busId hcreated
      simp only [Resource.counter, hlast, hid', ResourceElement.UNIVERSAL_BUS] at heq
      simp at heq
    | functionUnit fu =>
      have hid' : id = ResourceElement.UNIVERSAL_FU := by
        simp only [Resource.fixedId, Option.ite_none_right_eq_some, Option.some.injEq] at hid
        exact hid.2.symm
      have hpos := last_pos hcont hcreated (c := .functionUnitId) (by simp) (Nat.ne_of_gt (Nat.zero_lt_of_lt hk))
      simp only [Resource.counter, hid', ResourceElement.UNIVERSAL_FU] at heq
      simp at heq
      omega
    | registerFile rf =>
      have hlast := last_registerFileId hcont hcreated (Nat.ne_of_gt (Nat.zero_lt_of_lt hk))
      simp only [Resource.counter] at hk heq
      rcases hcont.reserved rf hr id hid hnot with h | h <;> omega
    | operand oper operandIndex => cases hid
    | immediateUnit immUnit => cases hid

end Created

theorem Resource.type_of_shares {r r' : Resource P} (h : r' ∈ r.shares hw) : r'.type = r.type := by
  cases r with
  | functionUnit fu =>
    by_cases hfu : hw.ofUniversalMachine fu ∧ (fu = hw.universalFunctionUnit ∨ fu = hw.universalControlUnit)
    · simp only [Resource.shares, if_pos hfu, List.mem_cons, List.not_mem_nil, or_false] at h
      rcases h with rfl | rfl <;> rfl
    · simp only [Resource.shares, if_neg hfu, List.mem_singleton] at h
      rw [h]
  | _ => rw [List.mem_singleton.mp h]

section Given
variable {s₀ s : TPEFResourceUpdater P} {done : List (Resource P)} {given : List Nat}
  (hcont : Continues hw elements requests) (hcreated : TPEFResourceUpdater.Created hw elements s₀)
  (hresources : s₀.resources = elements) (hinv : TPEFResourceUpdater.Inv hw s₀ s done given) {r : Resource P}
  {element : Nat} (hr : r ∈ requests) (hcache : s.cache r = some element)
include hcont hcreated hresources hinv hr hcache

/-- A part that the section knows gets an element that it has, as it was. -/
theorem given_known (hknown : StandsFor hw elements r) :
    ∃ e e', elements[element]? = some e ∧ s.resources[element]? = some e' ∧ e'.type = e.type ∧ e'.id = e.id ∧
      ∃ r' ∈ r.shares hw, r'.NamedBy hw hw.units e := by
  have hold : ∃ r' ∈ r.shares hw, s₀.cache r' = some element := by
    rcases hinv.cached r element hcache with h₀ | ⟨-, -, h₀ | ⟨hfresh, -⟩⟩
    · exact ⟨r, Resource.mem_shares_self (hcont.offered r hr), h₀⟩
    · exact h₀
    · exact absurd hknown ((fresh_iff hcont hcreated hr).mp hfresh)
  obtain ⟨r', hr', h₀⟩ := hold
  obtain ⟨e, he, hnamed⟩ := hcreated.named r' element h₀
  have hlt : element < s₀.resources.length := by
    rw [hresources]
    exact (List.getElem?_eq_some_iff.mp he).1
  have hsign := hinv.signs element hlt
  rw [hresources, he, Option.map_some] at hsign
  obtain ⟨e', he', hsame⟩ := Option.map_eq_some_iff.mp hsign
  obtain ⟨htype, hid⟩ := Prod.mk.inj hsame
  exact ⟨e, e', he, he', htype, hid, r', hr', hnamed.mono⟩

omit hresources in
/-- Any other part gets a new element, for itself alone. -/
theorem given_new (hunknown : ¬StandsFor hw elements r) :
    ∃ e, s.resources[element]? = some e ∧ e.type = r.type ∧
      (∀ (i : Nat) e', i ≠ element → s.resources[i]? = some e' → e'.type = e.type → e'.id ≠ e.id) ∧
      ∀ r', s.cache r' = some element → r' ∈ r.shares hw := by
  have hfresh := (fresh_iff hcont hcreated hr).mpr hunknown
  have hge : s₀.resources.length ≤ element := by
    rcases hinv.cached r element hcache with h₀ | ⟨-, -, ⟨r', hr', h₀⟩ | ⟨-, hge⟩⟩
    · simp [hfresh r (Resource.mem_shares_self (hcont.offered r hr))] at h₀
    · simp [hfresh r' hr'] at h₀
    · exact hge
  obtain ⟨e, he⟩ : ∃ e, s.resources[element]? = some e :=
    ⟨_, List.getElem?_eq_getElem (hinv.bound r element hcache)⟩
  obtain ⟨r', -, hcache', -, htype, -⟩ := hinv.made element e hge he
  refine ⟨e, he, ?_, fun i e' hi he' => hinv.unique element i e e' hge hi he he', fun r'' => hinv.apart r r'' element hge hcache⟩
  rw [htype]
  exact Resource.type_of_shares (hinv.apart r r' element hge hcache hcache')

end Given

/-- In every state that such requests reach, each part has one element, and each new
element has an id of its own among those of its type. -/
theorem numbersRight_of_continues (h : Continues hw elements requests) {before after : List (Resource P)}
    (hsplit : requests = before ++ after) : NumbersRight hw elements before := by
  obtain ⟨s₀, hs₀, hresources, hcreated⟩ := TPEFResourceUpdater.create_spec hw h.known
  have hmem : ∀ r ∈ before, r ∈ requests := fun r hr => hsplit ▸ List.mem_append_left _ hr
  have hbound : ∀ r i, s₀.cache r = some i → i < s₀.resources.length := by
    intro r i hi
    obtain ⟨e, he, -⟩ := hcreated.named r i hi
    rw [hresources]
    exact (List.getElem?_eq_some_iff.mp he).1
  obtain ⟨s, given, hrun, hinv⟩ :=
    TPEFResourceUpdater.run_inv (clear_of_continues h hcreated hresources) hbound before hmem
  refine ⟨s₀, s, given, hs₀, hrun, hinv.length, ?_, fun j r element hj hg => ?_⟩
  · intro j k r hj hk
    rw [hinv.given j r hj, hinv.given k r hk]
  · have hr : r ∈ requests := hmem r (List.mem_of_getElem? hj)
    have hcache : s.cache r = some element := (hinv.given j r hj).symm.trans hg
    refine ⟨given_known h hcreated hresources hinv hr hcache, fun hunknown => ?_⟩
    obtain ⟨e, he, htype, hunique, halone⟩ := given_new h hcreated hinv hr hcache hunknown
    exact ⟨e, he, htype, hunique, fun k r' hk hg' => halone r' ((hinv.given k r' hk).symm.trans hg')⟩

end Proof

/-- Two register files, and the universal machine. -/
def twoRegisterFiles : Hardware Nat where
  name p := if p = 0 then "a" else "b"
  ofUniversalMachine p := 10 ≤ p
  operations _ := []
  parentUnit p := p
  buses := []
  functionUnits := []
  registerFiles := [0, 1]
  immediateUnits := []
  controlUnit := none
  universalBus := 10
  universalFunctionUnit := 11
  universalControlUnit := 12
  booleanRegisterFile := 13
  integerRegisterFile := 14
  doubleRegisterFile := 15
  toInt := String.toInt?
  toString := toString
  universalFunctionUnit_machine := rfl
  universalControlUnit_machine := rfl

theorem newParts_le {P : Type} [DecidableEq P] {hw : Hardware P} {elements : List ResourceElement}
    {requests : List (Resource P)} {c : Counter} : newParts hw elements requests c ≤ requests.length := by
  classical
  have hsub : NewOf hw (fun r => ¬StandsFor hw elements r) c requests ⊆ ↑requests.toFinset := by
    intro r hr
    simpa using hr.1
  calc newParts hw elements requests c
      ≤ (↑requests.toFinset : Set (Resource P)).ncard := Set.ncard_le_ncard hsub (Finset.finite_toSet _)
    _ = requests.toFinset.card := Set.ncard_coe_finset _
    _ ≤ requests.length := List.toFinset_card_le _

/-- A new register file, asked for twice, after one with the id 2. -/
theorem numbersRight_after_two :
    NumbersRight twoRegisterFiles [⟨.rf, 2, "a"⟩] [.registerFile 1, .registerFile 1] := by
  have hle (c : Counter) :
      newParts twoRegisterFiles [⟨.rf, 2, "a"⟩] [.registerFile 1, .registerFile 1] c ≤ 2 := newParts_le
  have hids (c : Counter) : idsOf c [(⟨.rf, 2, "a"⟩ : ResourceElement)] = if c = .registerFileId then [2] else [] := by
    cases c <;> rfl
  refine numbersRight_of_continues ?_ (List.append_nil _).symm
  constructor
  · simp [Known, Hardware.item, twoRegisterFiles]
  · simp [Resource.Offered, twoRegisterFiles]
  · simp [Resource.NamedBy]
  · have := hle .busId
    exact ⟨by omega, by simp⟩
  · intro c _ _
    have := hle c
    rw [hids]
    split
    · simp only [LastNumber.top, List.foldl_cons, List.foldl_nil]
      omega
    · simp only [LastNumber.top, List.foldl_nil]
      omega
  · intro c _ _ hodd
    refine absurd ?_ hodd
    rw [hids]
    split
    · decide
    · decide
  · simp [Resource.fixedId, twoRegisterFiles]
  · simp [Resource.fixedId, twoRegisterFiles]

/-- The first new register file after one with the id 1 gets the id 1. -/
theorem not_numbersRight_after_equal_id :
    ¬∀ (elements : List ResourceElement) (requests : List (Resource Nat)), (∀ e ∈ elements, Known twoRegisterFiles e) →
      (∀ r ∈ requests, r.Offered twoRegisterFiles) → NumbersRight twoRegisterFiles elements requests := by
  intro h
  have hknown : ∀ e ∈ [(⟨.rf, 1, "a"⟩ : ResourceElement)], Known twoRegisterFiles e := by
    simp [Known, Hardware.item, twoRegisterFiles]
  have hoffered : ∀ r ∈ [(.registerFile 1 : Resource Nat)], r.Offered twoRegisterFiles := by
    simp [Resource.Offered, twoRegisterFiles]
  obtain ⟨s₀, s, given, hs₀, hrun, -, -, hall⟩ := h [⟨.rf, 1, "a"⟩] [.registerFile 1] hknown hoffered
  have hresult : ((create twoRegisterFiles [⟨.rf, 1, "a"⟩]).bind fun s₀ =>
      (s₀.run twoRegisterFiles [.registerFile 1]).map fun state => (state.1.resources, state.2)) =
        some ([⟨.rf, 1, "a"⟩, ⟨.rf, 1, "b"⟩], [1]) := by
    rfl
  rw [hs₀, Option.bind_some, hrun, Option.map_some, Option.some.injEq, Prod.mk.injEq] at hresult
  obtain ⟨hresources, hgiven⟩ : s.resources = _ ∧ given = [1] := hresult
  have hunknown : ¬StandsFor twoRegisterFiles [⟨.rf, 1, "a"⟩] (.registerFile 1) := by
    simp [StandsFor, Resource.shares, Resource.NamedBy, Hardware.item, twoRegisterFiles]
  obtain ⟨e, he, -, hunique, -⟩ := (hall 0 (.registerFile 1) 1 rfl (by rw [hgiven]; rfl)).2 hunknown
  rw [hresources] at he hunique
  cases he
  exact hunique 0 ⟨.rf, 1, "a"⟩ (by simp) rfl rfl rfl

end Tce.POM
