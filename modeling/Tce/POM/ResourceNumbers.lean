import Mathlib.Data.Set.Card
import Tce.POM.ResourceCache

/-!
# Resource numbers over runs

Any sequence of requests, and the elements it gets. As long as the counters do not meet an
id that is taken, each new part gets an id that no other element of its type has.
-/

namespace Tce.POM
open TPEF (HalfWord ResourceType ResourceElement)

namespace Resource
variable {P : Type} [DecidableEq P] {hw : Hardware P} {r r' : Resource P}

theorem mem_shares_self (h : r.Offered hw) : r ∈ r.shares hw := by
  cases r with
  | functionUnit fu =>
    by_cases hu : hw.ofUniversalMachine fu
    · have hfu := h hu
      rw [shares, if_pos ⟨hu, hfu⟩]
      rcases hfu with rfl | rfl <;> simp
    · simp [shares, hu]
  | bus b => simp [shares]
  | operand oper operandIndex => simp [shares]
  | registerFile rf => simp [shares]
  | immediateUnit immUnit => simp [shares]

theorem shares_eq (h : r' ∈ r.shares hw) : r'.shares hw = r.shares hw := by
  cases r with
  | functionUnit fu =>
    by_cases hfu : hw.ofUniversalMachine fu ∧ (fu = hw.universalFunctionUnit ∨ fu = hw.universalControlUnit)
    · simp only [shares, if_pos hfu, List.mem_cons, List.not_mem_nil, or_false] at h ⊢
      rcases h with rfl | rfl
      · simp [hw.universalFunctionUnit_machine]
      · simp [hw.universalControlUnit_machine]
    · simp only [shares, if_neg hfu, List.mem_singleton] at h ⊢
      rw [h]
      exact if_neg hfu
  | bus b => rw [List.mem_singleton.mp h]
  | operand oper operandIndex => rw [List.mem_singleton.mp h]
  | registerFile rf => rw [List.mem_singleton.mp h]
  | immediateUnit immUnit => rw [List.mem_singleton.mp h]

/-- Only parts of the universal machine share an element. -/
theorem fixedId_of_shares (h : r' ∈ r.shares hw) (hne : r' ≠ r) : r.fixedId hw ≠ none := by
  cases r with
  | functionUnit fu =>
    by_cases hu : hw.ofUniversalMachine fu
    · simp [fixedId, hu]
    · simp [shares, hu] at h
      exact absurd h hne
  | bus b => exact absurd (List.mem_singleton.mp h) hne
  | operand oper operandIndex => exact absurd (List.mem_singleton.mp h) hne
  | registerFile rf => exact absurd (List.mem_singleton.mp h) hne
  | immediateUnit immUnit => exact absurd (List.mem_singleton.mp h) hne

omit [DecidableEq P] in
theorem counter_eq_of_type (h : r.type = r'.type) : r.counter = r'.counter := by
  cases r <;> cases r' <;> first | rfl | cases h

/-- Two parts of the universal machine with one id share an element. -/
theorem shares_of_fixedId (h : r.Offered hw) (h' : r'.Offered hw) (htype : r.type = r'.type) {id : HalfWord}
    (hid : r.fixedId hw = some id) (hid' : r'.fixedId hw = some id) : r' ∈ r.shares hw := by
  cases r with
  | bus b =>
    cases r' with
    | bus b' =>
      have hu : hw.ofUniversalMachine b := by by_contra hu; simp [fixedId, hu] at hid
      have hu' : hw.ofUniversalMachine b' := by by_contra hu'; simp [fixedId, hu'] at hid'
      have hb : b = hw.universalBus := h hu
      have hb' : b' = hw.universalBus := h' hu'
      simp [shares, hb, hb']
    | _ => cases htype
  | functionUnit fu =>
    cases r' with
    | functionUnit fu' =>
      have hu : hw.ofUniversalMachine fu := by by_contra hu; simp [fixedId, hu] at hid
      have hu' : hw.ofUniversalMachine fu' := by by_contra hu'; simp [fixedId, hu'] at hid'
      rw [shares, if_pos ⟨hu, h hu⟩]
      rcases h' hu' with rfl | rfl <;> simp
    | _ => cases htype
  | registerFile rf =>
    cases r' with
    | registerFile rf' =>
      have hu : hw.ofUniversalMachine rf := by by_contra hu; simp [fixedId, hu] at hid
      have hu' : hw.ofUniversalMachine rf' := by by_contra hu'; simp [fixedId, hu'] at hid'
      have hrf := h hu
      have hrf' := h' hu'
      simp only [fixedId, hu, hu', ↓reduceIte, Option.some.injEq] at hid hid'
      have hbi : ResourceElement.BOOL_RF ≠ ResourceElement.INT_RF := by decide
      have hbf : ResourceElement.BOOL_RF ≠ ResourceElement.FP_RF := by decide
      have hif : ResourceElement.INT_RF ≠ ResourceElement.FP_RF := by decide
      have heq : rf' = rf := by grind
      simp [shares, heq]
    | _ => cases htype
  | operand oper operandIndex => cases hid
  | immediateUnit immUnit => cases hid

end Resource

namespace TPEFResourceUpdater
variable {P : Type} [DecidableEq P] (hw : Hardware P)

/-- The requests one after the other, and the element each gets. -/
def run (s : TPEFResourceUpdater P) (requests : List (Resource P)) : Option (TPEFResourceUpdater P × List Nat) :=
  requests.foldlM (fun state r => (state.1.request hw r).map fun (t, element) => (t, state.2 ++ [element])) (s, [])

/-- The parts that take the next id of a counter. -/
def NewOf (unknown : Resource P → Prop) (c : Counter) (requests : List (Resource P)) : Set (Resource P) :=
  {r | r ∈ requests ∧ r.counter = c ∧ r.fixedId hw = none ∧ unknown r}

noncomputable def newCount (unknown : Resource P → Prop) (c : Counter) (requests : List (Resource P)) : Nat :=
  (NewOf hw unknown c requests).ncard

section Count
variable {hw} {unknown : Resource P → Prop} {c : Counter} {requests : List (Resource P)} {r : Resource P}

theorem finite_newOf : (NewOf hw unknown c requests).Finite :=
  (List.finite_toSet requests).subset fun _ h => h.1

theorem newCount_mono {more : List (Resource P)} (h : ∀ r ∈ requests, r ∈ more) :
    newCount hw unknown c requests ≤ newCount hw unknown c more :=
  Set.ncard_le_ncard (fun _ hr => ⟨h _ hr.1, hr.2⟩) finite_newOf

theorem newCount_concat_of_not (h : r ∈ requests ∨ r.counter ≠ c ∨ r.fixedId hw ≠ none ∨ ¬unknown r) :
    newCount hw unknown c (requests ++ [r]) = newCount hw unknown c requests := by
  unfold newCount
  congr 1
  ext r'
  simp only [NewOf, List.mem_append, List.mem_singleton, Set.mem_ofPred_eq]
  constructor
  · rintro ⟨hr | rfl, hc, hid, hu⟩
    · exact ⟨hr, hc, hid, hu⟩
    · rcases h with h | h | h | h
      · exact ⟨h, hc, hid, hu⟩
      · exact absurd hc h
      · exact absurd hid h
      · exact absurd hu h
  · rintro ⟨hr, h⟩
    exact ⟨.inl hr, h⟩

theorem newCount_concat (hr : r ∉ requests) (hid : r.fixedId hw = none) (hu : unknown r) :
    newCount hw unknown r.counter (requests ++ [r]) = newCount hw unknown r.counter requests + 1 := by
  have hset : NewOf hw unknown r.counter (requests ++ [r]) = insert r (NewOf hw unknown r.counter requests) := by
    ext r'
    simp only [NewOf, List.mem_append, List.mem_singleton, Set.mem_ofPred_eq, Set.mem_insert_iff]
    constructor
    · rintro ⟨hr | rfl, h⟩
      · exact .inr ⟨hr, h⟩
      · exact .inl rfl
    · rintro (rfl | ⟨hr, h⟩)
      · exact ⟨.inr rfl, rfl, hid, hu⟩
      · exact ⟨.inl hr, h⟩
  unfold newCount
  rw [hset, Set.ncard_insert_of_notMem (fun h => hr h.1) finite_newOf]

end Count

/-- A part that no element stood for when the requests began. -/
def Fresh (s₀ : TPEFResourceUpdater P) (r : Resource P) : Prop := ∀ r' ∈ r.shares hw, s₀.cache r' = none

/-- The ids that the requests take are free. -/
structure Clear (s₀ : TPEFResourceUpdater P) (requests : List (Resource P)) : Prop where
  offered : ∀ r ∈ requests, r.Offered hw
  fits : ∀ c, newCount hw (fun r => s₀.cache r = none) c requests ≠ 0 →
    (s₀.last c).toNat + newCount hw (fun r => s₀.cache r = none) c requests ≤ 2 ^ 16
  numbers : ∀ r ∈ requests, r.fixedId hw = none → s₀.cache r = none →
    ∀ k < newCount hw (fun r => s₀.cache r = none) r.counter requests, ∀ e ∈ s₀.resources, e.type = r.type →
      e.id.toNat ≠ (s₀.last r.counter).toNat + k
  fixed : ∀ r ∈ requests, ∀ id, r.fixedId hw = some id → Fresh hw s₀ r → ∀ e ∈ s₀.resources, e.type = r.type → e.id ≠ id
  reserved : ∀ r ∈ requests, ∀ id, r.fixedId hw = some id → Fresh hw s₀ r →
    ∀ k < newCount hw (fun r => s₀.cache r = none) r.counter requests, (s₀.last r.counter).toNat + k ≠ id.toNat

/-- What holds after some of the requests. -/
structure Inv (s₀ s : TPEFResourceUpdater P) (done : List (Resource P)) (given : List Nat) : Prop where
  length : given.length = done.length
  given : ∀ (j : Nat) r, done[j]? = some r → given[j]? = s.cache r
  signs : ∀ i < s₀.resources.length,
    (s.resources[i]?).map (fun e => (e.type, e.id)) = (s₀.resources[i]?).map fun e => (e.type, e.id)
  grows : s₀.resources.length ≤ s.resources.length
  kept : ∀ r i, s₀.cache r = some i → s.cache r = some i
  cached : ∀ r i, s.cache r = some i → s₀.cache r = some i ∨
    s₀.cache r = none ∧ r ∈ done ∧ ((∃ r' ∈ r.shares hw, s₀.cache r' = some i) ∨
      Fresh hw s₀ r ∧ s₀.resources.length ≤ i)
  bound : ∀ r i, s.cache r = some i → i < s.resources.length
  made : ∀ i e, s₀.resources.length ≤ i → s.resources[i]? = some e →
    ∃ r ∈ done, s.cache r = some i ∧ Fresh hw s₀ r ∧ e.type = r.type ∧
      (r.fixedId hw = some e.id ∨ r.fixedId hw = none ∧
        ∃ k < newCount hw (fun r => s₀.cache r = none) r.counter done, e.id.toNat = (s₀.last r.counter).toNat + k)
  apart : ∀ r r' i, s₀.resources.length ≤ i → s.cache r = some i → s.cache r' = some i → r' ∈ r.shares hw
  last : ∀ c, s.last c = s₀.last c + BitVec.ofNat 16 (newCount hw (fun r => s₀.cache r = none) c done)
  unique : ∀ i i' e e', s₀.resources.length ≤ i → i' ≠ i → s.resources[i]? = some e → s.resources[i']? = some e' →
    e'.type = e.type → e'.id ≠ e.id

section Step
variable {hw} {s₀ s t : TPEFResourceUpdater P} {done : List (Resource P)} {given : List Nat} {r : Resource P} {element : Nat}
  (h : Inv hw s₀ s done given)
include h

theorem not_mem_of_not_cached (hr : s.cache r = none) : r ∉ done := by
  intro hmem
  obtain ⟨j, hj⟩ := List.mem_iff_getElem?.mp hmem
  have hlt := (List.getElem?_eq_some_iff.mp hj).1
  have hgiven := h.given j r hj
  rw [hr, List.getElem?_eq_none_iff, h.length] at hgiven
  omega

theorem not_cached_before (hr : s.cache r = none) : s₀.cache r = none := by
  cases h₀ : s₀.cache r with
  | none => rfl
  | some i => simp [h.kept r i h₀] at hr

theorem given_concat {t : TPEFResourceUpdater P} (hkept : ∀ r' ∈ done, t.cache r' = s.cache r')
    (hr : t.cache r = some element) (j : Nat) (r' : Resource P) (hj : (done ++ [r])[j]? = some r') :
    (given ++ [element])[j]? = t.cache r' := by
  rcases Nat.lt_or_ge j done.length with hlt | hge
  · rw [List.getElem?_append_left hlt] at hj
    rw [List.getElem?_append_left (by rw [h.length]; exact hlt), h.given j r' hj,
      hkept r' (List.mem_of_getElem? hj)]
  · have hj' : j = done.length := by
      have := (List.getElem?_eq_some_iff.mp hj).1
      simp at this
      omega
    subst hj'
    simp only [List.getElem?_concat_length, Option.some.injEq] at hj
    rw [← hj, hr, ← h.length, List.getElem?_concat_length]

/-- A part with an element in the cache. -/
theorem Inv.cached_step (hr : s.cache r = some element) : Inv hw s₀ s (done ++ [r]) (given ++ [element]) := by
  have hcount (c : Counter) : newCount hw (fun r => s₀.cache r = none) c (done ++ [r]) =
      newCount hw (fun r => s₀.cache r = none) c done := by
    apply newCount_concat_of_not
    rcases h.cached r element hr with h₀ | ⟨-, hdone, -⟩
    · simp [h₀]
    · exact .inl hdone
  constructor
  · simp [h.length]
  · exact given_concat h (fun _ _ => rfl) hr
  · exact h.signs
  · exact h.grows
  · exact h.kept
  · intro r' i hi
    exact (h.cached r' i hi).imp_right fun hr => ⟨hr.1, List.mem_append_left _ hr.2.1, hr.2.2⟩
  · exact h.bound
  · intro i e hi he
    obtain ⟨r', hr', hrest⟩ := h.made i e hi he
    exact ⟨r', List.mem_append_left _ hr', by simpa only [hcount] using hrest⟩
  · exact h.apart
  · intro c
    rw [hcount, h.last]
  · exact h.unique

omit h in
theorem exists_sign_eq {resources resources' : List ResourceElement}
    (hsigns : ∀ i : Nat, (resources'[i]?).map (fun e => (e.type, e.id)) = (resources[i]?).map fun e => (e.type, e.id))
    {i : Nat} {e' : ResourceElement} (he' : resources'[i]? = some e') :
    ∃ e, resources[i]? = some e ∧ e.type = e'.type ∧ e.id = e'.id := by
  have hi := hsigns i
  rw [he', Option.map_some] at hi
  obtain ⟨e, he, hsign⟩ := Option.map_eq_some_iff.mp hi.symm
  exact ⟨e, he, (Prod.mk.inj hsign).1, (Prod.mk.inj hsign).2⟩

/-- A part that gets the element of another. -/
theorem Inv.shared_step (hr : s.cache r = none) (hoffered : r.Offered hw) (ht : Shared hw s t r element) :
    Inv hw s₀ t (done ++ [r]) (given ++ [element]) := by
  obtain ⟨r', hr', hr'e⟩ := ht.known
  have hne : r' ≠ r := by
    rintro rfl
    simp [hr] at hr'e
  have hnot := not_mem_of_not_cached h hr
  have hcount (c : Counter) : newCount hw (fun r => s₀.cache r = none) c (done ++ [r]) =
      newCount hw (fun r => s₀.cache r = none) c done :=
    newCount_concat_of_not (.inr (.inr (.inl (Resource.fixedId_of_shares hr' hne))))
  have hlen : t.resources.length = s.resources.length := by
    have hmap : t.resources.map (fun e => (e.type, e.id)) = s.resources.map fun e => (e.type, e.id) := by
      apply List.ext_getElem?
      intro i
      rw [List.getElem?_map, List.getElem?_map, ht.signs i]
    simpa using congrArg List.length hmap
  constructor
  · simp [h.length]
  · apply given_concat h
    · intro r'' hr''
      rw [ht.cache, if_neg (fun heq : r'' = r => hnot (heq ▸ hr''))]
    · rw [ht.cache, if_pos rfl]
  · intro i hi
    rw [ht.signs, h.signs i hi]
  · rw [hlen]
    exact h.grows
  · intro r'' i hi
    rw [ht.cache]
    split
    · rename_i heq
      rw [heq, not_cached_before h hr] at hi
      cases hi
    · exact h.kept r'' i hi
  · intro r'' i hi
    rw [ht.cache] at hi
    by_cases heq : r'' = r
    · subst heq
      rw [if_pos rfl] at hi
      cases hi
      refine .inr ⟨not_cached_before h hr, by simp, ?_⟩
      rcases h.cached r' element hr'e with h₀ | ⟨-, -, ⟨r₂, hr₂, h₂⟩ | ⟨hfresh, hge⟩⟩
      · exact .inl ⟨r', hr', h₀⟩
      · exact .inl ⟨r₂, Resource.shares_eq hr' ▸ hr₂, h₂⟩
      · exact .inr ⟨fun r₂ hr₂ => hfresh r₂ (Resource.shares_eq hr' ▸ hr₂), hge⟩
    · rw [if_neg heq] at hi
      exact (h.cached r'' i hi).imp_right fun hr => ⟨hr.1, List.mem_append_left _ hr.2.1, hr.2.2⟩
  · intro r'' i hi
    rw [ht.cache] at hi
    rw [hlen]
    by_cases heq : r'' = r
    · rw [if_pos heq] at hi
      cases hi
      exact h.bound r' _ hr'e
    · rw [if_neg heq] at hi
      exact h.bound r'' i hi
  · intro i e hi he
    obtain ⟨e', he', htype, hid⟩ := exists_sign_eq ht.signs he
    obtain ⟨r₂, hdone, hcache, hfresh, htype', hid'⟩ := h.made i e' hi he'
    have hr₂ : r₂ ≠ r := fun heq => hnot (heq ▸ hdone)
    refine ⟨r₂, List.mem_append_left _ hdone, ?_, hfresh, htype.symm.trans htype', ?_⟩
    · rw [ht.cache, if_neg hr₂, hcache]
    · simpa only [hcount, ← hid] using hid'
  · intro r₁ r₂ i hi h₁ h₂
    rw [ht.cache] at h₁ h₂
    by_cases heq₁ : r₁ = r
    · rw [if_pos heq₁] at h₁
      cases h₁
      by_cases heq₂ : r₂ = r
      · rw [heq₁, heq₂]
        exact Resource.mem_shares_self hoffered
      · rw [if_neg heq₂] at h₂
        rw [heq₁, ← Resource.shares_eq hr']
        exact h.apart r' r₂ _ hi hr'e h₂
    · rw [if_neg heq₁] at h₁
      by_cases heq₂ : r₂ = r
      · rw [if_pos heq₂] at h₂
        cases h₂
        rw [heq₂, ← Resource.shares_eq (h.apart r₁ r' _ hi h₁ hr'e), Resource.shares_eq hr']
        exact Resource.mem_shares_self hoffered
      · rw [if_neg heq₂] at h₂
        exact h.apart r₁ r₂ i hi h₁ h₂
  · intro c
    rw [hcount, ht.last, h.last]
  · intro i i' e e' hi hne he he' htype
    obtain ⟨e₁, he₁, htype₁, hid₁⟩ := exists_sign_eq ht.signs he
    obtain ⟨e₂, he₂, htype₂, hid₂⟩ := exists_sign_eq ht.signs he'
    rw [← hid₁, ← hid₂]
    exact h.unique i i' e₁ e₂ hi hne he₁ he₂ (by rw [htype₁, htype₂, htype])

/-- A numbered part takes the next number, and one less is left for the others. -/
theorem added_number {requests : List (Resource P)} (hclear : Clear hw s₀ requests) (hdone : ∀ r' ∈ done, r' ∈ requests)
    (hmem : r ∈ requests) (hr : s.cache r = none) {e : ResourceElement} (ht : Added hw s t r e) (hid : r.fixedId hw = none) :
    newCount hw (fun r => s₀.cache r = none) r.counter done <
        newCount hw (fun r => s₀.cache r = none) r.counter requests ∧
      e.id.toNat = (s₀.last r.counter).toNat + newCount hw (fun r => s₀.cache r = none) r.counter done := by
  have hstep : newCount hw (fun r => s₀.cache r = none) r.counter (done ++ [r]) =
      newCount hw (fun r => s₀.cache r = none) r.counter done + 1 :=
    newCount_concat (not_mem_of_not_cached h hr) hid (not_cached_before h hr)
  have hmore : newCount hw (fun r => s₀.cache r = none) r.counter (done ++ [r]) ≤
      newCount hw (fun r => s₀.cache r = none) r.counter requests := by
    apply newCount_mono
    simpa [or_imp, forall_and] using ⟨hdone, hmem⟩
  have hfits := hclear.fits r.counter (by omega)
  have hlast : e.id = s₀.last r.counter +
      BitVec.ofNat 16 (newCount hw (fun r => s₀.cache r = none) r.counter done) := by
    rw [ht.id, hid, Option.getD_none, h.last]
  refine ⟨by omega, ?_⟩
  rw [hlast, BitVec.toNat_add, BitVec.toNat_ofNat, Nat.mod_eq_of_lt (show _ < 2 ^ 16 by omega),
    Nat.mod_eq_of_lt (by omega)]

/-- The id that a new element gets is free. -/
theorem added_id_free {requests : List (Resource P)} (hclear : Clear hw s₀ requests) (hdone : ∀ r' ∈ done, r' ∈ requests)
    (hmem : r ∈ requests) (hr : s.cache r = none) {e : ResourceElement} (ht : Added hw s t r e) (i : Nat)
    (e' : ResourceElement) (he' : s.resources[i]? = some e') (htype : e'.type = e.type) : e'.id ≠ e.id := by
  have hoffered := hclear.offered r hmem
  have hfresh : Fresh hw s₀ r := fun r' hr' => not_cached_before h (ht.alone r' hr')
  have hnot := not_mem_of_not_cached h hr
  have hle {r' : Resource P} : newCount hw (fun r => s₀.cache r = none) r'.counter done ≤
      newCount hw (fun r => s₀.cache r = none) r'.counter requests := newCount_mono hdone
  have hnext := added_number h hclear hdone hmem hr ht
  rcases Nat.lt_or_ge i s₀.resources.length with hi | hi
  · obtain ⟨e₀, he₀, hsign⟩ := Option.map_eq_some_iff.mp ((h.signs i hi).symm.trans (by rw [he']; rfl))
    obtain ⟨htype₀, hid₀⟩ := Prod.mk.inj hsign
    have hmem₀ := List.mem_of_getElem? he₀
    have htype' : e₀.type = r.type := by rw [htype₀, htype, ht.type]
    rw [← hid₀]
    cases hid : r.fixedId hw with
    | some id =>
      rw [ht.id, hid]
      exact hclear.fixed r hmem id hid hfresh e₀ hmem₀ htype'
    | none =>
      obtain ⟨hlt, hval⟩ := hnext hid
      intro heq
      exact hclear.numbers r hmem hid (not_cached_before h hr) _ hlt e₀ hmem₀ htype' (by rw [heq, hval])
  · obtain ⟨r', hdone', hcache', hfresh', htype', hid'⟩ := h.made i e' hi he'
    have hmem' := hdone r' hdone'
    have hrr : r'.type = r.type := by rw [← htype', htype, ht.type]
    have hcounter := Resource.counter_eq_of_type hrr
    have halone (hshare : r' ∈ r.shares hw) : False := by
      have := ht.alone r' hshare
      simp [hcache'] at this
    intro heq
    rcases hid' with hid' | ⟨hid', k, hk, hval'⟩
    · cases hid : r.fixedId hw with
      | some id =>
        have hide : e.id = id := by rw [ht.id, hid, Option.getD_some]
        exact halone (Resource.shares_of_fixedId hoffered (hclear.offered r' hmem') hrr.symm hid
          (by rw [hid', heq, hide]))
      | none =>
        obtain ⟨hlt, hval⟩ := hnext hid
        exact hclear.reserved r' hmem' _ hid' hfresh' _ (by rw [hcounter]; exact hlt) (by rw [hcounter, heq, hval])
    · cases hid : r.fixedId hw with
      | some id =>
        have hide : e.id = id := by rw [ht.id, hid, Option.getD_some]
        refine hclear.reserved r hmem id hid hfresh k ?_ ?_
        · rw [← hcounter]
          exact hk.trans_le hle
        · rw [← hcounter, ← hval', heq, hide]
      | none =>
        obtain ⟨-, hval⟩ := hnext hid
        rw [heq, hval, ← hcounter] at hval'
        omega

/-- A part that gets a new element. -/
theorem Inv.added_step {requests : List (Resource P)} (hclear : Clear hw s₀ requests) (hdone : ∀ r' ∈ done, r' ∈ requests)
    (hmem : r ∈ requests) (hr : s.cache r = none) {e : ResourceElement} (ht : Added hw s t r e) :
    Inv hw s₀ t (done ++ [r]) (given ++ [s.resources.length]) := by
  have hnot := not_mem_of_not_cached h hr
  have hfresh : Fresh hw s₀ r := fun r' hr' => not_cached_before h (ht.alone r' hr')
  have hfree := added_id_free h hclear hdone hmem hr ht
  have hoffered := hclear.offered r hmem
  have hold {i : Nat} (hi : i < s.resources.length) : t.resources[i]? = s.resources[i]? := by
    rw [ht.resources, List.getElem?_append_left hi]
  have hnew {i : Nat} {e' : ResourceElement} (he' : t.resources[i]? = some e') :
      i < s.resources.length ∧ s.resources[i]? = some e' ∨ i = s.resources.length ∧ e' = e := by
    have hlt := (List.getElem?_eq_some_iff.mp he').1
    rw [ht.resources] at hlt
    rcases Nat.lt_or_ge i s.resources.length with hi | hi
    · exact .inl ⟨hi, (hold hi) ▸ he'⟩
    · have hi' : i = s.resources.length := by simp at hlt; omega
      subst hi'
      rw [ht.resources, List.getElem?_concat_length, Option.some.injEq] at he'
      exact .inr ⟨rfl, he'.symm⟩
  constructor
  · simp [h.length]
  · apply given_concat h
    · intro r' hr'
      rw [ht.cache, if_neg (fun heq : r' = r => hnot (heq ▸ hr'))]
    · rw [ht.cache, if_pos rfl]
  · intro i hi
    rw [hold (hi.trans_le h.grows), h.signs i hi]
  · rw [ht.resources, List.length_append]
    exact h.grows.trans (Nat.le_add_right _ _)
  · intro r' i hi
    rw [ht.cache]
    split
    · rename_i heq
      rw [heq, not_cached_before h hr] at hi
      cases hi
    · exact h.kept r' i hi
  · intro r' i hi
    rw [ht.cache] at hi
    by_cases heq : r' = r
    · subst heq
      rw [if_pos rfl] at hi
      cases hi
      exact .inr ⟨not_cached_before h hr, by simp, .inr ⟨hfresh, h.grows⟩⟩
    · rw [if_neg heq] at hi
      exact (h.cached r' i hi).imp_right fun hr => ⟨hr.1, List.mem_append_left _ hr.2.1, hr.2.2⟩
  · intro r' i hi
    rw [ht.cache] at hi
    rw [ht.resources, List.length_append, List.length_singleton]
    by_cases heq : r' = r
    · rw [if_pos heq] at hi
      cases hi
      exact Nat.lt_succ_self _
    · rw [if_neg heq] at hi
      exact (h.bound r' i hi).trans (Nat.lt_succ_self _)
  · intro i e' hi he'
    rcases hnew he' with ⟨hlt, he'⟩ | ⟨rfl, rfl⟩
    · obtain ⟨r', hr', hcache, hfresh', htype, hid⟩ := h.made i e' hi he'
      refine ⟨r', List.mem_append_left _ hr', ?_, hfresh', htype, hid.imp_right fun hlater => ?_⟩
      · rw [ht.cache, if_neg (fun heq : r' = r => hnot (heq ▸ hr')), hcache]
      · obtain ⟨hid, k, hk, hval⟩ := hlater
        exact ⟨hid, k, hk.trans_le (newCount_mono fun _ => List.mem_append_left _), hval⟩
    · refine ⟨r, by simp, by rw [ht.cache, if_pos rfl], hfresh, ht.type, ?_⟩
      cases hid : r.fixedId hw with
      | some id => exact .inl (by rw [ht.id, hid, Option.getD_some])
      | none =>
        refine .inr ⟨rfl, _, ?_, (added_number h hclear hdone hmem hr ht hid).2⟩
        rw [newCount_concat hnot hid (not_cached_before h hr)]
        exact Nat.lt_succ_self _
  · intro r₁ r₂ i hi h₁ h₂
    rw [ht.cache] at h₁ h₂
    by_cases heq₁ : r₁ = r
    · rw [if_pos heq₁] at h₁
      cases h₁
      by_cases heq₂ : r₂ = r
      · rw [heq₁, heq₂]
        exact Resource.mem_shares_self hoffered
      · rw [if_neg heq₂] at h₂
        exact absurd (h.bound r₂ _ h₂) (lt_irrefl _)
    · rw [if_neg heq₁] at h₁
      by_cases heq₂ : r₂ = r
      · rw [if_pos heq₂] at h₂
        cases h₂
        exact absurd (h.bound r₁ _ h₁) (lt_irrefl _)
      · rw [if_neg heq₂] at h₂
        exact h.apart r₁ r₂ i hi h₁ h₂
  · intro c
    rw [ht.last, h.last]
    by_cases hc : r.fixedId hw = none ∧ c = r.counter
    · obtain ⟨hid, rfl⟩ := hc
      rw [if_pos ⟨hid, rfl⟩, newCount_concat hnot hid (not_cached_before h hr), BitVec.ofNat_add, BitVec.add_assoc]
      rfl
    · rw [if_neg hc, newCount_concat_of_not]
      by_cases hid : r.fixedId hw = none
      · exact .inr (.inl fun hc' => hc ⟨hid, hc'.symm⟩)
      · exact .inr (.inr (.inl hid))
  · intro i i' e₁ e₂ hi hne he₁ he₂ htype
    rcases hnew he₁ with ⟨hlt, he₁⟩ | ⟨rfl, rfl⟩
    · rcases hnew he₂ with ⟨hlt', he₂⟩ | ⟨rfl, rfl⟩
      · exact h.unique i i' e₁ e₂ hi hne he₁ he₂ htype
      · exact (hfree i e₁ he₁ htype.symm).symm
    · rcases hnew he₂ with ⟨hlt', he₂⟩ | ⟨rfl, rfl⟩
      · exact hfree i' e₂ he₂ htype
      · exact absurd rfl hne

end Step

section Runs
variable {hw} {s₀ : TPEFResourceUpdater P}

theorem inv_start (hbound : ∀ r i, s₀.cache r = some i → i < s₀.resources.length) : Inv hw s₀ s₀ [] [] := by
  have hzero (c : Counter) : newCount hw (fun r => s₀.cache r = none) c [] = 0 := by simp [newCount, NewOf]
  constructor
  · rfl
  · simp
  · simp
  · exact le_refl _
  · exact fun _ _ hi => hi
  · exact fun _ _ hi => .inl hi
  · exact hbound
  · intro i e hi he
    exact absurd (List.getElem?_eq_some_iff.mp he).1 (not_lt.mpr hi)
  · intro r r' i hi hr
    exact absurd (hbound r i hr) (not_lt.mpr hi)
  · simp [hzero]
  · intro i i' e e' hi _ he
    exact absurd (List.getElem?_eq_some_iff.mp he).1 (not_lt.mpr hi)

theorem run_concat (s : TPEFResourceUpdater P) (requests : List (Resource P)) (r : Resource P) :
    s.run hw (requests ++ [r]) = (s.run hw requests).bind fun state =>
      (state.1.request hw r).map fun (t, element) => (t, state.2 ++ [element]) := by
  rw [run, List.foldlM_append]
  simp only [List.foldlM_cons, List.foldlM_nil, bind_pure]
  rfl

/-- Every sequence of requests, in any order and repeated, keeps what is known. -/
theorem run_inv {requests : List (Resource P)} (hclear : Clear hw s₀ requests)
    (hbound : ∀ r i, s₀.cache r = some i → i < s₀.resources.length) (done : List (Resource P))
    (hdone : ∀ r ∈ done, r ∈ requests) : ∃ s given, s₀.run hw done = some (s, given) ∧ Inv hw s₀ s done given := by
  induction done using List.reverseRecOn with
  | nil => exact ⟨s₀, [], rfl, inv_start hbound⟩
  | append_singleton done r ih =>
    have hmem : r ∈ requests := hdone r (by simp)
    obtain ⟨s, given, hrun, hinv⟩ := ih fun r' hr' => hdone r' (List.mem_append_left _ hr')
    have hdone' : ∀ r' ∈ done, r' ∈ requests := fun r' hr' => hdone r' (List.mem_append_left _ hr')
    rw [run_concat, hrun]
    cases hr : s.cache r with
    | some element =>
      exact ⟨s, given ++ [element], by simp [request_of_cached hw hr], hinv.cached_step hr⟩
    | none =>
      rcases request_of_not_cached hw hr (hclear.offered r hmem) with ⟨t, element, ht, hshared⟩ | ⟨t, e, ht, hadded⟩
      · exact ⟨t, given ++ [element], by simp [ht], hinv.shared_step hr (hclear.offered r hmem) hshared⟩
      · exact ⟨t, given ++ [s.resources.length], by simp [ht], hinv.added_step hclear hdone' hmem hr hadded⟩

end Runs

end TPEFResourceUpdater

end Tce.POM
