import Mathlib.Data.List.Induction
import Tce.Base.Bisection
import Tce.Base.Dictionary
import Tce.TPEF.CodeSection

/-!
# Instruction indices

`CodeSection::indexOfInstruction` bisects the places at which instructions
start. The starts and the places of elements are cached until an element
changes; elements are told from each other by their addresses.

Indices are unbounded here: sections are far smaller than the integers that
count their elements.
-/

namespace Tce.TPEF

open Relation Bisection

inductive IndexFault where
  | assertion
  | keyNotFound
  | outOfRange
  deriving DecidableEq, Repr

/-- An element of a section and where it is in memory. -/
structure SectionElement (ι : Type) extends InstructionElement where
  address : ι

structure CodeSection (ι : Type) where
  elements : List (SectionElement ι)
  instructionStartCache : List Nat
  elementIndexCache : List (ι × Nat)

namespace CodeSection

variable {ι : Type}

def empty : CodeSection ι := ⟨[], [], []⟩

def clearInstructionCache (s : CodeSection ι) : CodeSection ι :=
  { s with instructionStartCache := [], elementIndexCache := [] }

def addElement (s : CodeSection ι) (elem : SectionElement ι) : CodeSection ι :=
  clearInstructionCache { s with elements := s.elements ++ [elem] }

def setElement (s : CodeSection ι) (index : Nat) (elem : SectionElement ι) : CodeSection ι :=
  clearInstructionCache { s with elements := s.elements.set index elem }

/-- One round of the loop over the elements. -/
def cacheElement (s : CodeSection ι) (elem : SectionElement ι × Nat) : CodeSection ι :=
  { s with
    instructionStartCache := if elem.1.begin then s.instructionStartCache ++ [elem.2] else s.instructionStartCache
    elementIndexCache := (elem.1.address, elem.2) :: s.elementIndexCache }

def initInstructionCache (s : CodeSection ι) : Except IndexFault (CodeSection ι) := do
  if s.instructionStartCache.isEmpty != s.elementIndexCache.isEmpty then
    throw .assertion
  let s := if s.instructionStartCache.isEmpty then s.elements.zipIdx.foldl cacheElement s else s
  if s.instructionStartCache.isEmpty then
    throw .assertion
  if s.elementIndexCache.isEmpty then
    throw .assertion
  return s

def instructionToSectionIndex (s : CodeSection ι) (index : Nat) : Except IndexFault Nat := do
  let s ← s.initInstructionCache
  match s.instructionStartCache[index]? with
  | some start => return start
  | none => throw .outOfRange

def instruction (s : CodeSection ι) (index : Nat) : Except IndexFault (SectionElement ι) := do
  let start ← s.instructionToSectionIndex index
  match s.elements[start]? with
  | some elem => return elem
  | none => throw .outOfRange

def valueForKey [DecidableEq ι] (map : List (ι × Nat)) (key : ι) : Except IndexFault Nat :=
  match map.lookup key with
  | some value => .ok value
  | none => .error .keyNotFound

def indexOfElement [DecidableEq ι] (s : CodeSection ι) (elem : ι) : Except IndexFault Nat := do
  let s ← s.initInstructionCache
  valueForKey s.elementIndexCache elem

def instructionCount (s : CodeSection ι) : Except IndexFault Nat := do
  let s ← s.initInstructionCache
  return s.instructionStartCache.length

/-- The value of the start cache that a probe reads. -/
def probedStart (starts : List Nat) (middle : Int) : Nat := starts.getD middle.toNat 0

def indexOfInstruction [DecidableEq ι] (s : CodeSection ι) (elem : ι) : Except IndexFault Nat := do
  let s ← s.initInstructionCache
  let elementIndex ← valueForKey s.elementIndexCache elem
  let instrCount ← s.instructionCount
  let first : Int := 0
  let last : Int := instrCount - 1
  let middle : Int := 0
  return (lastProbe (probedStart s.instructionStartCache) elementIndex instrCount first last middle).toNat

/-! ## Starts -/

section

/-- The places of the elements that begin an instruction. -/
def starts (elements : List (SectionElement ι)) : List Nat :=
  (elements.zipIdx.filter fun elem => elem.1.begin).map (·.2)

/-- The place of every element, the last one first. -/
def places (elements : List (SectionElement ι)) : List (ι × Nat) :=
  (elements.zipIdx.map fun elem => (elem.1.address, elem.2)).reverse

/-- The caches are clear, or they say where the elements and the starts are. -/
def Coherent (s : CodeSection ι) : Prop :=
  s.instructionStartCache = [] ∧ s.elementIndexCache = [] ∨
    s.instructionStartCache = starts s.elements ∧ s.elementIndexCache = places s.elements

def cached (s : CodeSection ι) : CodeSection ι := ⟨s.elements, starts s.elements, places s.elements⟩

theorem foldl_cacheElement (s : CodeSection ι) (l : List (SectionElement ι × Nat)) :
    l.foldl cacheElement s =
      ⟨s.elements, s.instructionStartCache ++ (l.filter fun elem => elem.1.begin).map (·.2),
        (l.map fun elem => (elem.1.address, elem.2)).reverse ++ s.elementIndexCache⟩ := by
  induction l generalizing s with
  | nil => simp
  | cons elem l ih =>
    rw [List.foldl_cons, ih]
    cases hbegin : elem.1.begin <;> simp [cacheElement, hbegin]

theorem foldl_cacheElement_elements (s : CodeSection ι) (hstarts : s.instructionStartCache = [])
    (hindex : s.elementIndexCache = []) : s.elements.zipIdx.foldl cacheElement s = s.cached := by
  rw [foldl_cacheElement, hstarts, hindex, List.nil_append, List.append_nil]
  rfl

theorem isEmpty_places {elements : List (SectionElement ι)} (h : starts elements ≠ []) :
    (places elements).isEmpty = false := by
  cases elements with
  | nil => exact absurd rfl h
  | cons elem elements => simp [places]

theorem initInstructionCache_eq {s : CodeSection ι} (h : s.Coherent) :
    s.initInstructionCache = if starts s.elements = [] then .error .assertion else .ok s.cached := by
  by_cases hstarts : starts s.elements = []
  · rw [if_pos hstarts]
    rcases h with ⟨hclear, hindex⟩ | ⟨hstart, hindex⟩
    · simp [initInstructionCache, hclear, hindex, foldl_cacheElement_elements, cached, hstarts]
      rfl
    · cases hempty : s.elements with
      | nil =>
        simp [initInstructionCache, hstart, hindex, hempty, starts, places]
        rfl
      | cons elem elements =>
        have hplaces : (places s.elements).isEmpty = false := by simp [hempty, places]
        simp [initInstructionCache, hstart, hindex, hstarts, hplaces]
        rfl
  · rw [if_neg hstarts]
    have hstarts' : (starts s.elements).isEmpty = false := by simpa using hstarts
    rcases h with ⟨hclear, hindex⟩ | ⟨hstart, hindex⟩
    · simp [initInstructionCache, hclear, hindex, foldl_cacheElement_elements, cached, hstarts', isEmpty_places hstarts]
      rfl
    · have hcached : s = s.cached := by rw [cached, ← hstart, ← hindex]
      rw [← hcached]
      simp [initInstructionCache, hstart, hindex, hstarts', isEmpty_places hstarts]
      rfl

theorem pairwise_starts (elements : List (SectionElement ι)) : (starts elements).Pairwise (· < ·) := by
  have hplaces : (elements.zipIdx.map (·.2)).Pairwise (· < ·) := by
    rw [List.zipIdx_map_snd]
    exact List.pairwise_lt_range'
  exact hplaces.sublist (List.filter_sublist.map _)

theorem mem_starts {elements : List (SectionElement ι)} {k : Nat} :
    k ∈ starts elements ↔ ∃ elem, elements[k]? = some elem ∧ elem.begin := by
  simp [starts, List.mem_zipIdx_iff_getElem?]

theorem map_places (elements : List (SectionElement ι)) :
    (places elements).map (·.1) = (elements.map (·.address)).reverse := by
  rw [places, List.map_reverse, List.map_map]
  congr 1
  calc elements.zipIdx.map ((·.1) ∘ fun elem => (elem.1.address, elem.2))
      = (elements.zipIdx.map (·.1)).map (·.address) := by rw [List.map_map]; rfl
    _ = elements.map (·.address) := by rw [List.zipIdx_map_fst]

theorem mem_places {elements : List (SectionElement ι)} {address : ι} {e : Nat} :
    (address, e) ∈ places elements ↔ ∃ elem, elements[e]? = some elem ∧ elem.address = address := by
  simp [places, List.mem_zipIdx_iff_getElem?]

section

variable [DecidableEq ι]

theorem valueForKey_places {elements : List (SectionElement ι)} (hnodup : (elements.map (·.address)).Nodup)
    {e : Nat} {elem : SectionElement ι} (h : elements[e]? = some elem) :
    valueForKey (places elements) elem.address = .ok e := by
  have hkeys : ((places elements).map (·.1)).Nodup := by
    rw [map_places]
    exact List.nodup_reverse.2 hnodup
  rw [valueForKey, Dictionary.lookup_of_mem hkeys (mem_places.2 ⟨elem, h, rfl⟩)]

theorem valueForKey_places_of_not_mem {elements : List (SectionElement ι)} {address : ι}
    (h : address ∉ elements.map (·.address)) : valueForKey (places elements) address = .error .keyNotFound := by
  have hnone : (places elements).lookup address = none := by
    apply List.lookup_eq_none_iff.2
    intro entry hentry
    have hkey : entry.1 ∈ (elements.map (·.address)).reverse := map_places elements ▸ List.mem_map_of_mem hentry
    apply bne_iff_ne.2
    rintro rfl
    exact h (List.mem_reverse.1 hkey)
  rw [valueForKey, hnone]

end

/-! ## Instructions of elements -/

/-- The element at `e` is behind the start of the instruction with the index `i` and before the next start. -/
def Contains (starts : List Nat) (i e : Nat) : Prop :=
  (∃ start, starts[i]? = some start ∧ start ≤ e) ∧ ∀ next, starts[i + 1]? = some next → e < next

/-- The bisection of the starts for the element at `e` ends at its instruction: the element is
the first one of the instruction, or the instruction is the last one, or the bisection
looks at the next instruction first. -/
def Bisected (starts : List Nat) (e : Nat) : Prop :=
  ∃ i, Contains starts i e ∧
    (starts[i]? = some e ∨ i + 1 = starts.length ∨ NextFirst 0 (starts.length - 1 : Int) i)

section

variable {starts : List Nat} {i e : Nat}

theorem Contains.lt (h : Contains starts i e) : i < starts.length := by
  obtain ⟨⟨start, hstart, _⟩, _⟩ := h
  exact (List.getElem?_eq_some_iff.1 hstart).1

theorem getElem_mono (hsorted : starts.Pairwise (· < ·)) {a b : Nat} (hab : a ≤ b) (hb : b < starts.length) :
    starts[a] ≤ starts[b] := by
  rcases Nat.lt_or_eq_of_le hab with hlt | rfl
  · exact (List.pairwise_iff_getElem.1 hsorted a b (by omega) hb hlt).le
  · exact le_rfl

theorem Contains.getElem_le (h : Contains starts i e) (hsorted : starts.Pairwise (· < ·)) {j : Nat} (hle : j ≤ i)
    (hj : j < starts.length) : starts[j] ≤ e := by
  obtain ⟨⟨start, hstart, hstart_le⟩, _⟩ := h
  obtain ⟨hi, rfl⟩ := List.getElem?_eq_some_iff.1 hstart
  exact (getElem_mono hsorted hle hi).trans hstart_le

theorem Contains.lt_getElem (h : Contains starts i e) (hsorted : starts.Pairwise (· < ·)) {j : Nat} (hlt : i < j)
    (hj : j < starts.length) : e < starts[j] :=
  (h.2 _ (List.getElem?_eq_getElem (by omega))).trans_le (getElem_mono hsorted hlt hj)

theorem probedStart_eq {j : Int} (hlow : 0 ≤ j) (hhigh : j ≤ starts.length - 1) :
    ∃ h : j.toNat < starts.length, probedStart starts j = starts[j.toNat] := by
  have hlt : j.toNat < starts.length := by omega
  exact ⟨hlt, by simp [probedStart, hlt]⟩

/-- Where the bisection ends for an element of an instruction. -/
theorem lastProbe_eq_iff_bisected (hsorted : starts.Pairwise (· < ·)) (h : Contains starts i e) :
    lastProbe (probedStart starts) e starts.length 0 (starts.length - 1) 0 = i ↔
      starts[i]? = some e ∨ i + 1 = starts.length ∨ NextFirst 0 (starts.length - 1 : Int) i := by
  have hlt := h.lt
  have hbelow : ∀ j : Int, 0 ≤ j → j ≤ i → probedStart starts j ≤ e := by
    intro j hlow hle
    obtain ⟨hj, heq⟩ := probedStart_eq hlow (by omega : j ≤ starts.length - 1)
    exact heq ▸ h.getElem_le hsorted (by omega) hj
  have habove : ∀ j : Int, i < j → j ≤ starts.length - 1 → e < probedStart starts j := by
    intro j hgt hhigh
    obtain ⟨hj, heq⟩ := probedStart_eq (by omega : 0 ≤ j) hhigh
    exact heq ▸ h.lt_getElem hsorted (by omega) hj
  have hfuel : (starts.length - 1 : Int) + 1 - 0 ≤ starts.length := by omega
  by_cases hstart : starts[i]? = some e
  · obtain ⟨_, hget⟩ := List.getElem?_eq_some_iff.1 hstart
    obtain ⟨hi, hkey⟩ := @probedStart_eq starts _ (by omega : 0 ≤ (i : Int)) (by omega)
    have hstrict : ∀ j : Int, 0 ≤ j → j < i → probedStart starts j < e := by
      intro j hlow hlt
      obtain ⟨hj, heq⟩ := @probedStart_eq starts _ hlow (by omega)
      rw [heq, ← hget]
      exact List.pairwise_iff_getElem.1 hsorted _ _ hj _ (by omega)
    have hfound := lastProbe_of_eq (m := 0) hfuel (by omega) (by omega) (hkey.trans hget) hstrict habove
    simp [hfound, hstart]
  · have hstrict : ∀ j : Int, 0 ≤ j → j ≤ i → probedStart starts j < e := by
      intro j hlow hle
      apply lt_of_le_of_ne (hbelow j hlow hle)
      intro heq
      obtain ⟨hj, hget⟩ := @probedStart_eq starts _ hlow (by omega)
      obtain ⟨⟨start, hi, hstart_le⟩, _⟩ := h
      obtain ⟨_, rfl⟩ := List.getElem?_eq_some_iff.1 hi
      have hle' := getElem_mono hsorted (by omega : j.toNat ≤ i) hlt
      have heq' : starts[i] = e := by omega
      exact hstart (heq' ▸ hi)
    by_cases hlast : i + 1 = starts.length
    · have hfound := lastProbe_of_lt (m := 0) (by omega) hfuel
        fun j hlow hhigh => hstrict j hlow (by omega)
      simp only [hfound, hlast, true_or, or_true, iff_true]
      omega
    · rw [lastProbe_eq_iff hfuel (by omega) (by omega) hstrict habove]
      simp [hstart, hlast]

theorem contains_lastProbe_iff (hsorted : starts.Pairwise (· < ·)) :
    Contains starts (lastProbe (probedStart starts) e starts.length 0 (starts.length - 1) 0).toNat e ↔
      Bisected starts e := by
  have hnonneg : 0 ≤ lastProbe (probedStart starts) e starts.length 0 (starts.length - 1 : Int) 0 :=
    le_lastProbe (Int.le_refl 0) (Int.le_refl 0)
  constructor
  · intro h
    exact ⟨_, h, (lastProbe_eq_iff_bisected hsorted h).1 (by omega)⟩
  · rintro ⟨i, h, hcase⟩
    rw [(lastProbe_eq_iff_bisected hsorted h).2 hcase]
    exact h

end

end

/-! ## Sections in use -/

section

variable [DecidableEq ι]

/-- What is done with a section: every element is in it once, and whoever changes elements
clears the caches afterwards. -/
inductive Step : CodeSection ι → CodeSection ι → Prop
  | addElement {s : CodeSection ι} {elem : SectionElement ι} : elem.address ∉ s.elements.map (·.address) →
      Step s (s.addElement elem)
  | setElement {s : CodeSection ι} {index : Nat} {elem : SectionElement ι} : index < s.elements.length →
      elem.address ∉ s.elements.map (·.address) → Step s (s.setElement index elem)
  | changeElements {s : CodeSection ι} {elements : List (SectionElement ι)} :
      elements.map (·.address) = s.elements.map (·.address) →
      Step s (clearInstructionCache { s with elements := elements })
  | query {s s' : CodeSection ι} : s.initInstructionCache = .ok s' → Step s s'

def Reachable (s : CodeSection ι) : Prop := ReflTransGen Step empty s

def Valid (s : CodeSection ι) : Prop := (s.elements.map (·.address)).Nodup ∧ s.Coherent

omit [DecidableEq ι] in
theorem Valid.place_unique {s : CodeSection ι} (h : s.Valid) {k l : Nat} {a b : SectionElement ι}
    (hk : s.elements[k]? = some a) (hl : s.elements[l]? = some b) (haddress : a.address = b.address) : k = l := by
  have hk' : k < (s.elements.map (·.address)).length := by simpa using (List.getElem?_eq_some_iff.1 hk).1
  apply (List.getElem?_inj hk' h.1).1
  rw [List.getElem?_map, List.getElem?_map, hk, hl, Option.map_some, Option.map_some, haddress]

omit [DecidableEq ι] in
theorem Step.valid {s s' : CodeSection ι} (h : Step s s') (hvalid : s.Valid) : s'.Valid := by
  obtain ⟨hnodup, hcoherent⟩ := hvalid
  cases h with
  | addElement hfresh =>
    refine ⟨?_, .inl ⟨rfl, rfl⟩⟩
    rw [CodeSection.addElement, clearInstructionCache, List.map_append, List.nodup_append_comm]
    exact List.nodup_cons.2 ⟨hfresh, hnodup⟩
  | setElement _ hfresh =>
    refine ⟨?_, .inl ⟨rfl, rfl⟩⟩
    rw [CodeSection.setElement, clearInstructionCache, List.map_set]
    exact hnodup.set hfresh
  | changeElements hsame =>
    refine ⟨?_, .inl ⟨rfl, rfl⟩⟩
    simpa [clearInstructionCache, hsame] using hnodup
  | query hinit =>
    rw [initInstructionCache_eq hcoherent] at hinit
    split at hinit
    · cases hinit
    · cases hinit
      exact ⟨hnodup, .inr ⟨rfl, rfl⟩⟩

omit [DecidableEq ι] in
theorem Reachable.valid {s : CodeSection ι} (h : Reachable s) : s.Valid := by
  induction h with
  | refl => exact ⟨.nil, .inl ⟨rfl, rfl⟩⟩
  | tail _ hstep ih => exact hstep.valid ih

omit [DecidableEq ι] in
/-- Elements at different addresses are a section, in any number. -/
theorem reachable_of_nodup {elements : List (SectionElement ι)} (h : (elements.map (·.address)).Nodup) :
    Reachable ⟨elements, [], []⟩ := by
  induction elements using List.reverseRecOn with
  | nil => exact .refl
  | append_singleton elements elem ih =>
    rw [List.map_append, List.nodup_append_comm] at h
    obtain ⟨hfresh, hnodup⟩ := List.nodup_cons.1 h
    exact (ih hnodup).tail (.addElement hfresh)

/-- From one element to the next one, when that does not begin an instruction. -/
def Next (elements : List (SectionElement ι)) (k l : Nat) : Prop :=
  l = k + 1 ∧ ∃ elem, elements[l]? = some elem ∧ elem.begin = false

/-- The instruction with the index starts at a first element, and the element is found from
there without passing another instruction's begin. -/
def IsInstructionOf (s : CodeSection ι) (index : Nat) (address : ι) : Prop :=
  ∃ k first, s.elements[k]? = some first ∧ first.begin = true ∧ s.instruction index = .ok first ∧
    ∃ e elem, s.elements[e]? = some elem ∧ elem.address = address ∧ ReflTransGen (Next s.elements) k e

/-- Elements of the section are given the index of their instruction, others an exception. -/
def IndexesRight (s : CodeSection ι) (address : ι) : Prop :=
  if address ∈ s.elements.map (·.address) then
    ∃ index, s.indexOfInstruction address = .ok index ∧ s.IsInstructionOf index address
  else s.indexOfInstruction address = .error .keyNotFound

/-- The section has an instruction, and the bisection for the element, if it is there, ends at its instruction. -/
def Bisects (s : CodeSection ι) (address : ι) : Prop :=
  starts s.elements ≠ [] ∧
    ∀ e elem, s.elements[e]? = some elem → elem.address = address → Bisected (starts s.elements) e

omit [DecidableEq ι] in
theorem reaches_iff {elements : List (SectionElement ι)} {k e : Nat} (hk : k < elements.length) :
    ReflTransGen (Next elements) k e ↔
      k ≤ e ∧ e < elements.length ∧ ∀ j ∈ starts elements, k < j → e < j := by
  constructor
  · intro h
    induction h with
    | refl => exact ⟨le_rfl, hk, fun _ _ hlt => hlt⟩
    | @tail b c _ hnext ih =>
      obtain ⟨rfl, elem, helem, hbegin⟩ := hnext
      obtain ⟨hle, _, hstarts⟩ := ih
      refine ⟨by omega, (List.getElem?_eq_some_iff.1 helem).1, ?_⟩
      intro j hj hlt
      apply lt_of_le_of_ne (hstarts j hj hlt)
      rintro rfl
      obtain ⟨_, helem', hbegin'⟩ := mem_starts.1 hj
      simp_all
  · rintro ⟨hle, hlt, hstarts⟩
    induction e, hle using Nat.le_induction with
    | base => exact .refl
    | succ e hle ih =>
      have hpath := ih (by omega) fun j hj hkj => (Nat.lt_succ_self e).trans (hstarts j hj hkj)
      refine hpath.tail ⟨rfl, _, List.getElem?_eq_getElem hlt, ?_⟩
      rw [← Bool.not_eq_true]
      intro hbegin
      have hmem : e + 1 ∈ starts elements := mem_starts.2 ⟨_, List.getElem?_eq_getElem hlt, hbegin⟩
      exact absurd (hstarts _ hmem (by omega)) (lt_irrefl _)

omit [DecidableEq ι] in
/-- Starts behind the one of an instruction are those from the next one on. -/
theorem contains_iff {starts : List Nat} (hsorted : starts.Pairwise (· < ·)) {i e : Nat} :
    Contains starts i e ↔ ∃ k, starts[i]? = some k ∧ k ≤ e ∧ ∀ j ∈ starts, k < j → e < j := by
  constructor
  · intro h
    obtain ⟨⟨k, hk, hle⟩, hnext⟩ := id h
    refine ⟨k, hk, hle, ?_⟩
    intro j hj hlt
    obtain ⟨n, hn, rfl⟩ := List.getElem_of_mem hj
    apply h.lt_getElem hsorted _ hn
    by_contra hle
    have hmono := getElem_mono hsorted (Nat.le_of_not_lt hle) h.lt
    rw [List.getElem?_eq_getElem h.lt, Option.some.injEq] at hk
    omega
  · rintro ⟨k, hk, hle, hstarts⟩
    refine ⟨⟨k, hk, hle⟩, ?_⟩
    intro next hnext
    obtain ⟨hi, rfl⟩ := List.getElem?_eq_some_iff.1 hk
    obtain ⟨hi', rfl⟩ := List.getElem?_eq_some_iff.1 hnext
    exact hstarts _ (List.getElem_mem hi') (List.pairwise_iff_getElem.1 hsorted _ _ hi hi' (Nat.lt_succ_self i))

omit [DecidableEq ι] in
theorem instruction_eq {s : CodeSection ι} (h : s.Coherent) {index : Nat} {first : SectionElement ι} :
    s.instruction index = .ok first ↔
      ∃ k, (starts s.elements)[index]? = some k ∧ s.elements[k]? = some first := by
  rw [instruction, instructionToSectionIndex, initInstructionCache_eq h]
  by_cases hstarts : starts s.elements = []
  · simp only [hstarts, ↓reduceIte, List.getElem?_nil, reduceCtorEq, false_and, exists_false, iff_false]
    rintro ⟨⟩
  · rw [if_neg hstarts]
    simp only [bind, Except.bind, cached]
    cases hstart : (starts s.elements)[index]? with
    | none =>
      simp only [reduceCtorEq, false_and, exists_false]
    | some k =>
      simp only [pure, Except.pure, Option.some.injEq, exists_eq_left']
      cases helem : s.elements[k]? with
      | none =>
        simp only [reduceCtorEq]
      | some elem => simp

omit [DecidableEq ι] in
theorem isInstructionOf_iff {s : CodeSection ι} (h : s.Valid) {index e : Nat} {elem : SectionElement ι}
    (helem : s.elements[e]? = some elem) :
    s.IsInstructionOf index elem.address ↔ Contains (starts s.elements) index e := by
  rw [contains_iff (pairwise_starts _)]
  constructor
  · rintro ⟨k, first, hfirst, _, hinstruction, e', elem', helem', haddress, hpath⟩
    obtain rfl := h.place_unique helem' helem haddress
    obtain ⟨k', hk', hfirst'⟩ := (instruction_eq h.2).1 hinstruction
    obtain rfl := h.place_unique hfirst' hfirst rfl
    obtain ⟨hle, _, hstarts⟩ := (reaches_iff (List.getElem?_eq_some_iff.1 hfirst).1).1 hpath
    exact ⟨k', hk', hle, hstarts⟩
  · rintro ⟨k, hk, hle, hstarts⟩
    obtain ⟨first, hfirst, hbegin⟩ := mem_starts.1 (List.mem_of_getElem? hk)
    refine ⟨k, first, hfirst, hbegin, (instruction_eq h.2).2 ⟨k, hk, hfirst⟩, e, elem, helem, rfl, ?_⟩
    exact (reaches_iff (List.getElem?_eq_some_iff.1 hfirst).1).2
      ⟨hle, (List.getElem?_eq_some_iff.1 helem).1, hstarts⟩

theorem indexOfInstruction_eq {s : CodeSection ι} (h : s.Coherent) (hstarts : starts s.elements ≠ []) (address : ι) :
    s.indexOfInstruction address = (valueForKey (places s.elements) address).map fun e =>
      (lastProbe (probedStart (starts s.elements)) e (starts s.elements).length 0
        ((starts s.elements).length - 1) 0).toNat := by
  have hcached : s.cached.Coherent := .inr ⟨rfl, rfl⟩
  have hcached' : s.cached.cached = s.cached := rfl
  have hstarts' : starts s.cached.elements ≠ [] := hstarts
  rw [indexOfInstruction, initInstructionCache_eq h, if_neg hstarts]
  simp only [instructionCount, initInstructionCache_eq hcached, if_neg hstarts', hcached', bind, Except.bind, pure,
    Except.pure]
  have hindex : s.cached.elementIndexCache = places s.elements := rfl
  have hstart : s.cached.instructionStartCache = starts s.elements := rfl
  rw [hindex, hstart]
  cases valueForKey (places s.elements) address <;> rfl

/-- The index is right exactly when the bisection ends at the element's instruction. -/
theorem indexesRight_iff {s : CodeSection ι} (h : Reachable s) (address : ι) :
    s.IndexesRight address ↔ s.Bisects address := by
  have hvalid := h.valid
  by_cases hstarts : starts s.elements = []
  · have hfault : s.indexOfInstruction address = .error .assertion := by
      rw [indexOfInstruction, initInstructionCache_eq hvalid.2, if_pos hstarts]
      rfl
    simp [IndexesRight, Bisects, hstarts, hfault]
  · rw [IndexesRight, indexOfInstruction_eq hvalid.2 hstarts]
    by_cases hmem : address ∈ s.elements.map (·.address)
    · rw [if_pos hmem]
      obtain ⟨elem, helem_mem, rfl⟩ := List.mem_map.1 hmem
      obtain ⟨e, helem⟩ := List.mem_iff_getElem?.1 helem_mem
      rw [valueForKey_places hvalid.1 helem]
      simp only [Except.map, Except.ok.injEq, ↓existsAndEq, true_and, isInstructionOf_iff hvalid helem]
      rw [contains_lastProbe_iff (pairwise_starts _)]
      constructor
      · intro hbisected
        refine ⟨hstarts, ?_⟩
        intro e' elem' helem' haddress
        exact hvalid.place_unique helem helem' haddress.symm ▸ hbisected
      · intro hbisects
        exact hbisects.2 e elem helem rfl
    · rw [if_neg hmem, valueForKey_places_of_not_mem hmem]
      simp only [Except.map, true_iff]
      refine ⟨hstarts, ?_⟩
      intro e elem helem haddress
      exact absurd (haddress ▸ List.mem_map_of_mem (List.mem_of_getElem? helem)) hmem

/-- A section of two instructions, of three elements and of one. -/
def twoInstructions : CodeSection Nat :=
  ⟨[⟨⟨true, .immediate ⟨0, 0, []⟩, []⟩, 0⟩, ⟨⟨false, .immediate ⟨0, 0, []⟩, []⟩, 1⟩,
    ⟨⟨false, .immediate ⟨0, 0, []⟩, []⟩, 2⟩, ⟨⟨true, .immediate ⟨0, 0, []⟩, []⟩, 3⟩], [], []⟩

theorem reachable_twoInstructions : Reachable twoInstructions := reachable_of_nodup (by decide)

theorem not_indexesRight_twoInstructions : ¬ twoInstructions.IndexesRight 1 := by
  have hvalid : twoInstructions.Valid := reachable_twoInstructions.valid
  have hindex : twoInstructions.indexOfInstruction 1 = .ok 1 := by decide +kernel
  rw [IndexesRight, if_pos (by decide)]
  rintro ⟨index, hresult, hinstruction⟩
  cases hindex.symm.trans hresult
  have helem : twoInstructions.elements[1]? = some ⟨⟨false, .immediate ⟨0, 0, []⟩, []⟩, 1⟩ := rfl
  obtain ⟨⟨start, hstart, hle⟩, _⟩ := (isInstructionOf_iff hvalid helem).1 hinstruction
  cases hstart
  exact absurd hle (by decide)

theorem indexesRight_twoInstructions : twoInstructions.IndexesRight 3 := by
  apply (indexesRight_iff reachable_twoInstructions 3).2
  refine ⟨by decide, ?_⟩
  intro e elem helem haddress
  obtain rfl : e = 3 := reachable_twoInstructions.valid.place_unique helem (l := 3) rfl haddress
  exact ⟨1, ⟨⟨3, rfl, le_rfl⟩, by decide⟩, .inl rfl⟩

end

end CodeSection

end Tce.TPEF
