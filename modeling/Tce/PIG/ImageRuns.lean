import Mathlib.Data.List.Infix
import Tce.PIG.ImageLayout

/-!
# Programs in memory

The image after any number of instructions has been added. Every reference to an
instruction that is in the image has its address, and the other bits of the words
are as they were supplied.
-/

namespace Tce.PIG
variable {I : Type}

/-- What `bemInstructionBits` gives: references of a word do not share bits. -/
structure Program (added : List (Added I)) : Prop where
  once : (added.map (·.instruction)).Nodup
  references : ∀ a ∈ added, ∀ r ∈ a.references, Reference r.2 a.word.length
  apart : ∀ a ∈ added, a.references.Pairwise fun r r' => Apart r.2 r'.2

theorem Program.init {before : List (Added I)} {a : Added I} (h : Program (before ++ [a])) : Program before where
  once := by
    have := h.once
    rw [List.map_append] at this
    exact this.of_append_left
  references := fun b hb => h.references b (by simp [hb])
  apart := fun b hb => h.apart b (by simp [hb])

theorem Program.notMem {before : List (Added I)} {a : Added I} (h : Program (before ++ [a])) :
    a.instruction ∉ before.map (·.instruction) := by
  have := h.once
  rw [List.map_append, List.nodup_append] at this
  intro hmem
  exact this.2.2 _ hmem _ (by simp) rfl

namespace ImageLayout
variable [DecidableEq I] (m : ImageLayout I)

/-- The address of an instruction that starts at a position. -/
def address (position : Nat) : Nat := m.addressSpaceOffset + position / m.mau

/-- The bits of words with references have indices of 32 bits. -/
def Indexed (added : List (Added I)) : Prop :=
  ∀ p ∈ m.placed 0 added, p.2.references ≠ [] → p.1 + p.2.word.length ≤ 2 ^ 32

/-- When positions, indices and addresses have 32 bits, and every address that passes
the size check of a reference can be written there. A reference to an instruction
that was added before is written while its word starts at index 0. -/
structure Encodable (added : List (Added I)) : Prop where
  indexed : m.Indexed added
  positions : ∀ p ∈ m.placed 0 added, p.1 < 2 ^ 32 ∧ m.address p.1 < 2 ^ 32
  fixable : ∀ before a after, added = before ++ a :: after → ∀ r ∈ a.references, ∀ s, m.start added r.1 = some s →
    requiredBits (m.address s) ≤ availableSize r.2 →
    Fixable (if (m.start before r.1).isSome then 0 else m.firstPosition a.instruction (m.imageEnd 0 before))
      r.2 (m.address s)

/-- Some reference has no room for the address it needs. -/
def Overflows (added : List (Added I)) : Prop :=
  ∃ a ∈ added, ∃ r ∈ a.references, ∃ s, m.start added r.1 = some s ∧ ¬Fits r.2 (m.address s)

/-- The image that the program asks for. -/
structure Encodes (added : List (Added I)) (bits : List Bool) : Prop where
  divisible : m.mau ∣ bits.length
  fixed : ∀ p ∈ m.placed 0 added, ∀ r ∈ p.2.references, ∀ s, m.start added r.1 = some s →
    ReadsBack bits p.1 r.2 (m.address s)
  supplied : ∀ p ∈ m.placed 0 added, ∀ j < p.2.word.length, (∀ r ∈ p.2.references, ¬Covered r.2 j) →
    bits[p.1 + j]? = p.2.word[j]?
  padding : ∀ i < bits.length, (∀ p ∈ m.placed 0 added, ¬(p.1 ≤ i ∧ i < p.1 + p.2.word.length)) →
    bits[i]? = some false

/-- Either some address does not fit and `OutOfRange` is thrown, or the image is right. -/
def Correct (added : List (Added I)) : Prop :=
  (m.addInstructions added = .error .outOfRange ∧ m.Overflows added) ∨
    ∃ v, m.addInstructions added = .ok v ∧ m.Encodes added (m.programBits v) ∧
      ∀ x, x ∈ v.instructionBoundaries ↔ x ∈ (m.placed 0 added).map (·.1)

/-- The tables that the vector has for the references of a word. -/
def moved (p : Nat × Added I) : List (I × IndexBoundTable) :=
  p.2.references.map fun r => (r.1, shifted p.1 r.2)

/-- The vector after some instructions have been added. -/
structure Image (added : List (Added I)) (v : InstructionBitVector I) : Prop where
  length : v.bits.length = m.imageEnd 0 added
  references : v.references = (m.placed 0 added).flatMap moved
  addresses : ∀ X, v.instructionAddresses X = (m.start added X).map m.memoryAddress
  boundaries : ∀ x, x ∈ v.instructionBoundaries ↔ x ∈ (m.placed 0 added).map (·.1)
  fixed : ∀ p ∈ m.placed 0 added, ∀ r ∈ p.2.references, ∀ s, m.start added r.1 = some s →
    ReadsBack v.bits p.1 r.2 (m.address s)
  supplied : ∀ p ∈ m.placed 0 added, ∀ j < p.2.word.length,
    (∀ r ∈ p.2.references, (m.start added r.1).isSome → ¬Covered r.2 j) → v.bits[p.1 + j]? = p.2.word[j]?
  padding : ∀ i < v.bits.length, (∀ p ∈ m.placed 0 added, ¬(p.1 ≤ i ∧ i < p.1 + p.2.word.length)) →
    v.bits[i]? = some false

variable {m}

omit [DecidableEq I] in
theorem memoryAddress_toNat {position : Nat} (h : m.address position < 2 ^ 32) :
    (m.memoryAddress position).toNat = m.address position := by
  simp only [memoryAddress, BitVec.toNat_ofNat]
  exact Nat.mod_eq_of_lt h

theorem Encodable.address_lt {added : List (Added I)} (h : m.Encodable added) {X : I} {s : Nat}
    (hs : m.start added X = some s) : m.address s < 2 ^ 32 := by
  obtain ⟨p, hp, _, rfl⟩ := start_eq_some hs
  exact (h.positions p hp).2

theorem start_append_of_some {before : List (Added I)} {a : Added I} {X : I} {s : Nat}
    (h : m.start before X = some s) : m.start (before ++ [a]) X = some s := by
  simp [start_append, h]

omit [DecidableEq I] in
theorem imageEnd_snoc (before : List (Added I)) (a : Added I) :
    m.imageEnd 0 (before ++ [a]) = m.firstPosition a.instruction (m.imageEnd 0 before) + a.word.length := by
  rw [imageEnd_append]
  rfl

omit [DecidableEq I] in
theorem placed_snoc (before : List (Added I)) (a : Added I) :
    m.placed 0 (before ++ [a]) =
      m.placed 0 before ++ [(m.firstPosition a.instruction (m.imageEnd 0 before), a)] := by
  rw [placed_append]
  rfl

theorem Encodable.init {before : List (Added I)} {a : Added I} (h : m.Encodable (before ++ [a])) :
    m.Encodable before where
  indexed := fun p hp => h.indexed p (by simp [placed_snoc, hp])
  positions := fun p hp => h.positions p (by simp [placed_snoc, hp])
  fixable := by
    intro before' a' after heq r hr s hs
    exact h.fixable before' a' (after ++ [a]) (by simp [heq]) r hr s (start_append_of_some hs)

theorem Overflows.mono {before : List (Added I)} {a : Added I} (h : m.Overflows before) :
    m.Overflows (before ++ [a]) := by
  obtain ⟨b, hb, r, hr, s, hs, hno⟩ := h
  exact ⟨b, by simp [hb], r, hr, s, start_append_of_some hs, hno⟩

section Step
variable {before : List (Added I)} {a : Added I} {v : InstructionBitVector I}

/-- `pushBack` fixes the references to instructions that were added before. -/
theorem fixKnown_ok (hprogram : Program (before ++ [a])) (hencodable : m.Encodable (before ++ [a]))
    (haddresses : ∀ X, v.instructionAddresses X = (m.start before X).map m.memoryAddress) :
    (fixAll a.word (a.references.filterMap fun r => (v.instructionAddresses r.1).map (r.2, ·)) = .error .outOfRange ∧
      m.Overflows (before ++ [a])) ∨
    ∃ word, fixAll a.word (a.references.filterMap fun r => (v.instructionAddresses r.1).map (r.2, ·)) = .ok word ∧
      word.length = a.word.length ∧
      (∀ j, (∀ r ∈ a.references, (m.start before r.1).isSome → ¬Covered r.2 j) → word[j]? = a.word[j]?) ∧
      ∀ r ∈ a.references, ∀ s, m.start before r.1 = some s → ReadsBack word 0 r.2 (m.address s) := by
  have ha : a ∈ before ++ [a] := by simp
  have hknown : ∀ k, k ∈ (a.references.filterMap fun r => (v.instructionAddresses r.1).map (r.2, ·)) ↔
      ∃ r ∈ a.references, ∃ s, m.start before r.1 = some s ∧ k = (r.2, m.memoryAddress s) := by
    intro k
    simp only [List.mem_filterMap, haddresses, Option.map_map, Option.map_eq_some_iff, Function.comp_apply]
    exact ⟨fun ⟨r, hr, s, hs, hk⟩ => ⟨r, hr, s, hs, hk.symm⟩, fun ⟨r, hr, s, hs, hk⟩ => ⟨r, hr, s, hs, hk.symm⟩⟩
  have htoNat : ∀ {X s}, m.start before X = some s → (m.memoryAddress s).toNat = m.address s := fun hs =>
    memoryAddress_toNat (hencodable.address_lt (start_append_of_some hs))
  have hapart : (a.references.filterMap fun r => (v.instructionAddresses r.1).map (r.2, ·)).Pairwise
      fun r r' => Apart r.1 r'.1 := by
    refine List.pairwise_filterMap.mpr ((hprogram.apart a ha).imp fun hno => ?_)
    intro k hk k' hk'
    obtain ⟨_, _, rfl⟩ := Option.map_eq_some_iff.mp hk
    obtain ⟨_, _, rfl⟩ := Option.map_eq_some_iff.mp hk'
    exact hno
  have hreference : ∀ k ∈ (a.references.filterMap fun r => (v.instructionAddresses r.1).map (r.2, ·)),
      Reference k.1 a.word.length := by
    intro k hk
    obtain ⟨r, hr, s, _, rfl⟩ := (hknown k).mp hk
    exact hprogram.references a ha r hr
  have hfixable : ∀ k ∈ (a.references.filterMap fun r => (v.instructionAddresses r.1).map (r.2, ·)),
      requiredBits k.2.toNat ≤ availableSize k.1 → Fixable 0 k.1 k.2.toNat := by
    intro k hk hsize
    obtain ⟨r, hr, s, hs, rfl⟩ := (hknown k).mp hk
    rw [htoNat hs] at hsize ⊢
    have hfix := hencodable.fixable before a [] rfl r hr s (start_append_of_some hs) hsize
    simpa [hs] using hfix
  rcases fixAll_ok hreference hapart hfixable with ⟨herr, k, hk, hno⟩ | ⟨word, hword, hlen, hframe, hread⟩
  · obtain ⟨r, hr, s, hs, rfl⟩ := (hknown k).mp hk
    rw [htoNat hs] at hno
    exact .inl ⟨herr, a, ha, r, hr, s, start_append_of_some hs, hno⟩
  · refine .inr ⟨word, hword, hlen, fun j hj => hframe j fun k hk => ?_, fun r hr s hs => ?_⟩
    · obtain ⟨r, hr, s, hs, rfl⟩ := (hknown k).mp hk
      exact hj r hr (by simp [hs])
    · have := hread _ ((hknown _).mpr ⟨r, hr, s, hs, rfl⟩)
      rwa [htoNat hs] at this

/-- The references that `fixInstructionAddress` fixes for the instruction just added. -/
def referring (m : ImageLayout I) (before : List (Added I)) (a : Added I) : List (IndexBoundTable × BitVec 32) :=
  (((m.placed 0 (before ++ [a])).flatMap moved).filter (·.1 = a.instruction)).map fun r =>
    (r.2, m.memoryAddress (m.firstPosition a.instruction (m.imageEnd 0 before)))

theorem mem_referring {k : IndexBoundTable × BitVec 32} : k ∈ referring m before a ↔
    ∃ p ∈ m.placed 0 (before ++ [a]), ∃ r ∈ p.2.references, r.1 = a.instruction ∧
      k = (shifted p.1 r.2, m.memoryAddress (m.firstPosition a.instruction (m.imageEnd 0 before))) := by
  simp only [referring, List.mem_map, List.mem_filter, List.mem_flatMap, moved, decide_eq_true_eq]
  constructor
  · rintro ⟨_, ⟨⟨p, hp, r, hr, rfl⟩, heq⟩, rfl⟩
    exact ⟨p, hp, r, hr, heq, rfl⟩
  · rintro ⟨p, hp, r, hr, heq, rfl⟩
    exact ⟨_, ⟨⟨p, hp, r, hr, rfl⟩, heq⟩, rfl⟩

omit [DecidableEq I] in
/-- The references of a word stay in the range of the word. -/
theorem covered_moved {added : List (Added I)} (hprogram : Program added) (hindexed : m.Indexed added)
    {p : Nat × Added I} (hp : p ∈ m.placed 0 added) {r : I × IndexBoundTable} (hr : r ∈ p.2.references) {i : Nat} :
    Covered (shifted p.1 r.2) i ↔ ∃ j < p.2.word.length, Covered r.2 j ∧ i = p.1 + j := by
  have href := hprogram.references _ (mem_of_placed hp) r hr
  have hend := hindexed p hp (List.ne_nil_of_mem hr)
  rw [href.covered_shifted hend]
  exact ⟨fun ⟨j, hj, hi⟩ => ⟨j, href.covered_lt hj, hj, hi⟩, fun ⟨j, _, hj, hi⟩ => ⟨j, hj, hi⟩⟩

omit [DecidableEq I] in
theorem moved_pairwise {added : List (Added I)} (hprogram : Program added) (hindexed : m.Indexed added) :
    ((m.placed 0 added).flatMap moved).Pairwise fun r r' => Apart r.2 r'.2 := by
  refine List.pairwise_flatMap.mpr ⟨fun p hp => ?_, (placed_pairwise 0 added).imp_of_mem fun {p q} hp hq hle => ?_⟩
  · refine List.pairwise_map.mpr ((hprogram.apart _ (mem_of_placed hp)).imp_of_mem fun {r r'} hr hr' hno i hi => ?_)
    obtain ⟨j, _, hj, rfl⟩ := (covered_moved hprogram hindexed hp hr).mp hi.1
    obtain ⟨j', _, hj', heq⟩ := (covered_moved hprogram hindexed hp hr').mp hi.2
    have : j = j' := by omega
    exact hno j ⟨hj, this ▸ hj'⟩
  · intro x hx y hy i hi
    obtain ⟨r, hr, rfl⟩ := List.mem_map.mp hx
    obtain ⟨r', hr', rfl⟩ := List.mem_map.mp hy
    obtain ⟨j, hj, _, rfl⟩ := (covered_moved hprogram hindexed hp hr).mp hi.1
    obtain ⟨j', _, _, heq⟩ := (covered_moved hprogram hindexed hq hr').mp hi.2
    omega

/-- `fixInstructionAddress` changes no other reference and no bit outside the words. -/
theorem not_covered_referring (hprogram : Program (before ++ [a])) (hindexed : m.Indexed (before ++ [a]))
    {p : Nat × Added I} (hp : p ∈ m.placed 0 (before ++ [a])) {j : Nat} (hj : j < p.2.word.length)
    (hother : ∀ r ∈ p.2.references, r.1 = a.instruction → ¬Covered r.2 j) :
    ∀ k ∈ referring m before a, ¬Covered k.1 (p.1 + j) := by
  intro k hk hcov
  obtain ⟨q, hq, r, hr, heq, rfl⟩ := mem_referring.mp hk
  obtain ⟨j', hj', hcov', hsum⟩ := (covered_moved hprogram hindexed hq hr).mp hcov
  by_cases hpq : p = q
  · subst hpq
    have : j = j' := by omega
    exact hother r hr heq (this ▸ hcov')
  · have := placed_apart hp hq hpq
    omega

theorem fixReferring_ok (hprogram : Program (before ++ [a])) (hencodable : m.Encodable (before ++ [a]))
    {bits : List Bool} (hlength : bits.length = m.imageEnd 0 (before ++ [a])) :
    (fixAll bits (referring m before a) = .error .outOfRange ∧ m.Overflows (before ++ [a])) ∨
    ∃ bits', fixAll bits (referring m before a) = .ok bits' ∧ bits'.length = bits.length ∧
      (∀ i, (∀ k ∈ referring m before a, ¬Covered k.1 i) → bits'[i]? = bits[i]?) ∧
      ∀ p ∈ m.placed 0 (before ++ [a]), ∀ r ∈ p.2.references, r.1 = a.instruction →
        ReadsBack bits' p.1 r.2 (m.address (m.firstPosition a.instruction (m.imageEnd 0 before))) := by
  have hindexed := hencodable.indexed
  have hstart : m.start (before ++ [a]) a.instruction =
      some (m.firstPosition a.instruction (m.imageEnd 0 before)) := by
    simp [start_append, start_eq_none hprogram.notMem]
  have htoNat := memoryAddress_toNat (hencodable.address_lt hstart)
  have hword : ∀ p ∈ m.placed 0 (before ++ [a]), ∀ r ∈ p.2.references,
      Reference r.2 p.2.word.length ∧ p.1 + p.2.word.length ≤ 2 ^ 32 := by
    intro p hp r hr
    exact ⟨hprogram.references _ (mem_of_placed hp) r hr, hindexed p hp (List.ne_nil_of_mem hr)⟩
  have hreference : ∀ k ∈ referring m before a, Reference k.1 bits.length := by
    intro k hk
    obtain ⟨p, hp, r, hr, _, rfl⟩ := mem_referring.mp hk
    obtain ⟨href, hend⟩ := hword p hp r hr
    exact (href.shifted hend).mono (hlength ▸ (placed_bounds p hp).2)
  have hapart : (referring m before a).Pairwise fun k k' => Apart k.1 k'.1 :=
    List.pairwise_map.mpr ((moved_pairwise hprogram hindexed).filter _)
  have hfixable : ∀ k ∈ referring m before a,
      requiredBits k.2.toNat ≤ availableSize k.1 → Fixable 0 k.1 k.2.toNat := by
    intro k hk hsize'
    obtain ⟨p, hp, r, hr, heq, rfl⟩ := mem_referring.mp hk
    obtain ⟨href, hend⟩ := hword p hp r hr
    obtain ⟨before', after, hsplit, hfirst⟩ := placed_split p hp
    rw [htoNat, href.availableSize_shifted hend] at hsize'
    have hfix := hencodable.fixable before' p.2 after hsplit r hr _ (heq ▸ hstart) hsize'
    -- the instruction is the last one, so no word refers back to it
    have hnone : m.start before' r.1 = none := by
      refine start_eq_none fun hmem => ?_
      have hinit : before' <+: before := by
        rcases List.eq_nil_or_concat after with rfl | ⟨after', b, rfl⟩
        · exact ⟨[], by simpa using (List.append_inj_left' hsplit rfl).symm⟩
        · refine ⟨p.2 :: after', ?_⟩
          have hsplit' : before ++ [a] = (before' ++ p.2 :: after') ++ [b] := by simpa using hsplit
          exact (List.append_inj_left' hsplit' rfl).symm
      rw [heq] at hmem
      exact hprogram.notMem (hinit.map _ |>.subset hmem)
    rw [hnone] at hfix
    simp only [Option.isSome_none, Bool.false_eq_true, ↓reduceIte, ← hfirst] at hfix
    rw [htoNat]
    exact href.fixable_shifted hend hfix
  rcases fixAll_ok hreference hapart hfixable with ⟨herr, k, hk, hno⟩ | ⟨bits', hbits', hlen, hframe, hread⟩
  · obtain ⟨p, hp, r, hr, heq, rfl⟩ := mem_referring.mp hk
    obtain ⟨href, hend⟩ := hword p hp r hr
    rw [htoNat, href.fits_shifted hend] at hno
    exact .inl ⟨herr, p.2, mem_of_placed hp, r, hr, _, heq ▸ hstart, hno⟩
  · refine .inr ⟨bits', hbits', hlen, hframe, fun p hp r hr heq => ?_⟩
    obtain ⟨href, hend⟩ := hword p hp r hr
    have := hread _ (mem_referring.mpr ⟨p, hp, r, hr, heq, rfl⟩)
    rwa [htoNat, href.readsBack_shifted hend] at this

theorem insertBoundary_ok {position : Nat} {points : List Nat} (h : ∃ x ∈ points, position ≤ x) :
    ∃ points', InstructionBitVector.insertBoundary position points = .ok points' ∧
      ∀ x, x ∈ points' ↔ x = position ∨ x ∈ points := by
  induction points with
  | nil => simp at h
  | cons point points ih =>
    simp only [InstructionBitVector.insertBoundary]
    by_cases hgt : point > position
    · exact ⟨_, if_pos hgt, fun x => by simp⟩
    by_cases heq : point = position
    · exact ⟨point :: points, by simp [heq], fun x => by simp [heq]⟩
    have hrest : ∃ x ∈ points, position ≤ x := by
      obtain ⟨x, hx, hle⟩ := h
      rcases List.mem_cons.mp hx with rfl | hx
      · omega
      · exact ⟨x, hx, hle⟩
    obtain ⟨points', hpoints', hmem⟩ := ih hrest
    refine ⟨point :: points', by simp [hgt, heq, hpoints', Except.map], fun x => ?_⟩
    simp only [List.mem_cons, hmem]
    exact or_left_comm

omit [DecidableEq I] in
/-- A position is always marked, as it is not before the last one. -/
theorem markInstructionStartingPoint_ok (boundaries : List Nat) (position : Nat) :
    ∃ points, (∀ v : InstructionBitVector I, v.instructionBoundaries = boundaries →
        v.markInstructionStartingPoint position = .ok { v with instructionBoundaries := points }) ∧
      ∀ x, x ∈ points ↔ x = position ∨ x ∈ boundaries := by
  cases hback : boundaries.getLast? with
  | none =>
    refine ⟨[position], ?_, fun x => by simp [List.getLast?_eq_none_iff.mp hback]⟩
    rintro v rfl
    simp [InstructionBitVector.markInstructionStartingPoint, hback]
  | some back =>
    by_cases hlt : back < position
    · refine ⟨boundaries ++ [position], ?_, fun x => by simp [or_comm]⟩
      rintro v rfl
      simp [InstructionBitVector.markInstructionStartingPoint, hback, hlt]
    · obtain ⟨points, hpoints, hmem⟩ :=
        insertBoundary_ok ⟨back, List.mem_of_getLast? hback, Nat.le_of_not_lt hlt⟩
      refine ⟨points, ?_, hmem⟩
      rintro v rfl
      simp [InstructionBitVector.markInstructionStartingPoint, hback, hlt, hpoints, Except.map]

/-- The vector that `addInstruction` has before the references to the instruction are fixed. -/
def extended (m : ImageLayout I) (before : List (Added I)) (a : Added I) (v : InstructionBitVector I)
    (word : List Bool) : List Bool :=
  v.bits ++ List.replicate (m.firstPosition a.instruction (m.imageEnd 0 before) - m.imageEnd 0 before) false ++ word

section Extended
variable {word : List Bool} (hlength : v.bits.length = m.imageEnd 0 before)
include hlength

omit [DecidableEq I] in
theorem length_extended (hword : word.length = a.word.length) :
    (extended m before a v word).length = m.imageEnd 0 (before ++ [a]) := by
  have := le_firstPosition (m := m) a.instruction (m.imageEnd 0 before)
  simp only [extended, List.length_append, List.length_replicate, hlength, imageEnd_snoc, hword]
  omega

omit [DecidableEq I] in
theorem extended_before {i : Nat} (hi : i < m.imageEnd 0 before) :
    (extended m before a v word)[i]? = v.bits[i]? := by
  rw [extended, List.append_assoc, List.getElem?_append_left (by omega)]

omit [DecidableEq I] in
theorem extended_word (j : Nat) :
    (extended m before a v word)[m.firstPosition a.instruction (m.imageEnd 0 before) + j]? = word[j]? := by
  have := le_firstPosition (m := m) a.instruction (m.imageEnd 0 before)
  rw [extended, List.getElem?_append_right (by simp [hlength]; omega)]
  congr 1
  simp only [List.length_append, List.length_replicate, hlength]
  omega

omit [DecidableEq I] in
theorem extended_gap {i : Nat} (hle : m.imageEnd 0 before ≤ i)
    (hlt : i < m.firstPosition a.instruction (m.imageEnd 0 before)) :
    (extended m before a v word)[i]? = some false := by
  rw [extended, List.getElem?_append_left (by simp [hlength]; omega),
    List.getElem?_append_right (by omega), List.getElem?_replicate]
  simp only [hlength]
  rw [if_pos (by omega)]

end Extended

/-- One instruction is added: its word is fixed with the known addresses and put at the end,
then all references to it are fixed. -/
theorem addInstruction_eq (himage : m.Image before v)
    (hend : m.firstPosition a.instruction (m.imageEnd 0 before) < 2 ^ 32) :
    ∃ points, (∀ x, x ∈ points ↔ x ∈ (m.placed 0 (before ++ [a])).map (·.1)) ∧
      m.addInstruction v a =
        (fixAll a.word (a.references.filterMap fun r => (v.instructionAddresses r.1).map (r.2, ·))).bind fun word =>
        (fixAll (extended m before a v word) (referring m before a)).map fun bits =>
          { bits := bits
            references := (m.placed 0 (before ++ [a])).flatMap moved
            instructionBoundaries := points
            instructionAddresses := fun i =>
              if i = a.instruction then
                some ((v.instructionAddresses i).getD
                  (m.memoryAddress (m.firstPosition a.instruction (m.imageEnd 0 before))))
              else v.instructionAddresses i } := by
  have hle := le_firstPosition (m := m) a.instruction (m.imageEnd 0 before)
  have hfree : v.bits.length % 2 ^ 32 = m.imageEnd 0 before := by
    rw [himage.length]
    exact Nat.mod_eq_of_lt (by omega)
  have hposition : m.instructionPosition a.instruction (m.imageEnd 0 before) =
      m.firstPosition a.instruction (m.imageEnd 0 before) := instructionPosition_eq hend
  have hgap : (v.bits ++ List.replicate (m.firstPosition a.instruction (m.imageEnd 0 before) - m.imageEnd 0 before)
      false).length = m.firstPosition a.instruction (m.imageEnd 0 before) := by
    simp only [List.length_append, List.length_replicate, himage.length]
    omega
  have hreferences : v.references ++ a.references.map (fun r =>
      (r.1, r.2.map (·.incrIndices (m.firstPosition a.instruction (m.imageEnd 0 before))))) =
      (m.placed 0 (before ++ [a])).flatMap moved := by
    rw [placed_snoc, List.flatMap_append, himage.references]
    simp [moved, shifted]
  obtain ⟨points, hpoints, hmem⟩ := markInstructionStartingPoint_ok (I := I) v.instructionBoundaries
    (m.firstPosition a.instruction (m.imageEnd 0 before))
  refine ⟨points, fun x => ?_, ?_⟩
  · rw [hmem, himage.boundaries, placed_snoc]
    simp [or_comm]
  simp only [addInstruction, hfree, hposition, InstructionBitVector.pushBack, hgap, bind, Except.bind, pure, Except.pure]
  cases fixAll a.word (a.references.filterMap fun r => (v.instructionAddresses r.1).map (r.2, ·)) with
  | error e => rfl
  | ok word =>
    simp only [hpoints]
    simp only [InstructionBitVector.fixInstructionAddress, hreferences, bind, Except.bind, pure, Except.pure, Except.map]
    rfl

/-- What holds of the image still holds when an instruction is added. -/
theorem addInstruction_ok (hprogram : Program (before ++ [a])) (hencodable : m.Encodable (before ++ [a]))
    (himage : m.Image before v) :
    (m.addInstruction v a = .error .outOfRange ∧ m.Overflows (before ++ [a])) ∨
      ∃ v', m.addInstruction v a = .ok v' ∧ m.Image (before ++ [a]) v' := by
  have hindexed := hencodable.indexed
  have hle := le_firstPosition (m := m) a.instruction (m.imageEnd 0 before)
  have hfirst := (hencodable.positions (m.firstPosition a.instruction (m.imageEnd 0 before), a)
    (by simp [placed_snoc])).1
  obtain ⟨points, hpoints, heq⟩ := addInstruction_eq himage hfirst
  rw [heq]
  rcases fixKnown_ok hprogram hencodable himage.addresses with
    ⟨herr, hover⟩ | ⟨word, hword, hwordLength, hwordFrame, hwordRead⟩
  · exact .inl ⟨by rw [herr]; rfl, hover⟩
  have hlength := length_extended himage.length hwordLength
  rcases fixReferring_ok hprogram hencodable hlength with ⟨herr, hover⟩ | ⟨bits, hbits, hbitsLength, hframe, hread⟩
  · exact .inl ⟨by rw [hword, Except.bind, herr]; rfl, hover⟩
  refine .inr ⟨_, by rw [hword, Except.bind, hbits]; rfl, ?_⟩
  have hnone := start_eq_none (m := m) hprogram.notMem
  -- a bit of a word, if it is in no reference to the instruction
  have hkeep : ∀ p ∈ m.placed 0 (before ++ [a]), ∀ j < p.2.word.length,
      (∀ r ∈ p.2.references, r.1 = a.instruction → ¬Covered r.2 j) →
      bits[p.1 + j]? = (extended m before a v word)[p.1 + j]? := fun p hp j hj hother =>
    hframe _ (not_covered_referring hprogram hindexed hp hj hother)
  have hold : ∀ p ∈ m.placed 0 before, ∀ j < p.2.word.length,
      (extended m before a v word)[p.1 + j]? = v.bits[p.1 + j]? := by
    intro p hp j hj
    have := placed_bounds p hp
    exact extended_before himage.length (by omega)
  have hcases : ∀ p ∈ m.placed 0 (before ++ [a]), p ∈ m.placed 0 before ∨
      p = (m.firstPosition a.instruction (m.imageEnd 0 before), a) := by
    intro p hp
    simpa [placed_snoc] using hp
  constructor
  case length => exact hbitsLength.trans hlength
  case references => rfl
  case boundaries => exact hpoints
  case addresses =>
    intro X
    by_cases hX : X = a.instruction
    · simp [hX, start_append, himage.addresses, hnone]
    · have hX' : a.instruction ≠ X := Ne.symm hX
      simp [hX, start_append, himage.addresses, hX']
  case fixed =>
    intro p hp r hr s hs
    by_cases hX : r.1 = a.instruction
    · have hfirst : s = m.firstPosition a.instruction (m.imageEnd 0 before) := by
        rw [hX, start_append, hnone] at hs
        simpa using hs.symm
      exact hfirst ▸ hread p hp r hr hX
    have hs' : m.start before r.1 = some s := by
      have hX' : a.instruction ≠ r.1 := Ne.symm hX
      simpa [start_append, hX'] using hs
    have href := hprogram.references _ (mem_of_placed hp) r hr
    -- the references of one word do not share bits
    have hsame : ∀ j, Covered r.2 j → bits[p.1 + j]? = (extended m before a v word)[p.1 + j]? := by
      intro j hj
      refine hkeep p hp j (href.covered_lt hj) fun r' hr' heq' hj' => ?_
      have hsymm : Std.Symm fun r r' : I × IndexBoundTable => Apart r.2 r'.2 := ⟨fun _ _ h j hj => h j hj.symm⟩
      have hne : r ≠ r' := fun h => hX (h ▸ heq')
      exact (hprogram.apart _ (mem_of_placed hp)).forall hr hr' hne j ⟨hj, hj'⟩
    rcases hcases p hp with hp' | rfl
    · refine (himage.fixed p hp' r hr s hs').congr href fun j hj => ?_
      rw [hsame j hj, hold p hp' j (href.covered_lt hj)]
    · have hnew : ReadsBack (extended m before a v word) (m.firstPosition a.instruction (m.imageEnd 0 before)) r.2
          (m.address s) := by
        refine ⟨(hwordRead r hr s hs').1, fun k j hj => ?_⟩
        rw [extended_word himage.length]
        simpa using (hwordRead r hr s hs').2 k j hj
      exact hnew.congr href hsame
  case supplied =>
    intro p hp j hj hother
    have hbit := hkeep p hp j hj fun r hr hX => hother r hr (by simp [hX, start_append, hnone])
    have hother' : ∀ r ∈ p.2.references, (m.start before r.1).isSome → ¬Covered r.2 j := by
      intro r hr hsome
      obtain ⟨s, hs⟩ := Option.isSome_iff_exists.mp hsome
      exact hother r hr (by simp [start_append_of_some hs])
    rcases hcases p hp with hp' | rfl
    · rw [hbit, hold p hp' j hj, himage.supplied p hp' j hj hother']
    · rw [hbit, extended_word himage.length, hwordFrame j hother']
  case padding =>
    intro i hi hout
    have hframe' : bits[i]? = (extended m before a v word)[i]? := by
      refine hframe i fun k hk hcov => ?_
      obtain ⟨p, hp, r, hr, _, rfl⟩ := mem_referring.mp hk
      obtain ⟨j, hj, _, rfl⟩ := (covered_moved hprogram hindexed hp hr).mp hcov
      exact hout p hp (by omega)
    have hlast := hout (m.firstPosition a.instruction (m.imageEnd 0 before), a) (by simp [placed_snoc])
    rw [hframe']
    by_cases hbefore : i < m.imageEnd 0 before
    · rw [extended_before himage.length hbefore]
      refine himage.padding i (himage.length ▸ hbefore) fun p hp => hout p ?_
      simp [placed_snoc, hp]
    · refine extended_gap himage.length (by omega) ?_
      rw [hbitsLength, hlength, imageEnd_snoc] at hi
      simp only at hlast
      omega

end Step

section Run
variable {added : List (Added I)} {v : InstructionBitVector I}

theorem image_empty : m.Image [] .empty where
  length := rfl
  references := rfl
  addresses := fun _ => rfl
  boundaries := fun _ => by simp [InstructionBitVector.empty, placed]
  fixed := by simp [placed]
  supplied := by simp [placed]
  padding := by simp [InstructionBitVector.empty]

theorem addInstructions_snoc (before : List (Added I)) (a : Added I) :
    m.addInstructions (before ++ [a]) = (m.addInstructions before).bind fun v => m.addInstruction v a := by
  simp only [addInstructions, List.foldlM_append, List.foldlM_cons, List.foldlM_nil, bind_pure]
  rfl

theorem addInstructions_ok (hprogram : Program added) (hencodable : m.Encodable added) :
    (m.addInstructions added = .error .outOfRange ∧ m.Overflows added) ∨
      ∃ v, m.addInstructions added = .ok v ∧ m.Image added v := by
  induction added using List.reverseRecOn with
  | nil => exact .inr ⟨.empty, rfl, image_empty⟩
  | append_singleton before a ih =>
    rw [addInstructions_snoc]
    rcases ih hprogram.init hencodable.init with ⟨herr, hover⟩ | ⟨v, hv, himage⟩
    · exact .inl ⟨by rw [herr]; rfl, hover.mono⟩
    · rw [hv]
      exact addInstruction_ok hprogram hencodable himage

omit [DecidableEq I] in
theorem mau_dvd_programBits (v : InstructionBitVector I) : m.mau ∣ (m.programBits v).length := by
  have hlt := Nat.mod_lt v.bits.length m.mau_pos
  have hsplit := Nat.div_add_mod v.bits.length m.mau
  simp only [programBits, List.length_append, List.length_replicate]
  split
  next hfull =>
    have hzero : v.bits.length % m.mau = 0 := by omega
    exact Nat.dvd_of_mod_eq_zero hzero
  next =>
    have hunits : v.bits.length + (m.mau - v.bits.length % m.mau) = m.mau * (v.bits.length / m.mau) + m.mau := by
      omega
    rw [hunits]
    exact Nat.dvd_add (Nat.dvd_mul_right _ _) (Nat.dvd_refl _)

omit [DecidableEq I] in
theorem programBits_getElem? {i : Nat} (hi : i < v.bits.length) : (m.programBits v)[i]? = v.bits[i]? := by
  rw [programBits, List.getElem?_append_left hi]

omit [DecidableEq I] in
theorem programBits_padding {i : Nat} (hle : v.bits.length ≤ i) (hi : i < (m.programBits v).length) :
    (m.programBits v)[i]? = some false := by
  simp only [programBits, List.length_append, List.length_replicate] at hi
  rw [programBits, List.getElem?_append_right hle, List.getElem?_replicate, if_pos (by omega)]

theorem programBits_encodes (hprogram : Program added) (himage : m.Image added v) :
    m.Encodes added (m.programBits v) where
  divisible := mau_dvd_programBits v
  fixed := by
    intro p hp r hr s hs
    have href := hprogram.references _ (mem_of_placed hp) r hr
    have hend := placed_bounds p hp
    refine (himage.fixed p hp r hr s hs).congr href fun j hj => programBits_getElem? ?_
    have := href.covered_lt hj
    have := himage.length
    omega
  supplied := by
    intro p hp j hj hother
    have hend := placed_bounds p hp
    have := himage.length
    rw [programBits_getElem? (by omega)]
    exact himage.supplied p hp j hj fun r hr _ => hother r hr
  padding := by
    intro i hi hout
    by_cases hin : i < v.bits.length
    · rw [programBits_getElem? hin]
      exact himage.padding i hin hout
    · exact programBits_padding (Nat.le_of_not_lt hin) hi

/-- References are right in every image whose addresses can be written where they belong. -/
theorem correct_of_encodable (hprogram : Program added) (hencodable : m.Encodable added) : m.Correct added := by
  rcases addInstructions_ok hprogram hencodable with ⟨herr, hover⟩ | ⟨v, hv, himage⟩
  · exact .inl ⟨herr, hover⟩
  · exact .inr ⟨v, hv, programBits_encodes hprogram himage, himage.boundaries⟩

end Run

def short (slotStartIndex slotEndIndex : Nat) : IndexBound := ⟨slotStartIndex, slotEndIndex, false, 0, 0, 0⟩

omit [DecidableEq I] in
theorem reference_short {slotStartIndex slotEndIndex length : Nat} (hle : slotStartIndex ≤ slotEndIndex)
    (hlt : slotEndIndex < length) : Reference [short slotStartIndex slotEndIndex] length where
  nonempty := by simp
  bounds := by simpa [short] using ⟨hle, hlt⟩
  disjoint := by simp
  parts := .inl (by simp [short])

/-- A word of 4 bits that refers to an earlier one from its first bit on. -/
def firstBitWord : List (Added Bool) :=
  [⟨false, List.replicate 4 true, []⟩, ⟨true, List.replicate 4 true, [(false, [short 0 3])]⟩]

/-- The index of the slot goes below 0, on to the last unsigned index. -/
theorem not_correct : ¬∀ (m : ImageLayout Bool) (added : List (Added Bool)), Program added → m.Correct added := by
  intro h
  have hprogram : Program firstBitWord := by
    refine ⟨by decide, ?_, by simp [firstBitWord]⟩
    simp only [firstBitWord, List.mem_cons, List.not_mem_nil, or_false, forall_eq_or_imp, forall_eq, false_implies,
      implies_true, true_and]
    exact reference_short (by omega) (by simp)
  have hfault : (⟨4, 0, fun _ => false, by decide⟩ : ImageLayout Bool).addInstructions firstBitWord =
      .error .fault := by rfl
  rcases h ⟨4, 0, fun _ => false, by decide⟩ firstBitWord hprogram with ⟨herr, _⟩ | ⟨v, hv, _⟩
  · rw [hfault] at herr
    cases herr
  · rw [hfault] at hv
    cases hv

omit [DecidableEq I] in
theorem fits_of_lt {t : IndexBoundTable} {value width : Nat} (hlt : value < 2 ^ width)
    (hlocation : ∀ k < width, (location t k).isSome) : Fits t value := by
  intro k hk
  by_cases hwidth : k < width
  · have := hlocation k hwidth
    simp [hk] at this
  · exact Nat.testBit_lt_two_pow (Nat.lt_of_lt_of_le hlt (Nat.pow_le_pow_right (by omega) (by omega)))

/-- A word that refers to itself and forward, and one that refers back with a long
immediate in two slots. -/
def twoWords : List (Added Bool) :=
  [⟨false, List.replicate 8 true, [(true, [short 1 3]), (false, [short 5 7])]⟩,
    ⟨true, List.replicate 8 true, [(false, [⟨1, 3, true, 2, 3, 2⟩, ⟨5, 7, true, 2, 1, 0⟩])]⟩]

def twoWordsLayout : ImageLayout Bool := ⟨4, 1, fun _ => true, by decide⟩

theorem program_twoWords : Program twoWords where
  once := by decide
  references := by
    have long : Reference [⟨1, 3, true, 2, 3, 2⟩, ⟨5, 7, true, 2, 1, 0⟩] 8 := by
      refine ⟨by simp, by simp, ?_, .inr (by simp [IndexBound.slotWidth])⟩
      simp only [List.pairwise_cons, List.mem_singleton, forall_eq, List.not_mem_nil, false_implies, implies_true,
        List.Pairwise.nil, and_true, IndexBound.Covers]
      omega
    simp only [twoWords, List.mem_cons, List.not_mem_nil, or_false, forall_eq_or_imp, forall_eq, List.length_replicate]
    exact ⟨⟨reference_short (by omega) (by omega), reference_short (by omega) (by omega)⟩, long⟩
  apart := by
    simp only [twoWords, List.mem_cons, List.not_mem_nil, or_false, forall_eq_or_imp, forall_eq, List.pairwise_cons,
      false_implies, implies_true, List.Pairwise.nil, and_true, Apart, Covered, exists_eq_left, IndexBound.Covers, short]
    omega

theorem encodable_twoWords : twoWordsLayout.Encodable twoWords where
  indexed := by unfold Indexed; decide
  positions := by decide
  fixable := by
    intro before a after heq r hr s hs _
    have ha : a ∈ twoWords := heq ▸ by simp
    have hstart : ∀ a ∈ twoWords, ∀ r ∈ a.references, ∀ b ∈ r.2, 0 < b.slotStartIndex := by decide
    have hword : ∀ a ∈ twoWords, ∀ r ∈ a.references, ∀ b ∈ r.2,
        if b.isLimmEncoded then b.limmLeftIndex < 32 else availableSize r.2 ≤ 32 := by decide
    have hlocation : ∀ a ∈ twoWords, ∀ r ∈ a.references, ∀ k < 3, (location r.2 k).isSome := by decide
    have haddress : ∀ X, (twoWordsLayout.start twoWords X).all (twoWordsLayout.address · < 2 ^ 3) := by decide
    constructor
    case start => exact fun b hb => Nat.add_pos_right _ (hstart a ha r hr b hb)
    case word =>
      intro b hb
      have := hword a ha r hr b hb
      split <;> simp_all
    case fits =>
      have := haddress r.1
      rw [hs] at this
      exact fits_of_lt (by simpa using this) (hlocation a ha r hr)

theorem correct_twoWords : twoWordsLayout.Correct twoWords :=
  correct_of_encodable program_twoWords encodable_twoWords

end ImageLayout

end Tce.PIG
