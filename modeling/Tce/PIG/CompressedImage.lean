import Tce.Base.MapM
import Tce.PIG.DictionaryCompression
import Tce.PIG.ImageRuns

/-!
# Images of compressed programs

Every compressed instruction has a memory unit of its own, so that the number of an
instruction is its address in the program. It can be decompressed from its unit when
the compressor and the decompressor agree on it.
-/

namespace Tce.PIG

namespace ImageLayout
variable {I : Type} {m : ImageLayout I}

theorem firstPosition_unit {instruction : I} (hstart : m.startsAtBeginningOfMAU instruction = true) {length k : Nat}
    (hle : length ≤ k * m.mau) (hlt : k * m.mau < length + m.mau) : m.firstPosition instruction length = k * m.mau := by
  have hmod := Nat.mod_lt length m.mau_pos
  have hsplit := Nat.div_add_mod length m.mau
  rw [Nat.mul_comm] at hsplit
  have hsucc : (length / m.mau + 1) * m.mau = length / m.mau * m.mau + m.mau := Nat.succ_mul _ _
  simp only [firstPosition, hstart, ne_eq, true_and]
  by_cases hzero : length % m.mau = 0
  · have hq : length / m.mau * m.mau ≤ k * m.mau := by omega
    have hk : k * m.mau < (length / m.mau + 1) * m.mau := by omega
    have := Nat.le_of_mul_le_mul_right hq m.mau_pos
    have := Nat.lt_of_mul_lt_mul_right hk
    have heq : length / m.mau = k := by omega
    rw [if_neg (by simp [hzero]), ← heq]
    omega
  · have hq : length / m.mau * m.mau < k * m.mau := by omega
    have hk : k * m.mau < (length / m.mau + 1 + 1) * m.mau := by
      rw [Nat.succ_mul]
      omega
    have := Nat.lt_of_mul_lt_mul_right hq
    have := Nat.lt_of_mul_lt_mul_right hk
    have heq : length / m.mau + 1 = k := by omega
    rw [if_pos hzero, ← heq]
    omega

end ImageLayout

namespace Compressor
variable {c : Compressor} {addressSpaceOffset : Nat} {h : 0 < c.mau}

/-- Each instruction has some bits, but no more than a unit. -/
def Units (c : Compressor) (compressed : List (List Bool)) : Prop :=
  ∀ bits ∈ compressed, 0 < bits.length ∧ bits.length ≤ c.mau

theorem placed_numbered {compressed : List (List Bool)} (hunits : c.Units compressed) :
    ∀ {k length : Nat}, length ≤ k * c.mau → k * c.mau < length + c.mau →
      (c.layout addressSpaceOffset h).placed length ((compressed.zipIdx k).map fun p => ⟨p.2, p.1, []⟩) =
        (compressed.zipIdx k).map (fun p => (p.2 * c.mau, ⟨p.2, p.1, []⟩)) ∧
      (c.layout addressSpaceOffset h).imageEnd length ((compressed.zipIdx k).map fun p => ⟨p.2, p.1, []⟩) ≤
        (k + compressed.length) * c.mau ∧
      (k + compressed.length) * c.mau <
        (c.layout addressSpaceOffset h).imageEnd length ((compressed.zipIdx k).map fun p => ⟨p.2, p.1, []⟩) + c.mau := by
  induction compressed with
  | nil =>
    intro k length hle hlt
    exact ⟨rfl, by simpa [ImageLayout.imageEnd] using hle, by simpa [ImageLayout.imageEnd] using hlt⟩
  | cons bits compressed ih =>
    intro k length hle hlt
    obtain ⟨hpos, hmau⟩ := hunits bits List.mem_cons_self
    have hfirst : (c.layout addressSpaceOffset h).firstPosition k length = k * c.mau :=
      ImageLayout.firstPosition_unit rfl hle hlt
    have hsucc : (k + 1) * c.mau = k * c.mau + c.mau := Nat.succ_mul _ _
    have hcount : k + 1 + compressed.length = k + (bits :: compressed).length := by
      simp only [List.length_cons]
      omega
    have hunits' : c.Units compressed := fun b hb => hunits b (List.mem_cons_of_mem _ hb)
    have hrest := @ih hunits' (k + 1) (k * c.mau + bits.length) (by omega) (by omega)
    rw [hcount] at hrest
    simp only [List.zipIdx_cons, List.map_cons, ImageLayout.placed, ImageLayout.imageEnd, hfirst]
    exact ⟨congrArg _ hrest.1, hrest.2⟩

/-- Every compressed instruction starts a unit of its own and can be decompressed from it. -/
structure Decompresses (c : Compressor) (addressSpaceOffset : Nat) (program : List (List Bool)) (h : 0 < c.mau)
    (v : InstructionBitVector Nat) : Prop where
  length : ((c.layout addressSpaceOffset h).programBits v).length = program.length * c.mau
  starts : ∀ n < program.length, n * c.mau ∈ v.instructionBoundaries
  addresses : ∀ n < program.length, (v.instructionAddresses n).map (·.toNat) = some (addressSpaceOffset + n)
  decompressed : ∀ n bits, program[n]? = some bits →
    c.decompress ((((c.layout addressSpaceOffset h).programBits v).drop (n * c.mau)).take c.mau) = some bits

def Lossless (c : Compressor) (addressSpaceOffset : Nat) (program : List (List Bool)) : Prop :=
  ∃ h v, c.addInstructions addressSpaceOffset program = some v ∧ c.Decompresses addressSpaceOffset program h v

/-- The last unit and its address have indices of 32 bits. -/
def InMemory (mau addressSpaceOffset count : Nat) : Prop :=
  ∀ n < count, n * mau < 2 ^ 32 ∧ addressSpaceOffset + n < 2 ^ 32

/-- The unit of a compressed instruction. -/
def padded (c : Compressor) (bits : List Bool) : List Bool := bits ++ List.replicate (c.mau - bits.length) false

theorem length_programBits_lt {m : ImageLayout Nat} (v : InstructionBitVector Nat) :
    v.bits.length ≤ (m.programBits v).length ∧ (m.programBits v).length < v.bits.length + m.mau := by
  have hpos := m.mau_pos
  simp only [ImageLayout.programBits, List.length_append, List.length_replicate]
  split <;> omega

section Units
variable {compressed : List (List Bool)}

theorem program_numbered (compressed : List (List Bool)) : Program (numbered compressed) where
  once := by
    have hmap : (numbered compressed).map (·.instruction) = List.range' 0 compressed.length := by
      rw [numbered, List.map_map]
      exact List.zipIdx_map_snd 0 compressed
    rw [hmap]
    exact List.nodup_range'
  references := by
    intro a ha r hr
    obtain ⟨p, _, rfl⟩ := List.mem_map.mp ha
    simp at hr
  apart := by
    intro a ha
    obtain ⟨p, _, rfl⟩ := List.mem_map.mp ha
    exact .nil

variable (hunits : c.Units compressed)
include hunits

theorem placed_eq : (c.layout addressSpaceOffset h).placed 0 (numbered compressed) =
    compressed.zipIdx.map fun p => (p.2 * c.mau, ⟨p.2, p.1, []⟩) :=
  (placed_numbered hunits (k := 0) (Nat.zero_le _) (by omega)).1

theorem mem_placed {p : Nat × Added Nat} : p ∈ (c.layout addressSpaceOffset h).placed 0 (numbered compressed) ↔
    ∃ n bits, compressed[n]? = some bits ∧ p = (n * c.mau, ⟨n, bits, []⟩) := by
  rw [placed_eq hunits, List.mem_map]
  constructor
  · rintro ⟨⟨bits, n⟩, hmem, rfl⟩
    exact ⟨n, bits, List.mem_zipIdx_iff_getElem?.mp hmem, rfl⟩
  · rintro ⟨n, bits, hget, rfl⟩
    exact ⟨(bits, n), List.mem_zipIdx_iff_getElem?.mpr hget, rfl⟩

theorem start_eq {n : Nat} (hn : n < compressed.length) :
    (c.layout addressSpaceOffset h).start (numbered compressed) n = some (n * c.mau) := by
  have hsome : ((c.layout addressSpaceOffset h).start (numbered compressed) n).isSome := by
    rw [ImageLayout.start, Option.isSome_map, List.find?_isSome]
    exact ⟨_, (mem_placed hunits).mpr ⟨n, compressed[n], List.getElem?_eq_getElem hn, rfl⟩, by simp⟩
  obtain ⟨s, hs⟩ := Option.isSome_iff_exists.mp hsome
  obtain ⟨p, hp, hn', rfl⟩ := ImageLayout.start_eq_some hs
  obtain ⟨k, bits, _, rfl⟩ := (mem_placed hunits).mp hp
  rw [hs, ← hn']

theorem encodable_numbered (hmemory : InMemory c.mau addressSpaceOffset compressed.length) :
    (c.layout addressSpaceOffset h).Encodable (numbered compressed) where
  indexed := by
    intro p hp hne
    obtain ⟨n, bits, _, rfl⟩ := (mem_placed hunits).mp hp
    exact absurd rfl hne
  positions := by
    intro p hp
    obtain ⟨n, bits, hget, rfl⟩ := (mem_placed hunits).mp hp
    have hn := hmemory n (List.getElem?_eq_some_iff.mp hget).1
    have hdiv : n * c.mau / c.mau = n := Nat.mul_div_cancel n h
    exact ⟨hn.1, by simpa [ImageLayout.address, layout, hdiv] using hn.2⟩
  fixable := by
    intro before a after heq r hr
    have ha : a ∈ numbered compressed := heq ▸ by simp
    obtain ⟨p, _, rfl⟩ := List.mem_map.mp ha
    simp at hr

/-- The image of a program whose instructions are compressed so. -/
theorem addInstructions_units (hmemory : InMemory c.mau addressSpaceOffset compressed.length) :
    ∃ v, (c.layout addressSpaceOffset h).addInstructions (numbered compressed) = .ok v ∧
      ((c.layout addressSpaceOffset h).programBits v).length = compressed.length * c.mau ∧
      (∀ n < compressed.length, n * c.mau ∈ v.instructionBoundaries) ∧
      (∀ n < compressed.length, (v.instructionAddresses n).map (·.toNat) = some (addressSpaceOffset + n)) ∧
      ∀ n bits, compressed[n]? = some bits →
        (((c.layout addressSpaceOffset h).programBits v).drop (n * c.mau)).take c.mau = c.padded bits := by
  have hprogram := program_numbered compressed
  have hencodable := encodable_numbered (h := h) hunits hmemory
  rcases ImageLayout.addInstructions_ok hprogram hencodable with ⟨_, a, ha, r, hr, _⟩ | ⟨v, hv, himage⟩
  · obtain ⟨p, _, rfl⟩ := List.mem_map.mp ha
    simp at hr
  have hencodes := ImageLayout.programBits_encodes hprogram himage
  have hplaced := (@placed_numbered _ addressSpaceOffset h _ hunits 0 0 (Nat.zero_le _) (by omega)).2
  have hlength : ((c.layout addressSpaceOffset h).programBits v).length = compressed.length * c.mau := by
    obtain ⟨q, hq⟩ := hencodes.divisible
    obtain ⟨hle, hlt⟩ := length_programBits_lt (m := c.layout addressSpaceOffset h) v
    have hend := himage.length
    have hmau : (c.layout addressSpaceOffset h).mau = c.mau := rfl
    rw [numbered] at hend
    rw [hmau, Nat.mul_comm] at hq
    rw [Nat.zero_add] at hplaced
    have hq' : q * c.mau < (compressed.length + 1) * c.mau := by
      rw [Nat.succ_mul]
      omega
    have hn' : compressed.length * c.mau < (q + 1) * c.mau := by
      rw [Nat.succ_mul]
      omega
    have := Nat.lt_of_mul_lt_mul_right hq'
    have := Nat.lt_of_mul_lt_mul_right hn'
    have heq : q = compressed.length := by omega
    rw [hq, heq]
  refine ⟨v, hv, hlength, fun n hn => ?_, fun n hn => ?_, fun n bits hget => ?_⟩
  · have hmem : (n * c.mau, ⟨n, compressed[n], []⟩) ∈ (c.layout addressSpaceOffset h).placed 0 (numbered compressed) :=
      (mem_placed hunits).mpr ⟨n, compressed[n], List.getElem?_eq_getElem hn, rfl⟩
    exact (himage.boundaries _).mpr (List.mem_map_of_mem hmem)
  · have hstart : (c.layout addressSpaceOffset h).start (numbered compressed) n = some (n * c.mau) :=
      start_eq hunits hn
    have haddress := ImageLayout.memoryAddress_toNat (hencodable.address_lt hstart)
    have hdiv : n * c.mau / c.mau = n := Nat.mul_div_cancel n h
    rw [himage.addresses, hstart, Option.map_some, Option.map_some, haddress]
    simp only [ImageLayout.address, layout, hdiv]
  · have hmem : (n * c.mau, ⟨n, bits, []⟩) ∈ (c.layout addressSpaceOffset h).placed 0 (numbered compressed) :=
      (mem_placed hunits).mpr ⟨n, bits, hget, rfl⟩
    obtain ⟨hn, hbits⟩ := List.getElem?_eq_some_iff.mp hget
    obtain ⟨_, hmau⟩ := hunits bits (hbits ▸ List.getElem_mem hn)
    apply List.ext_getElem?
    intro i
    rw [padded, List.getElem?_take]
    split
    next hi =>
      rw [List.getElem?_drop]
      by_cases hin : i < bits.length
      · rw [List.getElem?_append_left hin]
        exact hencodes.supplied _ hmem i hin (by simp)
      · have hpad : i - bits.length < c.mau - bits.length := by omega
        rw [List.getElem?_append_right (Nat.le_of_not_lt hin), List.getElem?_replicate, if_pos hpad]
        have hsucc : (n + 1) * c.mau ≤ compressed.length * c.mau := Nat.mul_le_mul_right _ hn
        rw [Nat.succ_mul] at hsucc
        refine hencodes.padding _ (by omega) fun p hp hrange => ?_
        obtain ⟨k, bits', hget', rfl⟩ := (mem_placed hunits).mp hp
        -- a word in another unit ends before this one or starts after it
        obtain ⟨hk, hbits'⟩ := List.getElem?_eq_some_iff.mp hget'
        obtain ⟨_, hmau'⟩ := hunits bits' (hbits' ▸ List.getElem_mem hk)
        simp only at hrange
        have hlow : k * c.mau < (n + 1) * c.mau := by
          rw [Nat.succ_mul]
          omega
        have hhigh : n * c.mau < (k + 1) * c.mau := by
          rw [Nat.succ_mul]
          omega
        have := Nat.lt_of_mul_lt_mul_right hlow
        have := Nat.lt_of_mul_lt_mul_right hhigh
        have heq : k = n := by omega
        subst heq
        have : bits' = bits := Option.some.inj (hget'.symm.trans hget)
        subst this
        omega
    next hi =>
      refine (List.getElem?_eq_none ?_).symm
      simp only [List.length_append, List.length_replicate]
      omega

end Units

/-- What a compressor must do with a word: its compressed bits fit in a unit, from which the
decompressor has the word again. -/
def Restores (c : Compressor) (bits : List Bool) : Prop :=
  ∃ compressed, c.compress bits = some compressed ∧ c.decompress (c.padded compressed) = some bits

/-- No marked position is outside 32 bits. -/
theorem addInstruction_boundaries {m : ImageLayout Nat} {a : Added Nat} {v v' : InstructionBitVector Nat}
    (h : m.addInstruction v a = .ok v') :
    ∀ x ∈ v'.instructionBoundaries, x ∈ v.instructionBoundaries ∨ x < 2 ^ 32 := by
  have hposition : m.instructionPosition a.instruction (v.bits.length % 2 ^ 32) < 2 ^ 32 := by
    simp only [ImageLayout.instructionPosition, ImageLayout.nextAddressablePositionFrom]
    split
    · split <;> exact Nat.mod_lt _ (by omega)
    · exact Nat.mod_lt _ (by omega)
  obtain ⟨points, hpoints, hmem⟩ := ImageLayout.markInstructionStartingPoint_ok (I := Nat) v.instructionBoundaries
    (m.instructionPosition a.instruction (v.bits.length % 2 ^ 32))
  simp only [ImageLayout.addInstruction, InstructionBitVector.pushBack, bind, Except.bind, pure, Except.pure] at h
  split at h
  next => cases h
  next v₁ hv₁ =>
    split at hv₁
    next => cases hv₁
    next =>
      cases hv₁
      simp only [hpoints, InstructionBitVector.fixInstructionAddress, bind, Except.bind, pure, Except.pure] at h
      split at h
      next => cases h
      next =>
        cases h
        intro x hx
        rcases (hmem x).mp hx with rfl | hx
        · exact .inr hposition
        · exact .inl hx

theorem addInstructions_boundaries {m : ImageLayout Nat} {added : List (Added Nat)} :
    ∀ {v : InstructionBitVector Nat}, m.addInstructions added = .ok v → ∀ x ∈ v.instructionBoundaries, x < 2 ^ 32 := by
  induction added using List.reverseRecOn with
  | nil =>
    intro v h
    cases h
    simp [InstructionBitVector.empty]
  | append_singleton before a ih =>
    intro v h x hx
    rw [ImageLayout.addInstructions_snoc] at h
    cases hv : m.addInstructions before with
    | error e =>
      rw [hv] at h
      cases h
    | ok v₁ =>
      rw [hv] at h
      rcases addInstruction_boundaries h x hx with hx | hx
      · exact ih hv x hx
      · exact hx

theorem inMemory_of_lossless {program : List (List Bool)} (h : c.Lossless addressSpaceOffset program) :
    InMemory c.mau addressSpaceOffset program.length := by
  obtain ⟨hmau, v, hv, hdecompresses⟩ := h
  simp only [addInstructions, hmau, ↓reduceDIte, Option.bind_eq_bind, Option.bind_eq_some_iff] at hv
  obtain ⟨compressed, _, hv⟩ := hv
  have hok : (c.layout addressSpaceOffset hmau).addInstructions (numbered compressed) = .ok v := by
    cases hr : (c.layout addressSpaceOffset hmau).addInstructions (numbered compressed) with
    | error e => simp [hr, Except.toOption] at hv
    | ok v' => simpa [hr, Except.toOption] using hv
  intro n hn
  refine ⟨addInstructions_boundaries hok _ (hdecompresses.starts n hn), ?_⟩
  obtain ⟨address, _, haddress⟩ := Option.map_eq_some_iff.mp (hdecompresses.addresses n hn)
  exact haddress ▸ address.isLt

/-- A program survives when each of its words does and its image has 32 bit addresses. -/
theorem lossless_iff {program : List (List Bool)} (hsized : ∀ bits ∈ program, ∀ compressed,
    c.compress bits = some compressed → 0 < compressed.length ∧ compressed.length ≤ c.mau) (hprogram : program ≠ []) :
    c.Lossless addressSpaceOffset program ↔
      (∀ bits ∈ program, c.Restores bits) ∧ InMemory c.mau addressSpaceOffset program.length := by
  have himage : ∀ {compressed}, program.mapM c.compress = some compressed →
      InMemory c.mau addressSpaceOffset program.length → c.Units compressed ∧
      InMemory c.mau addressSpaceOffset compressed.length := by
    intro compressed hcompressed hmemory
    refine ⟨fun b hb => ?_, (MapM.getElem?_of_mapM hcompressed (n := 0)).2 ▸ hmemory⟩
    obtain ⟨bits, hmem, hbits⟩ := (MapM.mem_of_mapM hcompressed b).mp hb
    exact hsized bits hmem b hbits
  constructor
  · intro h
    have hmemory := inMemory_of_lossless h
    refine ⟨fun bits hbits => ?_, hmemory⟩
    obtain ⟨hmau, v, hv, hdecompresses⟩ := h
    simp only [addInstructions, hmau, ↓reduceDIte, Option.bind_eq_bind, Option.bind_eq_some_iff] at hv
    obtain ⟨compressed, hcompressed, hv⟩ := hv
    obtain ⟨hunits, hmemory'⟩ := himage hcompressed hmemory
    obtain ⟨v', hv', _, _, _, hunit⟩ := addInstructions_units (h := hmau) hunits hmemory'
    obtain rfl : v' = v := by simpa [hv', Except.toOption] using hv
    obtain ⟨n, hn, rfl⟩ := List.getElem_of_mem hbits
    obtain ⟨b, hb, hcompress⟩ := (MapM.getElem?_of_mapM hcompressed).1 _ (List.getElem?_eq_getElem hn)
    have := hdecompresses.decompressed n _ (List.getElem?_eq_getElem hn)
    rw [hunit n b hb] at this
    exact ⟨b, hcompress, this⟩
  · rintro ⟨hrestores, hmemory⟩
    have hsome : (program.mapM c.compress).isSome := by
      refine MapM.mapM_isSome_iff.mpr fun bits hbits => ?_
      obtain ⟨b, hb, _⟩ := hrestores bits hbits
      simp [hb]
    obtain ⟨compressed, hcompressed⟩ := Option.isSome_iff_exists.mp hsome
    obtain ⟨hunits, hmemory'⟩ := himage hcompressed hmemory
    have hmau : 0 < c.mau := by
      obtain ⟨bits, rest, rfl⟩ := List.exists_cons_of_ne_nil hprogram
      obtain ⟨b, hb, _⟩ := hrestores bits List.mem_cons_self
      have := hsized bits List.mem_cons_self b hb
      omega
    obtain ⟨v, hv, hlength, hstarts, haddresses, hunit⟩ := addInstructions_units (h := hmau) hunits hmemory'
    have hcount := (MapM.getElem?_of_mapM hcompressed (n := 0)).2
    refine ⟨hmau, v, by simp [addInstructions, hmau, hcompressed, hv, Except.toOption], ?_⟩
    refine ⟨hcount ▸ hlength, hcount ▸ hstarts, hcount ▸ haddresses, fun n bits hbits => ?_⟩
    obtain ⟨b, hb, hcompress⟩ := (MapM.getElem?_of_mapM hcompressed).1 _ hbits
    obtain ⟨b', hb', hdecompress⟩ := hrestores bits (List.mem_of_getElem? hbits)
    obtain rfl : b' = b := Option.some.inj (hb'.symm.trans hcompress)
    rw [hunit n b' hb]
    exact hdecompress

end Compressor

end Tce.PIG
