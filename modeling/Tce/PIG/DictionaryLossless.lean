import Tce.PIG.CompressedImage

/-!
# Dictionary compression without loss

The cut of a word into move slots starts after the control fields and takes the slots
to follow each other up to the end of the word. The decompressor gives back the bits
that were cut, which is the whole word only if it has no immediate slots, and no
destination register fields without a control field.
-/

namespace Tce.PIG

namespace BinaryEncoding
variable {bem : BinaryEncoding}

theorem sum_widths (fields : List InstructionField) :
    (fields.map (·.width)).sum = (fields.filterMap (·.controlWidth)).sum + (fields.filterMap (·.registerWidth)).sum +
      (fields.filterMap (·.immediateSlotWidth)).sum + (fields.filterMap (·.moveSlotWidth)).sum := by
  induction fields with
  | nil => rfl
  | cons field fields ih =>
    rw [List.map_cons, List.sum_cons, ih]
    cases field <;>
      simp [InstructionField.width, InstructionField.controlWidth, InstructionField.registerWidth,
        InstructionField.immediateSlotWidth, InstructionField.moveSlotWidth] <;>
      omega

/-- The part of a word from the first move slot on is made of the move slots. -/
structure WholeWord (bem : BinaryEncoding) : Prop where
  immediateSlots : ∀ name width, .immediateSlotField name width ∈ bem.childFields → width = 0
  registerFields : bem.immediateControlField ≠ none ∨
    ∀ width destinationMap, .lImmDstRegisterField width destinationMap ∈ bem.childFields → width = 0
  moveSlots : ∀ width ∈ bem.moveSlots, 0 < width
  bits : 0 < bem.width

theorem sum_immediateSlots : (bem.childFields.filterMap (·.immediateSlotWidth)).sum = 0 ↔
    ∀ name width, .immediateSlotField name width ∈ bem.childFields → width = 0 := by
  rw [List.sum_eq_zero_iff_forall_eq_nat]
  constructor
  · intro h name width hmem
    exact h width (List.mem_filterMap.mpr ⟨_, hmem, rfl⟩)
  · intro h width hmem
    obtain ⟨field, hfield, hwidth⟩ := List.mem_filterMap.mp hmem
    cases field with
    | immediateSlotField name w => exact Option.some.inj hwidth ▸ h name w hfield
    | immediateControlField => cases hwidth
    | moveSlot => cases hwidth
    | lImmDstRegisterField => cases hwidth

theorem sum_registerFields : (bem.childFields.filterMap (·.registerWidth)).sum = 0 ↔
    ∀ width destinationMap, .lImmDstRegisterField width destinationMap ∈ bem.childFields → width = 0 := by
  rw [List.sum_eq_zero_iff_forall_eq_nat]
  constructor
  · intro h width destinationMap hmem
    exact h width (List.mem_filterMap.mpr ⟨_, hmem, rfl⟩)
  · intro h width hmem
    obtain ⟨field, hfield, hwidth⟩ := List.mem_filterMap.mp hmem
    cases field with
    | lImmDstRegisterField w destinationMap => exact Option.some.inj hwidth ▸ h w destinationMap hfield
    | immediateControlField => cases hwidth
    | moveSlot => cases hwidth
    | immediateSlotField => cases hwidth

/-- The bits that are neither copied nor cut: immediate slots, and register fields that are not counted. -/
theorem width_eq (bem : BinaryEncoding) : bem.width = bem.firstMoveSlotIndex + bem.moveSlots.sum +
    (bem.childFields.filterMap (·.immediateSlotWidth)).sum +
    if bem.immediateControlField = none then (bem.childFields.filterMap (·.registerWidth)).sum else 0 := by
  have hslots := bem.slots.sum_nat
  have hcontrol := bem.control
  rw [width, sum_widths, firstMoveSlotIndex, immediateControlField, hslots]
  generalize bem.childFields.filterMap (·.controlWidth) = control at hcontrol ⊢
  rcases control with _ | ⟨w, _ | ⟨w', ws⟩⟩
  · simp
    omega
  · simp
    omega
  · simp at hcontrol

theorem firstMoveSlotIndex_add_le (bem : BinaryEncoding) : bem.firstMoveSlotIndex + bem.moveSlots.sum ≤ bem.width := by
  have := bem.width_eq
  omega

theorem wholeWord_iff : bem.WholeWord ↔
    bem.firstMoveSlotIndex + bem.moveSlots.sum = bem.width ∧ (∀ width ∈ bem.moveSlots, 0 < width) ∧ 0 < bem.width := by
  have hwidth := bem.width_eq
  constructor
  · intro h
    refine ⟨?_, h.moveSlots, h.bits⟩
    have himmediate := sum_immediateSlots.mpr h.immediateSlots
    rcases h.registerFields with hsome | hzero
    · simp only [hsome, ↓reduceIte] at hwidth
      omega
    · have hregister := sum_registerFields.mpr hzero
      simp only [hregister, ite_self] at hwidth
      omega
  · rintro ⟨heq, hslots, hbits⟩
    refine ⟨sum_immediateSlots.mp (by omega), ?_, hslots, hbits⟩
    by_cases hnone : bem.immediateControlField = none
    · rw [if_pos hnone] at hwidth
      exact .inr (sum_registerFields.mp (by omega))
    · exact .inl hnone

end BinaryEncoding

namespace MoveSlotDictionary

/-- The parts of a word with the given widths, from the given bit on. -/
def slices (bits : List Bool) : Nat → List Nat → List (List Bool)
  | _, [] => []
  | begin, width :: widths => (bits.drop begin).take width :: slices bits (begin + width) widths

/-- What the dictionary of each slot is made from. -/
def columns (words : List (List Bool)) : Nat → List Nat → List (List (List Bool))
  | _, [] => []
  | begin, width :: widths =>
    words.map (fun bits => (bits.drop begin).take width) :: columns words (begin + width) widths

theorem length_slices (bits : List Bool) (begin : Nat) (widths : List Nat) :
    (slices bits begin widths).length = widths.length := by
  induction widths generalizing begin with
  | nil => rfl
  | cons width widths ih => simp [slices, ih]

theorem length_columns (words : List (List Bool)) (begin : Nat) (widths : List Nat) :
    (columns words begin widths).length = widths.length := by
  induction widths generalizing begin with
  | nil => rfl
  | cons width widths ih => simp [columns, ih]

theorem slices_flatten (bits : List Bool) (begin : Nat) (widths : List Nat) :
    (slices bits begin widths).flatten = (bits.drop begin).take widths.sum := by
  induction widths generalizing begin with
  | nil => simp [slices]
  | cons width widths ih =>
    rw [slices, List.flatten_cons, ih, List.sum_cons, List.take_add, List.drop_drop]

theorem moveSlots_eq {bits : List Bool} {widths : List Nat} :
    ∀ {begin : Nat}, begin + widths.sum ≤ bits.length →
      moveSlots bits begin widths = if ∀ width ∈ widths, 0 < width then some (slices bits begin widths) else none := by
  induction widths with
  | nil => intro begin _; simp [moveSlots, slices]
  | cons width widths ih =>
    intro begin hlen
    rw [List.sum_cons] at hlen
    have hrest : moveSlots bits (begin + width) widths =
        if ∀ width ∈ widths, 0 < width then some (slices bits (begin + width) widths) else none := ih (by omega)
    by_cases hzero : width = 0
    · have hno : ¬∀ w ∈ width :: widths, 0 < w := fun h => by
        have := h width List.mem_cons_self
        omega
      rw [if_neg hno]
      simp [moveSlots, moveSlot, hzero]
    · have hslot : moveSlot bits begin width = some ((bits.drop begin).take width) :=
        if_neg (by omega)
      have hpos : 0 < width := Nat.pos_of_ne_zero hzero
      simp only [moveSlots, hslot, hrest, Option.bind_eq_bind, Option.bind_some, List.forall_mem_cons, hpos, true_and]
      split <;> rfl

theorem moveSlots_word {bem : BinaryEncoding} {bits : List Bool} (hlen : bits.length = bem.width) :
    moveSlots bits bem.firstMoveSlotIndex bem.moveSlots = if ∀ width ∈ bem.moveSlots, 0 < width then
      some (slices bits bem.firstMoveSlotIndex bem.moveSlots) else none :=
  moveSlots_eq (hlen ▸ bem.firstMoveSlotIndex_add_le)

/-- The dictionaries of all slots after the given words. -/
theorem foldlM_update {bem : BinaryEncoding} (hpos : ∀ width ∈ bem.moveSlots, 0 < width) {words : List (List Bool)} :
    ∀ {dictionary : List (List (List Bool))}, (∀ bits ∈ words, bits.length = bem.width) →
      dictionary.length = bem.moveSlots.length →
      words.foldlM (updateDictionary bem) dictionary =
        some (List.zipWith (fun d column => column.foldl Dictionary.add d) dictionary
          (columns words bem.firstMoveSlotIndex bem.moveSlots)) := by
  have hnil : ∀ {dictionary : List (List (List Bool))} {begin : Nat} {widths : List Nat},
      dictionary.length = widths.length →
      List.zipWith (fun d column => column.foldl Dictionary.add d) dictionary (columns [] begin widths) = dictionary := by
    intro dictionary begin widths hlen
    induction widths generalizing dictionary begin with
    | nil => simp_all [columns]
    | cons width widths ih =>
      obtain ⟨d, dictionary, rfl⟩ := List.exists_cons_of_length_pos (by rw [hlen]; simp)
      simp [columns, ih (by simpa using hlen)]
  have hcons : ∀ {dictionary : List (List (List Bool))} {bits : List Bool} {words : List (List Bool)} {begin : Nat}
      {widths : List Nat}, List.zipWith (fun d column => column.foldl Dictionary.add d)
        (List.zipWith Dictionary.add dictionary (slices bits begin widths)) (columns words begin widths) =
      List.zipWith (fun d column => column.foldl Dictionary.add d) dictionary (columns (bits :: words) begin widths) := by
    intro dictionary bits words begin widths
    induction widths generalizing dictionary begin with
    | nil => simp [slices, columns]
    | cons width widths ih =>
      cases dictionary with
      | nil => simp
      | cons d dictionary => simp [slices, columns, ih]
  induction words with
  | nil =>
    intro dictionary _ hlen
    rw [hnil hlen]
    rfl
  | cons bits words ih =>
    intro dictionary hwords hlen
    have hcut := moveSlots_word (hwords bits List.mem_cons_self)
    rw [if_pos hpos] at hcut
    have hlen' : (List.zipWith Dictionary.add dictionary
        (slices bits bem.firstMoveSlotIndex bem.moveSlots)).length = bem.moveSlots.length := by
      simp [length_slices, hlen]
    simp only [List.foldlM_cons, updateDictionary, hcut, Option.bind_eq_bind, Option.bind_some, pure]
    rw [ih (fun b hb => hwords b (List.mem_cons_of_mem _ hb)) hlen', hcons]

theorem createDictionary_eq {bem : BinaryEncoding} {programs : List (List (List Bool))}
    (hpos : ∀ width ∈ bem.moveSlots, 0 < width) (hwords : ∀ bits ∈ programs.flatten, bits.length = bem.width) :
    createDictionary bem programs =
      some ((columns programs.flatten bem.firstMoveSlotIndex bem.moveSlots).map Dictionary.build) := by
  have hzip : ∀ (words : List (List Bool)) (begin : Nat) (widths : List Nat),
      List.zipWith (fun d column => column.foldl Dictionary.add d) (widths.map fun _ => []) (columns words begin widths) =
        (columns words begin widths).map Dictionary.build := by
    intro words begin widths
    induction widths generalizing begin with
    | nil => rfl
    | cons width widths ih =>
      simp only [columns, List.map_cons, List.zipWith_cons_cons, ih, Dictionary.build]
  rw [createDictionary, foldlM_update hpos hwords (by simp), hzip]

theorem dictLine_of_code {d : List (List Bool)} {code : Nat} {entry : List Bool} (hlt : code < d.length)
    (hentry : d[code]? = some entry) : dictLine d (Bits.bits code (requiredBits d.length)) = some entry := by
  by_cases hone : 1 < d.length
  · have hbits : code < 2 ^ requiredBits d.length := Nat.lt_trans hlt (lt_two_pow_requiredBits _)
    rw [dictLine, if_pos hone, Bits.value_bits, Nat.mod_eq_of_lt hbits, hentry]
  · have hzero : code = 0 := by omega
    rw [dictLine, if_neg hone, ← hzero, hentry]

/-- The decompressor finds the entries that the compressor gave codes for. -/
theorem codes_ok {dictionary : List (List (List Bool))} {slots : List (List Bool)}
    (h : List.Forall₂ (fun d slot => slot ∈ d ∧ requiredBits d.length ≤ 32) dictionary slots) :
    ∃ bits, codes dictionary slots = some bits ∧ bits.length = (dictionary.map fun d => requiredBits d.length).sum ∧
      ∀ pre : List Bool, entries (pre ++ bits) pre.length dictionary = some slots.flatten := by
  induction h with
  | nil => exact ⟨[], rfl, rfl, fun _ => rfl⟩
  | @cons d slot dictionary slots hslot _ ih =>
    obtain ⟨bits, hbits, hlen, hentries⟩ := ih
    obtain ⟨code, hcode, hlt, hentry⟩ := Dictionary.code_of_mem hslot.1
    have hpush : pushBack code (requiredBits d.length) = some (Bits.bits code (requiredBits d.length)) := by
      rw [pushBack_eq, if_pos hslot.2]
    refine ⟨Bits.bits code (requiredBits d.length) ++ bits, by simp [codes, hcode, hpush, hbits], by simp [hlen],
      fun pre => ?_⟩
    have hrest := hentries (pre ++ Bits.bits code (requiredBits d.length))
    rw [List.append_assoc, List.length_append, Bits.length_bits] at hrest
    have hfield : ((pre ++ (Bits.bits code (requiredBits d.length) ++ bits)).drop pre.length).take
        (requiredBits d.length) = Bits.bits code (requiredBits d.length) := by
      rw [List.drop_left, List.take_left' (Bits.length_bits _ _)]
    simp only [entries, hfield, dictLine_of_code hlt hentry, hrest, Option.bind_eq_bind, Option.bind_some, pure,
      List.flatten_cons]

theorem codes_widths {dictionary : List (List (List Bool))} {slots : List (List Bool)} {bits : List Bool}
    (hlen : dictionary.length = slots.length) (h : codes dictionary slots = some bits) :
    ∀ d ∈ dictionary, requiredBits d.length ≤ 32 := by
  induction dictionary generalizing slots bits with
  | nil => simp
  | cons d dictionary ih =>
    obtain ⟨slot, slots, rfl⟩ := List.exists_cons_of_length_pos (l := slots) (by rw [← hlen]; simp)
    simp only [codes, Option.bind_eq_bind, Option.bind_eq_some_iff] at h
    obtain ⟨code, _, codeBits, hcode, rest, hrest, _⟩ := h
    rw [pushBack_eq] at hcode
    rw [List.forall_mem_cons]
    refine ⟨?_, ih (by simpa using hlen) hrest⟩
    by_contra hno
    rw [if_neg hno] at hcode
    cases hcode

theorem forall₂_columns {words : List (List Bool)} {bits : List Bool} (hbits : bits ∈ words) {begin : Nat}
    {widths : List Nat} (hwidths : ∀ d ∈ (columns words begin widths).map Dictionary.build, requiredBits d.length ≤ 32) :
    List.Forall₂ (fun d slot => slot ∈ d ∧ requiredBits d.length ≤ 32)
      ((columns words begin widths).map Dictionary.build) (slices bits begin widths) := by
  induction widths generalizing begin with
  | nil => exact .nil
  | cons width widths ih =>
    simp only [columns, List.map_cons, List.forall_mem_cons] at hwidths
    exact .cons ⟨Dictionary.mem_build.mpr (List.mem_map_of_mem hbits), hwidths.1⟩ (ih hwidths.2)

section Words
variable {bem : BinaryEncoding} {words : List (List Bool)} {bits : List Bool}

/-- The dictionaries of the move slots of some words. -/
abbrev dictionaries (bem : BinaryEncoding) (words : List (List Bool)) : List (List (List Bool)) :=
  (columns words bem.firstMoveSlotIndex bem.moveSlots).map Dictionary.build

theorem length_dictionaries : (dictionaries bem words).length = bem.moveSlots.length := by
  simp [length_columns]

/-- What is decompressed is the word up to the end of the last move slot. -/
theorem compressInstruction_ok (hpos : ∀ width ∈ bem.moveSlots, 0 < width) (hlen : bits.length = bem.width)
    (hbits : bits ∈ words) (hwidths : ∀ d ∈ dictionaries bem words, requiredBits d.length ≤ 32) :
    ∃ compressed, compressInstruction bem (dictionaries bem words) bits = some compressed ∧
      compressed.length = compressedWidth bem (dictionaries bem words) ∧
      instructionword bem (dictionaries bem words) compressed =
        some (bits.take (bem.firstMoveSlotIndex + bem.moveSlots.sum)) := by
  have hle := bem.firstMoveSlotIndex_add_le
  have hcut := moveSlots_word hlen
  rw [if_pos hpos] at hcut
  obtain ⟨codeBits, hcodes, hcodesLen, hentries⟩ := codes_ok (forall₂_columns hbits hwidths)
  have hfirst : (bits.take bem.firstMoveSlotIndex).length = bem.firstMoveSlotIndex := by
    rw [List.length_take]
    omega
  refine ⟨bits.take bem.firstMoveSlotIndex ++ codeBits, by simp [compressInstruction, hcut, hcodes], ?_, ?_⟩
  · rw [List.length_append, hfirst, hcodesLen, compressedWidth, Nat.add_comm]
  · have hrest := hentries (bits.take bem.firstMoveSlotIndex)
    rw [hfirst] at hrest
    simp only [instructionword, hrest, Option.bind_eq_bind, Option.bind_some, pure, List.take_left' hfirst,
      slices_flatten, List.take_add]

theorem compressInstruction_widths {compressed : List Bool}
    (hcompress : compressInstruction bem (dictionaries bem words) bits = some compressed)
    (hpos : ∀ width ∈ bem.moveSlots, 0 < width) (hlen : bits.length = bem.width) :
    ∀ d ∈ dictionaries bem words, requiredBits d.length ≤ 32 := by
  have hcut := moveSlots_word hlen
  rw [if_pos hpos] at hcut
  simp only [compressInstruction, hcut, Option.bind_eq_bind, Option.bind_some, Option.bind_eq_some_iff] at hcompress
  obtain ⟨codeBits, hcodes, _⟩ := hcompress
  exact codes_widths (by rw [length_dictionaries, length_slices]) hcodes

end Words

theorem createDictionary_none {bem : BinaryEncoding} {programs : List (List (List Bool))}
    (hwords : ∀ bits ∈ programs.flatten, bits.length = bem.width) (hsome : programs.flatten ≠ [])
    (hzero : ¬∀ width ∈ bem.moveSlots, 0 < width) : createDictionary bem programs = none := by
  obtain ⟨bits, rest, heq⟩ := List.exists_cons_of_ne_nil hsome
  have hlen := hwords bits (by simp [heq])
  have hcut := moveSlots_word hlen
  rw [if_neg hzero] at hcut
  rw [createDictionary, heq, List.foldlM_cons, updateDictionary, hcut]
  rfl

theorem padded_of_length {c : Compressor} {bits : List Bool} (h : bits.length = c.mau) : c.padded bits = bits := by
  simp [Compressor.padded, h]

section Restores
variable {bem : BinaryEncoding} {words : List (List Bool)}

/-- The compressor that has the dictionaries of the words. -/
abbrev ofWords (bem : BinaryEncoding) (words : List (List Bool)) : Compressor :=
  ⟨compressedWidth bem (dictionaries bem words), compressInstruction bem (dictionaries bem words),
    instructionword bem (dictionaries bem words)⟩

theorem restores_iff (hpos : ∀ width ∈ bem.moveSlots, 0 < width) {bits : List Bool} (hlen : bits.length = bem.width)
    (hbits : bits ∈ words) : (ofWords bem words).Restores bits ↔
      bem.firstMoveSlotIndex + bem.moveSlots.sum = bem.width ∧
        ∀ d ∈ dictionaries bem words, requiredBits d.length ≤ 32 := by
  have hle := bem.firstMoveSlotIndex_add_le
  constructor
  · rintro ⟨compressed, hcompress, hdecompress⟩
    have hwidths := compressInstruction_widths hcompress hpos hlen
    obtain ⟨compressed', hcompress', hmau, hword⟩ := compressInstruction_ok hpos hlen hbits hwidths
    obtain rfl : compressed' = compressed := Option.some.inj (hcompress'.symm.trans hcompress)
    rw [padded_of_length hmau] at hdecompress
    have htake := congrArg List.length (Option.some.inj (hword.symm.trans hdecompress))
    rw [List.length_take] at htake
    exact ⟨by omega, hwidths⟩
  · rintro ⟨hwhole, hwidths⟩
    obtain ⟨compressed, hcompress, hmau, hword⟩ := compressInstruction_ok hpos hlen hbits hwidths
    refine ⟨compressed, hcompress, ?_⟩
    rw [padded_of_length hmau, hwhole, ← hlen, List.take_length] at *
    exact hword

theorem sized (hpos : ∀ width ∈ bem.moveSlots, 0 < width) (hmau : 0 < (ofWords bem words).mau) {bits : List Bool}
    (hlen : bits.length = bem.width) (hbits : bits ∈ words) {compressed : List Bool}
    (hcompress : (ofWords bem words).compress bits = some compressed) :
    0 < compressed.length ∧ compressed.length ≤ (ofWords bem words).mau := by
  have hwidths := compressInstruction_widths hcompress hpos hlen
  obtain ⟨compressed', hcompress', hlength, _⟩ := compressInstruction_ok hpos hlen hbits hwidths
  obtain rfl : compressed' = compressed := Option.some.inj (hcompress'.symm.trans hcompress)
  exact ⟨hlength ▸ hmau, Nat.le_of_eq hlength⟩

end Restores

/-- The widths of the slot codes: one code for each different value of the slot. -/
def codeWidths (bem : BinaryEncoding) (words : List (List Bool)) : List Nat :=
  (columns words bem.firstMoveSlotIndex bem.moveSlots).map fun column => requiredBits column.dedup.length

theorem map_requiredBits {bem : BinaryEncoding} {words : List (List Bool)} :
    (dictionaries bem words).map (fun d => requiredBits d.length) = codeWidths bem words := by
  simp only [codeWidths, List.map_map]
  exact List.map_congr_left fun column _ => by simp [Dictionary.length_build]

theorem forall_requiredBits {bem : BinaryEncoding} {words : List (List Bool)} :
    (∀ d ∈ dictionaries bem words, requiredBits d.length ≤ 32) ↔ ∀ width ∈ codeWidths bem words, width ≤ 32 := by
  rw [← map_requiredBits]
  simp

theorem compressedWidth_eq {bem : BinaryEncoding} {words : List (List Bool)} :
    compressedWidth bem (dictionaries bem words) = (codeWidths bem words).sum + bem.firstMoveSlotIndex := by
  rw [compressedWidth, map_requiredBits]

theorem requiredBits_pos (n : Nat) : 0 < requiredBits n := by
  rw [requiredBits]
  split <;> omega

theorem compressedWidth_pos {bem : BinaryEncoding} {words : List (List Bool)}
    (hpos : ∀ width ∈ bem.moveSlots, 0 < width) :
    0 < compressedWidth bem (dictionaries bem words) ↔ 0 < bem.firstMoveSlotIndex + bem.moveSlots.sum := by
  rw [compressedWidth_eq, codeWidths]
  cases hslots : bem.moveSlots with
  | nil => simp [columns]
  | cons width widths =>
    have hwidth := hpos width (by simp [hslots])
    have hcode := requiredBits_pos ((words.map fun bits => (bits.drop bem.firstMoveSlotIndex).take width).dedup.length)
    simp only [columns, List.map_cons, List.sum_cons]
    omega

theorem lossless_iff {bem : BinaryEncoding} {addressSpaceOffset : Nat} {programs : List (List (List Bool))}
    (hwords : ∀ bits ∈ programs.flatten, bits.length = bem.width) (hprograms : programs ≠ [])
    (hprogram : ∀ p ∈ programs, p ≠ []) :
    (∃ c, compressor bem programs = some c ∧ ∀ p ∈ programs, c.Lossless addressSpaceOffset p) ↔
      bem.WholeWord ∧ (∀ width ∈ codeWidths bem programs.flatten, width ≤ 32) ∧
        ∀ p ∈ programs, Compressor.InMemory ((codeWidths bem programs.flatten).sum + bem.firstMoveSlotIndex)
          addressSpaceOffset p.length := by
  have hmem : ∀ p ∈ programs, ∀ bits ∈ p, bits ∈ programs.flatten := fun p hp bits hbits =>
    List.mem_flatten.mpr ⟨p, hp, hbits⟩
  obtain ⟨p₀, hp₀⟩ := List.exists_mem_of_ne_nil programs hprograms
  obtain ⟨bits₀, hbits₀⟩ := List.exists_mem_of_ne_nil p₀ (hprogram p₀ hp₀)
  by_cases hpos : ∀ width ∈ bem.moveSlots, 0 < width
  · have hcompressor : compressor bem programs = some (ofWords bem programs.flatten) := by
      simp only [compressor, createDictionary_eq hpos hwords, Option.bind_eq_bind, Option.bind_some, pure]
    have hlossless : 0 < (ofWords bem programs.flatten).mau → ∀ p ∈ programs,
        ((ofWords bem programs.flatten).Lossless addressSpaceOffset p ↔
          (∀ bits ∈ p, (ofWords bem programs.flatten).Restores bits) ∧
            Compressor.InMemory (ofWords bem programs.flatten).mau addressSpaceOffset p.length) := fun hmau p hp =>
      Compressor.lossless_iff (fun bits hbits compressed hcompress =>
        sized hpos hmau (hwords _ (hmem p hp _ hbits)) (hmem p hp _ hbits) hcompress) (hprogram p hp)
    have hrestores : ∀ p ∈ programs, ∀ bits ∈ p, ((ofWords bem programs.flatten).Restores bits ↔ _) :=
      fun p hp bits hbits => restores_iff hpos (hwords _ (hmem p hp _ hbits)) (hmem p hp _ hbits)
    rw [← compressedWidth_eq, ← forall_requiredBits, BinaryEncoding.wholeWord_iff]
    constructor
    · rintro ⟨c, hc, hall⟩
      obtain rfl : ofWords bem programs.flatten = c := Option.some.inj (hcompressor.symm.trans hc)
      obtain ⟨hmau, _⟩ := hall p₀ hp₀
      have hiff := hlossless hmau
      obtain ⟨hwhole, hwidths⟩ := (hrestores p₀ hp₀ bits₀ hbits₀).mp (((hiff p₀ hp₀).mp (hall p₀ hp₀)).1 bits₀ hbits₀)
      exact ⟨⟨hwhole, hpos, hwhole ▸ (compressedWidth_pos hpos).mp hmau⟩, hwidths, fun p hp =>
        ((hiff p hp).mp (hall p hp)).2⟩
    · rintro ⟨⟨hwhole, _, hbits⟩, hwidths, hmemory⟩
      have hmau : 0 < (ofWords bem programs.flatten).mau := (compressedWidth_pos hpos).mpr (hwhole ▸ hbits)
      exact ⟨_, hcompressor, fun p hp => (hlossless hmau p hp).mpr
        ⟨fun bits hbits => (hrestores p hp bits hbits).mpr ⟨hwhole, hwidths⟩, hmemory p hp⟩⟩
  · have hnone := createDictionary_none hwords (List.ne_nil_of_mem (hmem p₀ hp₀ bits₀ hbits₀)) hpos
    constructor
    · rintro ⟨c, hc, _⟩
      simp [compressor, hnone] at hc
    · rintro ⟨hwhole, _⟩
      exact absurd hwhole.moveSlots hpos

end MoveSlotDictionary

namespace InstructionDictionary

theorem requiredBits_mono {m n : Nat} (h : m ≤ n) : requiredBits m ≤ requiredBits n := by
  by_cases hm : m = 0
  · have := MoveSlotDictionary.requiredBits_pos n
    simp only [requiredBits, hm, ↓reduceIte]
    exact this
  · have hlt : m.log2 < requiredBits n :=
      (Nat.log2_lt hm).mpr (Nat.lt_of_le_of_lt h (lt_two_pow_requiredBits n))
    rw [requiredBits, if_neg hm]
    exact hlt

variable {dictionary : List (List Bool)} {bits : List Bool}

abbrev ofDictionary (dictionary : List (List Bool)) : Compressor :=
  ⟨requiredBits dictionary.length, compressInstruction dictionary, instructionword dictionary⟩

theorem compressInstruction_eq (hbits : bits ∈ dictionary) :
    ∃ code, code < dictionary.length ∧ dictionary[code]? = some bits ∧
      compressInstruction dictionary bits = if requiredBits (dictionary.length - 1) ≤ 32 then
        some (Bits.bits code (requiredBits (dictionary.length - 1))) else none := by
  obtain ⟨code, hcode, hlt, hentry⟩ := Dictionary.code_of_mem hbits
  exact ⟨code, hlt, hentry, by simp [compressInstruction, hcode, pushBack_eq]⟩

/-- The codes have as many bits as the greatest code needs, the unit as the number of entries. -/
theorem restores_iff (hbits : bits ∈ dictionary) :
    (ofDictionary dictionary).Restores bits ↔ requiredBits (dictionary.length - 1) ≤ 32 := by
  obtain ⟨code, hlt, hentry, hcompress⟩ := compressInstruction_eq hbits
  constructor
  · rintro ⟨compressed, hsome, _⟩
    by_contra hno
    rw [if_neg hno] at hcompress
    cases hcompress.symm.trans hsome
  · intro hwidth
    rw [if_pos hwidth] at hcompress
    refine ⟨_, hcompress, ?_⟩
    have hle : code ≤ dictionary.length - 1 := by omega
    have hcode : code < 2 ^ requiredBits (dictionary.length - 1) :=
      Nat.lt_of_le_of_lt hle (lt_two_pow_requiredBits _)
    simp only [instructionword, Compressor.padded, List.take_left' (Bits.length_bits _ _), Bits.value_bits,
      Nat.mod_eq_of_lt hcode, hentry]

theorem sized (hbits : bits ∈ dictionary) {compressed : List Bool}
    (hcompress : compressInstruction dictionary bits = some compressed) :
    0 < compressed.length ∧ compressed.length ≤ requiredBits dictionary.length := by
  obtain ⟨code, _, _, heq⟩ := compressInstruction_eq hbits
  rw [heq] at hcompress
  split at hcompress
  next =>
    cases hcompress
    rw [Bits.length_bits]
    exact ⟨MoveSlotDictionary.requiredBits_pos _, requiredBits_mono (Nat.sub_le _ _)⟩
  next => cases hcompress

theorem lossless_iff {addressSpaceOffset : Nat} {compatibilityProg : List (List Bool)}
    {programs : List (List (List Bool))} (hprograms : programs ≠ []) (hprogram : ∀ p ∈ programs, p ≠ []) :
    (∀ p ∈ programs, (compressor compatibilityProg programs).Lossless addressSpaceOffset p) ↔
      requiredBits ((compatibilityProg ++ programs.flatten).dedup.length - 1) ≤ 32 ∧
        ∀ p ∈ programs, Compressor.InMemory (requiredBits (compatibilityProg ++ programs.flatten).dedup.length)
          addressSpaceOffset p.length := by
  have hmem : ∀ p ∈ programs, ∀ bits ∈ p, bits ∈ createDictionary compatibilityProg programs := by
    intro p hp bits hbits
    exact Dictionary.mem_build.mpr (List.mem_append_right _ (List.mem_flatten.mpr ⟨p, hp, hbits⟩))
  have hlossless : ∀ p ∈ programs, ((compressor compatibilityProg programs).Lossless addressSpaceOffset p ↔ _) :=
    fun p hp => Compressor.lossless_iff (fun bits hbits compressed hcompress =>
      sized (hmem p hp bits hbits) hcompress) (hprogram p hp)
  have hrestores : ∀ p ∈ programs, ∀ bits ∈ p, ((compressor compatibilityProg programs).Restores bits ↔ _) :=
    fun p hp bits hbits => restores_iff (hmem p hp bits hbits)
  have hlength : (createDictionary compatibilityProg programs).length =
      (compatibilityProg ++ programs.flatten).dedup.length := Dictionary.length_build _
  rw [← hlength]
  obtain ⟨p₀, hp₀⟩ := List.exists_mem_of_ne_nil programs hprograms
  obtain ⟨bits₀, hbits₀⟩ := List.exists_mem_of_ne_nil p₀ (hprogram p₀ hp₀)
  constructor
  · intro hall
    exact ⟨(hrestores p₀ hp₀ bits₀ hbits₀).mp (((hlossless p₀ hp₀).mp (hall p₀ hp₀)).1 bits₀ hbits₀),
      fun p hp => ((hlossless p hp).mp (hall p hp)).2⟩
  · rintro ⟨hcodes, hmemory⟩ p hp
    exact (hlossless p hp).mpr ⟨fun bits hbits => (hrestores p hp bits hbits).mpr hcodes, hmemory p hp⟩

end InstructionDictionary

section Main
variable (bem : BinaryEncoding) (addressSpaceOffset : Nat) (compatibilityProg : List (List Bool))
  (programs : List (List bem.Word))

/-- The bits of the instructions of all programs. -/
def programWords : List (List (List Bool)) := programs.map fun p => p.map (·.1)

/-- All programs survive both compressors. -/
def DictionariesLossless : Prop :=
  (∃ c, MoveSlotDictionary.compressor bem (programWords bem programs) = some c ∧
    ∀ p ∈ programWords bem programs, c.Lossless addressSpaceOffset p) ∧
  ∀ p ∈ programWords bem programs,
    (InstructionDictionary.compressor compatibilityProg (programWords bem programs)).Lossless addressSpaceOffset p

/-- The number of different instructions. -/
def entryCount : Nat := (compatibilityProg ++ (programWords bem programs).flatten).dedup.length

/-- When words are made of the control fields and the move slots only, codes have at most
32 bits, and the units of every program have addresses of 32 bits. -/
structure Compressible : Prop where
  whole : bem.WholeWord
  slotCodes : ∀ width ∈ MoveSlotDictionary.codeWidths bem (programWords bem programs).flatten, width ≤ 32
  slotMemory : ∀ p ∈ programs, Compressor.InMemory
    ((MoveSlotDictionary.codeWidths bem (programWords bem programs).flatten).sum + bem.firstMoveSlotIndex)
    addressSpaceOffset p.length
  codes : requiredBits (entryCount bem compatibilityProg programs - 1) ≤ 32
  memory : ∀ p ∈ programs, Compressor.InMemory (requiredBits (entryCount bem compatibilityProg programs))
    addressSpaceOffset p.length

variable {bem addressSpaceOffset compatibilityProg programs}

theorem forall_programWords {P : List (List Bool) → Prop} :
    (∀ p ∈ programWords bem programs, P p) ↔ ∀ p ∈ programs, P (p.map (·.1)) := by
  simp [programWords]

theorem length_programWords : ∀ bits ∈ (programWords bem programs).flatten, bits.length = bem.width := by
  intro bits hbits
  obtain ⟨p, hp, hmem⟩ := List.mem_flatten.mp hbits
  obtain ⟨q, _, rfl⟩ := List.mem_map.mp hp
  obtain ⟨word, _, rfl⟩ := List.mem_map.mp hmem
  exact word.2

theorem dictionariesLossless_iff (hprograms : programs ≠ []) (hprogram : ∀ p ∈ programs, p ≠ []) :
    DictionariesLossless bem addressSpaceOffset compatibilityProg programs ↔
      Compressible bem addressSpaceOffset compatibilityProg programs := by
  have hprograms' : programWords bem programs ≠ [] := by simpa [programWords] using hprograms
  have hprogram' : ∀ p ∈ programWords bem programs, p ≠ [] := by
    rw [forall_programWords]
    intro p hp hnil
    exact hprogram p hp (List.map_eq_nil_iff.mp hnil)
  rw [DictionariesLossless, MoveSlotDictionary.lossless_iff length_programWords hprograms' hprogram',
    InstructionDictionary.lossless_iff hprograms' hprogram']
  simp only [forall_programWords, List.length_map]
  constructor
  · rintro ⟨⟨hwhole, hslots, hslotMemory⟩, hcodes, hmemory⟩
    exact ⟨hwhole, hslots, hslotMemory, hcodes, hmemory⟩
  · intro h
    exact ⟨⟨h.whole, h.slotCodes, h.slotMemory⟩, h.codes, h.memory⟩

/-- Slots of 1 and 2 bits, which are not in the order of their indices in a word, after a control field. -/
def twoSlotEncoding : BinaryEncoding where
  childFields := [.moveSlot "B1" 2, .moveSlot "B2" 1, .immediateControlField 1]
  moveSlots := [1, 2]
  control := by decide
  slots := by decide

theorem dictionariesLossless_twoSlots : DictionariesLossless twoSlotEncoding 7 []
    [[⟨[true, true, false, true], rfl⟩, ⟨[false, true, true, true], rfl⟩], [⟨[true, false, true, true], rfl⟩]] := by
  refine (dictionariesLossless_iff (by simp) (by simp)).mpr ⟨⟨by simp [twoSlotEncoding], .inl (by decide), by decide,
    by decide⟩, by decide, ?_, by decide, ?_⟩
  · unfold Compressor.InMemory
    decide
  · unfold Compressor.InMemory
    decide

/-- The slot of an immediate is in the word, but neither copied nor in a dictionary. -/
def immediateSlotEncoding : BinaryEncoding where
  childFields := [.moveSlot "B1" 1, .immediateSlotField "L1" 1]
  moveSlots := [1]
  control := by decide
  slots := by decide

theorem not_dictionariesLossless : ¬∀ bem addressSpaceOffset compatibilityProg (programs : List (List bem.Word)),
    programs ≠ [] → (∀ p ∈ programs, p ≠ []) →
      DictionariesLossless bem addressSpaceOffset compatibilityProg programs := by
  intro h
  have hlossless := (h immediateSlotEncoding 0 [] [[⟨[true, true], rfl⟩]] (by simp) (by simp)).1
  have hwhole := ((MoveSlotDictionary.lossless_iff (by decide) (by decide) (by decide)).mp hlossless).1
  exact absurd (hwhole.immediateSlots "L1" 1 (by decide)) (by decide)

end Main

end Tce.PIG
