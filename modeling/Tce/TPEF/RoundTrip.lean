import Mathlib.Tactic.FinCases
import Tce.TPEF.CodeSection

/-!
# Code sections are read back

What the reader gives for the bytes of the writer. An immediate has four bits
for its length and an annotation seven: exactly the elements that fit are read
back, and a longer one moves what follows it.
-/

namespace Tce.TPEF

open TPEFHeaders Reader

/-- A move without what says nothing: an empty one has no source, destination or
guard, and one that is not guarded no type or inversion of its guard. -/
def MoveElement.kept (move : MoveElement) : MoveElement :=
  if move.isEmpty then
    { move with
      sourceType := .MF_NULL, destinationType := .MF_NULL, isGuarded := false, isGuardInverted := false
      guardType := .MF_NULL }
  else if move.isGuarded then move
  else { move with isGuardInverted := false, guardType := .MF_NULL }

def ElementBody.kept : ElementBody → ElementBody
  | move m => move m.kept
  | immediate imm => immediate imm

def InstructionElement.kept (elem : InstructionElement) : InstructionElement := { elem with body := elem.body.kept }

/-- What the assertions of the writer ask for. -/
def MoveElement.Accepted (move : MoveElement) : Prop :=
  move.isEmpty = true ∨
    move.sourceType ≠ .MF_NULL ∧ (move.destinationType = .MF_RF ∨ move.destinationType = .MF_UNIT) ∧
      (move.isGuarded = true → move.guardType = .MF_RF ∨ move.guardType = .MF_UNIT)

def ElementBody.Accepted : ElementBody → Prop
  | move m => m.Accepted
  | immediate imm => imm.value.length ≤ IMMEDIATE_VALUE_MAX_BYTES

def InstructionElement.Accepted (elem : InstructionElement) : Prop :=
  elem.body.Accepted ∧ ∀ annote ∈ elem.annotations, annote.id.toNat < 0xFFFFFF

/-- The lengths fit in the bits they are written to. -/
def ElementBody.Fits : ElementBody → Prop
  | move _ => True
  | immediate imm => imm.value.length < 16

def InstructionElement.Fits (elem : InstructionElement) : Prop :=
  elem.body.Fits ∧ ∀ annote ∈ elem.annotations, annote.payLoad.length < 128

/-- What is written is read back, whatever follows it in the stream. -/
def RoundTrips (elems : List InstructionElement) : Prop :=
  ∀ written after, actualWriteData elems = .ok written →
    readData written.length (written ++ after) = .ok (elems.map (·.kept))

/-! ## What is read fits -/

theorem fits_kept (elem : InstructionElement) : elem.kept.Fits ↔ elem.Fits := by
  cases elem with
  | mk begin body annotations => cases body <;> exact Iff.rfl

theorem shiftRight_lt (byte : Byte) : (byte >>> 4).toNat < 16 := by
  have := byte.isLt
  simp [Nat.shiftRight_eq_div_pow]
  omega

theorem size_lt (byte : Byte) : (byte &&& IANNOTE_SIZE).toNat < 128 := by
  simp only [BitVec.toNat_and, IANNOTE_SIZE]
  exact Nat.and_lt_two_pow _ (n := 7) (by decide)

theorem readImmediate_fits (iAttr : Byte) : Gives (readImmediate iAttr) ElementBody.Fits := by
  apply Gives.next
  intro destinationUnit
  apply Gives.next
  intro destinationIndex
  apply (gives_repeated _ _).bind
  intro value hvalue
  apply gives_pure
  exact Nat.lt_of_le_of_lt (Nat.le_of_eq hvalue) (shiftRight_lt iAttr)

theorem readMove_fits (iAttr : Byte) : Gives (readMove iAttr) ElementBody.Fits := by
  unfold readMove
  iterate 9
    apply Gives.next
    intro _
  exact gives_pure trivial

theorem readAnnotation_fits : Gives readAnnotation fun r => r.1.payLoad.length < 128 := by
  apply Gives.next
  intro sizeAndContinuation
  iterate 3
    apply Gives.next
    intro _
  apply (gives_repeated _ _).bind
  intro payLoad hpayLoad
  apply gives_pure
  exact hpayLoad ▸ size_lt sizeAndContinuation

theorem readAnnotations_fits (fuel : Nat) :
    Gives (readAnnotations fuel) fun annotations => ∀ annote ∈ annotations, annote.payLoad.length < 128 := by
  induction fuel with
  | zero => exact gives_error fun _ => rfl
  | succ fuel ih =>
    apply readAnnotation_fits.bind
    intro r hr
    split
    · apply ih.bind
      intro annotations hannotations
      apply gives_pure
      simpa using ⟨hr, hannotations⟩
    · apply gives_pure
      simpa using hr

theorem readBody_fits (iAttr : Byte) : Gives (readBody iAttr) ElementBody.Fits := by
  unfold readBody
  split
  · exact readImmediate_fits iAttr
  · exact readMove_fits iAttr

theorem readAnnotationsIf_fits (iAttr : Byte) :
    Gives (readAnnotationsIf iAttr) fun annotations => ∀ annote ∈ annotations, annote.payLoad.length < 128 := by
  constructor
  intro stream annotations rest h
  unfold readAnnotationsIf StateT.run at h
  split at h
  · exact (readAnnotations_fits stream.length).of_run stream annotations rest h
  · cases h
    simp

theorem readElement_fits (nextIsBeginning : Bool) : Gives (readElement nextIsBeginning) fun r => r.1.Fits := by
  apply Gives.next
  intro iAttr
  apply (readBody_fits iAttr).bind
  intro body hbody
  apply (readAnnotationsIf_fits iAttr).bind
  intro annotations hannotations
  exact gives_pure ⟨hbody, hannotations⟩

theorem readElements_fits (after fuel : Nat) (nextIsBeginning : Bool) :
    Gives (readElements after fuel nextIsBeginning) fun elems => ∀ elem ∈ elems, elem.Fits := by
  induction fuel generalizing nextIsBeginning with
  | zero =>
    constructor
    intro stream elems rest h
    unfold readElements StateT.run at h
    dsimp only at h
    split at h
    · cases h
      simp
    · cases h
  | succ fuel ih =>
    constructor
    intro stream elems rest h
    unfold readElements StateT.run at h
    dsimp only at h
    split at h
    · cases h
      simp
    · have hgives : Gives (readElement nextIsBeginning >>= fun r =>
          readElements after fuel r.2 >>= fun elems => pure (r.1 :: elems)) fun elems => ∀ elem ∈ elems, elem.Fits := by
        apply (readElement_fits nextIsBeginning).bind
        intro r hr
        apply (ih r.2).bind
        intro elems helems
        apply gives_pure
        simpa using ⟨hr, helems⟩
      exact hgives.of_run stream elems rest h

/-- Everything that is read fits. -/
theorem readData_fits {bodyLength : Nat} {stream : List Byte} {elems : List InstructionElement}
    (h : readData bodyLength stream = .ok elems) : ∀ elem ∈ elems, elem.Fits := by
  unfold readData at h
  cases hrun : (readElements (stream.length - bodyLength) stream.length true).run stream with
  | error e =>
    rw [hrun] at h
    cases h
  | ok r =>
    rw [hrun] at h
    cases h
    exact (readElements_fits _ _ _).of_run stream r.1 r.2 hrun

/-! ## What fits is read -/

theorem reads_readByte (byte : Byte) : Reader.Reads readByte [byte] byte := ⟨fun _ => rfl⟩

theorem reads_bytes (bytes : List Byte) : Reader.Reads (repeated readByte bytes.length) bytes bytes := by
  simpa using reads_repeated reads_readByte bytes

theorem reads_readHalfWord (halfword : HalfWord) : Reader.Reads readHalfWord (writeHalfWord halfword) halfword := by
  have happend : halfword.extractLsb' 8 8 ++ halfword.extractLsb' 0 8 = halfword := by
    ext i hi
    simp only [BitVec.getElem_append, BitVec.getElem_extractLsb']
    split
    · simp [BitVec.getLsbD_eq_getElem hi]
    · rw [show 8 + (i - 8) = i by omega, BitVec.getLsbD_eq_getElem hi]
  have h := (reads_readByte (halfword.extractLsb' 8 8)).bind (γ := HalfWord)
    (f := fun high => readByte >>= fun low => pure (high ++ low))
    ((reads_readByte (halfword.extractLsb' 0 8)).map fun low => halfword.extractLsb' 8 8 ++ low)
  rw [happend] at h
  exact h

/-! The bits of the attributes -/

theorem immediateAttribute {length : Nat} (h : length < 16) (annotated isEnd : Bool) :
    let iAttr := IA_TYPE ||| BitVec.ofNat 8 length <<< 4 ||| flag annotated IA_ANNOTE ||| flag isEnd IA_END
    iAttr &&& IA_TYPE ≠ 0 ∧ (iAttr >>> 4).toNat = length ∧ decide (iAttr &&& IA_ANNOTE ≠ 0) = annotated ∧
      decide (iAttr &&& IA_END ≠ 0) = isEnd := by
  have hall : ∀ length : Fin 16, ∀ annotated isEnd : Bool,
      let iAttr := IA_TYPE ||| BitVec.ofNat 8 length <<< 4 ||| flag annotated IA_ANNOTE ||| flag isEnd IA_END
      iAttr &&& IA_TYPE ≠ 0 ∧ (iAttr >>> 4).toNat = length ∧ decide (iAttr &&& IA_ANNOTE ≠ 0) = annotated ∧
        decide (iAttr &&& IA_END ≠ 0) = isEnd := by decide
  exact hall ⟨length, h⟩ annotated isEnd

theorem moveAttribute (guarded empty annotated isEnd : Bool) :
    let iAttr := flag guarded IA_MGUARD ||| flag empty IA_EMPTY ||| flag annotated IA_ANNOTE ||| flag isEnd IA_END
    ¬ iAttr &&& IA_TYPE ≠ 0 ∧ decide (iAttr &&& IA_EMPTY ≠ 0) = empty ∧ decide (iAttr &&& IA_MGUARD ≠ 0) = guarded ∧
      decide (iAttr &&& IA_ANNOTE ≠ 0) = annotated ∧ decide (iAttr &&& IA_END ≠ 0) = isEnd := by
  revert guarded empty annotated isEnd
  decide

/-! The bits of the types -/

theorem sourceTypeOf_eq {source : FieldType} {bits : Byte} (h : sourceTypeBits source = .ok bits) :
    ∀ destination ∈ [MVD_RF, MVD_UNIT], ∀ guard ∈ [0x00, 0x40, 0x80, 0xc0],
      sourceTypeOf (bits ||| destination ||| guard) = .ok source := by
  cases source <;> cases h <;> decide

theorem destinationTypeOf_eq {destination : FieldType} {bits : Byte} (h : destinationTypeBits destination = .ok bits) :
    ∀ source ∈ [MVS_RF, MVS_IMM, MVS_UNIT], ∀ guard ∈ [0x00, 0x40, 0x80, 0xc0],
      destinationTypeOf (source ||| bits ||| guard) = .ok destination := by
  cases destination <;> cases h <;> decide

theorem guardTypeOf_eq {guard : FieldType} {bits : Byte} (h : guardTypeBits guard = .ok bits) (inverted : Bool) :
    (∀ source ∈ [MVS_RF, MVS_IMM, MVS_UNIT], ∀ destination ∈ [MVD_RF, MVD_UNIT],
      guardTypeOf (source ||| destination ||| (bits ||| flag inverted IE_GUARD_INV_MASK)) = .ok guard ∧
      decide ((source ||| destination ||| (bits ||| flag inverted IE_GUARD_INV_MASK)) &&& IE_GUARD_INV_MASK ≠ 0) =
        inverted) ∧ bits ||| flag inverted IE_GUARD_INV_MASK ∈ [0x00, 0x40, 0x80, 0xc0] := by
  revert inverted
  cases guard <;> cases h <;> decide

theorem notInverted : ∀ source ∈ [MVS_RF, MVS_IMM, MVS_UNIT], ∀ destination ∈ [MVD_RF, MVD_UNIT],
    decide ((source ||| destination ||| 0x00) &&& IE_GUARD_INV_MASK ≠ 0) = false := by decide

theorem sourceTypeBits_mem {source : FieldType} {bits : Byte} (h : sourceTypeBits source = .ok bits) :
    bits ∈ [MVS_RF, MVS_IMM, MVS_UNIT] := by
  cases source <;> cases h <;> decide

theorem destinationTypeBits_mem {destination : FieldType} {bits : Byte}
    (h : destinationTypeBits destination = .ok bits) : bits ∈ [MVD_RF, MVD_UNIT] := by
  cases destination <;> cases h <;> decide

theorem bind_eq_ok {ε α β : Type} {x : Except ε α} {f : α → Except ε β} {b : β} (h : (x >>= f) = .ok b) :
    ∃ a, x = .ok a ∧ f a = .ok b := by
  cases x with
  | error e => cases h
  | ok a => exact ⟨a, rfl, h⟩

/-- The types are read from the byte they are written to. -/
theorem readTypes_eq {move : MoveElement} {types : Byte} (h : fieldTypes move = .ok types) :
    readTypes move.isEmpty move.isGuarded types = .ok (move.kept.sourceType, move.kept.destinationType,
      if move.kept.isGuarded then some move.kept.guardType else none) ∧
    decide (types &&& IE_GUARD_INV_MASK ≠ 0) = move.kept.isGuardInverted := by
  unfold fieldTypes at h
  cases hempty : move.isEmpty with
  | true =>
    rw [hempty] at h
    cases h
    simp [readTypes, MoveElement.kept, hempty]
  | false =>
    rw [hempty] at h
    obtain ⟨source, hsource, h⟩ := bind_eq_ok h
    obtain ⟨destination, hdestination, h⟩ := bind_eq_ok h
    obtain ⟨guard, hguard, h⟩ := bind_eq_ok h
    cases h
    have hs := sourceTypeBits_mem hsource
    have hd := destinationTypeBits_mem hdestination
    unfold guardBits at hguard
    cases hguarded : move.isGuarded with
    | true =>
      rw [hguarded] at hguard
      obtain ⟨bits, hbits, hguard⟩ := bind_eq_ok hguard
      cases hguard
      obtain ⟨hread, hmem⟩ := guardTypeOf_eq hbits move.isGuardInverted
      obtain ⟨htype, hinverted⟩ := hread source hs destination hd
      unfold readTypes MoveElement.kept
      rw [hempty, hguarded, sourceTypeOf_eq hsource _ hd _ hmem, destinationTypeOf_eq hdestination _ hs _ hmem, htype]
      refine ⟨?_, hinverted⟩
      simp [hguarded, bind, Except.bind, pure, Except.pure]
    | false =>
      rw [hguarded] at hguard
      cases hguard
      unfold readTypes MoveElement.kept
      rw [hempty, hguarded, sourceTypeOf_eq hsource _ hd 0x00 (by decide),
        destinationTypeOf_eq hdestination _ hs 0x00 (by decide)]
      exact ⟨rfl, notInverted source hs destination hd⟩

/-! Elements -/

theorem reads_lift {α : Type} {r : Except StreamFault α} {v : α} (h : r = .ok v) :
    Reader.Reads (StateT.lift r : Stream α) [] v := by
  constructor
  intro rest
  subst h
  rfl

/-- A kept guard type says whether there is a guard. -/
theorem fields_kept (move : MoveElement) :
    let guard := if move.kept.isGuarded then some move.kept.guardType else none
    MoveElement.mk move.isEmpty move.bus move.kept.sourceType move.kept.destinationType move.sourceUnit
      move.destinationUnit move.sourceIndex move.destinationIndex guard.isSome move.kept.isGuardInverted
      (guard.getD .MF_NULL) move.guardUnit move.guardIndex = move.kept := by
  obtain ⟨isEmpty, _, _, _, _, _, _, _, isGuarded, _, _, _, _⟩ := move
  cases isEmpty <;> cases isGuarded <;> rfl

theorem reads_readMove {move : MoveElement} {iAttr : Byte} {written : List Byte}
    (hempty : decide (iAttr &&& IA_EMPTY ≠ 0) = move.isEmpty)
    (hguard : decide (iAttr &&& IA_MGUARD ≠ 0) = move.isGuarded)
    (h : writeDataField (.move move) = .ok written) : Reader.Reads (readMove iAttr) written (.move move.kept) := by
  obtain ⟨types, htypes, h⟩ := bind_eq_ok h
  cases h
  obtain ⟨hread, hinverted⟩ := readTypes_eq htypes
  unfold readMove
  rw [hempty, hguard]
  apply (reads_readByte move.bus).bind
  apply (reads_readByte types).bind
  apply (reads_lift hread).bind
  apply (reads_readByte move.sourceUnit).bind
  apply (reads_readHalfWord move.sourceIndex).bind
  apply (reads_readByte move.destinationUnit).bind
  apply (reads_readHalfWord move.destinationIndex).bind
  apply (reads_readByte move.guardUnit).bind
  apply (reads_readHalfWord move.guardIndex).map_eq
  rw [hinverted]
  exact congrArg ElementBody.move (fields_kept move)

theorem reads_readImmediate {imm : ImmediateElement} {iAttr : Byte} {written : List Byte}
    (hlength : (iAttr >>> 4).toNat = imm.value.length) (h : writeDataField (.immediate imm) = .ok written) :
    Reader.Reads (readImmediate iAttr) written (.immediate imm) := by
  obtain ⟨_, _, h⟩ := bind_eq_ok h
  cases h
  unfold readImmediate
  rw [hlength]
  apply (reads_readByte imm.destinationUnit).bind
  apply (reads_readByte imm.destinationIndex).bind
  exact (reads_bytes imm.value).map_eq rfl

/-! Annotations -/

theorem sizeAndContinuation_eq {length : Nat} (h : length < 128) (continuation : Bool) :
    let byte := BitVec.ofNat 8 length &&& IANNOTE_SIZE ||| flag continuation IANNOTE_CONTINUATION
    (byte &&& IANNOTE_SIZE).toNat = length ∧ decide (byte &&& IANNOTE_CONTINUATION ≠ 0) = continuation := by
  have hall : ∀ length : Fin 128, ∀ continuation : Bool,
      let byte := BitVec.ofNat 8 length &&& IANNOTE_SIZE ||| flag continuation IANNOTE_CONTINUATION
      (byte &&& IANNOTE_SIZE).toNat = length ∧ decide (byte &&& IANNOTE_CONTINUATION ≠ 0) = continuation := by
    decide
  exact hall ⟨length, h⟩ continuation

theorem annoteId_eq {id : Word} (h : id.toNat < 0xFFFFFF) :
    (id.extractLsb' 0 8).setWidth 32 ||| (id.extractLsb' 8 8).setWidth 32 <<< 8 |||
      (id.extractLsb' 16 8).setWidth 32 <<< 16 = id := by
  apply BitVec.eq_of_getLsbD_eq
  intro i hi
  -- bits from 24 on are not written
  have hhigh : 24 ≤ i → id.getLsbD i = false := by
    intro hi
    rw [← BitVec.testBit_toNat]
    apply Nat.testBit_lt_two_pow
    calc id.toNat < 2 ^ 24 := by omega
      _ ≤ 2 ^ i := Nat.pow_le_pow_right (by decide) hi
  simp only [BitVec.getLsbD_or, BitVec.getLsbD_setWidth, BitVec.getLsbD_shiftLeft, BitVec.getLsbD_extractLsb']
  by_cases h8 : i < 8
  · simp [h8, hi, show i < 16 by omega]
  · by_cases h16 : i < 16
    · simp [h8, h16, hi, show i - 8 < 8 by omega, show 8 + (i - 8) = i by omega, show i - 8 < 32 by omega]
    · by_cases h24 : i < 24
      · simp [h8, h16, hi, show ¬ i - 8 < 8 by omega, show i - 16 < 8 by omega, show 16 + (i - 16) = i by omega,
          show i - 16 < 32 by omega]
      · rw [hhigh (by omega)]
        simp [h8, h16, show ¬ i - 8 < 8 by omega, show ¬ i - 16 < 8 by omega]

theorem reads_readAnnotation {annote : InstructionAnnotation} (hfits : annote.payLoad.length < 128)
    {isLast : Bool} {written : List Byte} (h : writeAnnotation annote isLast = .ok written) :
    Reader.Reads readAnnotation written (annote, !isLast) := by
  obtain ⟨_, hid, h⟩ := bind_eq_ok h
  cases h
  have hid : annote.id.toNat < 0xFFFFFF := by
    unfold check at hid
    split at hid
    · next hlt => exact of_decide_eq_true hlt
    · cases hid
  obtain ⟨hsize, hcontinuation⟩ := sizeAndContinuation_eq hfits !isLast
  have htake : annote.payLoad.take annote.size.toNat = annote.payLoad := by
    apply List.take_of_length_le
    unfold InstructionAnnotation.size
    simp
    omega
  rw [htake]
  unfold readAnnotation InstructionAnnotation.size
  apply (reads_readByte _).bind
  apply (reads_readByte _).bind
  apply (reads_readByte _).bind
  apply (reads_readByte _).bind
  rw [hsize, hcontinuation, annoteId_eq hid]
  exact (reads_bytes annote.payLoad).map_eq rfl

theorem length_le_of_writeAnnotations {annotations : List InstructionAnnotation} {written : List Byte}
    (h : writeAnnotations annotations = .ok written) : annotations.length ≤ written.length := by
  induction annotations generalizing written with
  | nil => exact Nat.zero_le _
  | cons annote annotations ih =>
    obtain ⟨first, hfirst, h⟩ := bind_eq_ok h
    obtain ⟨others, hothers, h⟩ := bind_eq_ok h
    obtain ⟨_, _, hfirst⟩ := bind_eq_ok hfirst
    cases h
    cases hfirst
    have := ih hothers
    simp
    omega

theorem reads_readAnnotations {annotations : List InstructionAnnotation} (hne : annotations ≠ [])
    (hfits : ∀ annote ∈ annotations, annote.payLoad.length < 128) {written : List Byte}
    (h : writeAnnotations annotations = .ok written) {fuel : Nat} (hfuel : annotations.length ≤ fuel) :
    Reader.Reads (readAnnotations fuel) written annotations := by
  induction annotations generalizing written fuel with
  | nil => exact absurd rfl hne
  | cons annote annotations ih =>
    obtain ⟨first, hfirst, h⟩ := bind_eq_ok h
    obtain ⟨others, hothers, h⟩ := bind_eq_ok h
    cases h
    obtain ⟨hfit, hfits⟩ := List.forall_mem_cons.1 hfits
    cases fuel with
    | zero => cases hfuel
    | succ fuel =>
      apply ( reads_readAnnotation hfit hfirst).bind
      cases annotations with
      | nil =>
        cases hothers
        exact reads_pure [annote]
      | cons next annotations =>
        exact (ih (by simp) hfits hothers (Nat.le_of_succ_le_succ hfuel)).map_eq rfl

theorem reads_readAnnotationsIf {annotations : List InstructionAnnotation} {iAttr : Byte}
    (hannotated : decide (iAttr &&& IA_ANNOTE ≠ 0) = !annotations.isEmpty)
    (hfits : ∀ annote ∈ annotations, annote.payLoad.length < 128) {written : List Byte}
    (h : writeAnnotations annotations = .ok written) : Reader.Reads (readAnnotationsIf iAttr) written annotations := by
  constructor
  intro rest
  unfold readAnnotationsIf
  cases annotations with
  | nil =>
    cases h
    exact if_neg (of_decide_eq_false hannotated)
  | cons annote annotations =>
    have hlength := length_le_of_writeAnnotations h
    have hfuel : (annote :: annotations).length ≤ (written ++ rest).length := by
      simp only [List.length_append]
      omega
    have hreads := reads_readAnnotations (by simp) hfits h hfuel
    exact (if_pos (of_decide_eq_true hannotated)).trans (hreads.run rest)

/-- An element that fits is read, as one that begins an instruction or not. -/
theorem reads_readElement {elem : InstructionElement} (hfits : elem.Fits) {isEnd : Bool} {written : List Byte}
    (h : writeElement elem isEnd = .ok written) : Reader.Reads (readElement elem.begin) written (elem.kept, isEnd) := by
  obtain ⟨data, hdata, h⟩ := bind_eq_ok h
  obtain ⟨annotationBytes, hannotations, h⟩ := bind_eq_ok h
  cases h
  obtain ⟨begin, body, annotations⟩ := elem
  obtain ⟨hbody, hpayLoads⟩ := hfits
  have hread : Reader.Reads (readBody (attributeField ⟨begin, body, annotations⟩ isEnd)) data body.kept ∧
      decide (attributeField ⟨begin, body, annotations⟩ isEnd &&& IA_ANNOTE ≠ 0) = !annotations.isEmpty ∧
      decide (attributeField ⟨begin, body, annotations⟩ isEnd &&& IA_END ≠ 0) = isEnd := by
    cases body with
    | move m =>
      obtain ⟨htype, hempty, hguard, hannotated, hend⟩ :=
        moveAttribute m.isGuarded m.isEmpty (!annotations.isEmpty) isEnd
      have hcase : readBody (attributeField ⟨begin, .move m, annotations⟩ isEnd) = readMove _ := if_neg htype
      rw [hcase]
      exact ⟨reads_readMove hempty hguard hdata, hannotated, hend⟩
    | immediate imm =>
      obtain ⟨htype, hlength, hannotated, hend⟩ := immediateAttribute hbody (!annotations.isEmpty) isEnd
      have hcase : readBody (attributeField ⟨begin, .immediate imm, annotations⟩ isEnd) = readImmediate _ := if_pos htype
      rw [hcase]
      exact ⟨reads_readImmediate hlength hdata, hannotated, hend⟩
  obtain ⟨hread, hannotated, hend⟩ := hread
  apply (reads_readByte _).bind
  apply hread.bind
  apply (reads_readAnnotationsIf hannotated hpayLoads hannotations).map_eq
  rw [hend]
  rfl

theorem length_pos_of_writeElement {elem : InstructionElement} {isEnd : Bool} {written : List Byte}
    (h : writeElement elem isEnd = .ok written) : 0 < written.length := by
  obtain ⟨_, _, h⟩ := bind_eq_ok h
  obtain ⟨_, _, h⟩ := bind_eq_ok h
  cases h
  simp

theorem length_le_of_actualWriteData {elems : List InstructionElement} {written : List Byte}
    (h : actualWriteData elems = .ok written) : elems.length ≤ written.length := by
  induction elems generalizing written with
  | nil => exact Nat.zero_le _
  | cons elem elems ih =>
    obtain ⟨first, hfirst, h⟩ := bind_eq_ok h
    obtain ⟨others, hothers, h⟩ := bind_eq_ok h
    cases h
    have hpos := length_pos_of_writeElement hfirst
    have hle := ih hothers
    simp
    omega

/-- Elements that fit are read up to what follows the section. -/
theorem readElements_eq {elems : List InstructionElement} (hfits : ∀ elem ∈ elems, elem.Fits) {begin : Bool}
    (hbegin : ∀ elem ∈ elems.head?, elem.begin = begin) {written : List Byte}
    (h : actualWriteData elems = .ok written) {fuel : Nat} (hfuel : elems.length ≤ fuel) (rest : List Byte) :
    (readElements rest.length fuel begin).run (written ++ rest) = .ok (elems.map (·.kept), rest) := by
  induction elems generalizing begin written fuel with
  | nil =>
    cases h
    cases fuel <;> exact if_pos (Nat.le_refl _)
  | cons elem elems ih =>
    obtain ⟨first, hfirst, h⟩ := bind_eq_ok h
    obtain ⟨others, hothers, h⟩ := bind_eq_ok h
    cases h
    obtain ⟨hfit, hfits⟩ := List.forall_mem_cons.1 hfits
    cases fuel with
    | zero => cases hfuel
    | succ fuel =>
      have hpos := length_pos_of_writeElement hfirst
      have hlength : ¬ (first ++ others ++ rest).length ≤ rest.length := by simp; omega
      cases hbegin elem rfl
      have hnext : ∀ next ∈ elems.head?, next.begin = elems.head?.all (·.begin) := by
        intro next hnext
        rw [Option.mem_def.1 hnext]
        rfl
      have hrest := ih hfits hnext hothers (Nat.le_of_succ_le_succ hfuel)
      have hread := (reads_readElement hfit hfirst).run (others ++ rest)
      apply (if_neg hlength).trans
      rw [List.append_assoc]
      change StateT.run (readElement elem.begin >>= fun r =>
        readElements rest.length fuel r.2 >>= fun elems => pure (r.1 :: elems)) (first ++ (others ++ rest)) = _
      rw [StateT.run_bind, hread]
      change StateT.run (readElements rest.length fuel _ >>= fun elems => pure (elem.kept :: elems)) (others ++ rest) = _
      rw [StateT.run_bind, hrest]
      rfl

/-! ## What the writer accepts -/

theorem check_isOk (condition : Bool) : (∃ u, check condition = .ok u) ↔ condition = true := by
  cases condition <;> simp [check]

theorem exists_bind_eq_ok {ε α β : Type} {x : Except ε α} {f : α → Except ε β} :
    (∃ b, (x >>= f) = .ok b) ↔ ∃ a, x = .ok a ∧ ∃ b, f a = .ok b := by
  constructor
  · rintro ⟨b, h⟩
    obtain ⟨a, ha, hb⟩ := bind_eq_ok h
    exact ⟨a, ha, b, hb⟩
  · rintro ⟨a, rfl, b, hb⟩
    exact ⟨b, hb⟩

theorem sourceTypeBits_isOk (source : FieldType) : (∃ bits, sourceTypeBits source = .ok bits) ↔ source ≠ .MF_NULL := by
  cases source <;> simp [sourceTypeBits]

theorem destinationTypeBits_isOk (destination : FieldType) :
    (∃ bits, destinationTypeBits destination = .ok bits) ↔ destination = .MF_RF ∨ destination = .MF_UNIT := by
  cases destination <;> simp [destinationTypeBits]

theorem guardBits_isOk (move : MoveElement) : (∃ bits, guardBits move = .ok bits) ↔
    (move.isGuarded = true → move.guardType = .MF_RF ∨ move.guardType = .MF_UNIT) := by
  unfold guardBits
  cases move.isGuarded with
  | false => simp
  | true =>
    rw [if_pos rfl, exists_bind_eq_ok]
    cases move.guardType <;> simp [guardTypeBits, pure, Except.pure]

theorem fieldTypes_isOk (move : MoveElement) : (∃ types, fieldTypes move = .ok types) ↔ move.Accepted := by
  unfold MoveElement.Accepted fieldTypes
  cases move.isEmpty with
  | true => simp
  | false =>
    rw [← sourceTypeBits_isOk, ← destinationTypeBits_isOk, ← guardBits_isOk]
    simp [exists_bind_eq_ok, pure, Except.pure]

theorem writeDataField_isOk (body : ElementBody) : (∃ data, writeDataField body = .ok data) ↔ body.Accepted := by
  cases body with
  | move m =>
    change _ ↔ m.Accepted
    rw [← fieldTypes_isOk]
    simp [writeDataField, exists_bind_eq_ok, pure, Except.pure]
  | immediate imm => simp [writeDataField, exists_bind_eq_ok, pure, Except.pure, check_isOk, ElementBody.Accepted]

theorem writeAnnotations_isOk (annotations : List InstructionAnnotation) :
    (∃ written, writeAnnotations annotations = .ok written) ↔
      ∀ annote ∈ annotations, annote.id.toNat < 0xFFFFFF := by
  induction annotations with
  | nil => simp [writeAnnotations]
  | cons annote annotations ih =>
    simp [writeAnnotations, writeAnnotation, exists_bind_eq_ok, pure, Except.pure, check_isOk, ih]

theorem actualWriteData_isOk (elems : List InstructionElement) :
    (∃ written, actualWriteData elems = .ok written) ↔ ∀ elem ∈ elems, elem.Accepted := by
  induction elems with
  | nil => simp [actualWriteData]
  | cons elem elems ih =>
    simp [actualWriteData, writeElement, exists_bind_eq_ok, pure, Except.pure, ih, writeDataField_isOk,
      writeAnnotations_isOk, InstructionElement.Accepted, and_assoc]

/-- What the writer accepts is read back exactly when every immediate has at most
15 bytes and every annotation at most 127. -/
theorem roundTrips_iff (elem : InstructionElement) (elems : List InstructionElement) (hbegin : elem.begin = true) :
    RoundTrips (elem :: elems) ↔
      ((∀ e ∈ elem :: elems, e.Accepted) → ∀ e ∈ elem :: elems, e.Fits) := by
  constructor
  · intro h haccepted e he
    obtain ⟨written, hwritten⟩ := (actualWriteData_isOk _).2 haccepted
    have hread := h written [] hwritten
    rw [← fits_kept]
    exact readData_fits hread e.kept (List.mem_map_of_mem he)
  · intro h written after hwritten
    have hfits := h ((actualWriteData_isOk _).1 ⟨written, hwritten⟩)
    have hlength : (elem :: elems).length ≤ (written ++ after).length := by
      have := length_le_of_actualWriteData hwritten
      simp only [List.length_append]
      omega
    have hfirst : ∀ e ∈ (elem :: elems).head?, e.begin = true := by
      intro e he
      cases he
      exact hbegin
    have hread := readElements_eq hfits hfirst hwritten hlength after
    unfold readData
    rw [List.length_append, Nat.add_sub_cancel_left, ← List.length_append, hread]
    rfl

/-- An instruction of a guarded move and a short immediate is read back. -/
theorem roundTrips_guarded :
    RoundTrips [⟨true, .move ⟨false, 3, .MF_RF, .MF_UNIT, 1, 2, 300, 4, true, true, .MF_RF, 9, 77⟩, [⟨70000, [1, 2]⟩]⟩,
      ⟨false, .immediate ⟨3, 4, [5, 6]⟩, []⟩] :=
  (roundTrips_iff _ _ rfl).2 fun _ => by simp [InstructionElement.Fits, ElementBody.Fits]

/-- The length of an immediate of 16 bytes is written as 0. -/
theorem not_roundTrips_longImmediate :
    (∀ e ∈ [(⟨true, .immediate ⟨3, 4, List.replicate 16 7⟩, []⟩ : InstructionElement)], e.Accepted) ∧
      ¬ RoundTrips [⟨true, .immediate ⟨3, 4, List.replicate 16 7⟩, []⟩] := by
  constructor
  · simp [InstructionElement.Accepted, ElementBody.Accepted, IMMEDIATE_VALUE_MAX_BYTES]
  · intro h
    have hread := h (3 :: 3 :: 4 :: List.replicate 16 7) [] (by decide)
    revert hread
    decide

end Tce.TPEF
