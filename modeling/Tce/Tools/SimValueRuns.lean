import Tce.Tools.SimValue

/-!
# Observers and conversions of simulation values

The unsigned observers agree until a value that has been narrower than a word is
a word wide again: the mask of the narrow width is still there. A value that is
assigned to a wider one is extended by what its bytes have above its width.
-/

namespace Tce.RawSimValue

/-! ## Observers -/

/-- What was done to a value, and to those that were assigned to it. -/
inductive Calls where
  | create (uninitialised : RawData) (width : BitWidth)
  | construct (uninitialised : RawData) (value : BitVec 32) (width : BitWidth)
  | setBitWidth (calls : Calls) (width : BitWidth)
  | assignSIntWord (calls : Calls) (word : BitVec 32)
  | assignUIntWord (calls : Calls) (word : BitVec 32)
  | assignHalfFloatWord (calls : Calls) (word : BitVec 16)
  | assignFloatWord (calls : Calls) (word : BitVec 32)
  | assignDoubleWord (calls : Calls) (word : BitVec 64)
  | assign (calls source : Calls)

namespace Calls

def value : Calls → Option RawSimValue
  | create uninitialised width => some (RawSimValue.create uninitialised width)
  | construct uninitialised value width => RawSimValue.construct uninitialised value width
  | setBitWidth calls width => calls.value.map (·.setBitWidth width)
  | assignSIntWord calls word => calls.value.map (·.assignWord word)
  | assignUIntWord calls word => calls.value.map (·.assignWord word)
  | assignHalfFloatWord calls word => calls.value.map (·.assignHalfFloatWord word)
  | assignFloatWord calls word => calls.value.map (·.assignFloatWord word)
  | assignDoubleWord calls word => calls.value.map (·.assignDoubleWord word)
  | assign calls source => do
    let target ← calls.value
    let assigned ← source.value
    return target.assign assigned

/-- The widths that values are constructed with. -/
def constructions : Calls → List BitWidth
  | create _ _ => []
  | construct _ _ width => [width]
  | setBitWidth calls _ => calls.constructions
  | assignSIntWord calls _ => calls.constructions
  | assignUIntWord calls _ => calls.constructions
  | assignHalfFloatWord calls _ => calls.constructions
  | assignFloatWord calls _ => calls.constructions
  | assignDoubleWord calls _ => calls.constructions
  | assign calls source => calls.constructions ++ source.constructions

/-- The width, or else what it was before. -/
def narrower (width : Nat) (before : Option Nat) : Option Nat := if width < 32 then some width else before

/-- The last width of the value below that of a word. -/
def narrowed : Calls → Option Nat
  | create _ width => narrower width none
  | construct _ _ width => narrower width none
  | setBitWidth calls width => narrower width calls.narrowed
  | assignSIntWord calls _ => calls.narrowed
  | assignUIntWord calls _ => calls.narrowed
  | assignHalfFloatWord _ _ => some 16
  | assignFloatWord calls _ => calls.narrowed
  | assignDoubleWord calls _ => calls.narrowed
  | assign calls _ => calls.narrowed

/-- The calls are defined, both unsigned observers give the low bits, and a value that was just constructed
is that of the integer. -/
structure Observed (calls : Calls) : Prop where
  unsigned : ∃ v, calls.value = some v ∧ v.uIntWordValue.toNat = v.lowBits ∧ v.unsignedValue.toNat = v.lowBits
  constructed : ∀ uninitialised x width, calls = construct uninitialised x width → ∃ v, calls.value = some v ∧
    v.unsignedValue.toNat = x.toNat % 2 ^ min width.val 32 ∧ v.intValue = (x.setWidth (min width.val 32)).toInt

/-- Every construction is from a word that has the width, and a value as wide as a word fits in
the last narrower width. -/
structure Fits (calls : Calls) : Prop where
  constructions : ∀ width ∈ calls.constructions, width.val ≤ 32
  narrowed : ∀ v, calls.value = some v → 32 ≤ v.bitWidth.val → ∀ width, calls.narrowed = some width →
    v.number % 2 ^ 32 < 2 ^ width

/-- The mask is that of the last narrower width. -/
structure Masked (calls : Calls) (v : RawSimValue) : Prop where
  mask : v.mask = match calls.narrowed with
    | some width => ~~~((~~~0 : BitVec 32) <<< width)
    | none => ~~~0
  lt : ∀ width, calls.narrowed = some width → width < 32
  narrow : v.bitWidth.val < 32 → calls.narrowed = some v.bitWidth.val

end Calls

theorem setBitWidth_bitWidth (v : RawSimValue) (width : BitWidth) : (v.setBitWidth width).bitWidth = width := by
  unfold setBitWidth
  dsimp only
  split <;> rfl

theorem setBitWidth_mask (v : RawSimValue) (width : BitWidth) :
    (v.setBitWidth width).mask = if width.val < 32 then ~~~((~~~0 : BitVec 32) <<< width.val) else v.mask := by
  unfold setBitWidth
  dsimp only
  split <;> rfl

theorem construct_eq_some_iff (uninitialised : RawData) (x : BitVec 32) {width : BitWidth} :
    (construct uninitialised x width).isSome = true ↔ width.val ≤ 32 := by
  rw [construct]
  have hiff : byteCount width ≤ 4 ↔ width.val ≤ 32 := by
    rw [byteCount]
    omega
  by_cases h : byteCount width ≤ 4
  · rw [if_pos h]
    simp [hiff.1 h]
  · rw [if_neg h]
    simpa using fun hle => h (hiff.2 hle)

namespace Calls

theorem isSome_value (calls : Calls) : calls.value.isSome = true ↔ ∀ width ∈ calls.constructions, width.val ≤ 32 := by
  induction calls with
  | create => simp [value, constructions]
  | construct => simp [value, constructions, construct_eq_some_iff]
  | setBitWidth calls width ih => simpa [value, constructions] using ih
  | assignSIntWord calls word ih => simpa [value, constructions] using ih
  | assignUIntWord calls word ih => simpa [value, constructions] using ih
  | assignHalfFloatWord calls word ih => simpa [value, constructions] using ih
  | assignFloatWord calls word ih => simpa [value, constructions] using ih
  | assignDoubleWord calls word ih => simpa [value, constructions] using ih
  | assign calls source ih ih' =>
    rw [constructions, List.forall_mem_append, ← ih, ← ih', value]
    cases calls.value <;> cases source.value <;> simp

theorem Masked.setBitWidth {calls : Calls} {v : RawSimValue} (calls' : Calls) (width : BitWidth)
    (h : calls'.narrowed = narrower width calls.narrowed) (hv : Masked calls v) :
    Masked calls' (v.setBitWidth width) := by
  constructor
  · rw [setBitWidth_mask, h, narrower]
    split
    · rfl
    · exact hv.mask
  · intro k hk
    rw [h, narrower] at hk
    split at hk
    · next hlt => exact Option.some.inj hk ▸ hlt
    · exact hv.lt k hk
  · intro hlt
    rw [setBitWidth_bitWidth] at hlt ⊢
    rw [h, narrower, if_pos hlt]

/-- Only widths change the mask. -/
theorem Masked.of_same {calls calls' : Calls} {v v' : RawSimValue} (hv : Masked calls v)
    (hnarrowed : calls'.narrowed = calls.narrowed) (hmask : v'.mask = v.mask) (hwidth : v'.bitWidth = v.bitWidth) :
    Masked calls' v' := by
  constructor
  · rw [hmask, hnarrowed]
    exact hv.mask
  · rw [hnarrowed]
    exact hv.lt
  · rw [hwidth, hnarrowed]
    exact hv.narrow

theorem masked_create (uninitialised : RawData) (width : BitWidth) :
    Masked (create uninitialised width) (RawSimValue.create uninitialised width) := by
  rw [RawSimValue.create]
  constructor
  · rw [setBitWidth_mask, narrowed, narrower]
    split <;> rfl
  · intro k hk
    rw [narrowed, narrower] at hk
    split at hk
    · next hlt => exact Option.some.inj hk ▸ hlt
    · cases hk
  · intro hlt
    rw [setBitWidth_bitWidth] at hlt ⊢
    rw [narrowed, narrower, if_pos hlt]

theorem masked (calls : Calls) {v : RawSimValue} (hv : calls.value = some v) : Masked calls v := by
  induction calls generalizing v with
  | create uninitialised width => exact Option.some.inj hv ▸ masked_create uninitialised width
  | construct uninitialised x width =>
    rw [value, RawSimValue.construct] at hv
    split at hv
    · exact (masked_create uninitialised width).of_same rfl (Option.some.inj hv ▸ rfl) (Option.some.inj hv ▸ rfl)
    · cases hv
  | setBitWidth calls width ih =>
    obtain ⟨u, hu, rfl⟩ := Option.map_eq_some_iff.1 hv
    exact (ih hu).setBitWidth _ width rfl
  | assignSIntWord calls word ih =>
    obtain ⟨u, hu, rfl⟩ := Option.map_eq_some_iff.1 hv
    exact (ih hu).of_same rfl rfl rfl
  | assignUIntWord calls word ih =>
    obtain ⟨u, hu, rfl⟩ := Option.map_eq_some_iff.1 hv
    exact (ih hu).of_same rfl rfl rfl
  | assignHalfFloatWord calls word ih =>
    obtain ⟨u, hu, rfl⟩ := Option.map_eq_some_iff.1 hv
    exact ((ih hu).setBitWidth (setBitWidth calls ⟨16, by decide⟩) _ rfl).of_same rfl rfl rfl
  | assignFloatWord calls word ih =>
    obtain ⟨u, hu, rfl⟩ := Option.map_eq_some_iff.1 hv
    exact ((ih hu).setBitWidth (setBitWidth calls ⟨32, by decide⟩) _ rfl).of_same rfl rfl rfl
  | assignDoubleWord calls word ih =>
    obtain ⟨u, hu, rfl⟩ := Option.map_eq_some_iff.1 hv
    exact ((ih hu).setBitWidth (setBitWidth calls ⟨64, by decide⟩) _ rfl).of_same rfl rfl rfl
  | assign calls source ih _ =>
    obtain ⟨u, hu, hrest⟩ := Option.bind_eq_some_iff.1 hv
    obtain ⟨w, -, hw⟩ := Option.bind_eq_some_iff.1 hrest
    exact (ih hu).of_same rfl (Option.some.inj hw ▸ rfl) (Option.some.inj hw ▸ rfl)

/-! ### The mask of a narrower width -/

theorem toNat_uIntWordValue {calls : Calls} {v : RawSimValue} (h : Masked calls v) :
    v.uIntWordValue.toNat = match calls.narrowed with
      | some width => v.number % 2 ^ 32 % 2 ^ width
      | none => v.number % 2 ^ 32 := by
  have hmask := h.mask
  rw [uIntWordValue]
  cases hnarrowed : calls.narrowed with
  | none =>
    rw [hnarrowed] at hmask
    dsimp only at hmask ⊢
    have hones : (~~~(0 : BitVec 32)) = BitVec.allOnes 32 := rfl
    rw [hmask, hones, BitVec.and_allOnes, toNat_lowWord]
  | some width =>
    rw [hnarrowed] at hmask
    dsimp only at hmask ⊢
    rw [hmask, BitVec.toNat_and, MathTools.toNat_lowMask (Nat.le_of_lt (h.lt width hnarrowed)),
      Nat.and_two_pow_sub_one_eq_mod, toNat_lowWord]

/-- A narrow value has its own mask; a wide one may have that of the last narrower width. -/
theorem uIntWordValue_iff {calls : Calls} {v : RawSimValue} (h : Masked calls v) :
    v.uIntWordValue.toNat = v.lowBits ↔
      (32 ≤ v.bitWidth.val → ∀ width, calls.narrowed = some width → v.number % 2 ^ 32 < 2 ^ width) := by
  rw [toNat_uIntWordValue h, lowBits]
  by_cases hwide : 32 ≤ v.bitWidth.val
  · rw [Nat.min_eq_right hwide]
    cases hnarrowed : calls.narrowed with
    | none => simp
    | some width =>
      dsimp only
      constructor
      · rintro heq - k hk
        rw [← Option.some.inj hk, ← heq]
        exact Nat.mod_lt _ (Nat.two_pow_pos _)
      · intro hlt
        exact Nat.mod_eq_of_lt (hlt hwide width rfl)
  · have hlt : v.bitWidth.val < 32 := Nat.not_le.1 hwide
    rw [h.narrow hlt, Nat.min_eq_left (Nat.le_of_lt hlt)]
    dsimp only
    rw [Nat.mod_mod_of_dvd _ (Nat.pow_dvd_pow 2 (Nat.le_of_lt hlt))]
    exact iff_of_true rfl fun hle => absurd hle hwide

theorem number_construct {uninitialised : RawData} {x : BitVec 32} {width : BitWidth} {v : RawSimValue}
    (h : RawSimValue.construct uninitialised x width = some v) : v.bitWidth = width ∧ width.val ≤ 32 ∧
      v.number % 256 ^ 8 = x.toNat % 256 ^ byteCount width := by
  rw [RawSimValue.construct] at h
  split at h
  · next hcount =>
    obtain rfl := Option.some.inj h
    refine ⟨setBitWidth_bitWidth _ _, ?_, ?_⟩
    · rw [byteCount] at hcount
      omega
    · exact number_store_cleared _ _ (by omega) (number_setBitWidth _ _)
  · cases h

/-- The low bits of a value that was just constructed. -/
theorem mod_construct {uninitialised : RawData} {x : BitVec 32} {width : BitWidth} {v : RawSimValue}
    (h : RawSimValue.construct uninitialised x width = some v) {bits : Nat} (hbits : bits ≤ 8 * byteCount width) :
    v.number % 2 ^ bits = x.toNat % 2 ^ bits := by
  obtain ⟨-, hwidth, hnumber⟩ := number_construct h
  have hcount : byteCount width ≤ 4 := by
    rw [byteCount]
    omega
  have hpow : 256 ^ byteCount width = 2 ^ (8 * byteCount width) := by rw [Nat.pow_mul]
  have hall : 256 ^ 8 = 2 ^ 64 := by decide
  have hmod := congrArg (· % 2 ^ bits) hnumber
  rwa [hall, hpow, Nat.mod_mod_of_dvd _ (Nat.pow_dvd_pow 2 (by omega)),
    Nat.mod_mod_of_dvd _ (Nat.pow_dvd_pow 2 hbits)] at hmod

theorem intValue_of_mod {v : RawSimValue} {x : BitVec 32} (hwidth : v.bitWidth.val ≤ 32)
    (h : v.number % 2 ^ v.bitWidth.val = x.toNat % 2 ^ v.bitWidth.val) :
    v.intValue = (x.setWidth v.bitWidth.val).toInt := by
  rw [RawSimValue.intValue, Nat.min_eq_left hwidth, MathTools.toInt_fastSignExtendTo hwidth]
  congr 1
  apply BitVec.eq_of_toNat_eq
  rw [BitVec.toNat_setWidth, BitVec.toNat_setWidth, toNat_lowWord, Nat.mod_mod_of_dvd _ (Nat.pow_dvd_pow 2 hwidth), h]

/-- **The observers agree on the low bits** exactly if the calls fit. -/
theorem observed_iff (calls : Calls) : calls.Observed ↔ calls.Fits := by
  constructor
  · rintro ⟨⟨v, hv, hword, -⟩, -⟩
    refine ⟨calls.isSome_value.1 (hv ▸ rfl), fun v' hv' => ?_⟩
    obtain rfl := Option.some.inj (hv.symm.trans hv')
    exact (uIntWordValue_iff (calls.masked hv)).1 hword
  · rintro ⟨hconstructions, hnarrowed⟩
    obtain ⟨v, hv⟩ := Option.isSome_iff_exists.1 (calls.isSome_value.2 hconstructions)
    refine ⟨⟨v, hv, (uIntWordValue_iff (calls.masked hv)).2 (hnarrowed v hv), v.toNat_unsignedValue⟩, ?_⟩
    rintro uninitialised x width rfl
    obtain ⟨hbits, hwidth, -⟩ := number_construct hv
    have hle : width.val ≤ 8 * byteCount width := by
      rw [byteCount]
      omega
    have hmod := mod_construct hv hle
    refine ⟨v, hv, ?_, ?_⟩
    · rw [toNat_unsignedValue, lowBits, hbits, Nat.min_eq_left hwidth, hmod]
    · rw [Nat.min_eq_left hwidth, ← hbits]
      exact intValue_of_mod (hbits ▸ hwidth) (hbits ▸ hmod)

def zeros : RawData := ⟨List.replicate simValueMaxByteSize 0, List.length_replicate⟩

theorem wordWidth_le : 1 ≤ 32 ∧ 32 ≤ simdWordWidth := by decide

/-- A value of eight bits that becomes one of 32 bits: the mask leaves out the bits of 256. -/
def widened : Calls := assignSIntWord (setBitWidth (construct zeros 1 ⟨8, by decide⟩) ⟨32, wordWidth_le⟩) 256

theorem not_observed_widened : ¬ widened.Observed := by
  rintro ⟨⟨v, hv, hword, -⟩, -⟩
  have heval : widened.value.map (fun v => decide (v.uIntWordValue.toNat = v.lowBits)) = some false := by
    decide +kernel
  rw [hv, Option.map_some, decide_eq_true hword] at heval
  cases heval

end Calls

/-! ## Conversions -/

section Conversions
variable (uninitialised uninitialised' : RawData) (x : BitVec 32) (ws wt : BitWidth)

/-- `SimValue s(x, ws); SimValue t(wt); t = s;`. -/
def converted : Option (RawSimValue × RawSimValue) :=
  (construct uninitialised x ws).map fun s => (s, (create uninitialised' wt).assign s)

/-- A signed number that both widths have is kept; the low bits are those of the source, and the others
repeat the last of them. -/
structure Extends (s t : RawSimValue) : Prop where
  signed : (x.setWidth ws.val).toInt = x.toInt → (x.setWidth wt.val).toInt = x.toInt → t.intValue = x.toInt
  low : ∀ i < min ws.val wt.val, t.number.testBit i = s.number.testBit i
  rest : ∀ i, min ws.val wt.val ≤ i → i < wt.val → t.number.testBit i = t.number.testBit (min ws.val wt.val - 1)

/-- The bits of the integer above the source's width, which its last byte and the target have, repeat the
sign, and the sign is positive if the target has more bytes. -/
structure SignInBytes : Prop where
  bits : ∀ i, ws.val ≤ i → i < min wt.val (8 * byteCount ws) → x.getLsbD i = x.getLsbD (ws.val - 1)
  positive : 8 * byteCount ws < wt.val → x.getLsbD (ws.val - 1) = false

variable {uninitialised uninitialised' x ws wt}

/-- The bits of the target are those of the bytes that were copied. -/
theorem testBit_converted {s t : RawSimValue} (hconverted : converted uninitialised uninitialised' x ws wt = some (s, t))
    {i : Nat} (hi : i < wt.val) (hwt : wt.val ≤ 32) :
    t.bitWidth = wt ∧ s.number.testBit i = (decide (i < 8 * byteCount ws) && x.getLsbD i) ∧
      t.number.testBit i = s.number.testBit i := by
  obtain ⟨s', hs, heq⟩ := Option.map_eq_some_iff.1 hconverted
  obtain ⟨rfl, rfl⟩ := Prod.mk.inj heq
  obtain ⟨-, hws, hnumber⟩ := Calls.number_construct hs
  have hcreated : (create uninitialised' wt).bitWidth = wt := setBitWidth_bitWidth _ _
  have hpow (n : Nat) : 256 ^ n = 2 ^ (8 * n) := by rw [Nat.pow_mul]
  have hword : i < 64 := by omega
  have hcount : i < 8 * byteCount wt := by
    rw [byteCount]
    omega
  have hsource : s'.number.testBit i = (decide (i < 8 * byteCount ws) && x.getLsbD i) := by
    have htest := congrArg (·.testBit i) hnumber
    rwa [hpow, hpow, Nat.testBit_mod_two_pow, Nat.testBit_mod_two_pow, decide_eq_true hword, Bool.true_and] at htest
  refine ⟨hcreated, hsource, ?_⟩
  rw [number_assign, hcreated, hpow, Nat.mul_comm, Nat.testBit_two_pow_mul_add _ (Nat.mod_lt _ (Nat.two_pow_pos _)),
    if_pos hcount, Nat.testBit_mod_two_pow, decide_eq_true hcount, Bool.true_and]

/-- The value of the target is that of the low bits of the integer, if these are the bits of the target. -/
theorem intValue_of_testBit {t : RawSimValue} (hwt : t.bitWidth.val ≤ 32)
    (h : ∀ i < t.bitWidth.val, t.number.testBit i = x.getLsbD i) : t.intValue = (x.setWidth t.bitWidth.val).toInt := by
  apply Calls.intValue_of_mod hwt
  apply Nat.eq_of_testBit_eq
  intro i
  rw [Nat.testBit_mod_two_pow, Nat.testBit_mod_two_pow]
  by_cases hi : i < t.bitWidth.val
  · rw [decide_eq_true hi, h i hi]
    rfl
  · rw [decide_eq_false hi]
    rfl

/-- The bits of a number that a width has repeat the last one of the width. -/
theorem getLsbD_of_toInt_eq {width : Nat} (hpos : 1 ≤ width) (h : (x.setWidth width).toInt = x.toInt) {i : Nat}
    (hle : width ≤ i) (hi : i < 32) : x.getLsbD i = x.getLsbD (width - 1) := by
  have heq : (x.setWidth width).signExtend 32 = x := by
    apply BitVec.eq_of_toInt_eq
    rw [BitVec.toInt_signExtend_of_le (by omega), h]
  have hbit := congrArg (·.getLsbD i) heq
  rw [BitVec.getLsbD_signExtend, if_neg (Nat.not_lt.2 hle), BitVec.msb_eq_getLsbD_last, BitVec.getLsbD_setWidth,
    decide_eq_true hi, decide_eq_true (Nat.sub_one_lt_of_lt hpos), Bool.true_and, Bool.true_and] at hbit
  exact hbit.symm

theorem le_byteCount (width : Nat) : width ≤ 8 * byteCount width := by
  rw [byteCount]
  omega

theorem signInBytes_of_extends {s t : RawSimValue} (hwt : wt.val ≤ 32)
    (hconverted : converted uninitialised uninitialised' x ws wt = some (s, t)) (h : Extends x ws wt s t) :
    SignInBytes x ws wt := by
  have hle := le_byteCount ws.val
  have hpos := ws.2.1
  have hrest {i : Nat} (hi : ws.val ≤ i) (hiwt : i < wt.val) :
      (decide (i < 8 * byteCount ws) && x.getLsbD i) = x.getLsbD (ws.val - 1) := by
    have hmin : min ws.val wt.val = ws.val := Nat.min_eq_left (by omega)
    have hrepeat := h.rest i (hmin.symm ▸ hi) hiwt
    obtain ⟨-, hs, ht⟩ := testBit_converted hconverted hiwt hwt
    obtain ⟨-, hs', ht'⟩ := testBit_converted hconverted (i := ws.val - 1) (by omega) hwt
    rw [hmin, ht, hs, ht', hs', decide_eq_true (p := ws.val - 1 < 8 * byteCount ws) (by omega),
      Bool.true_and] at hrepeat
    exact hrepeat
  constructor
  · intro i hi hlt
    rw [Nat.lt_min] at hlt
    have hbit := hrest hi hlt.1
    rwa [decide_eq_true hlt.2, Bool.true_and] at hbit
  · intro hlt
    have hbit := hrest hle hlt
    rw [decide_eq_false (Nat.lt_irrefl _), Bool.false_and] at hbit
    exact hbit.symm

theorem extends_of_signInBytes {s t : RawSimValue} (hwt : wt.val ≤ 32)
    (hconverted : converted uninitialised uninitialised' x ws wt = some (s, t)) (h : SignInBytes x ws wt) :
    Extends x ws wt s t := by
  have hle := le_byteCount ws.val
  have hpos := ws.2.1
  constructor
  · intro hws hx
    have hwidth : t.bitWidth = wt := (testBit_converted hconverted (i := 0) wt.2.1 hwt).1
    rw [intValue_of_testBit (x := x) (by rwa [hwidth]), hwidth, hx]
    intro i hi
    rw [hwidth] at hi
    obtain ⟨-, hs, ht⟩ := testBit_converted hconverted hi hwt
    rw [ht, hs]
    by_cases hbyte : i < 8 * byteCount ws
    · rw [decide_eq_true hbyte, Bool.true_and]
    · rw [decide_eq_false hbyte, Bool.false_and, getLsbD_of_toInt_eq hpos hws (by omega) (by omega)]
      exact (h.positive (by omega)).symm
  · intro i hi
    exact (testBit_converted hconverted (Nat.lt_min.1 hi).2 hwt).2.2
  · intro i hi hiwt
    have hmin : min ws.val wt.val = ws.val := by omega
    rw [hmin] at hi ⊢
    obtain ⟨-, hs, ht⟩ := testBit_converted hconverted hiwt hwt
    obtain ⟨-, hs', ht'⟩ := testBit_converted hconverted (i := ws.val - 1) (by omega) hwt
    rw [ht, hs, ht', hs', decide_eq_true (p := ws.val - 1 < 8 * byteCount ws) (by omega), Bool.true_and]
    by_cases hbyte : i < 8 * byteCount ws
    · rw [decide_eq_true hbyte, Bool.true_and]
      exact h.bits i hi (Nat.lt_min.2 ⟨hiwt, hbyte⟩)
    · rw [decide_eq_false hbyte, Bool.false_and]
      exact (h.positive (by omega)).symm

theorem exists_converted (uninitialised uninitialised' : RawData) (x : BitVec 32) (wt : BitWidth) (hws : ws.val ≤ 32) :
    ∃ s t, converted uninitialised uninitialised' x ws wt = some (s, t) := by
  obtain ⟨s, hs⟩ := Option.isSome_iff_exists.1 ((construct_eq_some_iff uninitialised x).2 hws)
  exact ⟨s, (create uninitialised' wt).assign s, by rw [converted, hs, Option.map_some]⟩

/-- **Conversions keep signed values** exactly if the bytes of the source have its sign. -/
theorem extends_iff (hws : ws.val ≤ 32) (hwt : wt.val ≤ 32) : (∀ uninitialised uninitialised', ∃ s t,
    converted uninitialised uninitialised' x ws wt = some (s, t) ∧ Extends x ws wt s t) ↔ SignInBytes x ws wt := by
  constructor
  · intro h
    obtain ⟨s, t, hconverted, hextends⟩ := h Calls.zeros Calls.zeros
    exact signInBytes_of_extends hwt hconverted hextends
  · intro h uninitialised uninitialised'
    obtain ⟨s, t, hconverted⟩ := exists_converted uninitialised uninitialised' x wt hws
    exact ⟨s, t, hconverted, extends_of_signInBytes hwt hconverted h⟩

/-- From one bit to four there is one byte, which has the whole sign. -/
theorem extends_bit : SignInBytes (-1) ⟨1, by decide⟩ ⟨4, by decide⟩ ∧ ∀ uninitialised uninitialised', ∃ s t,
    converted uninitialised uninitialised' (-1) ⟨1, by decide⟩ ⟨4, by decide⟩ = some (s, t) ∧
      Extends (-1) ⟨1, by decide⟩ ⟨4, by decide⟩ s t := by
  have hones : ∀ i < 4, (-1 : BitVec 32).getLsbD i = (-1 : BitVec 32).getLsbD 0 := by decide
  have hsign : SignInBytes (-1) ⟨1, by decide⟩ ⟨4, by decide⟩ := by
    refine ⟨fun i _ hlt => ?_, fun hlt => absurd hlt (by decide)⟩
    exact hones i (Nat.lt_min.1 hlt).1
  exact ⟨hsign, (extends_iff (by decide) (by decide)).2 hsign⟩

/-- From eight bits to sixteen a negative number becomes positive. -/
theorem not_extends_byte : ¬ ∀ uninitialised uninitialised', ∃ s t,
    converted uninitialised uninitialised' (-1) ⟨8, by decide⟩ ⟨16, by decide⟩ = some (s, t) ∧
      Extends (-1) ⟨8, by decide⟩ ⟨16, by decide⟩ s t := by
  intro h
  obtain ⟨s, t, hconverted, hextends⟩ := h Calls.zeros Calls.zeros
  have hsign := (signInBytes_of_extends (by decide) hconverted hextends).positive (by decide)
  exact absurd hsign (by decide)

end Conversions

end Tce.RawSimValue
