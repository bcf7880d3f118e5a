import Tce.Base.BigEndian
import Tce.TPEF.CodeSection

/-!
# Words in immediates

`ImmediateElement::setWord` keeps a word in as few bytes as it takes, and
`ImmediateElement::word` reads it back.
-/

namespace Tce.TPEF

open BigEndian

inductive ImmediateFault where
  | outOfRange
  deriving DecidableEq, Repr

namespace ImmediateElement

def length (e : ImmediateElement) : Nat := e.value.length

/-- One zero byte for each byte of the word up to the first that is not zero. -/
def zeroBytes (aValue : Word) : List Byte :=
  ((List.range 4).foldl (fun (bytes, tempValue) _ =>
    (if tempValue > 0 then bytes ++ [0] else bytes, tempValue >>> 8)) (([], aValue) : List Byte × Word)).1

def setWord (e : ImmediateElement) (aValue : Word) : ImmediateElement :=
  let bytes := zeroBytes aValue
  { e with
    value := ((List.range bytes.length).foldl (fun (bytes, aValue) i =>
      (bytes.set (bytes.length - (i + 1)) (aValue.setWidth 8), aValue >>> 8)) (bytes, aValue)).1 }

def word (e : ImmediateElement) : Except ImmediateFault Word :=
  e.value.zipIdx.foldlM (fun retValue (aByte, i) =>
    let retValue := retValue <<< 8 ||| aByte.setWidth 32
    if retValue ≠ 0 ∧ e.length - i > 4 then .error .outOfRange else .ok retValue) 0

theorem foldl_zeroBytes (l : List Nat) (start : List Byte) (tempValue : Word) (h : tempValue.toNat < 256 ^ l.length) :
    ∃ n ≤ l.length, (l.foldl (fun (bytes, tempValue) _ =>
      (if tempValue > 0 then bytes ++ [0] else bytes, tempValue >>> 8)) (start, tempValue)).1 =
        start ++ List.replicate n 0 ∧ tempValue.toNat < 256 ^ n := by
  induction l generalizing start tempValue with
  | nil => exact ⟨0, Nat.le_refl 0, by simp, h⟩
  | cons i l ih =>
    have hshift : (tempValue >>> 8).toNat = tempValue.toNat / 256 := by
      rw [BitVec.toNat_ushiftRight, Nat.shiftRight_eq_div_pow]
    have hlt : (tempValue >>> 8).toNat < 256 ^ l.length := by
      rw [List.length_cons, Nat.pow_succ] at h
      rw [hshift]
      omega
    rw [List.foldl_cons]
    by_cases hpos : tempValue > 0
    · obtain ⟨n, hn, hbytes, hfits⟩ := ih (start ++ [0]) _ hlt
      refine ⟨n + 1, Nat.succ_le_succ hn, ?_, ?_⟩
      · simp only [if_pos hpos, hbytes, List.append_assoc, List.singleton_append, List.replicate_succ]
      · rw [hshift] at hfits
        rw [Nat.pow_succ]
        omega
    · obtain ⟨n, hn, hbytes, _⟩ := ih start _ hlt
      refine ⟨n, Nat.le_succ_of_le hn, ?_, ?_⟩
      · simp only [if_neg hpos, hbytes]
      · have hzero : tempValue.toNat = 0 := by
          have hle := BitVec.not_lt.1 hpos
          simpa using BitVec.le_def.1 hle
        rw [hzero]
        exact Nat.pow_pos (by decide)

theorem zeroBytes_eq (aValue : Word) : ∃ n ≤ 4, zeroBytes aValue = List.replicate n 0 ∧ aValue.toNat < 256 ^ n := by
  have hlt : aValue.toNat < 256 ^ (List.range 4).length := aValue.isLt
  simpa [zeroBytes] using foldl_zeroBytes (List.range 4) [] aValue hlt

/-- The bytes are set from the last one on. -/
theorem foldl_set (n m : Nat) (aValue : Word) (h : m ≤ n) :
    (List.range m).foldl (fun (bytes, aValue) i =>
      (bytes.set (bytes.length - (i + 1)) (BitVec.setWidth 8 aValue), aValue >>> 8))
        (List.replicate n (0 : Byte), aValue) =
      (List.replicate (n - m) 0 ++ bytes m aValue.toNat, aValue >>> (8 * m)) := by
  induction m with
  | zero => simp [bytes]
  | succ m ih =>
    obtain ⟨k, rfl⟩ := Nat.exists_eq_add_of_lt h
    have hlength : m + k + 1 - m = k + 1 := by omega
    have hbyte : BitVec.setWidth 8 (aValue >>> (8 * m)) = BitVec.ofNat 8 (aValue.toNat >>> (8 * m)) := by
      rw [← BitVec.toNat_ushiftRight]
      rfl
    have hend : m + k + 1 - (m + 1) = k := by omega
    rw [List.range_succ, List.foldl_append, ih (by omega), hlength, hend, bytes_succ, ← hbyte]
    simp [List.replicate_succ', Nat.mul_succ, BitVec.shiftRight_add]

theorem value_setWord (e : ImmediateElement) (aValue : Word) :
    ∃ n ≤ 4, (e.setWord aValue).value = bytes n aValue.toNat ∧ aValue.toNat < 256 ^ n := by
  obtain ⟨n, hn, hbytes, hlt⟩ := zeroBytes_eq aValue
  refine ⟨n, hn, ?_, hlt⟩
  rw [setWord, hbytes, List.length_replicate, foldl_set n n aValue (Nat.le_refl n)]
  simp

theorem foldl_word (l : List Byte) :
    l.foldl (fun (retValue : Word) aByte => retValue <<< 8 ||| aByte.setWidth 32) 0 = BitVec.ofNat 32 (BigEndian.value l) := by
  induction l using List.reverseRecOn with
  | nil => rfl
  | append_singleton l aByte ih =>
    have hvalue : BigEndian.value (l ++ [aByte]) = BigEndian.value l <<< 8 ||| aByte.toNat := by
      rw [BigEndian.value, List.foldl_append]
      rfl
    rw [List.foldl_append, ih, List.foldl_cons, List.foldl_nil, hvalue]
    apply BitVec.eq_of_getLsbD_eq
    intro i hi
    have hlow : i - 8 < 32 := by omega
    rw [BitVec.getLsbD_or, BitVec.getLsbD_shiftLeft, BitVec.getLsbD_setWidth, BitVec.getLsbD_ofNat, BitVec.getLsbD_ofNat,
      Nat.testBit_or, Nat.testBit_shiftLeft, BitVec.getLsbD]
    by_cases hbyte : i < 8
    · simp [hi, hbyte, Nat.not_le_of_lt hbyte]
    · simp [hi, hlow, hbyte, Nat.le_of_not_lt hbyte]

theorem word_eq {e : ImmediateElement} {n v : Nat} (hn : n ≤ 4) (hvalue : e.value = bytes n v) (hlt : v < 256 ^ n) :
    e.word = .ok (BitVec.ofNat 32 v) := by
  have hlength : e.length ≤ 4 := by
    rw [length, hvalue, length_bytes]
    exact hn
  have hround : ∀ (l : List (Byte × Nat)) (start : Word), (l.foldlM (fun retValue (aByte, i) =>
      let retValue := retValue <<< 8 ||| aByte.setWidth 32
      if retValue ≠ 0 ∧ e.length - i > 4 then .error .outOfRange else .ok retValue) start :
        Except ImmediateFault Word) = .ok ((l.map (·.1)).foldl (fun (retValue : Word) aByte => retValue <<< 8 ||| aByte.setWidth 32) start) := by
    intro l
    induction l with
    | nil => exact fun _ => rfl
    | cons entry l ih =>
      intro start
      obtain ⟨aByte, i⟩ := entry
      have hin : ¬ (start <<< 8 ||| BitVec.setWidth 32 aByte ≠ 0 ∧ e.length - i > 4) := by omega
      rw [List.foldlM_cons, List.map_cons, List.foldl_cons]
      simp only [if_neg hin]
      exact ih _
  rw [word, hround, List.zipIdx_map_fst, foldl_word, hvalue, value_bytes_of_lt hlt]

/-- A word is read back from an immediate. -/
theorem word_setWord (e : ImmediateElement) (aValue : Word) : (e.setWord aValue).word = .ok aValue := by
  obtain ⟨n, hn, hvalue, hlt⟩ := e.value_setWord aValue
  rw [word_eq hn hvalue hlt, BitVec.ofNat_toNat, BitVec.setWidth_eq]

end ImmediateElement

end Tce.TPEF
