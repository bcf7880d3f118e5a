import Tce.Tools.InputStream

/-!
# Conversions of numbers and strings

`Conversion`: integers from decimal, hexadecimal and binary strings, and the strings of integers.
-/

namespace Tce.Tools

structure NumberFormatException where
  errorMessage : String
  deriving DecidableEq, Repr

namespace Conversion
open InputStream Numerals

/-- Whether no word is left; a stream that has failed has none. -/
def restWhiteSpace (str : InputStream) : Bool := str.readString.2.failbit

/-- The conversion of a string, by the extraction of the destination. -/
def convert {α : Type} (read : InputStream → α × InputStream) (destIsNumeric : Bool) (source : List Char) :
    Except NumberFormatException α := do
  let (firstToken, tempStream) := (ofString source).readString
  if tempStream.failbit then throw ⟨"empty input"⟩
  if !restWhiteSpace tempStream then throw ⟨"garbage at the end"⟩
  let stream := ofString firstToken
  if destIsNumeric && !(stream.rest.head?.any fun c => c.isDigit || c = '-') then
    throw ⟨"garbage at the beginning"⟩
  let (destination, stream) := read stream
  if stream.failbit then throw ⟨"illegal input format"⟩
  if !restWhiteSpace stream then throw ⟨"garbage at the end"⟩
  return destination

def toString (source : List Char) : Except NumberFormatException (List Char) := convert readString false source

/-- The digits of a binary number; another character throws the exception again. -/
def readBinary (e : NumberFormatException) : List Char → BitVec 32 → Except NumberFormatException (BitVec 32)
  | [], theInt => .ok theInt
  | c :: cs, theInt =>
    if c = '0' then readBinary e cs (theInt <<< 1 ||| 0)
    else if c = '1' then readBinary e cs (theInt <<< 1 ||| 1)
    else .error e

/-- A string that is no decimal number is one in hex or in binary format, if it is any. -/
def toInt (source : List Char) : Except NumberFormatException (BitVec 32) :=
  match convert readInt true source with
  | .ok theInt => .ok (BitVec.ofInt 32 theInt)
  | .error e =>
    match toString source with
    | .error e => .error e
    | .ok binary =>
      let (first, hexStream) := (ofString source).get
      let (second, hexStream) := hexStream.get
      if first = some '0' ∧ second = some 'x' then
        let (theUnsigned, hexStream) := hexStream.readHex
        if !restWhiteSpace hexStream then
          .error ⟨"Unable to convert the argument to integer: illegal hex string."⟩
        else .ok theUnsigned
      else if 1 < binary.length ∧ binary.getLast? = some 'b' then
        if 32 < binary.length - 1 then
          .error ⟨"Unable to convert the argument to integer: too long binary number."⟩
        else readBinary e binary.dropLast 0
      else .error ⟨"Unable to convert the argument to integer: " ++ e.errorMessage ++ "."⟩

/-- The bits that a shift to the left takes out, from the most significant one. -/
def shiftedOut : Nat → BitVec 32 → List Char
  | 0, _ => []
  | i + 1, source => (if source &&& 0x80000000 ≠ 0 then '1' else '0') :: shiftedOut i (source <<< 1)

/-- A width of 0 takes the leading zeros away. -/
def toBinary (source : BitVec 32) (stringWidth : Nat) : List Char :=
  let result := shiftedOut 32 source
  if stringWidth = 0 then
    if '1' ∈ result then result.dropWhile (· ≠ '1') else ['0']
  else if stringWidth < result.length then result.drop (result.length - stringWidth)
  else List.replicate (stringWidth - result.length) '0' ++ result

def toBinString (source : BitVec 32) : List Char := toBinary source 0 ++ ['b']

def toHexString (source : BitVec 32) (digits : Nat) : List Char :=
  let str := ofString ((Nat.toDigits 16 source.toNat).leftpad digits '0')
  '0' :: 'x' :: str.readString.1

/-! ## One word -/

theorem restWhiteSpace_failed {rest : List Char} {eofbit : Bool} : restWhiteSpace ⟨rest, eofbit, true⟩ = true := by
  simp [restWhiteSpace, readString, sentry, good]

theorem restWhiteSpace_iff {rest : List Char} : restWhiteSpace ⟨rest, rest.isEmpty, false⟩ = true ↔ Blank rest := by
  cases rest with
  | nil => exact iff_of_true rfl blank_nil
  | cons c cs =>
    unfold Blank restWhiteSpace readString sentry
    rw [if_neg (by simp [good]), ← List.dropWhile_eq_nil_iff]
    dsimp only
    cases hdrop : (c :: cs).dropWhile isSpace with
    | nil => exact iff_of_true rfl rfl
    | cons d ds => exact iff_of_false Bool.false_ne_true (List.cons_ne_nil d ds)

theorem blank_iff_nil {rest word : List Char} (h : ∀ c ∈ word, isSpace c = false) (hrest : rest ⊆ word) :
    Blank rest ↔ rest = [] := by
  constructor
  · intro hblank
    cases rest with
    | nil => rfl
    | cons c cs =>
      have hspace := hblank c List.mem_cons_self
      rw [h c (hrest List.mem_cons_self)] at hspace
      cases hspace
  · rintro rfl
    exact blank_nil

section word
variable {s before word after : List Char} {α : Type} {read : InputStream → α × InputStream} {destIsNumeric : Bool}

/-- Without a word nothing is converted. -/
theorem convert_blank (h : Blank s) : convert read destIsNumeric s = .error ⟨"empty input"⟩ := by
  have hread : (ofString s).readString = ([], ⟨[], true, true⟩) := by rw [readString, sentry_blank h]
  unfold convert
  rw [hread]
  rfl

theorem convert_words {rest : List Char} (h : (ofString s).readString = (word, ⟨rest, rest.isEmpty, false⟩))
    (hrest : ¬Blank rest) : convert read destIsNumeric s = .error ⟨"garbage at the end"⟩ := by
  have hmore : restWhiteSpace ⟨rest, rest.isEmpty, false⟩ = false := by
    rw [← Bool.not_eq_true, restWhiteSpace_iff]
    exact hrest
  unfold convert
  rw [h]
  simp [hmore]
  rfl

/-- Only the word counts. -/
theorem convert_word (h : Word s before word after) :
    convert read destIsNumeric s = convert read destIsNumeric word := by
  unfold convert
  rw [h.readString_eq, h.self.readString_eq]
  simp only [restWhiteSpace_iff.2 h.after, restWhiteSpace_iff.2 h.self.after]

/-- The destination is what is read, if the whole word is. -/
theorem convert_ok_iff (h : Word s before word after) {dest value : α} {rest : List Char} {failbit : Bool}
    (hread : read (ofString word) = (value, ⟨rest, rest.isEmpty, failbit⟩)) (hrest : rest ⊆ word) :
    convert read destIsNumeric s = .ok dest ↔
      (destIsNumeric = true → word.head?.any (fun c => c.isDigit || c = '-') = true) ∧ failbit = false ∧ rest = [] ∧
        dest = value := by
  rw [convert_word h]
  unfold convert
  rw [h.self.readString_eq]
  dsimp only
  rw [hread, show restWhiteSpace ⟨[], List.isEmpty [], false⟩ = true from rfl, ← blank_iff_nil h.word hrest,
    ← restWhiteSpace_iff]
  cases hnumeric : destIsNumeric && !((ofString word).rest.head?.any fun c => c.isDigit || c = '-') with
  | true =>
    refine iff_of_false (fun hok => by cases hok) fun hall => ?_
    rw [Bool.and_eq_true] at hnumeric
    rw [show (ofString word).rest = word from rfl, hall.1 hnumeric.1] at hnumeric
    cases hnumeric.2
  | false =>
    have hhead : destIsNumeric = true → word.head?.any (fun c => c.isDigit || c = '-') = true := by
      rintro rfl
      rw [show (ofString word).rest = word from rfl] at hnumeric
      simpa using hnumeric
    rw [and_iff_right hhead]
    cases failbit with
    | true => exact iff_of_false (fun hok => by cases hok) fun hall => by cases hall.1
    | false =>
      rw [and_iff_right rfl]
      cases hmore : restWhiteSpace ⟨rest, rest.isEmpty, false⟩ with
      | false => exact iff_of_false (fun hok => by cases hok) fun hall => by cases hall.1
      | true =>
        rw [and_iff_right rfl]
        exact ⟨fun hok => by cases hok; rfl, fun hdest => by rw [hdest]; rfl⟩

theorem toString_word (h : Word s before word after) : toString s = .ok word := by
  unfold toString
  exact (convert_ok_iff h h.self.readString_eq (List.nil_subset _)).2 
    ⟨fun hfalse => absurd hfalse Bool.false_ne_true, rfl, rfl, rfl⟩

end word

/-! ## Decimal numbers -/

def sign (negative : Bool) : List Char := if negative then ['-'] else []

/-- A decimal literal in the range of `int`. -/
def IsDecimal (word : List Char) (n : Int) : Prop :=
  ∃ negative digits, IsNumeral 10 digits ∧ word = sign negative ++ digits ∧ n = signed negative (value 10 digits) ∧
    -2147483648 ≤ n ∧ n ≤ 2147483647

theorem isDigit_ten {c : Char} (h : isDigit 10 c = true) : c.isDigit = true := by
  have hlt : digitValue c < 10 := of_decide_eq_true h
  unfold digitValue at hlt
  split at hlt
  · next hc => exact Bool.and_eq_true_iff.2 ⟨decide_eq_true hc.1, decide_eq_true hc.2⟩
  · split at hlt
    · next hc =>
      have hle : 97 ≤ c.toNat := hc.1
      omega
    · split at hlt
      · next hc =>
        have hle : 65 ≤ c.toNat := hc.1
        omega
      · omega

section word
variable {s before word after : List Char}

theorem sentry_word (h : Word s before word after) : (ofString word).sentry = .ok word := by
  have hdrop := h.self.dropWhile_eq
  rw [List.append_nil] at hdrop
  obtain ⟨c, cs, rfl⟩ := List.exists_cons_of_ne_nil h.ne_nil
  exact sentry_eq hdrop

theorem readInt_word (h : Word s before word after) {field : NumberField} (hfield : NumberField.read 10 word = field) :
    ∃ n failbit, readInt (ofString word) = (n, ⟨field.rest, field.rest.isEmpty, failbit⟩) ∧
      (failbit = false → n = signed field.negative (value 10 field.digits)) ∧
      (failbit = false ↔ field.digits ≠ [] ∧ -2147483648 ≤ signed field.negative (value 10 field.digits) ∧
        signed field.negative (value 10 field.digits) ≤ 2147483647) := by
  have hfailed {n : Int} (hnot : ¬(field.digits ≠ [] ∧ -2147483648 ≤ signed field.negative (value 10 field.digits) ∧
      signed field.negative (value 10 field.digits) ≤ 2147483647)) :
      ∃ m failbit, (n, (⟨field.rest, field.rest.isEmpty, true⟩ : InputStream)) =
          (m, ⟨field.rest, field.rest.isEmpty, failbit⟩) ∧
        (failbit = false → m = signed field.negative (value 10 field.digits)) ∧
        (failbit = false ↔ field.digits ≠ [] ∧ -2147483648 ≤ signed field.negative (value 10 field.digits) ∧
          signed field.negative (value 10 field.digits) ≤ 2147483647) :=
    ⟨n, true, rfl, fun hfail => absurd hfail (by decide), iff_of_false (by decide) hnot⟩
  unfold readInt
  rw [sentry_word h]
  dsimp only
  rw [hfield]
  split
  · next hnone => exact hfailed fun hall => hall.1 hnone
  · next hsome =>
    split
    · exact hfailed fun hall => by omega
    · split
      · exact hfailed fun hall => by omega
      · exact ⟨_, _, rfl, fun _ => rfl, iff_of_true rfl ⟨hsome, by omega, by omega⟩⟩

/-- Decimal literals are what is converted as it stands. -/
theorem convert_readInt_iff (h : Word s before word after) {n : Int} :
    convert readInt true s = .ok n ↔ IsDecimal word n := by
  constructor
  · obtain ⟨m, failbit, hread, hm, hfail⟩ := readInt_word h rfl
    rw [convert_ok_iff h hread NumberField.rest_subset]
    rintro ⟨hhead, hgood, hrest, rfl⟩
    have hplus : word.head? ≠ some '+' := by
      intro hplus
      have hnot := hhead rfl
      rw [hplus] at hnot
      cases hnot
    have hword := NumberField.read_decimal hplus
    rw [hrest, List.append_nil] at hword
    obtain ⟨hdigits, hrange⟩ := hfail.1 hgood
    rw [← hm hgood] at hrange
    exact ⟨_, _, ⟨hdigits, fun c hc => List.mem_takeWhile_imp hc⟩, hword.symm, hm hgood, hrange⟩
  · rintro ⟨negative, digits, ⟨hdigits, hall⟩, rfl, rfl, hrange⟩
    obtain ⟨m, failbit, hread, hm, hfail⟩ := readInt_word h (NumberField.read_numeral hall (by decide) negative)
    have hgood := hfail.2 ⟨hdigits, hrange⟩
    refine (convert_ok_iff h hread (List.nil_subset _)).2 ⟨fun _ => ?_, hgood, rfl, (hm hgood).symm⟩
    cases negative with
    | true => rfl
    | false =>
      obtain ⟨c, cs, rfl⟩ := List.exists_cons_of_ne_nil hdigits
      exact Bool.or_eq_true_iff.2 (.inl (isDigit_ten (hall c List.mem_cons_self)))

end word

/-! ## Binary numbers -/

theorem isDigit_two {c : Char} : isDigit 2 c = true ↔ c = '0' ∨ c = '1' := by
  constructor
  · intro h
    have hlt : digitValue c < 2 := of_decide_eq_true h
    unfold digitValue at hlt
    split at hlt
    · next hc =>
      have hle : 48 ≤ c.toNat := hc.1
      have hcases : c.toNat = 48 ∨ c.toNat = 49 := by omega
      exact hcases.imp (fun heq => Char.toNat_inj.1 heq) fun heq => Char.toNat_inj.1 heq
    · split at hlt
      · next hc =>
        have hle : 97 ≤ c.toNat := hc.1
        omega
      · split at hlt
        · next hc =>
          have hle : 65 ≤ c.toNat := hc.1
          omega
        · omega
  · rintro (rfl | rfl) <;> rfl

theorem shift_or {k bin : Nat} (hbin : bin < 2) :
    BitVec.ofNat 32 k <<< 1 ||| BitVec.ofNat 32 bin = BitVec.ofNat 32 (2 * k + bin) := by
  apply BitVec.eq_of_toNat_eq
  have hor : (2 * k % 4294967296) ||| bin = 2 * (k % 2147483648) + bin := by
    have heq := Nat.two_pow_add_eq_or_of_lt (i := 1) hbin (k % 2147483648)
    rw [show 2 * k % 4294967296 = 2 ^ 1 * (k % 2147483648) from by omega, ← heq]
  rw [BitVec.toNat_or, BitVec.toNat_shiftLeft, BitVec.toNat_ofNat, BitVec.toNat_ofNat, BitVec.toNat_ofNat,
    Nat.mod_eq_of_lt (Nat.lt_of_lt_of_le hbin (by decide : 2 ≤ 2 ^ 32)), Nat.shiftLeft_eq]
  rw [show k % 2 ^ 32 * 2 ^ 1 % 2 ^ 32 = 2 * k % 4294967296 from by omega, hor]
  omega

/-- The loop takes binary digits only, and gives their number. -/
theorem readBinary_iff {e : NumberFormatException} {digits : List Char} {k : Nat} {n : BitVec 32} :
    readBinary e digits (BitVec.ofNat 32 k) = .ok n ↔
      (∀ c ∈ digits, isDigit 2 c = true) ∧ n = BitVec.ofNat 32 (k * 2 ^ digits.length + value 2 digits) := by
  induction digits generalizing k with
  | nil =>
    rw [readBinary, List.length_nil, Nat.pow_zero, Nat.mul_one]
    exact ⟨fun hok => ⟨fun c hc => by (cases hc), by cases hok; rfl⟩, fun h => by rw [h.2]; rfl⟩
  | cons c digits ih =>
    have hvalue (bin : Nat) (hc : digitValue c = bin) : (2 * k + bin) * 2 ^ digits.length + value 2 digits =
        k * 2 ^ (c :: digits).length + value 2 (c :: digits) := by
      rw [value_cons, hc, List.length_cons, Nat.pow_succ]
      ring
    have hbin (bin : Nat) (hlt : bin < 2) (hc : digitValue c = bin) :
        readBinary e digits (BitVec.ofNat 32 k <<< 1 ||| BitVec.ofNat 32 bin) = .ok n ↔
          (∀ d ∈ c :: digits, isDigit 2 d = true) ∧
            n = BitVec.ofNat 32 (k * 2 ^ (c :: digits).length + value 2 (c :: digits)) := by
      rw [shift_or hlt, ih, hvalue bin hc, List.forall_mem_cons,
        and_iff_right (show isDigit 2 c = true from decide_eq_true (hc.symm ▸ hlt))]
    rw [readBinary]
    split
    · next hc => exact hbin 0 (by decide) (hc ▸ rfl)
    · next hzero =>
      split
      · next hc => exact hbin 1 (by decide) (hc ▸ rfl)
      · next hone =>
        refine iff_of_false (fun hok => by cases hok) fun hall => ?_
        exact (isDigit_two.1 (hall.1 c List.mem_cons_self)).elim hzero hone

end Conversion

end Tce.Tools
