import Mathlib.Data.List.Basic
import Tce.Tools.Conversion

/-!
# Strings of integers

The strings that denote integers, which of them are converted, and the strings that integers are printed as.
-/

namespace Tce.Tools.Conversion
open InputStream Numerals

/-! ## Literals -/

/-- What stands behind the `0x` of a hexadecimal literal. -/
def IsHexadecimal (field : List Char) : Prop := IsNumeral 16 field ∧ field.length ≤ 8

def IsBinary (word : List Char) (n : BitVec 32) : Prop :=
  ∃ digits, IsNumeral 2 digits ∧ digits.length ≤ 32 ∧ word = digits ++ ['b'] ∧ n = BitVec.ofNat 32 (value 2 digits)

/-- The words that denote integers of 32 bits. -/
inductive Literal : List Char → BitVec 32 → Prop
  | decimal {word : List Char} {n : Int} : IsDecimal word n → Literal word (BitVec.ofInt 32 n)
  | hexadecimal {field : List Char} : IsHexadecimal field →
    Literal ('0' :: 'x' :: field) (BitVec.ofNat 32 (value 16 field))
  | binary {word : List Char} {n : BitVec 32} : IsBinary word n → Literal word n

/-- A literal with blanks around it. -/
def Denotes (s : List Char) (n : BitVec 32) : Prop :=
  ∃ before word after, Blank before ∧ Literal word n ∧ Blank after ∧ s = before ++ (word ++ after)

/-- A string is converted if it denotes a number, to that number, and is refused otherwise. -/
structure Correct (s : List Char) : Prop where
  returns : ∀ n, Denotes s n → toInt s = .ok n
  only : ∀ n, toInt s = .ok n → Denotes s n
  throws : (∀ n, ¬Denotes s n) → ∃ e, toInt s = .error e

/-- A number of 32 bits, and something else behind it. -/
def HasGarbage (field : List Char) : Prop :=
  (NumberField.read 16 field).digits ≠ [] ∧ value 16 (NumberField.read 16 field).digits ≤ 4294967295 ∧
    (NumberField.read 16 field).rest ≠ []

/-- A word with `0x` in front is a hexadecimal literal or has garbage in it, if it starts the string, and is no
literal otherwise. -/
def Readable (s : List Char) : Prop :=
  ∀ before field after, Word s before ('0' :: 'x' :: field) after →
    if before = [] then IsHexadecimal field ∨ HasGarbage field else ¬IsHexadecimal field

theorem not_isSpace_of_isDigit {base : Nat} {c : Char} (hbase : base ≤ 16) (h : isDigit base c = true) :
    isSpace c = false := by
  cases hc : isSpace c with
  | false => rfl
  | true =>
    rw [not_isDigit_of_isSpace hbase hc] at h
    cases h

theorem Literal.word {word : List Char} {n : BitVec 32} (h : Literal word n) : Word word [] word [] := by
  suffices h : word ≠ [] ∧ ∀ c ∈ word, isSpace c = false from
    ⟨(List.append_nil word).symm, blank_nil, h.1, h.2, blank_nil⟩
  cases h with
  | decimal h =>
    obtain ⟨negative, digits, ⟨hne, hall⟩, rfl, -⟩ := h
    refine ⟨List.append_ne_nil_of_right_ne_nil _ hne, fun c hc => ?_⟩
    rcases List.mem_append.1 hc with hc | hc
    · cases negative with
      | true => rw [List.mem_singleton.1 hc]; rfl
      | false => cases hc
    · exact not_isSpace_of_isDigit (by decide) (hall c hc)
  | hexadecimal hfield =>
    refine ⟨List.cons_ne_nil _ _, ?_⟩
    rw [List.forall_mem_cons, List.forall_mem_cons]
    exact ⟨rfl, rfl, fun c hc => not_isSpace_of_isDigit (by decide) (hfield.1.2 c hc)⟩
  | binary h =>
    obtain ⟨digits, hdigits, -, rfl, -⟩ := h
    refine ⟨List.append_ne_nil_of_left_ne_nil hdigits.1 _, fun c hc => ?_⟩
    rcases List.mem_append.1 hc with hc | hc
    · exact not_isSpace_of_isDigit (by decide) (hdigits.2 c hc)
    · rw [List.mem_singleton.1 hc]
      rfl

theorem Denotes.word {s : List Char} {n : BitVec 32} (h : Denotes s n) :
    ∃ before word after, Word s before word after ∧ Literal word n := by
  obtain ⟨before, word, after, hbefore, hliteral, hafter, hs⟩ := h
  exact ⟨before, word, after, ⟨hs, hbefore, hliteral.word.ne_nil, hliteral.word.word, hafter⟩, hliteral⟩

section word
variable {s before word after : List Char}

theorem denotes_iff (h : Word s before word after) {n : BitVec 32} : Denotes s n ↔ Literal word n := by
  constructor
  · intro hdenotes
    obtain ⟨before', word', after', h', hliteral⟩ := hdenotes.word
    rwa [h.word_unique h']
  · exact fun hliteral => ⟨before, word, after, h.before, hliteral, h.after, h.eq⟩

theorem correct_iff_of_word (h : Word s before word after) :
    Correct s ↔ ∀ n, toInt s = .ok n ↔ Literal word n := by
  constructor
  · intro hcorrect n
    rw [← denotes_iff h]
    exact ⟨hcorrect.only n, hcorrect.returns n⟩
  · intro hiff
    have hdenotes (n : BitVec 32) : toInt s = .ok n ↔ Denotes s n := (hiff n).trans (denotes_iff h).symm
    refine ⟨fun n => (hdenotes n).2, fun n => (hdenotes n).1, fun hnone => ?_⟩
    cases hint : toInt s with
    | error e => exact ⟨e, rfl⟩
    | ok n => exact absurd ((hdenotes n).1 hint) (hnone n)

/-- A character that is no digit and no sign keeps a word from being decimal. -/
theorem not_decimal {c : Char} (hmem : c ∈ word) (hdigit : isDigit 10 c = false) (hminus : c ≠ '-') (n : Int) :
    ¬IsDecimal word n := by
  rintro ⟨negative, digits, hdigits, rfl, -⟩
  rcases List.mem_append.1 hmem with hc | hc
  · cases negative with
    | true => exact hminus (List.mem_singleton.1 hc)
    | false => cases hc
  · rw [hdigits.2 c hc] at hdigit
    cases hdigit

/-- What follows a failed conversion. -/
theorem toInt_of_not_decimal (h : Word s before word after) (hnot : ∀ n, ¬IsDecimal word n) :
    ∃ e, toInt s =
      if (ofString s).get.1 = some '0' ∧ (ofString s).get.2.get.1 = some 'x' then
        if !restWhiteSpace (ofString s).get.2.get.2.readHex.2 then
          .error ⟨"Unable to convert the argument to integer: illegal hex string."⟩
        else .ok (ofString s).get.2.get.2.readHex.1
      else if 1 < word.length ∧ word.getLast? = some 'b' then
        if 32 < word.length - 1 then
          .error ⟨"Unable to convert the argument to integer: too long binary number."⟩
        else readBinary e word.dropLast 0
      else .error ⟨"Unable to convert the argument to integer: " ++ e.errorMessage ++ "."⟩ := by
  cases hint : convert readInt true s with
  | ok n => exact absurd ((convert_readInt_iff h).1 hint) (hnot n)
  | error e =>
    refine ⟨e, ?_⟩
    unfold toInt
    rw [hint, toString_word h]

end word

/-! ## Hexadecimal numbers -/

section field
variable {s field after : List Char}

theorem readHex_blank (hafter : Blank after) : (ofString after).readHex = (0, ⟨[], true, true⟩) := by
  have hsentry : (ofString after).sentry = .error ⟨[], true, true⟩ := sentry_blank hafter
  rw [readHex, hsentry]

theorem readHex_eq (h : Word (field ++ after) [] field after) :
    (ofString (field ++ after)).readHex =
      let number := NumberField.read 16 field
      let next (failbit : Bool) : InputStream := ⟨number.rest ++ after, (number.rest ++ after).isEmpty, failbit⟩
      if number.digits = [] then (0, next true)
      else if 4294967295 < value 16 number.digits then (4294967295, next true)
      else
        (if number.negative then -BitVec.ofNat 32 (value 16 number.digits)
          else BitVec.ofNat 32 (value 16 number.digits), next false) := by
  have hsentry : (ofString (field ++ after)).sentry = .ok (field ++ after) := by
    have hdrop := h.dropWhile_eq
    obtain ⟨c, cs, rfl⟩ := List.exists_cons_of_ne_nil h.ne_nil
    exact sentry_eq hdrop
  rw [readHex, hsentry]
  dsimp only
  rw [NumberField.read_append (by decide) h.after]

theorem toInt_prefixed (h : Word s [] ('0' :: 'x' :: field) after) :
    toInt s =
      if !restWhiteSpace (ofString (field ++ after)).readHex.2 then
        .error ⟨"Unable to convert the argument to integer: illegal hex string."⟩
      else .ok (ofString (field ++ after)).readHex.1 := by
  obtain ⟨e, hint⟩ := toInt_of_not_decimal h fun n => not_decimal (c := 'x') (by simp) (by decide) (by decide) n
  obtain rfl : s = '0' :: 'x' :: (field ++ after) := h.eq
  exact hint.trans (if_pos ⟨rfl, rfl⟩)

theorem field_word (h : Word s [] ('0' :: 'x' :: field) after) (hne : field ≠ []) :
    Word (field ++ after) [] field after :=
  ⟨rfl, blank_nil, hne, fun c hc => h.word c (List.mem_cons_of_mem _ (List.mem_cons_of_mem _ hc)), h.after⟩

/-- A string that starts with `0x` is refused only for garbage behind a number. -/
theorem toInt_error_iff (h : Word s [] ('0' :: 'x' :: field) after) :
    (∃ e, toInt s = .error e) ↔ HasGarbage field := by
  rw [toInt_prefixed h]
  by_cases hne : field = []
  · subst hne
    rw [List.nil_append, readHex_blank h.after]
    exact iff_of_false (fun ⟨e, he⟩ => by cases he) fun hgarbage => hgarbage.1 rfl
  · have hword := field_word h hne
    rw [readHex_eq hword]
    dsimp only
    split
    · next hnone =>
      rw [restWhiteSpace_failed]
      exact iff_of_false (fun ⟨e, he⟩ => by cases he) fun hgarbage => hgarbage.1 hnone
    · next hsome =>
      split
      · next hlarge =>
        rw [restWhiteSpace_failed]
        exact iff_of_false (fun ⟨e, he⟩ => by cases he) fun hgarbage => absurd hgarbage.2.1 (Nat.not_le.2 hlarge)
      · next hsmall =>
        have hrest : restWhiteSpace ⟨(NumberField.read 16 field).rest ++ after,
            ((NumberField.read 16 field).rest ++ after).isEmpty, false⟩ = true ↔
              (NumberField.read 16 field).rest = [] := by
          rw [restWhiteSpace_iff, ← blank_iff_nil hword.word NumberField.rest_subset, Blank, List.forall_mem_append]
          exact and_iff_left h.after
        cases hmore : restWhiteSpace ⟨(NumberField.read 16 field).rest ++ after,
            ((NumberField.read 16 field).rest ++ after).isEmpty, false⟩ with
        | false =>
          rw [hmore] at hrest
          exact iff_of_true ⟨_, rfl⟩ ⟨hsome, Nat.not_lt.1 hsmall, fun hnil => Bool.false_ne_true (hrest.2 hnil)⟩
        | true =>
          rw [hmore] at hrest
          exact iff_of_false (fun ⟨e, he⟩ => by cases he) fun hgarbage => hgarbage.2.2 (hrest.1 rfl)

theorem toInt_hexadecimal (h : Word s [] ('0' :: 'x' :: field) after) (hfield : IsNumeral 16 field)
    (hvalue : value 16 field ≤ 4294967295) : toInt s = .ok (BitVec.ofNat 32 (value 16 field)) := by
  have hread : NumberField.read 16 field = ⟨false, field, []⟩ := NumberField.read_numeral hfield.2 (by decide) false
  have hblank : restWhiteSpace ⟨after, after.isEmpty, false⟩ = true := restWhiteSpace_iff.2 h.after
  rw [toInt_prefixed h, readHex_eq (field_word h hfield.1), hread]
  dsimp only
  rw [if_neg hfield.1, if_neg (Nat.not_lt.2 hvalue), List.nil_append, hblank]
  rfl

end field

/-! ## Any string -/

section word
variable {s before word after : List Char}

theorem word_of_get (h : Word s before word after)
    (hget : (ofString s).get.1 = some '0' ∧ (ofString s).get.2.get.1 = some 'x') :
    before = [] ∧ ∃ field, word = '0' :: 'x' :: field := by
  obtain ⟨cs, rfl⟩ : ∃ cs, s = '0' :: 'x' :: cs := by
    match s with
    | [] => cases hget.1
    | [c] => cases hget.2
    | c :: x :: cs =>
      obtain ⟨hc, hx⟩ := hget
      exact ⟨cs, by rw [Option.some.inj hc, Option.some.inj hx]⟩
  have heq := h.eq
  cases before with
  | cons b before =>
    have hb := h.before b List.mem_cons_self
    rw [List.cons_append] at heq
    exact absurd (List.cons.inj heq).1.symm (ne_of_isSpace rfl hb)
  | nil =>
    refine ⟨rfl, ?_⟩
    match word with
    | [] => exact absurd rfl h.ne_nil
    | [c] =>
      have hafter : 'x' :: cs = after := (List.cons.inj heq).2
      exact absurd rfl (ne_of_isSpace (d := 'x') rfl (h.after 'x' (by rw [← hafter]; exact List.mem_cons_self)))
    | c :: x :: field =>
      obtain ⟨hc, htail⟩ := List.cons.inj heq
      exact ⟨field, by rw [← hc, ← (List.cons.inj htail).1]⟩

/-- Other words are converted if they are binary literals. -/
theorem toInt_other (h : Word s before word after) (hnot : ∀ n, ¬IsDecimal word n)
    (h0x : ∀ field, before = [] → word ≠ '0' :: 'x' :: field) {n : BitVec 32} :
    toInt s = .ok n ↔ IsBinary word n := by
  obtain ⟨e, hint⟩ := toInt_of_not_decimal h hnot
  rw [hint, if_neg]
  · by_cases hb : 1 < word.length ∧ word.getLast? = some 'b'
    · have hword : word.dropLast ++ ['b'] = word := List.dropLast_append_getLast? _ hb.2
      have hlength := congrArg List.length hword
      rw [List.length_append, List.length_singleton] at hlength
      have hne : word.dropLast ≠ [] := by
        intro hnil
        rw [hnil, List.length_nil] at hlength
        omega
      rw [if_pos hb]
      split
      · next hlong =>
        refine iff_of_false (fun hok => by cases hok) ?_
        rintro ⟨digits, -, hle, rfl, -⟩
        rw [List.length_append, List.length_singleton] at hlong
        omega
      · next hshort =>
        rw [show (0 : BitVec 32) = BitVec.ofNat 32 0 from rfl, readBinary_iff, Nat.zero_mul, Nat.zero_add]
        constructor
        · rintro ⟨hall, rfl⟩
          exact ⟨_, ⟨hne, hall⟩, by omega, hword.symm, rfl⟩
        · rintro ⟨digits, hdigits, -, rfl, rfl⟩
          rw [List.dropLast_concat]
          exact ⟨hdigits.2, rfl⟩
    · rw [if_neg hb]
      refine iff_of_false (fun hok => by cases hok) ?_
      rintro ⟨digits, hdigits, -, rfl, -⟩
      refine hb ⟨?_, List.getLast?_concat⟩
      have hpos := List.length_pos_iff.2 hdigits.1
      rw [List.length_append, List.length_singleton]
      omega
  · intro hget
    obtain ⟨hbefore, field, hfield⟩ := word_of_get h hget
    exact h0x field hbefore hfield

theorem not_binary {field : List Char} (n : BitVec 32) : ¬IsBinary ('0' :: 'x' :: field) n := by
  rintro ⟨digits, hdigits, -, heq, -⟩
  have hx : 'x' ∈ digits ++ ['b'] := by
    rw [← heq]
    exact List.mem_cons_of_mem _ List.mem_cons_self
  rcases List.mem_append.1 hx with hx | hx
  · exact absurd (hdigits.2 _ hx) (by decide)
  · exact absurd (List.mem_singleton.1 hx) (by decide)

theorem literal_prefixed_iff {field : List Char} {n : BitVec 32} :
    Literal ('0' :: 'x' :: field) n ↔ IsHexadecimal field ∧ n = BitVec.ofNat 32 (value 16 field) := by
  constructor
  · intro h
    generalize hword : '0' :: 'x' :: field = word at h
    cases h with
    | decimal h => exact absurd h (not_decimal (c := 'x') (by rw [← hword]; simp) (by decide) (by decide) _)
    | hexadecimal hfield =>
      obtain rfl := (List.cons.inj (List.cons.inj hword).2).2
      exact ⟨hfield, rfl⟩
    | binary hbinary => exact absurd (hword ▸ hbinary) (not_binary n)
  · rintro ⟨hfield, rfl⟩
    exact .hexadecimal hfield

theorem literal_other_iff (hnot : ∀ n, ¬IsDecimal word n) (h0x : ∀ field, word ≠ '0' :: 'x' :: field)
    {n : BitVec 32} : Literal word n ↔ IsBinary word n := by
  constructor
  · intro h
    cases h with
    | decimal h => exact absurd h (hnot _)
    | hexadecimal => exact absurd rfl (h0x _)
    | binary hbinary => exact hbinary
  · exact .binary

theorem value_le_of_hexadecimal {field : List Char} (h : IsHexadecimal field) : value 16 field ≤ 4294967295 := by
  have hlt := value_lt h.1.2
  have hpow : 16 ^ field.length ≤ 16 ^ 8 := Nat.pow_le_pow_right (by decide) h.2
  omega

theorem correct_decimal (h : Word s before word after) {m : Int} (hm : IsDecimal word m) : Correct s := by
  have hconvert := (convert_readInt_iff h).2 hm
  have hint : toInt s = .ok (BitVec.ofInt 32 m) := by
    unfold toInt
    rw [hconvert]
  refine (correct_iff_of_word h).2 fun n => ?_
  rw [hint]
  constructor
  · intro hn
    cases hn
    exact .decimal hm
  · intro hliteral
    cases hliteral with
    | @decimal _ m' hm' =>
      have heq := hconvert.symm.trans ((convert_readInt_iff h).2 hm')
      cases heq
      rfl
    | hexadecimal => exact absurd hm (not_decimal (c := 'x') (by simp) (by decide) (by decide) m)
    | binary hbinary =>
      obtain ⟨digits, -, -, rfl, -⟩ := hbinary
      exact absurd hm (not_decimal (c := 'b') (by simp) (by decide) (by decide) m)

end word

theorem no_word_of_blank {s before word after : List Char} (hs : Blank s) : ¬Word s before word after := by
  intro h
  obtain ⟨c, cs, rfl⟩ := List.exists_cons_of_ne_nil h.ne_nil
  have hc := hs c (by rw [h.eq]; simp)
  rw [h.word c List.mem_cons_self] at hc
  cases hc

theorem correct_of_no_word {s : List Char} (hword : ∀ before word after, ¬Word s before word after)
    {e : NumberFormatException} (hint : toInt s = .error e) : Correct s := by
  have hnone : ∀ n, ¬Denotes s n := by
    intro n hdenotes
    obtain ⟨before, word, after, h, -⟩ := hdenotes.word
    exact hword before word after h
  refine ⟨fun n hn => absurd hn (hnone n), fun n hn => ?_, fun _ => ⟨e, hint⟩⟩
  rw [hint] at hn
  cases hn

theorem toInt_unread {s : List Char} {e : NumberFormatException}
    (hint : ∀ {α : Type} (read : InputStream → α × InputStream) (destIsNumeric : Bool),
      convert read destIsNumeric s = .error e) : toInt s = .error e := by
  have hstring : toString s = .error e := hint readString false
  unfold toInt
  rw [hint readInt true, hstring]

/-- A word with `0x` in front: only one that starts the string is read in hex. -/
theorem correct_prefixed {s before field after : List Char} (h : Word s before ('0' :: 'x' :: field) after) :
    Correct s ↔ if before = [] then IsHexadecimal field ∨ HasGarbage field else ¬IsHexadecimal field := by
  rw [correct_iff_of_word h]
  simp only [literal_prefixed_iff]
  by_cases hbefore : before = []
  · subst hbefore
    have hconvert (hfield : IsHexadecimal field) : toInt s = .ok (BitVec.ofNat 32 (value 16 field)) :=
      toInt_hexadecimal h hfield.1 (value_le_of_hexadecimal hfield)
    rw [if_pos rfl]
    constructor
    · intro hall
      refine or_iff_not_imp_left.2 fun hfield => (toInt_error_iff h).1 ?_
      cases hint : toInt s with
      | error e => exact ⟨e, rfl⟩
      | ok n => exact absurd ((hall n).1 hint).1 hfield
    · rintro (hfield | hgarbage) n
      · rw [hconvert hfield]
        constructor
        · intro hn
          cases hn
          exact ⟨hfield, rfl⟩
        · rintro ⟨-, rfl⟩
          rfl
      · obtain ⟨e, he⟩ := (toInt_error_iff h).2 hgarbage
        rw [he]
        refine iff_of_false (fun hok => by cases hok) ?_
        rintro ⟨hfield, -⟩
        rw [hconvert hfield] at he
        cases he
  · have hrefused (n : BitVec 32) : toInt s ≠ .ok n := by
      intro hok
      rw [toInt_other h (fun m => not_decimal (c := 'x') (by simp) (by decide) (by decide) m)
        fun _ hnil => absurd hnil hbefore] at hok
      exact not_binary n hok
    rw [if_neg hbefore]
    constructor
    · exact fun hall hfield => hrefused _ ((hall _).2 ⟨hfield, rfl⟩)
    · exact fun hfield n => iff_of_false (hrefused n) fun hliteral => hfield hliteral.1

/-- **Strings are converted as they should be** exactly if none of the slips with `0x` is met. -/
theorem correct_iff (s : List Char) : Correct s ↔ Readable s := by
  obtain hblank | ⟨before, word, after, h⟩ | ⟨word, rest, hread, hrest⟩ := word_cases s
  · have hnone : ∀ before word after, ¬Word s before word after := fun _ _ _ => no_word_of_blank hblank
    exact iff_of_true (correct_of_no_word hnone (toInt_unread fun _ _ => convert_blank hblank))
      fun before field after h => absurd h (hnone _ _ _)
  · by_cases h0x : ∃ field, word = '0' :: 'x' :: field
    · obtain ⟨field, rfl⟩ := h0x
      rw [correct_prefixed h]
      constructor
      · intro hfield before' field' after' h'
        obtain rfl := (List.cons.inj (List.cons.inj (h.word_unique h')).2).2
        rwa [h'.before_eq, ← h.before_eq]
      · exact fun hs => hs before field after h
    · rw [not_exists] at h0x
      refine iff_of_true ?_ fun before field after h' => absurd (h.word_unique h') (h0x field)
      by_cases hdecimal : ∃ m, IsDecimal word m
      · obtain ⟨m, hm⟩ := hdecimal
        exact correct_decimal h hm
      · rw [not_exists] at hdecimal
        refine (correct_iff_of_word h).2 fun n => ?_
        rw [toInt_other h hdecimal fun field _ => h0x field, literal_other_iff hdecimal h0x]
  · have hnone : ∀ before word after, ¬Word s before word after := by
      intro before word' after h
      have heq := h.readString_eq.symm.trans hread
      have hafter : after = rest := congrArg (fun r => r.2.rest) heq
      exact hrest (hafter ▸ h.after)
    exact iff_of_true (correct_of_no_word hnone (toInt_unread fun _ _ => convert_words hread hrest))
      fun before field after h => absurd h (hnone _ _ _)

/-! ## Round trips -/

theorem isDigit_shiftedOut (k : Nat) (source : BitVec 32) : ∀ c ∈ shiftedOut k source, isDigit 2 c = true := by
  induction k generalizing source with
  | zero =>
    intro c hc
    cases hc
  | succ k ih =>
    rw [shiftedOut, List.forall_mem_cons]
    exact ⟨isDigit_two.2 (by split <;> simp), ih _⟩

@[simp] theorem length_shiftedOut (k : Nat) (source : BitVec 32) : (shiftedOut k source).length = k := by
  induction k generalizing source with
  | zero => rfl
  | succ k ih => rw [shiftedOut, List.length_cons, ih]

theorem and_high_iff (source : BitVec 32) : source &&& 0x80000000 ≠ 0 ↔ 2147483648 ≤ source.toNat := by
  have hpow : (0x80000000 : BitVec 32) = BitVec.twoPow 32 31 := by decide
  rw [hpow, BitVec.and_twoPow]
  have hmsb : source.getLsbD 31 = decide (2147483648 ≤ source.toNat) := BitVec.msb_eq_decide source
  rw [hmsb]
  by_cases h : 2147483648 ≤ source.toNat
  · rw [decide_eq_true h, if_pos rfl]
    exact iff_of_true (by decide) h
  · rw [decide_eq_false h, if_neg Bool.false_ne_true]
    exact iff_of_false (fun hne => hne rfl) h

/-- The bits that are shifted out are the number without its low bits. -/
theorem value_shiftedOut {k : Nat} (hk : k ≤ 32) (source : BitVec 32) :
    value 2 (shiftedOut k source) = source.toNat / 2 ^ (32 - k) := by
  induction k generalizing source with
  | zero =>
    have hlt := source.isLt
    exact (Nat.div_eq_of_lt hlt).symm
  | succ k ih =>
    have hlt : source.toNat < 4294967296 := source.isLt
    obtain ⟨m, hm⟩ : ∃ m, m = 2 ^ (31 - k) := ⟨_, rfl⟩
    have hhigh : 2147483648 = 2 ^ k * m := by
      rw [hm, ← Nat.pow_add, show k + (31 - k) = 31 from by omega]
    have hpos : 0 < m := hm ▸ Nat.pow_pos (by decide)
    have hshift : (source <<< 1).toNat = 2 * (source.toNat % 2147483648) := by
      rw [BitVec.toNat_shiftLeft, Nat.shiftLeft_eq]
      omega
    rw [shiftedOut, value_cons, ih (by omega), length_shiftedOut, hshift,
      show 32 - k = (31 - k) + 1 from by omega, Nat.pow_succ, ← hm, Nat.mul_comm m 2,
      Nat.mul_div_mul_left _ _ (by decide), show 32 - (k + 1) = 31 - k from by omega, ← hm]
    split
    · next h =>
      rw [and_high_iff] at h
      have hsource : source.toNat = m * 2 ^ k + source.toNat % 2147483648 := by
        rw [Nat.mul_comm, ← hhigh]
        omega
      conv_rhs => rw [hsource, Nat.mul_add_div hpos]
      rw [show digitValue '1' = 1 from rfl, Nat.one_mul]
    · next h =>
      rw [and_high_iff] at h
      rw [show digitValue '0' = 0 from rfl, Nat.zero_mul, Nat.zero_add, Nat.mod_eq_of_lt (by omega)]

/-- Leading zeros do not count. -/
theorem value_dropWhile {digits : List Char} (h : ∀ c ∈ digits, isDigit 2 c = true) :
    value 2 (digits.dropWhile (· ≠ '1')) = value 2 digits := by
  induction digits with
  | nil => rfl
  | cons c digits ih =>
    rw [List.forall_mem_cons] at h
    rw [List.dropWhile_cons]
    split
    · next hc =>
      rw [decide_eq_true_eq] at hc
      obtain rfl := (isDigit_two.1 h.1).resolve_right hc
      rw [ih h.2, value_cons, show digitValue '0' = 0 from rfl, Nat.zero_mul, Nat.zero_add]
    · rfl

theorem toBinary_spec (source : BitVec 32) : IsNumeral 2 (toBinary source 0) ∧ (toBinary source 0).length ≤ 32 ∧
    value 2 (toBinary source 0) = source.toNat := by
  have hall := isDigit_shiftedOut 32 source
  have hvalue : value 2 ((shiftedOut 32 source).dropWhile (· ≠ '1')) = source.toNat := by
    rw [value_dropWhile hall, value_shiftedOut (Nat.le_refl _)]
    exact Nat.div_one _
  unfold toBinary
  rw [if_pos rfl]
  split
  · next hone =>
    refine ⟨⟨fun hnil => ?_, fun c hc => hall c ((List.dropWhile_sublist _).subset hc)⟩, ?_, hvalue⟩
    · have hzero := List.dropWhile_eq_nil_iff.1 hnil '1' hone
      simp at hzero
    · have hle := (List.dropWhile_sublist (fun c => decide (c ≠ '1')) (l := shiftedOut 32 source)).length_le
      rwa [length_shiftedOut] at hle
  · next hnone =>
    have hnil : (shiftedOut 32 source).dropWhile (· ≠ '1') = [] := by
      refine List.dropWhile_eq_nil_iff.2 fun c hc => decide_eq_true ?_
      rintro rfl
      exact hnone hc
    rw [hnil] at hvalue
    exact ⟨⟨List.cons_ne_nil _ _, List.forall_mem_singleton.2 rfl⟩, Nat.le_add_left 1 31, hvalue⟩

theorem toInt_toBinString (n : BitVec 32) : toInt (toBinString n) = .ok n := by
  obtain ⟨hdigits, hle, hvalue⟩ := toBinary_spec n
  have hbinary : IsBinary (toBinString n) n :=
    ⟨_, hdigits, hle, rfl, by rw [hvalue, BitVec.ofNat_toNat, BitVec.setWidth_eq]⟩
  have hliteral : Literal (toBinString n) n := .binary hbinary
  have hreadable : Readable (toBinString n) := by
    intro before field after h
    rw [hliteral.word.word_unique h] at hbinary
    exact absurd hbinary (not_binary n)
  exact ((correct_iff _).2 hreadable).returns n ((denotes_iff hliteral.word).2 hliteral)

/-- What is printed in hex is a numeral of the number, as a word. -/
theorem printed_spec (n : BitVec 32) (digits : Nat) {field : List Char}
    (hfield : field = (Nat.toDigits 16 n.toNat).leftpad digits '0') :
    IsNumeral 16 field ∧ value 16 field = n.toNat ∧ Word ('0' :: 'x' :: field) [] ('0' :: 'x' :: field) [] ∧
      Word field [] field [] := by
  have hnumeral : IsNumeral 16 field := by
    have hdigits : IsNumeral 16 (Nat.toDigits 16 n.toNat) := isNumeral_toDigits _ (by decide) (by decide)
    rw [hfield]
    refine ⟨List.append_ne_nil_of_right_ne_nil _ hdigits.1, fun c hc => ?_⟩
    rcases List.mem_append.1 hc with hc | hc
    · rw [(List.mem_replicate.1 hc).2]
      rfl
    · exact hdigits.2 c hc
  have hvalue : value 16 field = n.toNat := by
    rw [hfield, List.leftpad, value_append, value_replicate_zero, Nat.zero_mul, Nat.zero_add,
      value_toDigits (by decide) (by decide)]
  have hspace : ∀ c ∈ field, isSpace c = false := fun c hc => not_isSpace_of_isDigit (by decide) (hnumeral.2 c hc)
  refine ⟨hnumeral, hvalue, ⟨(List.append_nil _).symm, blank_nil, List.cons_ne_nil _ _, ?_, blank_nil⟩,
    ⟨(List.append_nil _).symm, blank_nil, hnumeral.1, hspace, blank_nil⟩⟩
  rw [List.forall_mem_cons, List.forall_mem_cons]
  exact ⟨rfl, rfl, hspace⟩

theorem toInt_toHexString (n : BitVec 32) (digits : Nat) : toInt (toHexString n digits) = .ok n := by
  obtain ⟨hnumeral, hvalue, hwhole, hword⟩ := printed_spec n digits rfl
  have hlt := n.isLt
  unfold toHexString
  dsimp only
  rw [hword.readString_eq, toInt_hexadecimal hwhole hnumeral (by rw [hvalue]; omega), hvalue, BitVec.ofNat_toNat,
    BitVec.setWidth_eq]

/-- **Integers are read from their strings**, and other strings as they should be if none of the slips is met. -/
theorem toInt_correct (s : List Char) (n : BitVec 32) : (Correct s ↔ Readable s) ∧
    toInt (toBinString n) = .ok n ∧ toInt (toHexString n 0) = .ok n :=
  ⟨correct_iff s, toInt_toBinString n, toInt_toHexString n 0⟩

/-- A failed read of a number in hex is not seen. -/
theorem not_correct_garbage : toInt ['0', 'x', 'g'] = .ok 0 ∧ ¬Correct ['0', 'x', 'g'] := by
  refine ⟨rfl, fun h => ?_⟩
  have hword : Word ['0', 'x', 'g'] [] ['0', 'x', 'g'] [] :=
    ⟨rfl, blank_nil, List.cons_ne_nil _ _, by simp [isSpace], blank_nil⟩
  have hliteral := (correct_iff_of_word hword).1 h 0
  obtain ⟨⟨⟨-, hdigits⟩, -⟩, -⟩ := literal_prefixed_iff.1 (hliteral.1 rfl)
  exact absurd (hdigits 'g' List.mem_cons_self) (by decide)

-- an overflow is not seen either, and with a blank in front the prefix is not
example : toInt "0x123456789".toList = .ok 0xffffffff := by decide
example : toInt " 0x12".toList =
    .error ⟨"Unable to convert the argument to integer: garbage at the end."⟩ := by decide

end Tce.Tools.Conversion
