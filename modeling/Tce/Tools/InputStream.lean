import Tce.Base.Numerals
import Mathlib.Data.List.TakeWhile

/-!
# Input streams

The part of the standard input streams that the conversions use, on a string in memory: characters, words
between white space, and numbers. A read that fails sets a bit of the stream, and so does one that comes to the end.
-/

namespace Tce.Tools
open Numerals

structure InputStream where
  rest : List Char
  eofbit : Bool
  failbit : Bool
  deriving DecidableEq, Repr

/-- The sign, the digits, and what is behind them. -/
structure NumberField where
  negative : Bool
  digits : List Char
  rest : List Char
  deriving DecidableEq, Repr

def isSpace (c : Char) : Bool := c ∈ [' ', '\t', '\n', '\x0b', '\x0c', '\r']

namespace NumberField

def stripSign : List Char → Bool × List Char
  | [] => (false, [])
  | c :: cs => if c = '-' then (true, cs) else if c = '+' then (false, cs) else (false, c :: cs)

/-- Hexadecimal digits can have the prefix of a literal before them. -/
def stripPrefix (base : Nat) : List Char → List Char
  | c :: x :: cs => if base = 16 ∧ c = '0' ∧ (x = 'x' ∨ x = 'X') then cs else c :: x :: cs
  | cs => cs

/-- What the extraction of an integer takes. -/
def read (base : Nat) (cs : List Char) : NumberField :=
  let (negative, cs) := stripSign cs
  let cs := stripPrefix base cs
  ⟨negative, cs.takeWhile (isDigit base), cs.dropWhile (isDigit base)⟩

end NumberField

namespace InputStream

def ofString (s : List Char) : InputStream := ⟨s, false, false⟩

def good (str : InputStream) : Bool := !str.eofbit && !str.failbit

def get (str : InputStream) : Option Char × InputStream :=
  if !str.good then (none, { str with failbit := true })
  else
    match str.rest with
    | [] => (none, ⟨[], true, true⟩)
    | c :: cs => (some c, { str with rest := cs })

/-- White space is passed over; none when there is nothing else, or the stream is not good. -/
def sentry (str : InputStream) : Except InputStream (List Char) :=
  if !str.good then .error { str with failbit := true }
  else
    match str.rest.dropWhile isSpace with
    | [] => .error ⟨[], true, true⟩
    | cs => .ok cs

/-- Extraction of a string. -/
def readString (str : InputStream) : List Char × InputStream :=
  match str.sentry with
  | .error str => ([], str)
  | .ok cs =>
    let rest := cs.dropWhile fun c => !isSpace c
    (cs.takeWhile fun c => !isSpace c, ⟨rest, rest.isEmpty, false⟩)

def signed (negative : Bool) (n : Nat) : Int := if negative then -n else n

/-- Extraction of an `int`; a value out of range is the nearest one, and fails. -/
def readInt (str : InputStream) : Int × InputStream :=
  match str.sentry with
  | .error str => (0, str)
  | .ok cs =>
    let field := NumberField.read 10 cs
    let n := signed field.negative (value 10 field.digits)
    let after (failbit : Bool) : InputStream := ⟨field.rest, field.rest.isEmpty, failbit⟩
    if field.digits = [] then (0, after true)
    else if n < -2147483648 then (-2147483648, after true)
    else if 2147483647 < n then (2147483647, after true)
    else (n, after false)

/-- Extraction of a hexadecimal `unsigned int`, with a sign as for `strtoul`. -/
def readHex (str : InputStream) : BitVec 32 × InputStream :=
  match str.sentry with
  | .error str => (0, str)
  | .ok cs =>
    let field := NumberField.read 16 cs
    let n := value 16 field.digits
    let after (failbit : Bool) : InputStream := ⟨field.rest, field.rest.isEmpty, failbit⟩
    if field.digits = [] then (0, after true)
    else if 4294967295 < n then (4294967295, after true)
    else (if field.negative then -BitVec.ofNat 32 n else BitVec.ofNat 32 n, after false)

end InputStream

/-! ## Words -/

def Blank (s : List Char) : Prop := ∀ c ∈ s, isSpace c = true

theorem blank_nil : Blank [] := by
  intro c hc
  cases hc

/-- A string has one word, with blanks around it. -/
structure Word (s before word after : List Char) : Prop where
  eq : s = before ++ (word ++ after)
  before : Blank before
  ne_nil : word ≠ []
  word : ∀ c ∈ word, isSpace c = false
  after : Blank after

theorem takeWhile_append_of_not {p : Char → Bool} {after : List Char} (h : ∀ c ∈ after, p c = false) (cs : List Char) :
    (cs ++ after).takeWhile p = cs.takeWhile p ∧ (cs ++ after).dropWhile p = cs.dropWhile p ++ after := by
  induction cs with
  | nil =>
    cases after with
    | nil => exact ⟨rfl, rfl⟩
    | cons c cs => simp [h c List.mem_cons_self]
  | cons c cs ih =>
    rw [List.cons_append, List.takeWhile_cons, List.dropWhile_cons, List.takeWhile_cons, List.dropWhile_cons]
    split
    · exact ⟨congrArg _ ih.1, ih.2⟩
    · exact ⟨rfl, rfl⟩

theorem sentry_eq {s cs : List Char} {c : Char} (h : s.dropWhile isSpace = c :: cs) :
    (InputStream.ofString s).sentry = .ok (c :: cs) := by
  unfold InputStream.sentry
  rw [if_neg (by simp [InputStream.good, InputStream.ofString])]
  change (match s.dropWhile isSpace with | [] => _ | cs => _) = _
  rw [h]

theorem sentry_blank {s : List Char} (h : Blank s) : (InputStream.ofString s).sentry = .error ⟨[], true, true⟩ := by
  unfold InputStream.sentry
  rw [if_neg (by simp [InputStream.good, InputStream.ofString])]
  change (match s.dropWhile isSpace with | [] => _ | cs => _) = _
  rw [List.dropWhile_eq_nil_iff.2 h]

namespace Word
variable {s before word after : List Char}

theorem dropWhile_eq (h : Word s before word after) : s.dropWhile isSpace = word ++ after := by
  rw [h.eq, List.dropWhile_append_of_pos h.before]
  obtain ⟨c, cs, rfl⟩ := List.exists_cons_of_ne_nil h.ne_nil
  rw [List.cons_append, List.dropWhile_cons_of_neg (by rw [h.word c List.mem_cons_self]; exact Bool.false_ne_true)]

theorem readString_eq (h : Word s before word after) :
    (InputStream.ofString s).readString = (word, ⟨after, after.isEmpty, false⟩) := by
  have hsentry : (InputStream.ofString s).sentry = .ok (word ++ after) := by
    have hdrop := h.dropWhile_eq
    obtain ⟨c, cs, rfl⟩ := List.exists_cons_of_ne_nil h.ne_nil
    exact sentry_eq hdrop
  have hword : ∀ c ∈ word, (!isSpace c) = true := fun c hc => by rw [h.word c hc]; rfl
  have hafter : ∀ c ∈ after, (!isSpace c) = false := fun c hc => by rw [h.after c hc]; rfl
  unfold InputStream.readString
  rw [hsentry]
  dsimp only
  rw [(takeWhile_append_of_not hafter word).1, (takeWhile_append_of_not hafter word).2,
    List.takeWhile_eq_self_iff.2 hword, List.dropWhile_eq_nil_iff.2 hword, List.nil_append]

/-- The word is a string with the same word. -/
theorem self (h : Word s before word after) : Word word [] word [] :=
  ⟨(List.append_nil word).symm, blank_nil, h.ne_nil, h.word, blank_nil⟩

theorem word_unique (h : Word s before word after) {before' word' after' : List Char}
    (h' : Word s before' word' after') : word = word' := by
  have heq := h.readString_eq.symm.trans h'.readString_eq
  exact congrArg Prod.fst heq

theorem before_eq (h : Word s before word after) : before = s.takeWhile isSpace := by
  obtain ⟨c, cs, rfl⟩ := List.exists_cons_of_ne_nil h.ne_nil
  rw [h.eq, List.takeWhile_append_of_pos h.before, List.cons_append, List.takeWhile_cons_of_neg, List.append_nil]
  rw [h.word c List.mem_cons_self]
  exact Bool.false_ne_true

end Word

/-- There is no word, one word, or more than one. -/
theorem word_cases (s : List Char) : Blank s ∨ (∃ before word after, Word s before word after) ∨
    ∃ word rest, (InputStream.ofString s).readString = (word, ⟨rest, rest.isEmpty, false⟩) ∧ ¬Blank rest := by
  have hsplit := (List.takeWhile_append_dropWhile (p := isSpace) (l := s)).symm
  cases hrest : s.dropWhile isSpace with
  | nil => exact .inl (List.dropWhile_eq_nil_iff.1 hrest)
  | cons c cs =>
    have hc : isSpace c = false := by
      have hhead := List.head?_dropWhile_not isSpace s
      rw [hrest] at hhead
      simpa using hhead
    have hword := (List.takeWhile_append_dropWhile (p := fun c => !isSpace c) (l := c :: cs)).symm
    by_cases hafter : Blank ((c :: cs).dropWhile fun c => !isSpace c)
    · refine .inr (.inl ⟨s.takeWhile isSpace, (c :: cs).takeWhile fun c => !isSpace c, _, ?_, ?_, ?_, ?_, hafter⟩)
      · rw [← hword, ← hrest]
        exact hsplit
      · exact fun d hd => List.mem_takeWhile_imp hd
      · rw [List.takeWhile_cons_of_pos (by rw [hc]; rfl)]
        exact List.cons_ne_nil _ _
      · intro d hd
        simpa using List.mem_takeWhile_imp hd
    · refine .inr (.inr ⟨(c :: cs).takeWhile fun c => !isSpace c, _, ?_, hafter⟩)
      unfold InputStream.readString
      rw [sentry_eq hrest]

/-! ## Numbers -/

theorem ne_of_isSpace {c d : Char} (hd : isSpace d = false) (h : isSpace c = true) : c ≠ d := by
  rintro rfl
  rw [hd] at h
  cases h

theorem not_isDigit_of_isSpace {base : Nat} {c : Char} (hbase : base ≤ 16) (h : isSpace c = true) :
    isDigit base c = false := by
  refine decide_eq_false (Nat.not_lt.2 (hbase.trans ?_))
  simp only [isSpace, List.mem_cons, List.not_mem_nil, or_false, decide_eq_true_eq] at h
  rcases h with rfl | rfl | rfl | rfl | rfl | rfl <;> decide

theorem ne_of_isDigit {base : Nat} {c d : Char} (hbase : base ≤ 16) (hd : digitValue d = 16)
    (h : isDigit base c = true) : c ≠ d := by
  rintro rfl
  have hlt : digitValue c < base := of_decide_eq_true h
  omega

namespace NumberField
variable {base : Nat} {cs after : List Char}

theorem stripSign_of_head {c : Char} (hminus : c ≠ '-') (hplus : c ≠ '+') : stripSign (c :: cs) = (false, c :: cs) := by
  rw [stripSign, if_neg hminus, if_neg hplus]

theorem stripSign_append (hafter : Blank after) :
    stripSign (cs ++ after) = ((stripSign cs).1, (stripSign cs).2 ++ after) := by
  cases cs with
  | nil =>
    cases after with
    | nil => rfl
    | cons c cs =>
      have hc := hafter c List.mem_cons_self
      exact stripSign_of_head (ne_of_isSpace rfl hc) (ne_of_isSpace rfl hc)
  | cons c cs =>
    rw [List.cons_append, stripSign, stripSign]
    split
    · rfl
    · split <;> rfl

theorem stripPrefix_of_not (h : ∀ c x cs', cs = c :: x :: cs' → base = 16 → c = '0' → ¬(x = 'x' ∨ x = 'X')) :
    stripPrefix base cs = cs := by
  unfold stripPrefix
  split
  · next c x cs' =>
    rw [if_neg]
    rintro ⟨hbase, hc, hx⟩
    exact h c x cs' rfl hbase hc hx
  · rfl

theorem stripPrefix_append (hafter : Blank after) : stripPrefix base (cs ++ after) = stripPrefix base cs ++ after := by
  match cs with
  | [] =>
    refine stripPrefix_of_not fun c x cs' heq _ hc => ?_
    rw [List.nil_append] at heq
    exact absurd hc (ne_of_isSpace rfl (hafter c (by rw [heq]; exact List.mem_cons_self)))
  | [c] =>
    refine stripPrefix_of_not fun c' x cs' heq _ _ => ?_
    obtain ⟨-, hafter'⟩ := List.cons.inj heq
    change after = x :: cs' at hafter'
    have hx := hafter x (by rw [hafter']; exact List.mem_cons_self)
    exact not_or.2 ⟨ne_of_isSpace rfl hx, ne_of_isSpace rfl hx⟩
  | c :: x :: cs' =>
    rw [List.cons_append, List.cons_append, stripPrefix, stripPrefix]
    split <;> rfl

/-- Blanks behind a number are not taken. -/
theorem read_append (hbase : base ≤ 16) (hafter : Blank after) :
    read base (cs ++ after) = { read base cs with rest := (read base cs).rest ++ after } := by
  have hstop : ∀ c ∈ after, isDigit base c = false := fun c hc => not_isDigit_of_isSpace hbase (hafter c hc)
  unfold read
  rw [stripSign_append hafter]
  dsimp only
  rw [stripPrefix_append hafter, (takeWhile_append_of_not hstop _).1, (takeWhile_append_of_not hstop _).2]

theorem stripPrefix_subset : stripPrefix base cs ⊆ cs := by
  unfold stripPrefix
  split
  · split
    · exact fun d hd => List.mem_cons_of_mem _ (List.mem_cons_of_mem _ hd)
    · exact List.Subset.refl _
  · exact List.Subset.refl _

theorem rest_subset : (read base cs).rest ⊆ cs := by
  have hsign : (stripSign cs).2 ⊆ cs := by
    cases cs with
    | nil => exact List.nil_subset _
    | cons c cs =>
      rw [stripSign]
      split
      · exact List.subset_cons_self c cs
      · split
        · exact List.subset_cons_self c cs
        · exact List.Subset.refl _
  exact fun c hc => hsign (stripPrefix_subset ((List.dropWhile_sublist _).subset hc))

/-- Digits are no sign and no prefix. -/
theorem strip_digits (hbase : base ≤ 16) (h : ∀ c ∈ cs, isDigit base c = true) :
    stripSign cs = (false, cs) ∧ stripPrefix base cs = cs := by
  constructor
  · cases cs with
    | nil => rfl
    | cons c cs =>
      have hc := h c List.mem_cons_self
      exact stripSign_of_head (ne_of_isDigit hbase rfl hc) (ne_of_isDigit hbase rfl hc)
  · refine stripPrefix_of_not fun c x cs' heq _ _ => ?_
    have hx := h x (by rw [heq]; exact List.mem_cons_of_mem _ List.mem_cons_self)
    exact not_or.2 ⟨ne_of_isDigit hbase rfl hx, ne_of_isDigit hbase rfl hx⟩

/-- A numeral is taken as a whole, with a sign in front of it. -/
theorem read_numeral (h : ∀ c ∈ cs, isDigit base c = true) (hbase : base ≤ 16) (negative : Bool) :
    read base ((if negative then ['-'] else []) ++ cs) = ⟨negative, cs, []⟩ := by
  obtain ⟨hsign, hstripped⟩ := strip_digits hbase h
  have hstrip : stripSign ((if negative then ['-'] else []) ++ cs) = (negative, cs) := by
    cases negative with
    | true => rfl
    | false => exact hsign
  unfold read
  rw [hstrip]
  dsimp only
  rw [hstripped, List.takeWhile_eq_self_iff.2 h, List.dropWhile_eq_nil_iff.2 h]

/-- In decimal the field is the string. -/
theorem read_decimal (hplus : cs.head? ≠ some '+') :
    (if (read 10 cs).negative then ['-'] else []) ++ ((read 10 cs).digits ++ (read 10 cs).rest) = cs := by
  have hstripped : ∀ cs, stripPrefix 10 cs = cs := fun cs =>
    stripPrefix_of_not fun c x cs' _ hbase => absurd hbase (by decide)
  have hfield : (read 10 cs).digits ++ (read 10 cs).rest = (stripSign cs).2 := by
    change (stripPrefix 10 (stripSign cs).2).takeWhile _ ++ (stripPrefix 10 (stripSign cs).2).dropWhile _ = _
    rw [List.takeWhile_append_dropWhile, hstripped]
  rw [hfield]
  change (if (stripSign cs).1 then ['-'] else []) ++ _ = _
  cases cs with
  | nil => rfl
  | cons c cs =>
    rw [stripSign]
    split
    · next hc =>
      rw [hc]
      rfl
    · split
      · next hc =>
        rw [hc] at hplus
        exact absurd rfl hplus
      · rfl

end NumberField

end Tce.Tools
