import Tce.TPEF.DataSection

/-!
# String sections

`StringSection::string2Chunk` gives a chunk of a string that is somewhere in the
bytes of the section, and appends the string when it finds none. A byte of the
section is compared with a `char` as integers, and whether a `char` is signed
depends on the platform.

Offsets are unbounded here: sections are far smaller than the integers that
count their bytes.
-/

namespace Tce.TPEF

/-- A chunk of a section; `id` tells chunk objects from each other. -/
structure Chunk where
  id : Nat
  offset : Nat
  deriving DecidableEq, Repr

/-- The chunks are those made so far, by their offsets. -/
structure StringSection extends DataSection where
  dataChunks : List (Nat × Chunk)
  chunk_offset : ∀ entry ∈ dataChunks, entry.2.offset = entry.1

inductive StringFault where
  | assertion
  | outOfRange
  | unexpectedValue
  deriving DecidableEq, Repr

namespace StringSection

def addByte (s : StringSection) (aByte : Byte) : StringSection :=
  { s with toDataSection := s.toDataSection.addByte aByte }

/-- `RawSection::chunk`; `none` is its exception that the offset is not in the section. -/
def chunk (s : StringSection) (offset : Nat) : Option (Chunk × StringSection) :=
  if offset ≥ s.length then none
  else match s.dataChunks.lookup offset with
    | some found => some (found, s)
    | none =>
      let new : Chunk := ⟨s.dataChunks.length, offset⟩
      some (new, { s with
        dataChunks := (offset, new) :: s.dataChunks
        chunk_offset := List.forall_mem_cons.2 ⟨rfl, s.chunk_offset⟩ })

/-- The bytes up to the terminating zero; `fuel` bounds the bytes that are read. -/
def readString (s : StringSection) : (fuel offset : Nat) → Except StringFault (List Byte)
  | 0, _ => .error .outOfRange
  | fuel + 1, offset =>
    match s.byte offset with
    | none => .error .outOfRange
    | some aByte =>
      if aByte = 0 then .ok []
      else if offset = s.length - 1 then .error .unexpectedValue
      else (readString s fuel (offset + 1)).map (aByte :: ·)

def chunk2String (s : StringSection) (chunk : Chunk) : Except StringFault (List Byte) :=
  if s.length < chunk.offset then .error .assertion else s.readString (s.length + 1) chunk.offset

/-- A character of `c_str()`, which is followed by a zero. -/
def cStr (str : List Byte) (index : Nat) : Byte := str.getD index 0

variable (charSigned : Bool)

/-- A `char` as an integer. -/
def charValue (c : Byte) : Int := if charSigned then c.toInt else c.toNat

/-- The loop over the characters to match, from the last one. -/
def matchesAt (s : StringSection) (i : Nat) (str : List Byte) : (charsToMatch : Nat) → Bool
  | 0 => true
  | charsToMatch + 1 =>
    if (s.byte (i + charsToMatch)).all fun aByte => (aByte.toNat : Int) ≠ charValue charSigned (cStr str charsToMatch) then
      false
    else matchesAt s i str charsToMatch

/-- The first offset at which the string is found. -/
def findString (s : StringSection) (str : List Byte) : Option Nat :=
  (List.range (s.length - str.length)).find? fun i => s.matchesAt charSigned i str (str.length + 1)

def string2Chunk (s : StringSection) (str : List Byte) : Option (Chunk × StringSection) :=
  let s := if s.length = 0 then s.addByte 0 else s
  match s.findString charSigned str with
  | some i => s.chunk i
  | none =>
    let returnOffset := s.length
    let s := (str.foldl addByte s).addByte 0
    s.chunk returnOffset

/-! ## Strings in bytes -/

/-- The bytes from the offset on are the string and its terminating zero. -/
def StoredAt (data : List Byte) (offset : Nat) (str : List Byte) : Prop :=
  ∀ k ≤ str.length, data[offset + k]? = some (cStr str k)

def NulFree (str : List Byte) : Prop := ∀ c ∈ str, c ≠ 0

/-- All characters are what the bytes that hold them are as integers. -/
def Comparable (str : List Byte) : Prop := ∀ c ∈ str, charValue charSigned c = (c.toNat : Int)

section

variable {s : StringSection} {data : List Byte} {offset i : Nat} {str : List Byte} {charSigned : Bool}

theorem cStr_length : cStr str str.length = 0 := by simp [cStr]

theorem cStr_ne_zero (hfree : NulFree str) {k : Nat} (h : k < str.length) : cStr str k ≠ 0 := by
  rw [cStr, List.getD_eq_getElem?_getD, List.getElem?_eq_getElem h, Option.getD_some]
  exact hfree _ (List.getElem_mem h)

theorem StoredAt.lt (h : StoredAt data offset str) : offset + str.length < data.length :=
  (List.getElem?_eq_some_iff.1 (h _ (Nat.le_refl _))).1

theorem StoredAt.append (h : StoredAt data offset str) (extra : List Byte) : StoredAt (data ++ extra) offset str := by
  intro k hk
  have hlt := h.lt
  rw [List.getElem?_append_left (by omega)]
  exact h k hk

theorem storedAt_end (data str : List Byte) : StoredAt (data ++ (str ++ [0])) data.length str := by
  intro k hk
  rw [List.getElem?_append_right (Nat.le_add_right ..), Nat.add_sub_cancel_left]
  rcases Nat.lt_or_eq_of_le hk with hlt | rfl
  · rw [List.getElem?_append_left hlt, cStr, List.getD_eq_getElem?_getD, List.getElem?_eq_getElem hlt]
    rfl
  · rw [List.getElem?_append_right (Nat.le_refl _), Nat.sub_self, cStr_length]
    rfl

/-- A stored string is read back. -/
theorem readString_eq (hfree : NulFree str) (h : StoredAt s.data offset str) {k fuel : Nat} (hk : k ≤ str.length)
    (hfuel : str.length - k < fuel) : s.readString fuel (offset + k) = .ok (str.drop k) := by
  induction fuel generalizing k with
  | zero => omega
  | succ fuel ih =>
    have hbyte : s.byte (offset + k) = some (cStr str k) := h k hk
    rw [readString, hbyte]
    rcases Nat.lt_or_eq_of_le hk with hlt | rfl
    · have hmore : ¬ offset + k = s.length - 1 := by
        have hend : offset + str.length < s.length := h.lt
        omega
      have hdrop : str.drop k = cStr str k :: str.drop (k + 1) := by
        rw [cStr, List.getD_eq_getElem?_getD, List.getElem?_eq_getElem hlt, Option.getD_some]
        exact List.drop_eq_getElem_cons hlt
      simp only [if_neg (cStr_ne_zero hfree hlt), if_neg hmore]
      rw [Nat.add_assoc, ih hlt (by omega), hdrop]
      rfl
    · simp [cStr_length]

theorem chunk2String_eq {chunk : Chunk} (hfree : NulFree str) (h : StoredAt s.data chunk.offset str) :
    s.chunk2String chunk = .ok str := by
  have hlt : chunk.offset + str.length < s.length := h.lt
  rw [chunk2String, if_neg (by omega)]
  exact readString_eq hfree h (Nat.zero_le _) (by omega)

/-! ## Searching -/

/-- A byte that compares equal to a character is that character. -/
theorem eq_of_charValue {aByte c : Byte} (h : (aByte.toNat : Int) = charValue charSigned c) : aByte = c := by
  apply BitVec.eq_of_toNat_eq
  rw [charValue] at h
  split at h
  next =>
    rw [BitVec.toInt_eq_toNat_cond] at h
    split at h <;> omega
  next => omega

theorem matchesAt_iff {n : Nat} (hn : i + n ≤ s.data.length) :
    s.matchesAt charSigned i str n = true ↔
      ∀ k < n, ∃ aByte, s.data[i + k]? = some aByte ∧ (aByte.toNat : Int) = charValue charSigned (cStr str k) := by
  induction n with
  | zero => simp [matchesAt]
  | succ n ih =>
    have hbyte : s.byte (i + n) = some s.data[i + n] := List.getElem?_eq_getElem (by omega)
    have hlast : (∃ aByte, s.data[i + n]? = some aByte ∧ (aByte.toNat : Int) = charValue charSigned (cStr str n)) ↔
        (s.data[i + n].toNat : Int) = charValue charSigned (cStr str n) := by
      rw [List.getElem?_eq_getElem (by omega)]
      simp
    rw [matchesAt, hbyte, Option.all_some, Nat.forall_lt_succ_right, ← ih (by omega), hlast]
    by_cases hsame : (s.data[i + n].toNat : Int) = charValue charSigned (cStr str n) <;> simp [hsame]

/-- What is found is the string. -/
theorem storedAt_of_matchesAt (hn : i + str.length < s.data.length)
    (h : s.matchesAt charSigned i str (str.length + 1) = true) : StoredAt s.data i str := by
  intro k hk
  obtain ⟨aByte, hbyte, hvalue⟩ := (matchesAt_iff hn).1 h k (Nat.lt_succ_of_le hk)
  rw [hbyte, eq_of_charValue hvalue]

theorem Comparable.cStr (h : Comparable charSigned str) (k : Nat) :
    charValue charSigned (cStr str k) = ((StringSection.cStr str k).toNat : Int) := by
  rw [StringSection.cStr, List.getD_eq_getElem?_getD]
  cases hc : str[k]? with
  | none => cases charSigned <;> rfl
  | some c => exact h c (List.mem_of_getElem? hc)

/-- A string matches where it is stored when its characters are compared well. -/
theorem matchesAt_iff_storedAt (hcomparable : Comparable charSigned str) (hn : i + str.length < s.data.length) :
    s.matchesAt charSigned i str (str.length + 1) = true ↔ StoredAt s.data i str := by
  constructor
  · exact storedAt_of_matchesAt hn
  · intro h
    apply (matchesAt_iff hn).2
    intro k hk
    exact ⟨_, h k (Nat.le_of_lt_succ hk), (hcomparable.cStr k).symm⟩

theorem findString_eq_none_of_not_comparable (h : ¬ Comparable charSigned str) :
    s.findString charSigned str = none := by
  rw [findString, List.find?_range_eq_none]
  intro i hi
  rw [Bool.not_eq_true', ← Bool.not_eq_true]
  intro hmatch
  apply h
  intro c hc
  obtain ⟨k, hk, rfl⟩ := List.getElem_of_mem hc
  have hlt : i + str.length < s.data.length := by
    have : i < s.data.length - str.length := hi
    omega
  obtain ⟨aByte, _, hvalue⟩ := (matchesAt_iff hlt).1 hmatch k (by omega)
  have hchar : StringSection.cStr str k = str[k] := by
    rw [StringSection.cStr, List.getD_eq_getElem?_getD, List.getElem?_eq_getElem hk, Option.getD_some]
  rw [hchar] at hvalue
  rw [← hvalue, eq_of_charValue hvalue]

/-- The offset at which the string is stored first. -/
def FirstAt (data : List Byte) (offset : Nat) (str : List Byte) : Prop :=
  StoredAt data offset str ∧ ∀ j < offset, ¬ StoredAt data j str

theorem findString_eq_some_iff (hcomparable : Comparable charSigned str) :
    s.findString charSigned str = some i ↔ FirstAt s.data i str := by
  rw [findString, List.find?_range_eq_some, List.mem_range]
  constructor
  · rintro ⟨hmatch, hlt, hbefore⟩
    have hlt' : i < s.data.length - str.length := hlt
    refine ⟨storedAt_of_matchesAt (by omega) hmatch, ?_⟩
    intro j hj hstored
    have hnone := hbefore j hj
    rw [(matchesAt_iff_storedAt hcomparable hstored.lt).2 hstored] at hnone
    cases hnone
  · rintro ⟨hstored, hbefore⟩
    have hlt := hstored.lt
    have hrange : i < s.length - str.length := by
      have : i < s.data.length - str.length := by omega
      exact this
    refine ⟨(matchesAt_iff_storedAt hcomparable hlt).2 hstored, hrange, ?_⟩
    intro j hj
    rw [Bool.not_eq_true', ← Bool.not_eq_true]
    intro hmatch
    exact hbefore j hj (storedAt_of_matchesAt (by omega) hmatch)

theorem not_storedAt_of_findString (hcomparable : Comparable charSigned str)
    (h : s.findString charSigned str = none) (j : Nat) : ¬ StoredAt s.data j str := by
  intro hstored
  have hlt := hstored.lt
  have hnone := List.find?_range_eq_none.1 h j (by
    rw [DataSection.length]
    omega)
  rw [(matchesAt_iff_storedAt hcomparable hlt).2 hstored] at hnone
  cases hnone

theorem FirstAt.unique (h : FirstAt data i str) (h' : FirstAt data offset str) : i = offset := by
  rcases Nat.lt_trichotomy i offset with hlt | heq | hgt
  · exact absurd h.1 (h'.2 i hlt)
  · exact heq
  · exact absurd h'.1 (h.2 offset hgt)

theorem FirstAt.append (h : FirstAt data offset str) (extra : List Byte) : FirstAt (data ++ extra) offset str := by
  refine ⟨h.1.append extra, ?_⟩
  intro j hj hstored
  apply h.2 j hj
  intro k hk
  have hlt := h.1.lt
  rw [← hstored k hk, List.getElem?_append_left (by omega)]

/-- A string that is nowhere is first where it is appended: its terminating zero is not in it. -/
theorem firstAt_end (hfree : NulFree str) (h : ∀ j, ¬ StoredAt data j str) :
    FirstAt (data ++ (str ++ [0])) data.length str := by
  refine ⟨storedAt_end data str, ?_⟩
  intro j hj hstored
  by_cases hinside : j + str.length < data.length
  · apply h j
    intro k hk
    rw [← hstored k hk, List.getElem?_append_left (by omega)]
  · have hzero := hstored str.length (Nat.le_refl _)
    have hlt : j + str.length - data.length < str.length := by omega
    rw [cStr_length, List.getElem?_append_right (by omega), List.getElem?_append_left hlt] at hzero
    exact hfree _ (List.mem_of_getElem? hzero) rfl

end

/-! ## Interning -/

/-- What a call does: the string is in the bytes, which only had strings appended, and the chunk is
the one kept for its offset. -/
structure Interning (charSigned : Bool) (s : StringSection) (str : List Byte) (chunk : Chunk) (t : StringSection) :
    Prop where
  appended : ∃ new : List (List Byte), (∀ x ∈ new, NulFree x) ∧ t.data = s.data ++ new.flatMap (· ++ [0])
  stored : StoredAt t.data chunk.offset str
  kept : t.dataChunks.lookup chunk.offset = some chunk
  chunks : ∀ offset found, s.dataChunks.lookup offset = some found → t.dataChunks.lookup offset = some found
  first : Comparable charSigned str → FirstAt t.data chunk.offset str
  new : ¬ Comparable charSigned str → s.data.length ≤ chunk.offset

section

variable {s : StringSection} {str : List Byte} {charSigned : Bool}

theorem chunk_eq {offset : Nat} (h : offset < s.data.length) :
    ∃ found t, s.chunk offset = some (found, t) ∧ t.data = s.data ∧ found.offset = offset ∧
      t.dataChunks.lookup offset = some found ∧
      ∀ o c, s.dataChunks.lookup o = some c → t.dataChunks.lookup o = some c := by
  have hin : ¬ offset ≥ s.length := Nat.not_le.2 h
  rw [chunk, if_neg hin]
  cases hlookup : s.dataChunks.lookup offset with
  | some found =>
    refine ⟨found, s, rfl, rfl, ?_, hlookup, fun _ _ h => h⟩
    obtain ⟨_, _, hsplit, _⟩ := List.lookup_eq_some_iff.1 hlookup
    exact s.chunk_offset (offset, found) (by simp [hsplit])
  | none =>
    refine ⟨_, _, rfl, rfl, rfl, List.lookup_cons_self, ?_⟩
    intro o c hc
    have hne : o ≠ offset := by
      rintro rfl
      rw [hlookup] at hc
      cases hc
    rw [List.lookup_cons, beq_false_of_ne hne]
    exact hc

theorem data_foldl_addByte (s : StringSection) (l : List Byte) : (l.foldl addByte s).data = s.data ++ l := by
  induction l generalizing s with
  | nil => simp
  | cons c l ih =>
    rw [List.foldl_cons, ih]
    simp [addByte, DataSection.addByte]

theorem dataChunks_foldl_addByte (s : StringSection) (l : List Byte) :
    (l.foldl addByte s).dataChunks = s.dataChunks := by
  induction l generalizing s with
  | nil => rfl
  | cons c l ih => exact ih (s.addByte c)

/-- The search and what follows it, once the section has a byte. -/
theorem interning_of_nonempty (hfree : NulFree str) :
    ∃ chunk t, (match s.findString charSigned str with
      | some i => s.chunk i
      | none => ((str.foldl addByte s).addByte 0).chunk s.data.length) = some (chunk, t) ∧
        Interning charSigned s str chunk t := by
  cases hfind : s.findString charSigned str with
  | some i =>
    have hcomparable : Comparable charSigned str := by
      by_contra hnot
      rw [findString_eq_none_of_not_comparable hnot] at hfind
      cases hfind
    have hfirst := (findString_eq_some_iff hcomparable).1 hfind
    have hlt := hfirst.1.lt
    obtain ⟨found, t, hchunk, hdata, rfl, hkept, hchunks⟩ := @chunk_eq s i (by omega)
    exact ⟨found, t, hchunk, ⟨[], by simp, by simp [hdata]⟩, hdata ▸ hfirst.1, hkept, hchunks,
      fun _ => hdata ▸ hfirst, fun hnot => absurd hcomparable hnot⟩
  | none =>
    have hdata : ((str.foldl addByte s).addByte 0).data = s.data ++ (str ++ [0]) := by
      rw [← List.append_assoc, ← data_foldl_addByte]
      rfl
    have hchunks' : ((str.foldl addByte s).addByte 0).dataChunks = s.dataChunks := dataChunks_foldl_addByte s str
    obtain ⟨found, t, hchunk, htdata, hoffset, hkept, hchunks⟩ :=
      @chunk_eq ((str.foldl addByte s).addByte 0) s.data.length (by
        rw [hdata]
        simp)
    have hoffset' : found.offset = s.data.length := hoffset
    rw [hdata] at htdata
    rw [hchunks'] at hchunks
    refine ⟨found, t, hchunk, ⟨[str], by simpa using hfree, by simp [htdata]⟩, ?_, hoffset ▸ hkept, hchunks, ?_, ?_⟩
    · rw [htdata, hoffset']
      exact storedAt_end s.data str
    · intro hcomparable
      rw [htdata, hoffset']
      exact firstAt_end hfree (not_storedAt_of_findString hcomparable hfind)
    · intro _
      exact hoffset'.ge

theorem string2Chunk_interning (s : StringSection) (hfree : NulFree str) :
    ∃ chunk t, s.string2Chunk charSigned str = some (chunk, t) ∧ Interning charSigned s str chunk t := by
  by_cases hempty : s.length = 0
  · obtain ⟨chunk, t, hcall, h⟩ := @interning_of_nonempty (s.addByte 0) str charSigned hfree
    refine ⟨chunk, t, ?_, ?_⟩
    · rw [string2Chunk, if_pos hempty]
      exact hcall
    · obtain ⟨new, hnew, hdata⟩ := h.appended
      refine ⟨⟨[] :: new, ?_, ?_⟩, h.stored, h.kept, h.chunks, h.first, ?_⟩
      · exact List.forall_mem_cons.2 ⟨by simp [NulFree], hnew⟩
      · rw [hdata]
        simp [addByte, DataSection.addByte]
      · intro hnot
        have hnone : s.data.length = 0 := hempty
        omega
  · obtain ⟨chunk, t, hcall, h⟩ := @interning_of_nonempty s str charSigned hfree
    refine ⟨chunk, t, ?_, h⟩
    rw [string2Chunk, if_neg hempty]
    exact hcall

end

/-! ## Runs -/

/-- A section in use and what its calls have returned. -/
structure Session where
  strings : StringSection
  returned : List (List Byte × Chunk)

namespace Session

variable (charSigned : Bool)

def call (t : Session) (str : List Byte) : Option Session := do
  let (chunk, s) ← t.strings.string2Chunk charSigned str
  return ⟨s, t.returned ++ [(str, chunk)]⟩

def run (s : StringSection) (strs : List (List Byte)) : Option Session := strs.foldlM (call charSigned) ⟨s, []⟩

/-- An equal string is given the same chunk. -/
def Same (t : Session) : Prop :=
  ∀ str chunk chunk', (str, chunk) ∈ t.returned → (str, chunk') ∈ t.returned → chunk = chunk'

/-- What is promised of a session that was begun with the section `s`. -/
structure Interned (s : StringSection) (t : Session) : Prop where
  strings : ∀ str chunk, (str, chunk) ∈ t.returned → t.strings.chunk2String chunk = .ok str
  same : t.Same
  appended : ∃ new : List (List Byte), (∀ x ∈ new, NulFree x) ∧ t.strings.data = s.data ++ new.flatMap (· ++ [0])

/-- No string with a character that compares wrong is asked for twice. -/
def Distinguishable (strs : List (List Byte)) : Prop := strs.Pairwise fun a b => a = b → Comparable charSigned b

/-- What holds whatever the characters are. -/
structure Valid (s : StringSection) (t : Session) : Prop where
  stored : ∀ str chunk, (str, chunk) ∈ t.returned → StoredAt t.strings.data chunk.offset str
  kept : ∀ str chunk, (str, chunk) ∈ t.returned → t.strings.dataChunks.lookup chunk.offset = some chunk
  first : ∀ str chunk, (str, chunk) ∈ t.returned → Comparable charSigned str →
    FirstAt t.strings.data chunk.offset str
  appended : ∃ new : List (List Byte), (∀ x ∈ new, NulFree x) ∧ t.strings.data = s.data ++ new.flatMap (· ++ [0])

variable {charSigned} {s : StringSection} {t : Session} {str : List Byte}

theorem Valid.call (h : Valid charSigned s t) {chunk : Chunk} {s' : StringSection}
    (hcall : Interning charSigned t.strings str chunk s') :
    Valid charSigned s ⟨s', t.returned ++ [(str, chunk)]⟩ := by
  obtain ⟨new, hnew, hdata⟩ := hcall.appended
  have hold : ∀ str' chunk', (str', chunk') ∈ t.returned ++ [(str, chunk)] →
      (str', chunk') ∈ t.returned ∨ str' = str ∧ chunk' = chunk := by simp
  constructor
  · intro str' chunk' hmem
    rcases hold str' chunk' hmem with hmem | ⟨rfl, rfl⟩
    · exact hdata ▸ (h.stored str' chunk' hmem).append _
    · exact hcall.stored
  · intro str' chunk' hmem
    rcases hold str' chunk' hmem with hmem | ⟨rfl, rfl⟩
    · exact hcall.chunks _ _ (h.kept str' chunk' hmem)
    · exact hcall.kept
  · intro str' chunk' hmem hcomparable
    rcases hold str' chunk' hmem with hmem | ⟨rfl, rfl⟩
    · exact hdata ▸ (h.first str' chunk' hmem hcomparable).append _
    · exact hcall.first hcomparable
  · obtain ⟨before, hbefore, hdata'⟩ := h.appended
    refine ⟨before ++ new, ?_, ?_⟩
    · intro x hx
      exact (List.mem_append.1 hx).elim (hbefore x) (hnew x)
    · rw [hdata, hdata', List.flatMap_append, List.append_assoc]

/-- The call keeps equal strings at the same chunk unless it repeats a string that compares wrong. -/
theorem same_call_iff (h : Valid charSigned s t) {chunk : Chunk} {s' : StringSection}
    (hcall : Interning charSigned t.strings str chunk s') :
    Same ⟨s', t.returned ++ [(str, chunk)]⟩ ↔
      t.Same ∧ ∀ a ∈ t.returned.map (·.1), a = str → Comparable charSigned str := by
  constructor
  · intro hsame
    refine ⟨?_, ?_⟩
    · intro str' c c' hc hc'
      exact hsame str' c c' (List.mem_append_left _ hc) (List.mem_append_left _ hc')
    · rintro a ha rfl
      obtain ⟨⟨_, c⟩, hc, rfl⟩ := List.mem_map.1 ha
      by_contra hnot
      have hchunk := hsame _ c chunk (List.mem_append_left _ hc) (List.mem_append_right _ (List.mem_singleton_self _))
      have hbefore := (h.stored _ c hc).lt
      have hafter := hcall.new hnot
      rw [hchunk] at hbefore
      omega
  · rintro ⟨hsame, hcomparable⟩
    have hrepeated : ∀ c, (str, c) ∈ t.returned → c = chunk := by
      intro c hc
      have hc' := hcomparable str (List.mem_map.2 ⟨_, hc, rfl⟩) rfl
      obtain ⟨new, _, hdata⟩ := hcall.appended
      have hfirst : FirstAt s'.data c.offset str := hdata ▸ (h.first str c hc hc').append _
      have hoffset := hfirst.unique (hcall.first hc')
      have hkept := hcall.chunks _ _ (h.kept str c hc)
      rw [hoffset, hcall.kept] at hkept
      exact (Option.some.inj hkept).symm
    intro str' c c' hc hc'
    simp only [List.mem_append, List.mem_singleton, Prod.mk.injEq] at hc hc'
    rcases hc with hc | ⟨rfl, rfl⟩
    · rcases hc' with hc' | ⟨rfl, rfl⟩
      · exact hsame str' c c' hc hc'
      · exact hrepeated c hc
    · rcases hc' with hc' | ⟨_, rfl⟩
      · exact (hrepeated c' hc').symm
      · rfl

theorem run_valid (s : StringSection) {strs : List (List Byte)} (hfree : ∀ str ∈ strs, NulFree str) :
    ∃ t, run charSigned s strs = some t ∧ t.returned.map (·.1) = strs ∧ Valid charSigned s t ∧
      (t.Same ↔ Distinguishable charSigned strs) := by
  induction strs using List.reverseRecOn with
  | nil =>
    refine ⟨⟨s, []⟩, rfl, rfl, ⟨?_, ?_, ?_, [], ?_, ?_⟩, ?_⟩ <;> simp [Same, Distinguishable]
  | append_singleton strs str ih =>
    obtain ⟨t, hrun, hstrs, hvalid, hsame⟩ := ih fun x hx => hfree x (List.mem_append_left _ hx)
    obtain ⟨chunk, s', hcall, hinterning⟩ := @string2Chunk_interning _ charSigned t.strings
      (hfree str (List.mem_append_right _ (List.mem_singleton_self str)))
    refine ⟨⟨s', t.returned ++ [(str, chunk)]⟩, ?_, ?_, hvalid.call hinterning, ?_⟩
    · rw [run, List.foldlM_append]
      rw [run] at hrun
      simp [hrun, Session.call, hcall]
    · rw [List.map_append, hstrs]
      rfl
    · rw [same_call_iff hvalid hinterning, hsame, hstrs, Distinguishable, Distinguishable, List.pairwise_append]
      simp

/-- The promise is kept in every run that does not repeat a string that compares wrong. -/
theorem interned_iff (s : StringSection) {strs : List (List Byte)} (hfree : ∀ str ∈ strs, NulFree str) :
    (∃ t, run charSigned s strs = some t ∧ Interned s t) ↔ Distinguishable charSigned strs := by
  obtain ⟨t, hrun, hstrs, hvalid, hsame⟩ := @run_valid charSigned s _ hfree
  rw [← hsame]
  constructor
  · rintro ⟨t', hrun', hinterned⟩
    cases hrun.symm.trans hrun'
    exact hinterned.same
  · intro h
    refine ⟨t, hrun, ?_, h, hvalid.appended⟩
    intro str chunk hmem
    have hmem' : str ∈ strs := hstrs ▸ List.mem_map_of_mem hmem
    exact chunk2String_eq (hfree str hmem') (hvalid.stored str chunk hmem)

def newSection : StringSection := ⟨⟨8, [], DataSection.nineBytes.mau_pos, DataSection.nineBytes.mau_le⟩, [], by simp⟩

/-- The name `ä` in Latin-1, twice. -/
theorem not_interned_repeated :
    ¬ ∃ t, run true newSection [[0xe4], [0xe4]] = some t ∧ Interned newSection t := by
  rintro ⟨t, hrun, hinterned⟩
  have hreturned : (run true newSection [[0xe4], [0xe4]]).map (·.returned) =
      some [([0xe4], ⟨0, 1⟩), ([0xe4], ⟨1, 3⟩)] := by decide +kernel
  rw [hrun] at hreturned
  have hlist : t.returned = [([0xe4], ⟨0, 1⟩), ([0xe4], ⟨1, 3⟩)] := Option.some.inj hreturned
  have hsame := hinterned.same [0xe4] ⟨0, 1⟩ ⟨1, 3⟩ (by simp [hlist]) (by simp [hlist])
  exact absurd hsame (by decide)

theorem interned_words :
    ∃ t, run true newSection [[0x62, 0x61], [0x61], [0x62, 0x61]] = some t ∧ Interned newSection t := by
  apply (interned_iff newSection (by simp [NulFree])).2
  simp [Distinguishable, Comparable, charValue]

end Session

end StringSection

end Tce.TPEF
