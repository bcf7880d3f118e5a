import Mathlib.Data.List.Basic

/-!
# The order of instruction fields

The child fields of a binary encoding or of a move slot have relative positions.
A field that gets the position of another one moves that one towards the position
that became empty.
-/

namespace Tce.BEM

/-- The fields that have child fields. -/
inductive ParentField where
  | BinaryEncoding
  | MoveSlot
  deriving DecidableEq, Repr

inductive FieldFault where
  | OutOfRange
  | assertion
  /-- The field that stands for none has no parent. -/
  | nullParent
  deriving DecidableEq, Repr

/-- A field with its child fields, in the order in which they are looked at. -/
structure FieldOrder (F : Type) where
  parent : ParentField
  children : List F
  relativePos : F → Int

namespace FieldOrder
variable {F : Type}

def childFieldCount (s : FieldOrder F) : Int := s.children.length

/-- The child field at a position. A move slot asserts that there is one. -/
def childField (s : FieldOrder F) (position : Int) : Except FieldFault (Option F) :=
  if position < 0 ∨ s.childFieldCount ≤ position then .error .OutOfRange
  else
    match s.children.find? (s.relativePos · = position), s.parent with
    | some f, _ => .ok (some f)
    | none, .BinaryEncoding => .ok none
    | none, .MoveSlot => .error .assertion

/-- The first of the positions that has no child field. -/
def emptyPosition (s : FieldOrder F) : List Int → Except FieldFault (Option Int)
  | [] => .ok none
  | i :: positions =>
    match s.childField i with
    | .error fault => .error fault
    | .ok none => .ok (some i)
    | .ok (some _) => s.emptyPosition positions

def positions (s : FieldOrder F) : List Int := (List.range s.children.length).map (↑)

/-- The positions are a permutation of the numbers from 0 on. -/
structure Arranged (s : FieldOrder F) : Prop where
  range : ∀ f ∈ s.children, 0 ≤ s.relativePos f ∧ s.relativePos f < s.childFieldCount
  distinct : ∀ f ∈ s.children, ∀ g ∈ s.children, s.relativePos f = s.relativePos g → f = g
  filled : ∀ i, 0 ≤ i → i < s.childFieldCount → ∃ f ∈ s.children, s.relativePos f = i

/-- The field is at its position and the others are in the order they were in. -/
structure Moved (s : FieldOrder F) (f : F) (position : Int) (s' : FieldOrder F) : Prop where
  arranged : s'.Arranged
  parent : s'.parent = s.parent
  children : s'.children = s.children
  moved : s'.relativePos f = position
  order : ∀ g ∈ s.children, ∀ h ∈ s.children, g ≠ f → h ≠ f →
    (s'.relativePos g < s'.relativePos h ↔ s.relativePos g < s.relativePos h)

/-! ## Setting a position -/

section Setting
variable [DecidableEq F]

def place (s : FieldOrder F) (f : F) (position : Int) : FieldOrder F :=
  { s with relativePos := Function.update s.relativePos f position }

/-- `none` when the recursion is deeper than `fuel`. -/
def setRelativePosition : (fuel : Nat) → F → Int → FieldOrder F → Option (Except FieldFault (FieldOrder F))
  | 0, _, _, _ => none
  | fuel + 1, f, position, s =>
    match s.childField position with
    | .error fault => some (.error fault)
    | .ok fieldToMove =>
      let s := s.place f position
      match s.emptyPosition s.positions, fieldToMove with
      | .error fault, _ => some (.error fault)
      | .ok none, _ => some (.ok s)
      | .ok (some _), none => some (.error .nullParent)
      | .ok (some empty), some g =>
        if empty < s.relativePos g then setRelativePosition fuel g (s.relativePos g - 1) s
        else if s.relativePos g < empty then setRelativePosition fuel g (s.relativePos g + 1) s
        else some (.error .assertion)

/-- Each call of the sequence ends without a failed assertion and moves its field. -/
def Succeeds : FieldOrder F → List (F × Int) → Prop
  | _, [] => True
  | s, (f, position) :: calls =>
    ∃ fuel s', setRelativePosition fuel f position s = some (.ok s') ∧ s.Moved f position s' ∧ s'.Succeeds calls

end Setting

/-! ## Child fields and empty positions -/

variable {s s' : FieldOrder F} {f g : F} {i p e : Int} {is : List Int} {fuel : Nat}

theorem mem_positions : i ∈ s.positions ↔ 0 ≤ i ∧ i < s.childFieldCount := by
  simp only [positions, List.mem_map, List.mem_range, childFieldCount]
  constructor
  · rintro ⟨k, hk, rfl⟩
    omega
  · rintro ⟨hi, hlt⟩
    exact ⟨i.toNat, by omega, by omega⟩

/-- The only child field at a position is found there. -/
theorem childField_eq (hi : 0 ≤ i ∧ i < s.childFieldCount) (hf : f ∈ s.children) (hpos : s.relativePos f = i)
    (honly : ∀ g ∈ s.children, s.relativePos g = i → g = f) : s.childField i = .ok (some f) := by
  have hrange : ¬ (i < 0 ∨ s.childFieldCount ≤ i) := by omega
  have hfind : s.children.find? (s.relativePos · = i) = some f := by
    cases h : s.children.find? (s.relativePos · = i) with
    | none => simpa [hpos] using List.find?_eq_none.1 h f hf
    | some g => rw [honly g (List.mem_of_find?_eq_some h) (by simpa using List.find?_some h)]
  simp [childField, hrange, hfind]

theorem childField_isSome (hi : 0 ≤ i ∧ i < s.childFieldCount) (hf : f ∈ s.children) (hpos : s.relativePos f = i) :
    ∃ g, s.childField i = .ok (some g) := by
  have hrange : ¬ (i < 0 ∨ s.childFieldCount ≤ i) := by omega
  cases h : s.children.find? (s.relativePos · = i) with
  | none => simpa [hpos] using List.find?_eq_none.1 h f hf
  | some g => exact ⟨g, by simp [childField, hrange, h]⟩

theorem childField_ok (hparent : s.parent = .BinaryEncoding) (hi : 0 ≤ i ∧ i < s.childFieldCount) :
    ∃ r, s.childField i = .ok r := by
  have hrange : ¬ (i < 0 ∨ s.childFieldCount ≤ i) := by omega
  cases h : s.children.find? (s.relativePos · = i) with
  | none => exact ⟨none, by simp [childField, hrange, h, hparent]⟩
  | some g => exact ⟨some g, by simp [childField, hrange, h]⟩

theorem childField_empty (hi : 0 ≤ i ∧ i < s.childFieldCount) (hempty : ∀ f ∈ s.children, s.relativePos f ≠ i) :
    s.childField i = match s.parent with
      | .BinaryEncoding => .ok none
      | .MoveSlot => .error .assertion := by
  have hrange : ¬ (i < 0 ∨ s.childFieldCount ≤ i) := by omega
  have hfind : s.children.find? (s.relativePos · = i) = none :=
    List.find?_eq_none.2 fun f hf => by simpa using hempty f hf
  cases hparent : s.parent <;> simp [childField, hrange, hfind, hparent]

/-- Positions that all have child fields. -/
theorem emptyPosition_none (his : ∀ i ∈ is, 0 ≤ i ∧ i < s.childFieldCount)
    (hfilled : ∀ i ∈ is, ∃ f ∈ s.children, s.relativePos f = i) : s.emptyPosition is = .ok none := by
  induction is with
  | nil => rfl
  | cons i is ih =>
    obtain ⟨f, hf, hpos⟩ := hfilled i (by simp)
    obtain ⟨g, hg⟩ := childField_isSome (his i (by simp)) hf hpos
    simp only [emptyPosition, hg]
    exact ih (fun i hi => his i (by simp [hi])) fun i hi => hfilled i (by simp [hi])

/-- The only position without a child field is found, and not found in a move slot. -/
theorem emptyPosition_some (he : e ∈ is) (his : ∀ i ∈ is, 0 ≤ i ∧ i < s.childFieldCount)
    (hempty : ∀ f ∈ s.children, s.relativePos f ≠ e)
    (hfilled : ∀ i ∈ is, i ≠ e → ∃ f ∈ s.children, s.relativePos f = i) :
    s.emptyPosition is = match s.parent with
      | .BinaryEncoding => .ok (some e)
      | .MoveSlot => .error .assertion := by
  induction is with
  | nil => simp at he
  | cons i is ih =>
    by_cases hie : i = e
    · subst hie
      have h := childField_empty (his i (by simp)) hempty
      cases hparent : s.parent <;> simp [emptyPosition, h, hparent]
    · obtain ⟨f, hf, hpos⟩ := hfilled i (by simp) hie
      obtain ⟨g, hg⟩ := childField_isSome (his i (by simp)) hf hpos
      have he : e ∈ is := by simpa [Ne.symm hie] using he
      simp only [emptyPosition, hg]
      exact ih he (fun i hi => his i (by simp [hi])) fun i hi => hfilled i (by simp [hi])

/-! ## The recursion -/

variable [DecidableEq F]

@[simp] theorem place_parent : (s.place f p).parent = s.parent := rfl

@[simp] theorem place_children : (s.place f p).children = s.children := rfl

@[simp] theorem place_childFieldCount : (s.place f p).childFieldCount = s.childFieldCount := rfl

@[simp] theorem place_relativePos : (s.place f p).relativePos g = if g = f then p else s.relativePos g :=
  Function.update_apply ..

theorem place_self : s.place f (s.relativePos f) = s := by simp [place]

/-- Where a position goes when the field at `e` goes to `q`. -/
def shift (e q i : Int) : Int := if e < i ∧ i ≤ q then i - 1 else if q ≤ i ∧ i < e then i + 1 else i

theorem shift_self (q i : Int) : shift q q i = i := by
  unfold shift
  split <;> [omega; skip]
  split <;> omega

/-- The position next to `q` on the way to the empty one. -/
def Towards (e q r : Int) : Prop := r = q - 1 ∧ e < q ∨ r = q + 1 ∧ q < e

theorem Towards.shift_moved {e q r : Int} (h : Towards e q r) : shift e q q = r := by
  unfold shift
  rcases h with ⟨rfl, h⟩ | ⟨rfl, h⟩
  · rw [if_pos ⟨h, Int.le_refl q⟩]
  · rw [if_neg (by omega), if_pos ⟨Int.le_refl q, h⟩]

theorem Towards.shift_place {e q r : Int} (h : Towards e q r) : shift e r q = q := by
  unfold shift
  rcases h with ⟨rfl, h⟩ | ⟨rfl, h⟩ <;> rw [if_neg (by omega), if_neg (by omega)]

theorem Towards.shift_other {e q r i : Int} (h : Towards e q r) (hi : i ≠ q) : shift e r i = shift e q i := by
  unfold shift
  rcases h with ⟨rfl, h⟩ | ⟨rfl, h⟩ <;> (repeat' split) <;> omega

/-- The child fields but `f` have all the positions but `e`. -/
structure Gap (s : FieldOrder F) (f : F) (e : Int) : Prop where
  mem : f ∈ s.children
  range : ∀ g ∈ s.children, g ≠ f → 0 ≤ s.relativePos g ∧ s.relativePos g < s.childFieldCount ∧ s.relativePos g ≠ e
  distinct : ∀ g ∈ s.children, ∀ h ∈ s.children, g ≠ f → h ≠ f → s.relativePos g = s.relativePos h → g = h
  filled : ∀ i, 0 ≤ i → i < s.childFieldCount → i ≠ e → ∃ g ∈ s.children, g ≠ f ∧ s.relativePos g = i
  empty : 0 ≤ e ∧ e < s.childFieldCount

omit [DecidableEq F] in
theorem Arranged.gap (h : s.Arranged) (hf : f ∈ s.children) : s.Gap f (s.relativePos f) where
  mem := hf
  range g hg hne := ⟨(h.range g hg).1, (h.range g hg).2, fun heq => hne (h.distinct g hg f hf heq)⟩
  distinct g hg k hk _ _ heq := h.distinct g hg k hk heq
  filled i hi hlt hne := by
    obtain ⟨g, hg, rfl⟩ := h.filled i hi hlt
    exact ⟨g, hg, fun heq => hne (heq ▸ rfl), rfl⟩
  empty := h.range f hf

/-- When `f` goes to the position of `g`, the others than `g` have all the positions but `e`. -/
theorem Gap.place (h : s.Gap f e) (hg : g ∈ s.children) (hgf : g ≠ f) : (s.place f (s.relativePos g)).Gap g e where
  mem := hg
  range k hk hkg := by
    by_cases hkf : k = f
    · subst hkf
      simpa using h.range g hg hgf
    · simpa [hkf] using h.range k hk hkf
  distinct k hk l hl hkg hlg heq := by
    by_cases hkf : k = f <;> by_cases hlf : l = f
    · rw [hkf, hlf]
    · simp only [place_relativePos, hkf, hlf, if_true, if_false] at heq
      exact absurd (h.distinct g hg l hl hgf hlf heq).symm hlg
    · simp only [place_relativePos, hkf, hlf, if_true, if_false] at heq
      exact absurd (h.distinct k hk g hg hkf hgf heq) hkg
    · simp only [place_relativePos, hkf, hlf, if_false] at heq
      exact h.distinct k hk l hl hkf hlf heq
  filled i hi hlt hne := by
    obtain ⟨k, hk, hkf, rfl⟩ := h.filled i hi hlt hne
    by_cases hkg : k = g
    · exact ⟨f, h.mem, Ne.symm hgf, by simp [hkg]⟩
    · exact ⟨k, hk, hkg, by simp [hkf]⟩
  empty := h.empty

/-- The only empty position, once the field is at its own, is the one that was. -/
theorem Gap.emptyPosition (h : s.Gap f e) (hg : g ∈ s.children) (hgf : g ≠ f) :
    (s.place f (s.relativePos g)).emptyPosition (s.place f (s.relativePos g)).positions = match s.parent with
      | .BinaryEncoding => .ok (some e)
      | .MoveSlot => .error .assertion := by
  refine emptyPosition_some (mem_positions.2 h.empty) (fun i hi => mem_positions.1 hi) (fun k hk => ?_) fun i hi hie => ?_
  · by_cases hkf : k = f
    · simpa [hkf] using (h.range g hg hgf).2.2
    · simpa [hkf] using (h.range k hk hkf).2.2
  · have hi := mem_positions.1 hi
    obtain ⟨k, hk, -, hki⟩ := (h.place hg hgf).filled i hi.1 hi.2 hie
    exact ⟨k, hk, hki⟩

theorem Gap.childField (h : s.Gap f e) (hg : g ∈ s.children) (hgf : g ≠ f) (hne : s.relativePos f ≠ s.relativePos g) :
    s.childField (s.relativePos g) = .ok (some g) := by
  have hrange := h.range g hg hgf
  refine childField_eq ⟨hrange.1, hrange.2.1⟩ hg rfl fun k hk hkg => ?_
  by_cases hkf : k = f
  · exact absurd (hkf ▸ hkg) hne
  · exact h.distinct k hk g hg hkf hgf hkg

/-- The position is the empty one. -/
theorem setRelativePosition_empty (hparent : s.parent = .BinaryEncoding) (h : s.Gap f e) :
    setRelativePosition (fuel + 1) f e s = some (.ok (s.place f e)) := by
  have hfilled : (s.place f e).emptyPosition (s.place f e).positions = .ok none := by
    refine emptyPosition_none (fun i hi => mem_positions.1 hi) fun i hi => ?_
    have hi := mem_positions.1 hi
    by_cases hie : i = e
    · exact ⟨f, h.mem, by simp [hie]⟩
    · obtain ⟨k, hk, hkf, hki⟩ := h.filled i hi.1 hi.2 hie
      exact ⟨k, hk, by simpa [hkf] using hki⟩
  obtain ⟨fieldToMove, hchild⟩ := childField_ok hparent h.empty
  simp [setRelativePosition, hchild, hfilled]

/-- The field at the position is moved on towards the empty one. -/
theorem setRelativePosition_step (hparent : s.parent = .BinaryEncoding) (h : s.Gap f e) (hg : g ∈ s.children)
    (hgf : g ≠ f) (hne : s.relativePos f ≠ s.relativePos g) {r : Int} (hr : Towards e (s.relativePos g) r) :
    setRelativePosition (fuel + 1) f (s.relativePos g) s =
      setRelativePosition fuel g r (s.place f (s.relativePos g)) := by
  have hchild := h.childField hg hgf hne
  have hempty := h.emptyPosition hg hgf
  rw [hparent] at hempty
  rcases hr with ⟨rfl, hlt⟩ | ⟨rfl, hlt⟩
  · simp [setRelativePosition, hchild, hempty, hgf, hlt]
  · simp [setRelativePosition, hchild, hempty, hgf, hlt, Int.not_lt.2 (Int.le_of_lt hlt)]

theorem exists_towards {q : Int} (h : q ≠ e) : ∃ r, Towards e q r := by
  rcases Int.lt_or_gt_of_ne h with hlt | hlt
  · exact ⟨q + 1, .inr ⟨rfl, hlt⟩⟩
  · exact ⟨q - 1, .inl ⟨rfl, hlt⟩⟩

/-- A binary encoding moves the fields between the empty position and the new one. -/
theorem setRelativePosition_gap (hparent : s.parent = .BinaryEncoding) (h : s.Gap f e) {q : Int}
    (hq : 0 ≤ q ∧ q < s.childFieldCount) (hne : q ≠ e → s.relativePos f ≠ q) (hfuel : (q - e).natAbs < fuel) :
    ∃ s', setRelativePosition fuel f q s = some (.ok s') ∧ s'.parent = s.parent ∧ s'.children = s.children ∧
      ∀ k ∈ s.children, s'.relativePos k = if k = f then q else shift e q (s.relativePos k) := by
  induction fuel generalizing s f q with
  | zero => omega
  | succ fuel ih =>
    by_cases hqe : q = e
    · subst hqe
      refine ⟨s.place f q, setRelativePosition_empty hparent h, rfl, rfl, fun k _ => ?_⟩
      simp [shift_self]
    · obtain ⟨g, hg, hgf, rfl⟩ := h.filled q hq.1 hq.2 hqe
      obtain ⟨r, hr⟩ := exists_towards hqe
      have hempty := h.empty
      have hrange : 0 ≤ r ∧ r < s.childFieldCount ∧ r ≠ s.relativePos g ∧ (r - e).natAbs < fuel := by
        rcases hr with ⟨rfl, hlt⟩ | ⟨rfl, hlt⟩ <;> omega
      obtain ⟨s', hs', hp, hc, hpos⟩ := ih (s := s.place f (s.relativePos g)) (f := g) (q := r) hparent
        (h.place hg hgf) ⟨hrange.1, hrange.2.1⟩ (fun _ => by simpa [hgf] using hrange.2.2.1.symm) hrange.2.2.2
      refine ⟨s', (setRelativePosition_step hparent h hg hgf (hne hqe) hr).trans hs', hp, hc, fun k hk => ?_⟩
      rw [hpos k hk]
      by_cases hkf : k = f
      · simp [hkf, Ne.symm hgf, hr.shift_place]
      · by_cases hkg : k = g
        · simp [hkg, hgf, hr.shift_moved]
        · have hdistinct : s.relativePos k ≠ s.relativePos g := fun heq => hkg (h.distinct k hk g hg hkf hgf heq)
          simp [hkf, hkg, hr.shift_other hdistinct]

/-! ## Sequences of calls -/

theorem shift_range {n q i : Int} (he : 0 ≤ e ∧ e < n) (hi : 0 ≤ i ∧ i < n) :
    0 ≤ shift e q i ∧ shift e q i < n := by
  unfold shift
  (repeat' split) <;> omega

theorem shift_ne {q i : Int} (hi : i ≠ e) : shift e q i ≠ q := by
  unfold shift
  (repeat' split) <;> omega

theorem shift_lt_iff {q i j : Int} (hi : i ≠ e) (hj : j ≠ e) : shift e q i < shift e q j ↔ i < j := by
  unfold shift
  (repeat' split) <;> omega

theorem exists_shift_eq (e : Int) {n q i : Int} (hq : 0 ≤ q ∧ q < n) (hi : 0 ≤ i ∧ i < n) (hne : i ≠ q) :
    ∃ j, 0 ≤ j ∧ j < n ∧ j ≠ e ∧ shift e q j = i := by
  by_cases hdown : e ≤ i ∧ i < q
  · exact ⟨i + 1, by omega, by omega, by omega, by unfold shift; rw [if_pos (by omega)]; omega⟩
  · by_cases hup : q < i ∧ i ≤ e
    · exact ⟨i - 1, by omega, by omega, by omega, by unfold shift; rw [if_neg (by omega), if_pos (by omega)]; omega⟩
    · exact ⟨i, hi.1, hi.2, by omega, by unfold shift; rw [if_neg (by omega), if_neg (by omega)]⟩

/-- The others are shifted by one position between the old and the new one of the field. -/
theorem Arranged.moved (h : s.Arranged) (hf : f ∈ s.children) (hp : 0 ≤ p ∧ p < s.childFieldCount)
    (hparent : s'.parent = s.parent) (hchildren : s'.children = s.children)
    (hpos : ∀ k ∈ s.children, s'.relativePos k = if k = f then p else shift (s.relativePos f) p (s.relativePos k)) :
    s.Moved f p s' := by
  have he := h.range f hf
  have hcount : s'.childFieldCount = s.childFieldCount := by rw [childFieldCount, childFieldCount, hchildren]
  have hmoved : s'.relativePos f = p := by simp [hpos f hf]
  have hother : ∀ k ∈ s.children, k ≠ f → s.relativePos k ≠ s.relativePos f ∧
      s'.relativePos k = shift (s.relativePos f) p (s.relativePos k) := fun k hk hkf =>
    ⟨fun heq => hkf (h.distinct k hk f hf heq), by simp [hpos k hk, hkf]⟩
  have horder : ∀ g ∈ s.children, ∀ k ∈ s.children, g ≠ f → k ≠ f →
      (s'.relativePos g < s'.relativePos k ↔ s.relativePos g < s.relativePos k) := by
    intro g hg k hk hgf hkf
    rw [(hother g hg hgf).2, (hother k hk hkf).2, shift_lt_iff (hother g hg hgf).1 (hother k hk hkf).1]
  refine ⟨⟨fun k hk => ?_, fun g hg k hk heq => ?_, fun i hi hlt => ?_⟩, hparent, hchildren, hmoved, horder⟩
  · rw [hchildren] at hk
    rw [hcount]
    by_cases hkf : k = f
    · rw [hkf, hmoved]
      exact hp
    · rw [(hother k hk hkf).2]
      exact shift_range he (h.range k hk)
  · rw [hchildren] at hg hk
    by_cases hgf : g = f <;> by_cases hkf : k = f
    · rw [hgf, hkf]
    · rw [hgf, hmoved, (hother k hk hkf).2] at heq
      exact absurd heq.symm (shift_ne (hother k hk hkf).1)
    · rw [hkf, hmoved, (hother g hg hgf).2] at heq
      exact absurd heq (shift_ne (hother g hg hgf).1)
    · have hlt := horder g hg k hk hgf hkf
      have hgt := horder k hk g hg hkf hgf
      exact h.distinct g hg k hk (by omega)
  · rw [hcount] at hlt
    rw [hchildren]
    by_cases hip : i = p
    · exact ⟨f, hf, by rw [hmoved, hip]⟩
    · obtain ⟨j, hj, hjlt, hje, rfl⟩ := exists_shift_eq (s.relativePos f) hp ⟨hi, hlt⟩ hip
      obtain ⟨k, hk, rfl⟩ := h.filled j hj hjlt
      have hkf : k ≠ f := fun heq => hje (by rw [heq])
      exact ⟨k, hk, (hother k hk hkf).2⟩

theorem setRelativePosition_binaryEncoding (hparent : s.parent = .BinaryEncoding) (h : s.Arranged) (hf : f ∈ s.children)
    (hp : 0 ≤ p ∧ p < s.childFieldCount) :
    ∃ fuel s', setRelativePosition fuel f p s = some (.ok s') ∧ s.Moved f p s' := by
  obtain ⟨s', hs', hparent', hchildren, hpos⟩ :=
    setRelativePosition_gap hparent (h.gap hf) hp (fun hne => hne.symm) (Nat.lt_succ_self _)
  exact ⟨_, s', hs', h.moved hf hp hparent' hchildren hpos⟩

theorem setRelativePosition_self (h : s.Arranged) (hf : f ∈ s.children) :
    setRelativePosition (fuel + 1) f (s.relativePos f) s = some (.ok s) := by
  have hchild : s.childField (s.relativePos f) = .ok (some f) :=
    childField_eq (h.range f hf) hf rfl fun g hg heq => h.distinct g hg f hf heq
  have hfilled : s.emptyPosition s.positions = .ok none :=
    emptyPosition_none (fun i hi => mem_positions.1 hi) fun i hi =>
      h.filled i (mem_positions.1 hi).1 (mem_positions.1 hi).2
  simp [setRelativePosition, hchild, place_self, hfilled]

/-- A move slot asserts that the position has a field that became empty. -/
theorem setRelativePosition_moveSlot (hparent : s.parent = .MoveSlot) (h : s.Arranged) (hf : f ∈ s.children)
    (hp : 0 ≤ p ∧ p < s.childFieldCount) (hne : s.relativePos f ≠ p) :
    setRelativePosition (fuel + 1) f p s = some (.error .assertion) := by
  obtain ⟨g, hg, rfl⟩ := h.filled p hp.1 hp.2
  have hgf : g ≠ f := fun heq => hne (by rw [heq])
  have hempty := (h.gap hf).emptyPosition hg hgf
  rw [hparent] at hempty
  simp only [setRelativePosition, (h.gap hf).childField hg hgf hne, hempty]

/-- The calls of a sequence all succeed exactly when the fields are those of a binary encoding, or each call leaves its
field where it is. -/
theorem setRelativePosition_succeeds_iff (s : FieldOrder F) (h : s.Arranged) (calls : List (F × Int))
    (hcalls : ∀ call ∈ calls, call.1 ∈ s.children ∧ 0 ≤ call.2 ∧ call.2 < s.childFieldCount) :
    s.Succeeds calls ↔ s.parent = .BinaryEncoding ∨ ∀ call ∈ calls, s.relativePos call.1 = call.2 := by
  cases hparent : s.parent with
  | BinaryEncoding =>
    simp only [true_or, iff_true]
    induction calls generalizing s with
    | nil => trivial
    | cons call calls ih =>
      obtain ⟨hf, hp⟩ := hcalls call (by simp)
      obtain ⟨fuel, s', hs', hmoved⟩ := setRelativePosition_binaryEncoding hparent h hf hp
      refine ⟨fuel, s', hs', hmoved, ih s' hmoved.arranged (fun c hc => ?_) (hmoved.parent.trans hparent)⟩
      have hmem := hcalls c (by simp [hc])
      rwa [childFieldCount, hmoved.children]
  | MoveSlot =>
    simp only [reduceCtorEq, false_or]
    induction calls with
    | nil => simp [Succeeds]
    | cons call calls ih =>
      obtain ⟨hf, hp⟩ := hcalls call (by simp)
      have ih := ih fun c hc => hcalls c (by simp [hc])
      rw [List.forall_mem_cons, ← ih]
      constructor
      · rintro ⟨fuel, s', hs', -, hrest⟩
        cases fuel with
        | zero => cases hs'
        | succ fuel =>
          by_cases heq : s.relativePos call.1 = call.2
          · rw [← heq, setRelativePosition_self h hf] at hs'
            cases hs'
            exact ⟨heq, hrest⟩
          · rw [setRelativePosition_moveSlot hparent h hf hp heq] at hs'
            cases hs'
      · rintro ⟨heq, hrest⟩
        have hself : setRelativePosition 1 call.1 call.2 s = some (.ok s) := heq ▸ setRelativePosition_self h hf
        have hmoved := h.moved hf hp rfl rfl fun k _ => by
          by_cases hkf : k = call.1
          · simp [hkf, heq]
          · simp [hkf, heq, shift_self]
        exact ⟨1, s, hself, hmoved, hrest⟩

/-- The fields at the positions of their numbers. -/
def numbered (parent : ParentField) (n : Nat) : FieldOrder Nat := ⟨parent, List.range n, (↑)⟩

theorem arranged_numbered (parent : ParentField) (n : Nat) : (numbered parent n).Arranged := by
  refine ⟨fun f hf => ?_, fun f _ g _ heq => Int.ofNat_inj.1 heq, fun i hi hlt => ?_⟩
  · have hlt := List.mem_range.1 hf
    simp only [numbered, childFieldCount, List.length_range]
    omega
  · simp only [numbered, childFieldCount, List.length_range] at hlt
    exact ⟨i.toNat, List.mem_range.2 (by omega), Int.toNat_of_nonneg hi⟩

theorem succeeds_numbered : (numbered .BinaryEncoding 4).Succeeds [(0, 2), (3, 1)] :=
  (setRelativePosition_succeeds_iff _ (arranged_numbered ..) _ (by decide)).2 (.inl rfl)

/-- The first of two fields of a move slot does not get the position of the second. -/
theorem not_setRelativePosition_succeeds :
    ¬ ∀ (s : FieldOrder Nat), s.Arranged → ∀ calls : List (Nat × Int),
      (∀ call ∈ calls, call.1 ∈ s.children ∧ 0 ≤ call.2 ∧ call.2 < s.childFieldCount) → s.Succeeds calls := by
  intro h
  obtain ⟨fuel, s', hs', -, -⟩ := h (numbered .MoveSlot 2) (arranged_numbered ..) [(0, 1)] (by decide)
  cases fuel with
  | zero => cases hs'
  | succ fuel => cases hs'

end FieldOrder

end Tce.BEM
