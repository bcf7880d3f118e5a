import Mathlib.Data.List.Nodup
import Tce.POM.CopyFrom

/-!
# Places of instructions

An instruction of a program is at a place: its procedure and its offset there. Where two
programs have procedures of the same lengths at the same addresses, a lookup by address
gives the same place in both.
-/

namespace Tce.POM.Copying

variable {ρ : Type}

/-- The instructions of the procedures, in order. -/
def ids (procedures : List (Procedure ρ)) : List InstructionId :=
  procedures.flatMap fun p => p.instructions.map (·.id)

/-- The instruction of the k-th procedure at the offset. -/
def place (procedures : List (Procedure ρ)) (k offset : Nat) : Option InstructionId :=
  procedures[k]?.bind fun p => p.instructions[offset]?.map (·.id)

def addressAt (procedures : List (Procedure ρ)) (k offset : Nat) : Option InstructionAddress :=
  procedures[k]?.map fun p => p.start + BitVec.ofNat 32 offset

/-- The same procedure and the same offset. -/
def SamePlace (ps qs : List (Procedure ρ)) (i j : InstructionId) : Prop :=
  ∃ k offset, place ps k offset = some i ∧ place qs k offset = some j

/-- Every procedure starts where the one before it ends. -/
def Consecutive : InstructionAddress → List (Procedure ρ) → Prop
  | _, [] => True
  | a, p :: ps => p.start = a ∧ Consecutive p.endAddress ps

section Places
variable {p q : Procedure ρ} {ps qs : List (Procedure ρ)} {i j : InstructionId} {a d : InstructionAddress}
  {k offset k' offset' : Nat}

@[simp] theorem place_zero : place (p :: ps) 0 offset = p.instructions[offset]?.map (·.id) := rfl

@[simp] theorem place_succ : place (p :: ps) (k + 1) offset = place ps k offset := rfl

@[simp] theorem addressAt_zero : addressAt (p :: ps) 0 offset = some (p.start + BitVec.ofNat 32 offset) := rfl

@[simp] theorem addressAt_succ : addressAt (p :: ps) (k + 1) offset = addressAt ps k offset := rfl

@[simp] theorem ids_cons : ids (p :: ps) = p.instructions.map (·.id) ++ ids ps := rfl

theorem mem_ids_iff : i ∈ ids ps ↔ ∃ k offset, place ps k offset = some i := by
  induction ps with
  | nil => simp [ids, place]
  | cons p ps ih =>
    rw [ids_cons, List.mem_append, ih]
    constructor
    · rintro (hi | ⟨k, offset, hk⟩)
      · obtain ⟨offset, hoffset⟩ := List.mem_iff_getElem?.mp hi
        exact ⟨0, offset, by simpa using hoffset⟩
      · exact ⟨k + 1, offset, hk⟩
    · rintro ⟨k, offset, hk⟩
      cases k with
      | zero => exact .inl (List.mem_iff_getElem?.mpr ⟨offset, by simpa using hk⟩)
      | succ k => exact .inr ⟨k, offset, hk⟩

theorem mem_ids_of_place (h : place ps k offset = some i) : i ∈ ids ps := mem_ids_iff.mpr ⟨k, offset, h⟩

/-- An instruction is at one place. -/
theorem place_unique (hnodup : (ids ps).Nodup) (h : place ps k offset = some i) (h' : place ps k' offset' = some i) :
    k = k' ∧ offset = offset' := by
  induction ps generalizing k k' with
  | nil => simp [place] at h
  | cons p ps ih =>
    rw [ids_cons, List.nodup_append] at hnodup
    obtain ⟨hp, hps, hdisjoint⟩ := hnodup
    have hmem {m : Nat} (hm : place (p :: ps) 0 m = some i) : i ∈ p.instructions.map (·.id) :=
      List.mem_iff_getElem?.mpr ⟨m, by simpa using hm⟩
    cases k with
    | zero =>
      cases k' with
      | zero =>
        refine ⟨rfl, ?_⟩
        have hget : (p.instructions.map (·.id))[offset]? = some i := by simpa using h
        have hget' : (p.instructions.map (·.id))[offset']? = some i := by simpa using h'
        obtain ⟨hlt, heq⟩ := List.getElem?_eq_some_iff.mp hget
        obtain ⟨hlt', heq'⟩ := List.getElem?_eq_some_iff.mp hget'
        exact (List.Nodup.getElem_inj_iff hp).mp (heq.trans heq'.symm)
      | succ k' => exact absurd rfl (hdisjoint i (hmem h) i (mem_ids_of_place h'))
    | succ k =>
      cases k' with
      | zero => exact absurd rfl (hdisjoint i (hmem h') i (mem_ids_of_place h))
      | succ k' =>
        obtain ⟨rfl, rfl⟩ := ih hps h h'
        exact ⟨rfl, rfl⟩

/-- What a lookup gives is at the address. -/
theorem place_of_instructionAt (h : instructionAt ps a = some i) :
    ∃ k offset, place ps k offset = some i ∧ addressAt ps k offset = some a := by
  induction ps with
  | nil => simp [instructionAt] at h
  | cons p ps ih =>
    unfold instructionAt at h
    rw [List.find?_cons] at h
    split at h
    · simp only [Option.bind_some, Procedure.instructionAt] at h
      split at h
      · refine ⟨0, (a - p.start).toNat, h, ?_⟩
        have hback : p.start + BitVec.ofNat 32 (a - p.start).toNat = a := by bv_omega
        simp only [addressAt_zero, hback]
      · cases h
    · obtain ⟨k, offset, hk, ha⟩ := ih h
      exact ⟨k + 1, offset, hk, ha⟩

/-- The address of an instruction is that of its place. -/
theorem place_of_address {P : Program ρ} (h : P.address i = some a) :
    ∃ k offset, place P.procedures k offset = some i ∧ addressAt P.procedures k offset = some a := by
  obtain ⟨p, hp, ha⟩ := List.exists_of_findSome?_eq_some h
  obtain ⟨offset, hoffset, rfl⟩ := Option.map_eq_some_iff.mp ha
  obtain ⟨hlt, hid, -⟩ := List.findIdx?_eq_some_iff_getElem.mp hoffset
  obtain ⟨k, hk⟩ := List.mem_iff_getElem?.mp hp
  refine ⟨k, offset, ?_, by simp [addressAt, hk]⟩
  simpa [place, hk, List.getElem?_eq_getElem hlt] using hid

theorem address_isSome {P : Program ρ} (h : i ∈ ids P.procedures) : ∃ a, P.address i = some a := by
  obtain ⟨p, hp, hi⟩ := List.mem_flatMap.mp h
  obtain ⟨ins, hins, rfl⟩ := List.mem_map.mp hi
  refine Option.isSome_iff_exists.mp (List.findSome?_isSome_iff.mpr ⟨p, hp, ?_⟩)
  simp only [Procedure.address, Option.isSome_map, List.findIdx?_isSome]
  exact List.any_eq_true.mpr ⟨ins, hins, by simp⟩

/-- Procedures of the same lengths, at addresses that differ by a constant. -/
def Shifted (d : InstructionAddress) (p q : Procedure ρ) : Prop :=
  q.start = p.start + d ∧ q.instructions.length = p.instructions.length

theorem SamePlace.cons (h : SamePlace ps qs i j) : SamePlace (p :: ps) (q :: qs) i j := by
  obtain ⟨k, offset, hi, hj⟩ := h
  exact ⟨k + 1, offset, hi, hj⟩

/-- With the same layout a lookup gives the same place. -/
theorem instructionAt_rel (h : List.Forall₂ (Shifted 0) ps qs) (a : InstructionAddress) :
    Option.Rel (SamePlace ps qs) (instructionAt ps a) (instructionAt qs a) := by
  induction h with
  | nil => exact .none
  | @cons p q ps qs hpq _ ih =>
    obtain ⟨hstart, hlen⟩ := hpq
    have hstart : q.start = p.start := by simpa using hstart
    have hend : q.endAddress = p.endAddress := by simp [Procedure.endAddress, hstart, hlen]
    unfold instructionAt at ih ⊢
    rw [List.find?_cons, List.find?_cons, hstart, hend]
    split
    · simp only [Option.bind_some, Procedure.instructionAt, hstart]
      split
      · generalize (a - p.start).toNat = offset
        by_cases hin : offset < p.instructions.length
        · rw [List.getElem?_eq_getElem hin, List.getElem?_eq_getElem (hlen ▸ hin)]
          exact .some ⟨0, offset, by simp [hin], by simp [hlen, hin]⟩
        · rw [List.getElem?_eq_none (by omega), List.getElem?_eq_none (by omega)]
          exact .none
      · exact .none
    · generalize Option.bind _ _ = x at ih ⊢
      generalize Option.bind _ _ = y at ih ⊢
      cases ih with
      | some hij => exact .some hij.cons
      | none => exact .none

theorem addressAt_shifted (h : List.Forall₂ (Shifted d) ps qs) :
    addressAt qs k offset = (addressAt ps k offset).map (· + d) := by
  induction h generalizing k with
  | nil => simp [addressAt]
  | @cons p q ps qs hpq _ ih =>
    cases k with
    | zero =>
      have hcomm : p.start + d + BitVec.ofNat 32 offset = p.start + BitVec.ofNat 32 offset + d := by bv_omega
      simp [hpq.1, hcomm]
    | succ k => exact ih

end Places

section Copies
variable {p : Procedure ρ} {ps : List (Procedure ρ)} {instructions : List (Instruction ρ)} {a d : InstructionAddress}
  {next : Nat}

theorem forall₂_copyInstructions : List.Forall₂ (fun x y : Instruction ρ => y = { x with id := y.id })
    instructions (copyInstructions next instructions) := by
  induction instructions generalizing next with
  | nil => exact .nil
  | cons ins instructions ih => exact .cons rfl ih

theorem ids_copyInstructions : (copyInstructions next instructions).map (·.id) = List.range' next instructions.length := by
  induction instructions generalizing next with
  | nil => rfl
  | cons ins instructions ih => simp [copyInstructions, ih, List.range'_succ]

/-- What a procedure of the copy takes over before its references are fixed. -/
def CopiedAt (d : InstructionAddress) (p q : Procedure ρ) : Prop :=
  q.name = p.name ∧ q.start = p.start + d ∧
    List.Forall₂ (fun x y : Instruction ρ => y = { x with id := y.id }) p.instructions q.instructions

theorem forall₂_copyProcedures (h : Consecutive a ps) :
    List.Forall₂ (CopiedAt d) ps (copyProcedures (a + d) next ps) := by
  induction ps generalizing a next with
  | nil => exact .nil
  | cons p ps ih =>
    obtain ⟨rfl, hps⟩ := h
    refine .cons ⟨rfl, rfl, forall₂_copyInstructions⟩ ?_
    have hnext : p.start + d + BitVec.ofNat 32 p.instructions.length = p.endAddress + d := by
      rw [Procedure.endAddress]
      bv_omega
    rw [hnext]
    exact ih hps

/-- The instructions of the copy are new. -/
theorem ids_copyProcedures : ids (copyProcedures a next ps) = List.range' next (ids ps).length := by
  induction ps generalizing a next with
  | nil => rfl
  | cons p ps ih =>
    rw [copyProcedures, ids_cons, ids_cons, ih, ids_copyInstructions, List.length_append, List.length_map,
      List.range'_append_1]

end Copies

end Tce.POM.Copying
