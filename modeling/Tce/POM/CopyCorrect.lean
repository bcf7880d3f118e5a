import Tce.Base.MapM
import Tce.POM.CopiedPlaces

/-!
# When a copy is faithful

The copy has the same contents at the same addresses, and refers to its own instructions
at the places that the source refers to, if and only if the target started at the
address of the source, or below it where nothing refers to an instruction.
-/

namespace Tce.POM.Copying

variable {ρ : Type}

section Relations
variable (R : InstructionId → InstructionId → Prop)

/-- The same terminal but for the instruction that is referred to. A terminal that refers to a
program operation of the source is not the same in any other program. -/
inductive SameTerminal : Terminal ρ → Terminal ρ → Prop
  | instructionReference {i j : InstructionId} (h : R i j) : SameTerminal (.instructionReference i) (.instructionReference j)
  | other (t : ρ) : SameTerminal (.other t) (.other t)

def SameMove (m n : Move ρ) : Prop := n.rest = m.rest ∧ SameTerminal R m.source n.source

def SameImmediate (m n : Immediate ρ) : Prop := n.destination = m.destination ∧ SameTerminal R m.value n.value

structure SameInstruction (x y : Instruction ρ) : Prop where
  rest : y.rest = x.rest
  moves : List.Forall₂ (SameMove R) x.moves y.moves
  immediates : List.Forall₂ (SameImmediate R) x.immediates y.immediates

/-- The same procedure, at an address that differs by `d`. -/
structure SameProcedure (d : InstructionAddress) (p q : Procedure ρ) : Prop where
  name : q.name = p.name
  start : q.start = p.start + d
  instructions : List.Forall₂ (SameInstruction R) p.instructions q.instructions

inductive SameDefinition : DataDefinition ρ → DataDefinition ρ → Prop
  | instructionAddress (size : Nat) {i j : InstructionId} (h : R i j) :
    SameDefinition (.instructionAddress size i) (.instructionAddress size j)
  | other (d : ρ) : SameDefinition (.other d) (.other d)

structure SameDataMemory (m n : DataMemory ρ) : Prop where
  addressSpace : n.addressSpace = m.addressSpace
  dataDefs : List.Forall₂ (fun d e => e.1 = d.1 ∧ SameDefinition R d.2 e.2) m.dataDefs n.dataDefs

/-- A label of the same name at the same address; one of an instruction is one of the copy of it. -/
structure SameLabel (S P : Program ρ) (l m : String × Labelled) : Prop where
  name : m.1 = l.1
  address : P.labelAddress m.2 = S.labelAddress l.2
  instruction : ∀ i, l.2 = .instruction i → ∃ j, m.2 = .instruction j ∧ R i j

end Relations

/-- The same program at the same addresses, each reference at the same place as in the source. -/
structure IsCopy (S P : Program ρ) : Prop where
  start : P.start = S.start
  entry : P.entry = S.entry
  procedures : List.Forall₂ (SameProcedure (SamePlace S.procedures P.procedures) 0) S.procedures P.procedures
  dataMems : List.Forall₂ (SameDataMemory (SamePlace S.procedures P.procedures)) S.dataMems P.dataMems
  dataLabels : P.dataLabels = S.dataLabels
  codeLabels : List.Forall₂ (SameLabel (SamePlace S.procedures P.procedures) S P) S.codeLabels P.codeLabels

section References

def Terminal.references : Terminal ρ → List InstructionId
  | .instructionReference i => [i]
  | _ => []

def DataDefinition.references : DataDefinition ρ → List InstructionId
  | .instructionAddress _ i => [i]
  | .other _ => []

def Labelled.references : Labelled → List InstructionId
  | .instruction i => [i]
  | .procedure _ => []

def Instruction.terminals (x : Instruction ρ) : List (Terminal ρ) := x.moves.map (·.source) ++ x.immediates.map (·.value)

def terminals (procedures : List (Procedure ρ)) : List (Terminal ρ) :=
  procedures.flatMap fun p => p.instructions.flatMap (·.terminals)

/-- The instructions that moves, immediates and data definitions refer to. -/
def Program.references (P : Program ρ) : List InstructionId :=
  (terminals P.procedures).flatMap (·.references) ++
    P.dataMems.flatMap fun m => m.dataDefs.flatMap fun d => d.2.references

def Program.labelled (P : Program ρ) : List InstructionId := P.codeLabels.flatMap fun l => l.2.references

end References

/-- Consecutive procedures, references to instructions of the program, label names that differ;
every instruction exists, so its identity is not free. -/
structure Program.WellFormed (S : Program ρ) (next : Nat) : Prop where
  consecutive : Consecutive S.start S.procedures
  nodup : (ids S.procedures).Nodup
  lt_next : ∀ i ∈ ids S.procedures, i < next
  references : ∀ i ∈ S.references, i ∈ ids S.procedures
  labelled : ∀ i ∈ S.labelled, i ∈ ids S.procedures
  procedures : ∀ l ∈ S.codeLabels, ∀ k, l.2 = .procedure k → k < S.procedures.length
  ordered : ∀ m ∈ S.dataMems, OrderedMap.Ordered m.dataDefs
  dataLabels : (S.dataLabels.map (·.1)).Nodup
  codeLabels : (S.codeLabels.map (·.1)).Nodup

/-- What the copy refers to is in the copy, and no program that may exist or come to exist beside it
changes what that is. -/
def Program.Independent (P : Program ρ) (next : Nat) : Prop :=
  (∀ i ∈ ids P.procedures, next ≤ i) ∧ ∀ i ∈ P.references ++ P.labelled, i ∈ ids P.procedures ∧
    ∀ others : List (Program ρ), (∀ Q ∈ others, i ∉ ids Q.procedures) →
      (others ++ [P]).findSome? (·.address i) = P.address i

/-- A lookup of the address of the instruction finds it. -/
def Program.Found (S : Program ρ) (i : InstructionId) : Prop := newReference S S.procedures i = some i

/-- The condition under which a program can be copied to a target that starts at the address. -/
structure Program.Copyable (S : Program ρ) (target : InstructionAddress) : Prop where
  start : S.procedures = [] ∨ target = S.start ∨ (target < S.start ∧ S.references = [])
  terminals : ∀ t ∈ terminals S.procedures, ∀ operation, t ≠ .programOperation operation
  references : ∀ i ∈ S.references, S.Found i
  labelled : ∀ i ∈ S.labelled, S.Found i
  procedures : ∀ l ∈ S.codeLabels, ∀ k, l.2 = .procedure k →
    ∃ a i, S.labelAddress l.2 = some a ∧ instructionAt S.procedures a = some i

section Combining
variable {Q R T : InstructionId → InstructionId → Prop} {d : InstructionAddress}

theorem SameTerminal.mp (h : ∀ i j, Q i j → R i j → T i j) {t u : Terminal ρ} (hQ : SameTerminal Q t u)
    (hR : SameTerminal R t u) : SameTerminal T t u := by
  cases hQ with
  | instructionReference hij =>
    obtain ⟨hij'⟩ := hR
    exact .instructionReference (h _ _ hij hij')
  | other t => exact .other t

theorem SameInstruction.mp (h : ∀ i j, Q i j → R i j → T i j) {x y : Instruction ρ} (hQ : SameInstruction Q x y)
    (hR : SameInstruction R x y) : SameInstruction T x y :=
  ⟨hQ.rest, hQ.moves.mp (fun _ _ a b => ⟨a.1, a.2.mp h b.2⟩) hR.moves,
    hQ.immediates.mp (fun _ _ a b => ⟨a.1, a.2.mp h b.2⟩) hR.immediates⟩

theorem SameProcedure.mp (h : ∀ i j, Q i j → R i j → T i j) {p q : Procedure ρ} {e : InstructionAddress}
    (hQ : SameProcedure Q d p q) (hR : SameProcedure R e p q) : SameProcedure T d p q :=
  ⟨hQ.name, hQ.start, hQ.instructions.mp (fun _ _ a b => a.mp h b) hR.instructions⟩

theorem SameDefinition.mp (h : ∀ i j, Q i j → R i j → T i j) {t u : DataDefinition ρ} (hQ : SameDefinition Q t u)
    (hR : SameDefinition R t u) : SameDefinition T t u := by
  cases hQ with
  | instructionAddress size hij =>
    obtain ⟨_, hij'⟩ := hR
    exact .instructionAddress size (h _ _ hij hij')
  | other t => exact .other t

theorem SameDataMemory.mp (h : ∀ i j, Q i j → R i j → T i j) {m n : DataMemory ρ} (hQ : SameDataMemory Q m n)
    (hR : SameDataMemory R m n) : SameDataMemory T m n :=
  ⟨hQ.addressSpace, hQ.dataDefs.mp (fun _ _ a b => ⟨a.1, a.2.mp h b.2⟩) hR.dataDefs⟩

theorem forall₂_terminals {ps qs : List (Procedure ρ)} (h : List.Forall₂ (SameProcedure R d) ps qs) :
    List.Forall₂ (SameTerminal R) (terminals ps) (terminals qs) := by
  refine List.rel_flatMap h fun p q hpq => List.rel_flatMap hpq.instructions fun x y hxy => ?_
  refine List.rel_append (List.forall₂_map_left_iff.mpr (List.forall₂_map_right_iff.mpr ?_))
    (List.forall₂_map_left_iff.mpr (List.forall₂_map_right_iff.mpr ?_))
  · exact hxy.moves.imp fun _ _ hmn => hmn.2
  · exact hxy.immediates.imp fun _ _ hmn => hmn.2

theorem SameTerminal.references {t u : Terminal ρ} (h : SameTerminal R t u) : List.Forall₂ R t.references u.references := by
  cases h with
  | instructionReference hij => exact .cons hij .nil
  | other => exact .nil

theorem SameDefinition.references {t u : DataDefinition ρ} (h : SameDefinition R t u) :
    List.Forall₂ R t.references u.references := by
  cases h with
  | instructionAddress size hij => exact .cons hij .nil
  | other => exact .nil

/-- The references of related programs are related, one by one. -/
theorem forall₂_references {S P : Program ρ} (h : List.Forall₂ (SameProcedure R d) S.procedures P.procedures)
    (hmems : List.Forall₂ (SameDataMemory R) S.dataMems P.dataMems) : List.Forall₂ R S.references P.references :=
  List.rel_append (List.rel_flatMap (forall₂_terminals h) fun _ _ htu => htu.references)
    (List.rel_flatMap hmems fun _ _ hmn => List.rel_flatMap hmn.dataDefs fun _ _ hde => hde.2.references)

end Combining

section Fixing
variable {S : Program ρ} {ps : List (Procedure ρ)} {R : InstructionId → InstructionId → Prop}

/-- The instruction that a reference leads to after it is fixed. -/
def Fixed (S : Program ρ) (ps : List (Procedure ρ)) (i j : InstructionId) : Prop := newReference S ps i = some j

theorem fixTerminal_eq_some_iff {t u : Terminal ρ} : fixTerminal S ps t = some u ↔ SameTerminal (Fixed S ps) t u := by
  constructor
  · intro h
    cases t with
    | instructionReference i =>
      obtain ⟨j, hj, rfl⟩ := Option.map_eq_some_iff.mp h
      exact .instructionReference hj
    | programOperation operation => cases h
    | other t =>
      obtain rfl := Option.some.inj h
      exact .other t
  · rintro (hij | t)
    · exact Option.map_eq_some_iff.mpr ⟨_, hij, rfl⟩
    · rfl

theorem fixMove_eq_some_iff {m n : Move ρ} : fixMove S ps m = some n ↔ SameMove (Fixed S ps) m n := by
  simp only [fixMove, Option.map_eq_some_iff, fixTerminal_eq_some_iff, SameMove]
  constructor
  · rintro ⟨t, ht, rfl⟩
    exact ⟨rfl, ht⟩
  · rintro ⟨hrest, ht⟩
    exact ⟨n.source, ht, by rw [← hrest]⟩

theorem fixImmediate_eq_some_iff {m n : Immediate ρ} :
    fixImmediate S ps m = some n ↔ SameImmediate (Fixed S ps) m n := by
  simp only [fixImmediate, Option.map_eq_some_iff, fixTerminal_eq_some_iff, SameImmediate]
  constructor
  · rintro ⟨t, ht, rfl⟩
    exact ⟨rfl, ht⟩
  · rintro ⟨hdestination, ht⟩
    exact ⟨n.value, ht, by rw [← hdestination]⟩

theorem fixInstruction_eq_some_iff {x y : Instruction ρ} :
    fixInstruction S ps x = some y ↔ y.id = x.id ∧ SameInstruction (Fixed S ps) x y := by
  simp only [fixInstruction, Option.bind_eq_some_iff, Option.map_eq_some_iff, MapM.mapM_eq_some_iff,
    fixMove_eq_some_iff, fixImmediate_eq_some_iff]
  constructor
  · rintro ⟨moves, hmoves, immediates, himmediates, rfl⟩
    exact ⟨rfl, rfl, hmoves, himmediates⟩
  · rintro ⟨hid, hrest, hmoves, himmediates⟩
    exact ⟨y.moves, hmoves, y.immediates, himmediates, by rw [← hid, ← hrest]⟩

/-- What becomes of a procedure whose references are changed. -/
def RenamedProcedure (R : InstructionId → InstructionId → Prop) (p q : Procedure ρ) : Prop :=
  q.name = p.name ∧ q.start = p.start ∧
    List.Forall₂ (fun x y => y.id = x.id ∧ SameInstruction R x y) p.instructions q.instructions

theorem fixProcedure_eq_some_iff {p q : Procedure ρ} :
    fixProcedure S ps p = some q ↔ RenamedProcedure (Fixed S ps) p q := by
  simp only [fixProcedure, Option.map_eq_some_iff, MapM.mapM_eq_some_iff, fixInstruction_eq_some_iff, RenamedProcedure]
  constructor
  · rintro ⟨instructions, hinstructions, rfl⟩
    exact ⟨rfl, rfl, hinstructions⟩
  · rintro ⟨hname, hstart, hinstructions⟩
    exact ⟨q.instructions, hinstructions, by rw [← hname, ← hstart]⟩

theorem copyDefinition_eq_some_iff {d e : DataDefinition ρ} :
    copyDefinition S ps d = some e ↔ SameDefinition (Fixed S ps) d e := by
  constructor
  · intro h
    cases d with
    | instructionAddress size i =>
      obtain ⟨j, hj, rfl⟩ := Option.map_eq_some_iff.mp h
      exact .instructionAddress size hj
    | other d =>
      obtain rfl := Option.some.inj h
      exact .other d
  · rintro (⟨size, hij⟩ | d)
    · exact Option.map_eq_some_iff.mpr ⟨_, hij, rfl⟩
    · rfl

/-- The definitions are set in the order in which they are in the map. -/
theorem copyDataMemory_eq_some_iff {m n : DataMemory ρ} (h : OrderedMap.Ordered m.dataDefs) :
    copyDataMemory S ps m = some n ↔ SameDataMemory (Fixed S ps) m n := by
  have hdefs : ∀ defs, List.Forall₂ (fun d e : Nat × DataDefinition ρ => e.1 = d.1 ∧ SameDefinition (Fixed S ps) d.2 e.2)
      m.dataDefs defs → defs.foldl (fun defs d => OrderedMap.set defs d.1 d.2) [] = defs := by
    intro defs hall
    refine OrderedMap.foldl_set ?_
    have hkeys : defs.map (·.1) = m.dataDefs.map (·.1) := by
      clear h
      generalize m.dataDefs = l at hall
      induction hall with
      | nil => rfl
      | cons hd _ ih => simp [hd.1, ih]
    have hord : (m.dataDefs.map (·.1)).Pairwise (· < ·) := List.pairwise_map.mpr h
    exact List.pairwise_map.mp (hkeys ▸ hord)
  have hone : ∀ d e : Nat × DataDefinition ρ, ((copyDefinition S ps d.2).map fun x => (d.1, x)) = some e ↔
      e.1 = d.1 ∧ SameDefinition (Fixed S ps) d.2 e.2 := by
    intro d e
    simp only [Option.map_eq_some_iff, copyDefinition_eq_some_iff]
    constructor
    · rintro ⟨x, hx, rfl⟩
      exact ⟨rfl, hx⟩
    · rintro ⟨hkey, hx⟩
      exact ⟨e.2, hx, by rw [← hkey]⟩
  simp only [copyDataMemory, Option.map_eq_some_iff, MapM.mapM_eq_some_iff, hone]
  constructor
  · rintro ⟨defs, hall, rfl⟩
    exact ⟨rfl, by rwa [hdefs defs hall]⟩
  · rintro ⟨hspace, hall⟩
    exact ⟨n.dataDefs, hall, by rw [hdefs _ hall, ← hspace]⟩

end Fixing

section Layouts
variable {S P : Program ρ} {ps qs : List (Procedure ρ)} {R : InstructionId → InstructionId → Prop} {i j : InstructionId}
  {a d : InstructionAddress} {next : Nat}

/-- The same instructions at the same address. -/
def SameShape (p q : Procedure ρ) : Prop := q.start = p.start ∧ q.instructions.map (·.id) = p.instructions.map (·.id)

theorem RenamedProcedure.sameShape {p q : Procedure ρ} (h : RenamedProcedure R p q) : SameShape p q := by
  refine ⟨h.2.1, ?_⟩
  have hall := h.2.2
  generalize p.instructions = l at hall
  generalize q.instructions = l' at hall
  induction hall with
  | nil => rfl
  | cons hxy _ ih => simp [hxy.1, ih]

theorem instructionAt_congr (h : List.Forall₂ SameShape ps qs) (a : InstructionAddress) :
    instructionAt qs a = instructionAt ps a := by
  induction h with
  | nil => rfl
  | @cons p q ps qs hpq _ ih =>
    obtain ⟨hstart, hids⟩ := hpq
    have hlen : q.instructions.length = p.instructions.length := by simpa using congrArg List.length hids
    have hend : q.endAddress = p.endAddress := by simp [Procedure.endAddress, hstart, hlen]
    have hat : q.instructionAt a = p.instructionAt a := by
      simp only [Procedure.instructionAt, hstart]
      split
      · simpa using congrArg (·[(a - p.start).toNat]?) hids
      · rfl
    unfold instructionAt at ih ⊢
    rw [List.find?_cons, List.find?_cons, hstart, hend]
    split
    · exact hat
    · exact ih

theorem ids_congr (h : List.Forall₂ (fun p q : Procedure ρ => q.instructions.map (·.id) = p.instructions.map (·.id)) ps qs) :
    ids qs = ids ps ∧ ∀ k offset, place qs k offset = place ps k offset := by
  induction h with
  | nil => exact ⟨rfl, fun _ _ => rfl⟩
  | @cons p q ps qs hpq _ ih =>
    refine ⟨by rw [ids_cons, ids_cons, hpq, ih.1], fun k offset => ?_⟩
    cases k with
    | zero => simpa using congrArg (·[offset]?) hpq
    | succ k => exact ih.2 k offset

/-- How far the procedures are moved up in the end. -/
def raise (target source : InstructionAddress) : InstructionAddress := if target < source then source - target else 0

def Procedure.moved (d : InstructionAddress) (p : Procedure ρ) : Procedure ρ := { p with start := p.start + d }

theorem map_moved_zero : ps.map (Procedure.moved 0) = ps := by
  have hid : (Procedure.moved 0 : Procedure ρ → Procedure ρ) = id := by
    funext p
    simp [Procedure.moved]
  rw [hid, List.map_id]

theorem setStartAddress_procedures (h : ∀ p ∈ P.procedures.head?, p.start = a) (s : InstructionAddress) :
    (P.setStartAddress s).procedures = P.procedures.map (Procedure.moved (raise a s)) := by
  unfold Program.setStartAddress
  cases hps : P.procedures with
  | nil => simp
  | cons p ps =>
    have hp : p.start = a := h p (by simp [hps])
    simp only [hp, raise]
    split
    · rfl
    · rw [map_moved_zero]

@[simp] theorem start_setStartAddress (s : InstructionAddress) : (P.setStartAddress s).start = s := by
  unfold Program.setStartAddress
  split
  · rfl
  · split <;> rfl

@[simp] theorem dataMems_setStartAddress (s : InstructionAddress) : (P.setStartAddress s).dataMems = P.dataMems := by
  unfold Program.setStartAddress
  split
  · rfl
  · split <;> rfl

/-- Labels are added in order. -/
theorem of_foldlM_addLabel {α β : Type} {f : α → Option (String × β)} {l : List α} {acc r : List (String × β)}
    (h : l.foldlM (fun labels x => (f x).bind (addLabel labels)) acc = some r) :
    ∃ l', l.mapM f = some l' ∧ r = acc ++ l' := by
  induction l generalizing acc with
  | nil =>
    obtain rfl := Option.some.inj h
    exact ⟨[], rfl, by simp⟩
  | cons x l ih =>
    obtain ⟨labels, hadd, hrest⟩ := Option.bind_eq_some_iff.mp h
    obtain ⟨m, hm, hadd⟩ := Option.bind_eq_some_iff.mp hadd
    obtain ⟨l', hl', rfl⟩ := ih hrest
    unfold addLabel at hadd
    split at hadd
    · cases hadd
    · obtain rfl := Option.some.inj hadd
      exact ⟨m :: l', by simp [hm, hl'], by simp⟩

/-- No label is refused if their names differ. -/
theorem foldlM_addLabel {α β : Type} {f : α → Option (String × β)} {l : List α} {l' acc : List (String × β)}
    (h : l.mapM f = some l') (hnodup : ((acc ++ l').map (·.1)).Nodup) :
    l.foldlM (fun labels x => (f x).bind (addLabel labels)) acc = some (acc ++ l') := by
  have hall := MapM.mapM_eq_some_iff.mp h
  clear h
  induction hall generalizing acc with
  | nil => simp
  | @cons x m l l' hx _ ih =>
    have hnot : ¬acc.any (·.1 = m.1) = true := by
      intro hany
      obtain ⟨n, hn, heq⟩ := List.any_eq_true.mp hany
      rw [List.map_append, List.nodup_append] at hnodup
      exact hnodup.2.2 n.1 (List.mem_map.mpr ⟨n, hn, rfl⟩) m.1 (by simp) (by simpa using heq)
    have hrest := @ih (acc ++ [m]) (by simpa using hnodup)
    simp only [List.foldlM_cons, hx, Option.bind_some, addLabel, hnot, Option.bind_eq_bind]
    simpa [addLabel] using hrest

end Layouts

section Steps
variable {T S P : Program ρ} {next : Nat}

/-- The procedures of the copy as they are when the references are fixed. -/
def added (T S : Program ρ) (next : Nat) : List (Procedure ρ) := copyProcedures T.start next S.procedures

/-- The parts of a copy, from the procedures `qs` whose references are fixed. -/
structure Steps (T S P : Program ρ) (next : Nat) (qs : List (Procedure ρ)) : Prop where
  fixed : List.Forall₂ (RenamedProcedure (Fixed S (added T S next))) (added T S next) qs
  dataMems : List.Forall₂ (SameDataMemory (Fixed S (added T S next))) S.dataMems P.dataMems
  procedures : P.procedures = qs.map (Procedure.moved (raise T.start S.start))
  start : P.start = S.start
  entry : P.entry = S.entry
  dataLabels : P.dataLabels = S.dataLabels
  codeLabels : List.Forall₂ (fun l m => relocateLabel S P.procedures l = some m) S.codeLabels P.codeLabels

theorem fixed_congr {ps qs : List (Procedure ρ)} (h : List.Forall₂ SameShape ps qs) : Fixed S qs = Fixed S ps := by
  funext i j
  have heq : instructionAt qs = instructionAt ps := funext fun a => instructionAt_congr h a
  simp only [Fixed, newReference, heq]

theorem head_start {qs : List (Procedure ρ)}
    (h : List.Forall₂ (RenamedProcedure (Fixed S (added T S next))) (added T S next) qs) : ∀ p ∈ qs.head?, p.start = T.start := by
  intro p hp
  generalize hps : added T S next = ps at h
  cases h with
  | nil => cases hp
  | @cons q r qs rs hqr _ =>
    obtain rfl : r = p := by simpa using hp
    rw [hqr.2.1]
    unfold added at hps
    cases hS : S.procedures with
    | nil => simp [hS, copyProcedures] at hps
    | cons s ss =>
      rw [hS, copyProcedures] at hps
      obtain ⟨rfl, -⟩ := List.cons.inj hps
      rfl

theorem mapM_copyDataMemory_iff {ps : List (Procedure ρ)} {mems mems' : List (DataMemory ρ)}
    (h : ∀ m ∈ mems, OrderedMap.Ordered m.dataDefs) :
    mems.mapM (copyDataMemory S ps) = some mems' ↔ List.Forall₂ (SameDataMemory (Fixed S ps)) mems mems' := by
  rw [MapM.mapM_eq_some_iff]
  constructor
  · intro hall
    induction hall with
    | nil => exact .nil
    | cons hm _ ih =>
      exact .cons ((copyDataMemory_eq_some_iff (h _ (by simp))).mp hm) (ih fun m hmem => h m (by simp [hmem]))
  · intro hall
    induction hall with
    | nil => exact .nil
    | cons hm _ ih =>
      exact .cons ((copyDataMemory_eq_some_iff (h _ (by simp))).mpr hm) (ih fun m hmem => h m (by simp [hmem]))

theorem relocateLabel_name {ps : List (Procedure ρ)} {l m : String × Labelled} (h : relocateLabel S ps l = some m) :
    m.1 = l.1 := by
  obtain ⟨i, -, rfl⟩ := Option.map_eq_some_iff.mp h
  rfl

theorem copyAndRelocate_iff {ps : List (Procedure ρ)} {labels : List (String × ρ) × List (String × Labelled)}
    (hS : S.WellFormed next) : copyAndRelocate S ps = some labels ↔
      labels.1 = S.dataLabels ∧ List.Forall₂ (fun l m => relocateLabel S ps l = some m) S.codeLabels labels.2 := by
  have hdata : S.dataLabels.foldlM addLabel [] = some S.dataLabels := by
    have hsome : S.dataLabels.mapM some = some S.dataLabels :=
      MapM.mapM_eq_some_iff.mpr (List.forall₂_same.mpr fun _ _ => rfl)
    exact @foldlM_addLabel _ _ some S.dataLabels S.dataLabels [] hsome (by simpa using hS.dataLabels)
  simp only [copyAndRelocate, hdata, Option.bind_some, Option.map_eq_some_iff]
  constructor
  · rintro ⟨codeLabels, hcode, rfl⟩
    obtain ⟨l', hl', rfl⟩ := of_foldlM_addLabel hcode
    exact ⟨rfl, MapM.mapM_eq_some_iff.mp hl'⟩
  · rintro ⟨hdataLabels, hall⟩
    have hnames : labels.2.map (·.1) = S.codeLabels.map (·.1) := by
      clear hdata
      generalize S.codeLabels = l at hall
      generalize labels.2 = l' at hall
      induction hall with
      | nil => rfl
      | cons hm _ ih => simp [relocateLabel_name hm, ih]
    refine ⟨labels.2, ?_, by rw [← hdataLabels]⟩
    have hnodup : ((([] : List (String × Labelled)) ++ labels.2).map (·.1)).Nodup := by
      simpa [hnames] using hS.codeLabels
    exact foldlM_addLabel (MapM.mapM_eq_some_iff.mpr hall) hnodup

theorem copyInto_eq_some_iff (hS : S.WellFormed next) : copyInto T S next = some P ↔ ∃ qs, Steps T S P next qs := by
  have hmems : ∀ qs mems, List.Forall₂ (RenamedProcedure (Fixed S (added T S next))) (added T S next) qs →
      (S.dataMems.mapM (copyDataMemory S qs) = some mems ↔
        List.Forall₂ (SameDataMemory (Fixed S (added T S next))) S.dataMems mems) := by
    intro qs mems hqs
    rw [mapM_copyDataMemory_iff hS.ordered, fixed_congr (hqs.imp fun _ _ h => h.sameShape)]
  simp only [copyInto, fixInstructionReferences, Option.bind_eq_some_iff, Option.map_eq_some_iff,
    MapM.mapM_eq_some_iff, fixProcedure_eq_some_iff, copyAndRelocate_iff hS]
  constructor
  · rintro ⟨qs, hqs, mems, hm, labels, ⟨hdata, hcode⟩, rfl⟩
    refine ⟨qs, hqs, ?_, ?_, ?_, rfl, hdata, hcode⟩
    · simpa using (hmems qs mems hqs).mp (MapM.mapM_eq_some_iff.mpr hm)
    · exact setStartAddress_procedures (head_start hqs) _
    · simp
  · rintro ⟨qs, hqs, hm, hprocedures, hstart, hentry, hdata, hcode⟩
    refine ⟨qs, hqs, P.dataMems, MapM.mapM_eq_some_iff.mp ((hmems qs _ hqs).mpr hm), (P.dataLabels, P.codeLabels), ?_, ?_⟩
    · have hps := setStartAddress_procedures (P := { T with procedures := qs, dataMems := P.dataMems, dataLabels := [], codeLabels := [] })
        (head_start hqs) S.start
      exact ⟨hdata, by rw [hps, ← hprocedures]; exact hcode⟩
    · have hps := setStartAddress_procedures (P := { T with procedures := qs, dataMems := P.dataMems, dataLabels := [], codeLabels := [] })
        (head_start hqs) S.start
      exact Program.ext (by simp [hstart]) hentry.symm (hps.trans hprocedures.symm) (by simp) rfl rfl

end Steps

section Renaming
variable {R Q : InstructionId → InstructionId → Prop} {ps qs rs : List (Procedure ρ)} {d e : InstructionAddress}

theorem RenamedProcedure.imp (h : ∀ i j, R i j → Q i j) {p q : Procedure ρ} (hR : RenamedProcedure R p q) :
    RenamedProcedure Q p q :=
  ⟨hR.1, hR.2.1, hR.2.2.imp fun _ _ hxy => ⟨hxy.1, hxy.2.mp (fun i j hij _ => h i j hij) hxy.2⟩⟩

/-- Procedures can be changed if every terminal can. -/
theorem exists_renamed (h : ∀ t ∈ terminals ps, ∃ u, SameTerminal R t u) :
    ∃ qs, List.Forall₂ (RenamedProcedure R) ps qs := by
  refine MapM.exists_forall₂ fun p hp => ?_
  have hterminal : ∀ x ∈ p.instructions, ∀ t ∈ x.terminals, ∃ u, SameTerminal R t u := fun x hx t ht =>
    h t (List.mem_flatMap.mpr ⟨p, hp, List.mem_flatMap.mpr ⟨x, hx, ht⟩⟩)
  obtain ⟨instructions, hall⟩ := MapM.exists_forall₂ (R := fun x y : Instruction ρ => y.id = x.id ∧ SameInstruction R x y)
    (l := p.instructions) fun x hx => by
      obtain ⟨moves, hmoves⟩ := MapM.exists_forall₂ (R := SameMove R) (l := x.moves) fun m hm => by
        obtain ⟨u, hu⟩ := hterminal x hx m.source (List.mem_append.mpr (.inl (List.mem_map.mpr ⟨m, hm, rfl⟩)))
        exact ⟨{ m with source := u }, rfl, hu⟩
      obtain ⟨immediates, himmediates⟩ := MapM.exists_forall₂ (R := SameImmediate R) (l := x.immediates) fun m hm => by
        obtain ⟨u, hu⟩ := hterminal x hx m.value (List.mem_append.mpr (.inr (List.mem_map.mpr ⟨m, hm, rfl⟩)))
        exact ⟨{ m with value := u }, rfl, hu⟩
      exact ⟨{ x with moves := moves, immediates := immediates }, rfl, rfl, hmoves, himmediates⟩
  exact ⟨{ p with instructions := instructions }, rfl, rfl, hall⟩

theorem exists_dataMems {mems : List (DataMemory ρ)}
    (h : ∀ i ∈ mems.flatMap fun m => m.dataDefs.flatMap fun d => d.2.references, ∃ j, R i j) :
    ∃ mems', List.Forall₂ (SameDataMemory R) mems mems' := by
  refine MapM.exists_forall₂ fun m hm => ?_
  obtain ⟨defs, hdefs⟩ := MapM.exists_forall₂ (R := fun d e : Nat × DataDefinition ρ => e.1 = d.1 ∧ SameDefinition R d.2 e.2)
    (l := m.dataDefs) fun d hd => by
      have href : ∀ i ∈ d.2.references, ∃ j, R i j := fun i hi =>
        h i (List.mem_flatMap.mpr ⟨m, hm, List.mem_flatMap.mpr ⟨d, hd, hi⟩⟩)
      cases hx : d.2 with
      | instructionAddress size i =>
        obtain ⟨j, hj⟩ := href i (by simp [hx, DataDefinition.references])
        exact ⟨(d.1, .instructionAddress size j), rfl, .instructionAddress size hj⟩
      | other x => exact ⟨d, rfl, by rw [hx]; exact .other x⟩
  exact ⟨{ m with dataDefs := defs }, rfl, hdefs⟩

theorem terminals_copied (h : List.Forall₂ (CopiedAt d) ps qs) : terminals qs = terminals ps := by
  induction h with
  | nil => rfl
  | @cons p q ps qs hpq _ ih =>
    have hinstructions : q.instructions.flatMap (·.terminals) = p.instructions.flatMap (·.terminals) := by
      have hall := hpq.2.2
      generalize p.instructions = l at hall
      generalize q.instructions = l' at hall
      induction hall with
      | nil => rfl
      | @cons x y _ _ hxy _ ih =>
        have hterminals : y.terminals = x.terminals := by
          rw [hxy]
          rfl
        simp [hterminals, ih]
    simp only [terminals, List.flatMap_cons, hinstructions] at ih ⊢
    rw [ih]

/-- Copied, renamed and moved, a procedure is the same at another address. -/
theorem forall₂_sameProcedure (hcopied : List.Forall₂ (CopiedAt d) ps qs) (hrenamed : List.Forall₂ (RenamedProcedure R) qs rs) :
    List.Forall₂ (SameProcedure R (d + e)) ps (rs.map (Procedure.moved e)) := by
  refine List.forall₂_map_right_iff.mpr (MapM.forall₂_comp (fun p q r hpq hqr => ?_) hcopied hrenamed)
  refine ⟨hqr.1.trans hpq.1, ?_, ?_⟩
  · simp [Procedure.moved, hqr.2.1, hpq.2.1, BitVec.add_assoc]
  · refine MapM.forall₂_comp (fun x y z hxy hyz => ?_) hpq.2.2 hqr.2.2
    obtain ⟨-, hrest, hmoves, himmediates⟩ := hyz
    rw [hxy] at hrest hmoves himmediates
    exact ⟨hrest, hmoves, himmediates⟩

end Renaming

section Faithful
variable {T S P : Program ρ} {next : Nat} {qs : List (Procedure ρ)} {ps : List (Procedure ρ)} {i j k : InstructionId}
  {a : InstructionAddress}

theorem SamePlace.unique_left (hnodup : (ids qs).Nodup) (h : SamePlace ps qs i j) (h' : SamePlace ps qs k j) : i = k := by
  obtain ⟨m, offset, hi, hj⟩ := h
  obtain ⟨m', offset', hk, hj'⟩ := h'
  obtain ⟨rfl, rfl⟩ := place_unique hnodup hj hj'
  exact Option.some.inj (hi.symm.trans hk)

/-- With the same layout the address of an instruction of the source leads to its place in the copy. -/
theorem exists_fixed (h : List.Forall₂ (Shifted 0) S.procedures ps) (hfound : S.Found i) :
    ∃ j, Fixed S ps i j ∧ SamePlace S.procedures ps i j := by
  obtain ⟨a, ha, hat⟩ := Option.bind_eq_some_iff.mp hfound
  have hrel := instructionAt_rel h a
  rw [hat] at hrel
  cases hps : instructionAt ps a with
  | none =>
    rw [hps] at hrel
    cases hrel
  | some j =>
    rw [hps] at hrel
    obtain ⟨hij⟩ := hrel
    exact ⟨j, Option.bind_eq_some_iff.mpr ⟨a, ha, hps⟩, hij⟩

/-- What is found in the copy is found in the source at the same place. -/
theorem instructionAt_of_rel (h : List.Forall₂ (Shifted 0) S.procedures ps) (hps : instructionAt ps a = some j) :
    ∃ k, instructionAt S.procedures a = some k ∧ SamePlace S.procedures ps k j := by
  have hrel := instructionAt_rel h a
  rw [hps] at hrel
  cases hS : instructionAt S.procedures a with
  | none =>
    rw [hS] at hrel
    cases hrel
  | some k =>
    rw [hS] at hrel
    obtain ⟨hkj⟩ := hrel
    exact ⟨k, rfl, hkj⟩

theorem address_of_instructionAt (hnodup : (ids P.procedures).Nodup) (h : instructionAt P.procedures a = some i) :
    P.address i = some a := by
  obtain ⟨k, offset, hplace, ha⟩ := place_of_instructionAt h
  obtain ⟨b, hb⟩ := address_isSome (mem_ids_of_place hplace)
  obtain ⟨k', offset', hplace', hb'⟩ := place_of_address hb
  obtain ⟨rfl, rfl⟩ := place_unique hnodup hplace hplace'
  exact hb.trans (hb'.symm.trans ha)

/-- In the end the copy is at the addresses of the source, unless it started above them. -/
theorem layout_of_sameProcedure {R : InstructionId → InstructionId → Prop} (h : ps = [] ∨ T.start ≤ S.start)
    (hsame : List.Forall₂ (SameProcedure R (T.start - S.start + raise T.start S.start)) ps qs) :
    List.Forall₂ (Shifted 0) ps qs := by
  obtain hnil | hle := h
  · rw [hnil] at hsame ⊢
    cases hsame
    exact .nil
  · refine hsame.imp fun p q hpq => ⟨?_, hpq.instructions.length_eq.symm⟩
    have hzero : T.start - S.start + raise T.start S.start = 0 := by
      unfold raise
      split <;> bv_omega
    rw [hpq.start, hzero]

section OfSteps
variable (hS : S.WellFormed next)
include hS

theorem forall₂_added : List.Forall₂ (CopiedAt (T.start - S.start)) S.procedures (added T S next) := by
  have hstart : T.start = S.start + (T.start - S.start) := by bv_omega
  have h : List.Forall₂ (CopiedAt (T.start - S.start)) S.procedures
      (copyProcedures (S.start + (T.start - S.start)) next S.procedures) := forall₂_copyProcedures hS.consecutive
  rwa [← hstart] at h

omit hS in
theorem nodup_added : (ids (added T S next)).Nodup := by
  rw [added, ids_copyProcedures]
  exact List.nodup_range'

variable (hsteps : Steps T S P next qs)
include hsteps

/-- Every procedure of the copy, with the difference of its address. -/
theorem Steps.sameProcedure : List.Forall₂
    (SameProcedure (Fixed S (added T S next)) (T.start - S.start + raise T.start S.start)) S.procedures P.procedures :=
  hsteps.procedures ▸ forall₂_sameProcedure (forall₂_added hS) hsteps.fixed

omit hS in
theorem Steps.places : ids P.procedures = ids (added T S next) ∧
    ∀ k offset, place P.procedures k offset = place (added T S next) k offset := by
  have hfixed := ids_congr (hsteps.fixed.imp fun _ _ h => h.sameShape.2)
  have hmoved : List.Forall₂ (fun p q : Procedure ρ => q.instructions.map (·.id) = p.instructions.map (·.id)) qs P.procedures := by
    rw [hsteps.procedures]
    exact List.forall₂_map_right_iff.mpr (List.forall₂_same.mpr fun _ _ => rfl)
  obtain ⟨hids, hplace⟩ := ids_congr hmoved
  exact ⟨hids.trans hfixed.1, fun k offset => (hplace k offset).trans (hfixed.2 k offset)⟩

omit hS in
theorem Steps.nodup : (ids P.procedures).Nodup := hsteps.places.1 ▸ nodup_added

omit hS in
theorem Steps.samePlace_iff : SamePlace S.procedures P.procedures i j ↔ SamePlace S.procedures (added T S next) i j := by
  simp only [SamePlace, hsteps.places.2]

theorem Steps.independent : P.Independent next := by
  have hnext : ∀ i ∈ ids P.procedures, next ≤ i := by
    intro i hi
    rw [hsteps.places.1, added, ids_copyProcedures] at hi
    exact (List.mem_range'_1.mp hi).1
  have hmem : ∀ i ∈ P.references ++ P.labelled, i ∈ ids P.procedures := by
    intro i hi
    obtain hi | hi := List.mem_append.mp hi
    · obtain ⟨j, -, hj⟩ := MapM.forall₂_mem (forall₂_references (hsteps.sameProcedure hS) hsteps.dataMems).flip hi
      obtain ⟨a, -, ha⟩ := Option.bind_eq_some_iff.mp hj
      obtain ⟨k, offset, hplace, -⟩ := place_of_instructionAt ha
      exact hsteps.places.1 ▸ mem_ids_of_place hplace
    · obtain ⟨m, hm, hi⟩ := List.mem_flatMap.mp hi
      obtain ⟨l, -, hl⟩ := MapM.forall₂_mem hsteps.codeLabels.flip hm
      obtain ⟨j, hj, rfl⟩ := Option.map_eq_some_iff.mp hl
      obtain ⟨a, -, ha⟩ := Option.bind_eq_some_iff.mp hj
      obtain ⟨k, offset, hplace, -⟩ := place_of_instructionAt ha
      obtain rfl : i = j := by simpa [Labelled.references] using hi
      exact mem_ids_of_place hplace
  refine ⟨hnext, fun i hi => ⟨hmem i hi, fun others hothers => ?_⟩⟩
  have hnone : others.findSome? (·.address i) = none := by
    refine List.findSome?_eq_none_iff.mpr fun Q hQ => Option.eq_none_iff_forall_ne_some.mpr fun a ha => ?_
    obtain ⟨k, offset, hplace, -⟩ := place_of_address ha
    exact hothers Q hQ (mem_ids_of_place hplace)
  rw [List.findSome?_append, hnone]
  simp

end OfSteps

/-- An address that leads to the same place in the source and in the procedures that are added again
shows that these are where the source has them. -/
theorem start_eq_of_fixed (hS : S.WellFormed next) (hfixed : Fixed S (added T S next) i j)
    (hplace : SamePlace S.procedures (added T S next) i j) : T.start = S.start := by
  obtain ⟨a, ha, hat⟩ := Option.bind_eq_some_iff.mp hfixed
  obtain ⟨m, offset, hi, hj⟩ := hplace
  obtain ⟨m', offset', hi', haddress⟩ := place_of_address ha
  obtain ⟨rfl, rfl⟩ := place_unique hS.nodup hi hi'
  obtain ⟨m', offset', hj', haddress'⟩ := place_of_instructionAt hat
  obtain ⟨rfl, rfl⟩ := place_unique nodup_added hj hj'
  have hshifted : addressAt (added T S next) m offset = (addressAt S.procedures m offset).map (· + (T.start - S.start)) :=
    addressAt_shifted ((forall₂_added hS).imp fun p q h => ⟨h.2.1, h.2.2.length_eq.symm⟩)
  rw [haddress, haddress', Option.map_some, Option.some.injEq] at hshifted
  bv_omega

/-- The address of a label of a copyable program is that of an instruction. -/
theorem Program.Copyable.label (h : S.Copyable a) {l : String × Labelled} (hl : l ∈ S.codeLabels) :
    ∃ b k, S.labelAddress l.2 = some b ∧ instructionAt S.procedures b = some k ∧ ∀ i, l.2 = .instruction i → i = k := by
  cases hx : l.2 with
  | instruction i =>
    have hi : i ∈ S.labelled := List.mem_flatMap.mpr ⟨l, hl, by simp [hx, Labelled.references]⟩
    obtain ⟨b, hb, hat⟩ := Option.bind_eq_some_iff.mp (h.labelled i hi)
    exact ⟨b, i, hb, hat, fun j hj => by simpa [eq_comm] using hj⟩
  | procedure k =>
    obtain ⟨b, i, hb, hat⟩ := h.procedures l hl k hx
    exact ⟨b, i, hx ▸ hb, hat, fun j hj => by cases hj⟩

/-- A copyable program is copied, and faithfully. -/
theorem copyInto_of_copyable (hS : S.WellFormed next) (h : S.Copyable T.start) :
    ∃ P, copyInto T S next = some P ∧ IsCopy S P ∧ P.Independent next := by
  -- every reference is fixed and leads to its place
  have hboth : ∀ i ∈ S.references, ∃ j, Fixed S (added T S next) i j ∧ SamePlace S.procedures (added T S next) i j := by
    intro i hi
    obtain hnil | heq | ⟨-, hnone⟩ := h.start
    · have hmem := hS.references i hi
      simp [hnil, ids] at hmem
    · refine exists_fixed ((forall₂_added hS).imp fun p q hpq => ⟨?_, hpq.2.2.length_eq.symm⟩) (h.references i hi)
      have hzero : T.start - S.start = 0 := by bv_omega
      exact hzero ▸ hpq.2.1
    · simp [hnone] at hi
  generalize hBoth : (fun i j => Fixed S (added T S next) i j ∧ SamePlace S.procedures (added T S next) i j) = Both
  have hfixed : ∀ i j, Both i j → Fixed S (added T S next) i j := by
    subst hBoth
    exact fun i j hij => hij.1
  have hplace : ∀ i j, Both i j → SamePlace S.procedures (added T S next) i j := by
    subst hBoth
    exact fun i j hij => hij.2
  replace hboth : ∀ i ∈ S.references, ∃ j, Both i j := by
    subst hBoth
    exact hboth
  have hterminals : ∀ t ∈ terminals (added T S next), ∃ u, SameTerminal Both t u := by
    intro t ht
    rw [terminals_copied (forall₂_added hS)] at ht
    cases t with
    | instructionReference i =>
      obtain ⟨j, hj⟩ := hboth i (List.mem_append.mpr (.inl (List.mem_flatMap.mpr ⟨_, ht, by simp [Terminal.references]⟩)))
      exact ⟨_, .instructionReference hj⟩
    | programOperation operation => exact absurd rfl (h.terminals _ ht operation)
    | other t => exact ⟨_, .other t⟩
  obtain ⟨qs, hqs⟩ := exists_renamed hterminals
  obtain ⟨mems, hmems⟩ : ∃ mems, List.Forall₂ (SameDataMemory Both) S.dataMems mems :=
    exists_dataMems fun i hi => hboth i (List.mem_append.mpr (.inr hi))
  have hsame := forall₂_sameProcedure (e := raise T.start S.start) (forall₂_added (T := T) hS) hqs
  have hlayout := layout_of_sameProcedure (h.start.imp_right fun hstart => by bv_omega) hsame
  generalize hrs : qs.map (Procedure.moved (raise T.start S.start)) = rs at hsame hlayout
  obtain ⟨labels, hlabels⟩ := MapM.exists_forall₂ (l := S.codeLabels) (R := fun l m => relocateLabel S rs l = some m ∧
      ∃ b k j, S.labelAddress l.2 = some b ∧ instructionAt rs b = some j ∧ m = (l.1, .instruction j) ∧
        SamePlace S.procedures rs k j ∧ ∀ i, l.2 = .instruction i → i = k) fun l hl => by
    obtain ⟨b, k, hb, hat, hk⟩ := h.label hl
    have hrel := instructionAt_rel hlayout b
    rw [hat] at hrel
    generalize hj : instructionAt rs b = j at hrel
    obtain ⟨hkj⟩ := hrel
    exact ⟨_, by simp [relocateLabel, hb, hj], b, k, _, hb, hj, rfl, hkj, hk⟩
  let P : Program ρ :=
    { start := S.start, entry := S.entry, procedures := rs, dataMems := mems, dataLabels := S.dataLabels, codeLabels := labels }
  have hsteps : Steps T S P next qs := ⟨hqs.imp fun _ _ hpq => hpq.imp hfixed,
    hmems.imp fun _ _ hmn => hmn.mp (fun i j hij _ => hfixed i j hij) hmn, hrs.symm, rfl, rfl, rfl,
    hlabels.imp fun _ _ hlm => hlm.1⟩
  have hsamePlace : ∀ i j, Both i j → SamePlace S.procedures P.procedures i j := fun i j hij =>
    hsteps.samePlace_iff.mpr (hplace i j hij)
  refine ⟨P, (copyInto_eq_some_iff hS).mpr ⟨qs, hsteps⟩, ⟨rfl, rfl, ?_, ?_, rfl, ?_⟩, hsteps.independent hS⟩
  · exact hsame.mp (fun _ _ a b => ⟨a.name, b.1, a.instructions.imp fun _ _ hxy =>
      hxy.mp (fun i j hij _ => hsamePlace i j hij) hxy⟩) hlayout
  · exact hmems.imp fun _ _ hmn => hmn.mp (fun i j hij _ => hsamePlace i j hij) hmn
  · refine hlabels.imp fun l m hlm => ?_
    obtain ⟨-, b, k, j, hb, hj, rfl, hkj, hk⟩ := hlm
    refine ⟨rfl, ?_, fun i hi => ⟨j, rfl, hk i hi ▸ hkj⟩⟩
    rw [hb]
    exact address_of_instructionAt hsteps.nodup hj

/-- Where the references of a copy lead to their places, the source was copyable. -/
theorem copyable_of_isCopy (hS : S.WellFormed next) (hcopy : copyInto T S next = some P) (h : IsCopy S P) :
    S.Copyable T.start := by
  obtain ⟨qs, hsteps⟩ := (copyInto_eq_some_iff hS).mp hcopy
  have hsame := hsteps.sameProcedure hS
  -- every reference is fixed by its address and leads to its place
  have hboth : ∀ i ∈ S.references, ∃ j, Fixed S (added T S next) i j ∧ SamePlace S.procedures (added T S next) i j := by
    have hcombine : ∀ i j, Fixed S (added T S next) i j → SamePlace S.procedures P.procedures i j →
        Fixed S (added T S next) i j ∧ SamePlace S.procedures (added T S next) i j :=
      fun i j hf hp => ⟨hf, hsteps.samePlace_iff.mp hp⟩
    have hprocedures := hsame.mp (fun _ _ a b => a.mp hcombine b) h.procedures
    have hmems := hsteps.dataMems.mp (fun _ _ a b => a.mp hcombine b) h.dataMems
    intro i hi
    obtain ⟨j, -, hj⟩ := MapM.forall₂_mem (forall₂_references hprocedures hmems) hi
    exact ⟨j, hj⟩
  have hle : S.procedures = [] ∨ T.start ≤ S.start := by
    refine or_iff_not_imp_left.mpr fun hne => ?_
    obtain ⟨p, ps, hps⟩ := List.exists_cons_of_ne_nil hne
    obtain ⟨q, -, hq⟩ := MapM.forall₂_mem (hsame.mp (fun _ _ a b => a.start.symm.trans b.start) h.procedures)
      (show p ∈ S.procedures by simp [hps])
    by_contra hlt
    have hraise : raise T.start S.start = 0 := if_neg (by bv_omega)
    rw [hraise] at hq
    bv_omega
  have hlayout := layout_of_sameProcedure hle hsame
  have hstart : S.procedures = [] ∨ T.start = S.start ∨ (T.start < S.start ∧ S.references = []) := by
    refine hle.imp_right fun hle => ?_
    by_cases heq : T.start = S.start
    · exact .inl heq
    · refine .inr ⟨by bv_omega, List.eq_nil_iff_forall_not_mem.mpr fun i hi => ?_⟩
      obtain ⟨j, hfixed, hplace⟩ := hboth i hi
      exact heq (start_eq_of_fixed hS hfixed hplace)
  have hlabels := hsteps.codeLabels.mp (fun _ _ a b => And.intro a b) h.codeLabels
  refine ⟨hstart, ?_, ?_, ?_, ?_⟩
  · intro t ht operation heq
    obtain ⟨u, -, htu⟩ := MapM.forall₂_mem (forall₂_terminals hsame) ht
    subst heq
    cases htu
  · intro i hi
    obtain ⟨j, hfixed, hplace⟩ := hboth i hi
    have hadded : List.Forall₂ (Shifted 0) S.procedures (added T S next) := by
      have hzero : T.start - S.start = 0 := by
        have := start_eq_of_fixed hS hfixed hplace
        bv_omega
      exact (forall₂_added hS).imp fun p q h => ⟨hzero ▸ h.2.1, h.2.2.length_eq.symm⟩
    obtain ⟨a, ha, hat⟩ := Option.bind_eq_some_iff.mp hfixed
    obtain ⟨k, hk, hkj⟩ := instructionAt_of_rel hadded hat
    obtain rfl := hplace.unique_left nodup_added hkj
    exact Option.bind_eq_some_iff.mpr ⟨a, ha, hk⟩
  · intro i hi
    obtain ⟨l, hl, hi⟩ := List.mem_flatMap.mp hi
    obtain ⟨m, -, hrelocate, hlabel⟩ := MapM.forall₂_mem hlabels hl
    have hli : l.2 = .instruction i := by
      cases hx : l.2 with
      | instruction j =>
        rw [hx] at hi
        simpa [Labelled.references, eq_comm] using hi
      | procedure k => simp [hx, Labelled.references] at hi
    obtain ⟨j, hj, rfl⟩ := Option.map_eq_some_iff.mp hrelocate
    obtain ⟨a, ha, hat⟩ := Option.bind_eq_some_iff.mp hj
    obtain ⟨k, hk, hkj⟩ := instructionAt_of_rel hlayout hat
    obtain ⟨j', hj', hij⟩ := hlabel.instruction i hli
    obtain rfl : j = j' := by simpa using hj'
    obtain rfl := hij.unique_left hsteps.nodup hkj
    rw [hli] at ha
    exact Option.bind_eq_some_iff.mpr ⟨a, ha, hk⟩
  · intro l hl k hlk
    obtain ⟨m, -, hrelocate, -⟩ := MapM.forall₂_mem hlabels hl
    obtain ⟨j, hj, rfl⟩ := Option.map_eq_some_iff.mp hrelocate
    obtain ⟨a, ha, hat⟩ := Option.bind_eq_some_iff.mp hj
    obtain ⟨i, hi, -⟩ := instructionAt_of_rel hlayout hat
    exact ⟨a, i, ha, hi⟩

end Faithful

/-- The result is a copy of the program that does not depend on any other. -/
def CopiesTo (S : Program ρ) (next : Nat) (result : Option (Program ρ)) : Prop :=
  ∃ P, result = some P ∧ IsCopy S P ∧ P.Independent next

theorem copiesTo_iff {T S : Program ρ} {next : Nat} (hS : S.WellFormed next) :
    CopiesTo S next (copyInto T S next) ↔ S.Copyable T.start :=
  ⟨fun ⟨_, hcopy, h, _⟩ => copyable_of_isCopy hS hcopy h, copyInto_of_copyable hS⟩

/-- Exactly the copyable programs are copied faithfully, into any other program and into a new one. -/
theorem copyFrom_faithful_iff (h : Heap ρ) (source : Nat) (S : Program ρ) (hs : h.programs source = some S)
    (hS : S.WellFormed h.next) :
    (∀ target T, h.programs target = some T →
      (CopiesTo S h.next (h.copyFrom target source) ↔ target ≠ source ∧ S.Copyable T.start)) ∧
    (CopiesTo S h.next (S.copy h.next) ↔ S.Copyable S.start) := by
  refine ⟨fun target T ht => ?_, copiesTo_iff hS⟩
  unfold Heap.copyFrom
  split
  · rename_i heq
    constructor
    · rintro ⟨P, hP, -⟩
      cases hP
    · exact fun hne => absurd heq hne.1
  · rename_i hne
    simp only [ht, hs, Option.bind_some, copiesTo_iff hS, ne_eq, hne, not_false_eq_true, true_and]

/-- A program at address 16 of one instruction, which refers to itself. -/
def selfReference : Program Unit :=
  { start := 16
    entry := 16
    procedures := [{
      name := "main"
      start := 16
      instructions := [{ id := 0, moves := [{ source := .instructionReference 0, rest := () }], immediates := [], rest := () }] }]
    dataMems := []
    dataLabels := []
    codeLabels := [("main", .procedure 0)] }

/-- Program 1 is the one above, and program 0 an empty one that starts at the address. -/
def selfReferenceHeap (start : InstructionAddress) : Heap Unit :=
  { programs := fun p =>
      if p = 0 then some { selfReference with start := start, procedures := [], codeLabels := [] }
      else if p = 1 then some selfReference else none
    next := 1 }

theorem wellFormed_selfReference : selfReference.WellFormed 1 where
  consecutive := ⟨rfl, trivial⟩
  nodup := by decide
  lt_next := by decide
  references := by decide
  labelled := by decide
  procedures l hl k hk := by
    obtain rfl : l = ("main", .procedure 0) := by simpa [selfReference] using hl
    cases hk
    decide
  ordered := by simp [selfReference]
  dataLabels := by decide
  codeLabels := by decide

theorem copyFrom_faithful_selfReference :
    (∀ target T, (selfReferenceHeap 16).programs target = some T →
      (CopiesTo selfReference 1 ((selfReferenceHeap 16).copyFrom target 1) ↔ target ≠ 1 ∧ selfReference.Copyable T.start)) ∧
    (CopiesTo selfReference 1 (selfReference.copy 1) ↔ selfReference.Copyable selfReference.start) :=
  copyFrom_faithful_iff (selfReferenceHeap 16) 1 selfReference rfl wellFormed_selfReference

/-- The target starts at 0, so at address 16 there is no instruction when the reference is fixed. -/
theorem not_copyFrom_faithful : ¬∀ (h : Heap Unit) (target source : Nat) (T S : Program Unit),
    h.programs target = some T → h.programs source = some S → S.WellFormed h.next →
      CopiesTo S h.next (h.copyFrom target source) := by
  intro h
  obtain ⟨P, hP, -⟩ := h (selfReferenceHeap 0) 0 1 _ selfReference rfl rfl wellFormed_selfReference
  have hnone : (selfReferenceHeap 0).copyFrom 0 1 = none := by rfl
  rw [hnone] at hP
  cases hP

end Tce.POM.Copying
