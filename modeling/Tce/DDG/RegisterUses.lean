import Mathlib.Data.Finset.Dedup
import Tce.DDG.MoveRuns

/-!
# First uses of registers

A block is gone through move by move. What comes in from blocks before is read
until a register is killed: by an unconditional write, or by two writes of which
one is executed.
-/

namespace Tce.DDG

/-- The return address port is named with the registers. -/
inductive RegisterName where
  | RA
  | GPR (name : String)
  deriving DecidableEq, Repr

inductive UseSource where
  | GPR (name : String)
  | RA
  | other
  deriving DecidableEq, Repr

inductive UseDestination where
  | GPR (name : String)
  | RA
  | FUPort (triggersCall : Bool)
  | other
  deriving DecidableEq, Repr

/-- What is looked at of a move for the registers that it uses. -/
structure UseMove where
  guard : Option MoveCondition
  source : UseSource
  destination : UseDestination
  isJump : Bool
  /-- An annotation says that the procedure returns. -/
  annotatedReturn : Bool
  text : String
  deriving DecidableEq, Repr

namespace UseMove

def isUnconditional (m : UseMove) : Bool := m.guard.isNone

def isReturn (m : UseMove) : Bool := m.isJump && (m.source = .RA || m.annotatedReturn)

end UseMove

structure SpecialRegisters where
  SP : Option String
  RV : Option String
  RVHigh : Option String
  params : Fin 4 → Option String
  rvIsParamReg : Bool

structure MoveNodeUse (M : Type) where
  mn : M
  guard : Bool
  ra : Bool
  pseudo : Bool
  deriving DecidableEq, Repr

/-- The registers that a block uses and kills, as far as the search for register deaths reads it. -/
structure LiveRangeData (M : Type) where
  regKills : RegisterName → Option (MoveNodeUse M × Option (MoveNodeUse M))
  regFirstUses : List (RegisterName × MoveNodeUse M)
  potentialRegKills : RegisterName → Option (MoveNodeUse M)

namespace LiveRangeData

def empty {M : Type} : LiveRangeData M := ⟨fun _ => none, [], fun _ => none⟩

def firstUsed {M : Type} (lrd : LiveRangeData M) : Finset RegisterName := (lrd.regFirstUses.map Prod.fst).toFinset

end LiveRangeData

/-- The moves, and of two of them whether the same definitions of guards reach both when the
second is gone through. -/
structure MoveNodes (M : Type) where
  move : M → UseMove
  sameDefinitions : M → M → Bool

inductive RegisterAccess (M : Type) where
  | use (mnd : MoveNodeUse M) (reg : RegisterName)
  | write (mnd : MoveNodeUse M) (reg : RegisterName)

def RegisterAccess.mnd {M : Type} : RegisterAccess M → MoveNodeUse M
  | .use mnd _ | .write mnd _ => mnd

namespace MoveNodes
variable {M : Type} (g : MoveNodes M) (special : SpecialRegisters)

def exclusingGuards (n1 n2 : M) : Bool :=
  match (g.move n1).guard, (g.move n2).guard with
  | some mg1, some mg2 => if mg1.isInverted = mg2.isInverted then false else g.sameDefinitions n1 n2
  | _, _ => false

def processRegUse (lrd : LiveRangeData M) (mnd : MoveNodeUse M) (reg : RegisterName) : LiveRangeData M :=
  -- writes in previous BB's killed or not?
  if (lrd.regKills reg).isNone then { lrd with regFirstUses := lrd.regFirstUses ++ [(reg, mnd)] } else lrd

/-- The two writes are a kill when the guard of the one before excludes this one. -/
def pairKill (lrd : LiveRangeData M) (mnd : MoveNodeUse M) (reg : RegisterName) :
    Option (MoveNodeUse M × Option (MoveNodeUse M)) :=
  match lrd.potentialRegKills reg with
  | some first => if g.exclusingGuards first.mn mnd.mn then some (first, some mnd) else none
  | none => none

def processRegWrite (lrd : LiveRangeData M) (mnd : MoveNodeUse M) (reg : RegisterName) : LiveRangeData M :=
  let unconditional := (g.move mnd.mn).isUnconditional
  { lrd with
    -- if no kills to this reg in this BB, this one kills it.
    regKills := if (lrd.regKills reg).isNone then
        Function.update lrd.regKills reg (if unconditional then some (mnd, none) else g.pairKill lrd mnd reg)
      else lrd.regKills
    potentialRegKills := Function.update lrd.potentialRegKills reg (if unconditional then none else some mnd) }

def process (lrd : LiveRangeData M) : RegisterAccess M → LiveRangeData M
  | .use mnd reg => processRegUse lrd mnd reg
  | .write mnd reg => g.processRegWrite lrd mnd reg

/-! ## The accesses of a move -/

def useOf (mnd : MoveNodeUse M) (reg : Option String) : List (RegisterAccess M) :=
  reg.toList.map fun name => .use mnd (.GPR name)

def writeOf (mnd : MoveNodeUse M) (reg : Option String) : List (RegisterAccess M) :=
  reg.toList.map fun name => .write mnd (.GPR name)

def processReturn (mn : M) : List (RegisterAccess M) :=
  useOf ⟨mn, false, false, true⟩ special.SP ++ useOf ⟨mn, false, false, true⟩ special.RV ++
    useOf ⟨mn, false, false, true⟩ special.RVHigh

def processCall (mn : M) : List (RegisterAccess M) :=
  -- calls mess up RA
  let mnd2 : MoveNodeUse M := ⟨mn, false, false, true⟩
  [.write ⟨mn, false, true, false⟩ .RA] ++ useOf mnd2 special.SP ++
    (if special.rvIsParamReg then useOf mnd2 special.RV else []) ++ writeOf mnd2 special.RV ++
    writeOf mnd2 special.RVHigh ++ (List.finRange 4).flatMap fun i => useOf mnd2 (special.params i)

def processGuard (mn : M) (guard : MoveCondition) : Except String (List (RegisterAccess M)) :=
  match guard.registerName with
  | some regName => .ok [.use ⟨mn, true, false, false⟩ (.GPR regName)]
  | none => .error ("Analysis for port guards not supported! used in: " ++ (g.move mn).text)

def processSource (mn : M) : List (RegisterAccess M) :=
  match (g.move mn).source with
  | .RA => .use ⟨mn, false, true, false⟩ .RA :: if (g.move mn).isReturn then processReturn special mn else []
  | .GPR regName => [.use ⟨mn, false, false, false⟩ (.GPR regName)]
  | .other => []

def processDestination (mn : M) : Except String (List (RegisterAccess M)) :=
  match (g.move mn).destination with
  | .FUPort triggersCall => .ok (if triggersCall then processCall special mn else [])
  | .RA => .ok [.write ⟨mn, false, true, false⟩ .RA]
  | .GPR regName => .ok [.write ⟨mn, false, false, false⟩ (.GPR regName)]
  | .other => .error ("Move has illegal destination" ++ (g.move mn).text)

def accesses (mn : M) : Except String (List (RegisterAccess M)) :=
  match (g.move mn).guard.elim (.ok []) (g.processGuard mn) with
  | .error fault => .error fault
  | .ok ofGuard =>
    match g.processDestination special mn with
    | .error fault => .error fault
    | .ok ofDestination => .ok (ofGuard ++ g.processSource special mn ++ ofDestination)

def constructFrom (lrd : LiveRangeData M) : List M → Except String (LiveRangeData M)
  | [] => .ok lrd
  | mn :: moves =>
    match g.accesses special mn with
    | .error fault => .error fault
    | .ok accesses => constructFrom (accesses.foldl g.process lrd) moves

/-- The registers of a block, from the moves of its instructions. -/
def constructIndividualBB (moves : List M) : Except String (LiveRangeData M) := g.constructFrom special .empty moves

/-! ## What a block reads and kills -/

end MoveNodes

namespace SpecialRegisters
variable (special : SpecialRegisters) (name : String)

def IsReturned : Prop := special.SP = some name ∨ special.RV = some name ∨ special.RVHigh = some name

def IsArgument : Prop :=
  special.SP = some name ∨ special.rvIsParamReg = true ∧ special.RV = some name ∨ ∃ i, special.params i = some name

def IsResult : Prop := special.RV = some name ∨ special.RVHigh = some name

/-- No register of a parameter is one of a result, other than one that is known to be both. -/
def SeparateParams : Prop :=
  ∀ i name, special.params i = some name →
    special.RVHigh ≠ some name ∧ (special.RV = some name → special.rvIsParamReg = true)

end SpecialRegisters

namespace MoveNodes
variable {M : Type} (g : MoveNodes M) (special : SpecialRegisters)

inductive Reads (mn : M) : RegisterName → Prop where
  | guard {c name} : (g.move mn).guard = some c → c.registerName = some name → Reads mn (.GPR name)
  | GPR {name} : (g.move mn).source = .GPR name → Reads mn (.GPR name)
  | RA : (g.move mn).source = .RA → Reads mn .RA
  | returned {name} : (g.move mn).isReturn = true → special.IsReturned name → Reads mn (.GPR name)
  | called {name} : (g.move mn).destination = .FUPort true → special.IsArgument name → Reads mn (.GPR name)

inductive Writes (mn : M) : RegisterName → Prop where
  | GPR {name} : (g.move mn).destination = .GPR name → Writes mn (.GPR name)
  | RA : (g.move mn).destination = .RA → Writes mn .RA
  | link : (g.move mn).destination = .FUPort true → Writes mn .RA
  | result {name} : (g.move mn).destination = .FUPort true → special.IsResult name → Writes mn (.GPR name)

def AnyWriter (moves : List M) (r : RegisterName) (n : M) : Prop := n ∈ moves ∧ g.Writes special n r

def LastWriter (moves : List M) (r : RegisterName) (n : M) : Prop :=
  ∃ before between, moves = before ++ n :: between ∧ g.Writes special n r ∧ ∀ m ∈ between, ¬ g.Writes special m r

/-- A write kills alone or with one of the writes before, which its guard excludes. -/
def KillsAfter (writer : List M → RegisterName → M → Prop) (before : List M) (r : RegisterName) (m : M) : Prop :=
  g.Writes special m r ∧ ((g.move m).isUnconditional = true ∨ ∃ n, writer before r n ∧ g.exclusingGuards n m = true)

def Kills (writer : List M → RegisterName → M → Prop) (moves : List M) (r : RegisterName) : Prop :=
  ∃ before m after, moves = before ++ m :: after ∧ g.KillsAfter special writer before r m

/-- A register is read before it is killed. -/
def ReadsFirst (writer : List M → RegisterName → M → Prop) (moves : List M) (r : RegisterName) : Prop :=
  ∃ before m after, moves = before ++ m :: after ∧ g.Reads special m r ∧ ¬ g.Kills special writer before r

variable {g special} {r : RegisterName} {m mn n : M} {moves done : List M} {lrd : LiveRangeData M}
  {writer : List M → RegisterName → M → Prop}

theorem exists_split_concat {α : Type} {P : List α → α → Prop} {l : List α} {a : α} :
    (∃ before x after, l ++ [a] = before ++ x :: after ∧ P before x) ↔
      (∃ before x after, l = before ++ x :: after ∧ P before x) ∨ P l a := by
  constructor
  · rintro ⟨before, x, after, hl, hx⟩
    rcases List.eq_nil_or_concat after with rfl | ⟨after, last, rfl⟩
    · obtain ⟨rfl, heq⟩ := List.append_inj' hl rfl
      obtain rfl := List.head_eq_of_cons_eq heq
      exact .inr hx
    · obtain ⟨rfl, -⟩ := List.append_inj' (by simpa using hl : l ++ [a] = (before ++ x :: after) ++ [last]) rfl
      exact .inl ⟨before, x, after, rfl, hx⟩
  · rintro (⟨before, x, after, rfl, hx⟩ | hx)
    · exact ⟨before, x, after ++ [a], by simp, hx⟩
    · exact ⟨l, a, [], rfl, hx⟩

theorem kills_concat : g.Kills special writer (done ++ [m]) r ↔
    g.Kills special writer done r ∨ g.KillsAfter special writer done r m :=
  exists_split_concat (P := fun before m => g.KillsAfter special writer before r m)

theorem readsFirst_concat : g.ReadsFirst special writer (done ++ [m]) r ↔
    g.ReadsFirst special writer done r ∨ g.Reads special m r ∧ ¬ g.Kills special writer done r :=
  exists_split_concat (P := fun before m => g.Reads special m r ∧ ¬ g.Kills special writer before r)

theorem LastWriter.anyWriter (h : g.LastWriter special moves r n) : g.AnyWriter special moves r n := by
  obtain ⟨before, between, rfl, hn, -⟩ := h
  exact ⟨by simp, hn⟩

/-- What kills with the write just before kills with one before. -/
theorem Kills.anyWriter (h : g.Kills special (g.LastWriter special) moves r) :
    g.Kills special (g.AnyWriter special) moves r := by
  obtain ⟨before, m, after, hmoves, hwrites, hkills⟩ := h
  exact ⟨before, m, after, hmoves, hwrites, hkills.imp_right fun ⟨n, hn, hguards⟩ => ⟨n, hn.anyWriter, hguards⟩⟩

theorem ReadsFirst.of_anyWriter (h : g.ReadsFirst special (g.AnyWriter special) moves r) :
    g.ReadsFirst special (g.LastWriter special) moves r := by
  obtain ⟨before, m, after, hmoves, hreads, hkills⟩ := h
  exact ⟨before, m, after, hmoves, hreads, fun hlast => hkills hlast.anyWriter⟩

theorem lastWriter_concat : g.LastWriter special (done ++ [m]) r n ↔
    g.Writes special m r ∧ n = m ∨ ¬ g.Writes special m r ∧ g.LastWriter special done r n := by
  constructor
  · rintro ⟨before, between, heq, hn, hbetween⟩
    rcases List.eq_nil_or_concat between with rfl | ⟨between, last, rfl⟩
    · obtain ⟨rfl, hm⟩ := List.append_inj' heq rfl
      obtain rfl := List.head_eq_of_cons_eq hm
      exact .inl ⟨hn, rfl⟩
    · obtain ⟨rfl, hm⟩ := List.append_inj' (by simpa using heq : done ++ [m] = (before ++ n :: between) ++ [last]) rfl
      obtain rfl := List.head_eq_of_cons_eq hm
      exact .inr ⟨hbetween _ (by simp), before, between, rfl, hn, fun x hx => hbetween x (by simp [hx])⟩
  · rintro (⟨hm, rfl⟩ | ⟨hm, before, between, rfl, hn, hbetween⟩)
    · exact ⟨done, [], rfl, hm, by simp⟩
    · refine ⟨before, between ++ [m], by simp, hn, fun x hx => ?_⟩
      rcases List.mem_append.1 hx with hx | hx
      · exact hbetween x hx
      · exact List.mem_singleton.1 hx ▸ hm

/-! ## The accesses of a move -/

def Used (r : RegisterName) (accesses : List (RegisterAccess M)) : Prop := ∃ mnd, .use mnd r ∈ accesses

def Written (r : RegisterName) (accesses : List (RegisterAccess M)) : Prop := ∃ mnd, .write mnd r ∈ accesses

/-- A use of the register comes before the writes. -/
def UsedFirst (r : RegisterName) : List (RegisterAccess M) → Prop
  | [] => False
  | .use _ reg :: accesses => reg = r ∨ UsedFirst r accesses
  | .write _ reg :: accesses => reg ≠ r ∧ UsedFirst r accesses

section Accesses
variable {accesses accesses' : List (RegisterAccess M)} {mnd : MoveNodeUse M} {reg : RegisterName}

@[simp] theorem used_append : Used r (accesses ++ accesses') ↔ Used r accesses ∨ Used r accesses' := by
  simp [Used, exists_or]

@[simp] theorem written_append : Written r (accesses ++ accesses') ↔ Written r accesses ∨ Written r accesses' := by
  simp [Written, exists_or]

@[simp] theorem usedFirst_append :
    UsedFirst r (accesses ++ accesses') ↔ UsedFirst r accesses ∨ ¬ Written r accesses ∧ UsedFirst r accesses' := by
  induction accesses with
  | nil => simp [UsedFirst, Written]
  | cons access accesses ih =>
    cases access with
    | use mnd reg =>
      have hwritten : Written r (.use mnd reg :: accesses) ↔ Written r accesses := by simp [Written]
      rw [List.cons_append, UsedFirst, UsedFirst, ih, hwritten, or_assoc]
    | write mnd reg =>
      have hwritten : Written r (.write mnd reg :: accesses) ↔ reg = r ∨ Written r accesses := by
        simp [Written, exists_or, eq_comm]
      rw [List.cons_append, UsedFirst, UsedFirst, ih, hwritten]
      tauto

theorem exclusingGuards_self (n : M) : g.exclusingGuards n n = false := by
  unfold exclusingGuards
  split
  · rename_i mg1 mg2 h1 h2
    rw [h1] at h2
    simp [Option.some.inj h2]
  · rfl

@[simp] theorem regKills_processRegUse : (processRegUse lrd mnd reg).regKills = lrd.regKills := by
  unfold processRegUse
  split <;> rfl

@[simp] theorem potentialRegKills_processRegUse :
    (processRegUse lrd mnd reg).potentialRegKills = lrd.potentialRegKills := by
  unfold processRegUse
  split <;> rfl

theorem mem_firstUsed_processRegUse :
    r ∈ (processRegUse lrd mnd reg).firstUsed ↔ r ∈ lrd.firstUsed ∨ r = reg ∧ lrd.regKills reg = none := by
  unfold processRegUse
  split
  · rename_i hkill
    simp only [LiveRangeData.firstUsed, List.mem_toFinset, List.map_append, List.mem_append, List.map_cons,
      List.map_nil, List.mem_singleton, Option.isNone_iff_eq_none.1 hkill, and_true]
  · rename_i hkill
    simp only [Option.isNone_iff_eq_none.not.1 hkill, and_false, or_false]

theorem potentialRegKills_processRegWrite : (g.processRegWrite lrd mnd reg).potentialRegKills r =
    if r = reg then (if (g.move mnd.mn).isUnconditional then none else some mnd) else lrd.potentialRegKills r := by
  simp [processRegWrite, Function.update_apply]

theorem isSome_pairKill : (g.pairKill lrd mnd reg).isSome ↔
    ∃ first, lrd.potentialRegKills reg = some first ∧ g.exclusingGuards first.mn mnd.mn = true := by
  unfold pairKill
  cases hfirst : lrd.potentialRegKills reg with
  | none => simp
  | some first =>
    by_cases hguards : g.exclusingGuards first.mn mnd.mn <;> simp [hguards]

theorem isSome_regKills_processRegWrite : ((g.processRegWrite lrd mnd reg).regKills r).isSome ↔
    (lrd.regKills r).isSome ∨ r = reg ∧ ((g.move mnd.mn).isUnconditional = true ∨
      ∃ first, lrd.potentialRegKills reg = some first ∧ g.exclusingGuards first.mn mnd.mn = true) := by
  unfold processRegWrite
  by_cases hr : r = reg
  · subst hr
    cases hkill : lrd.regKills r with
    | some kill => simp [hkill]
    | none =>
      by_cases hguard : (g.move mnd.mn).isUnconditional = true
      · simp [hguard]
      · simpa [hguard] using isSome_pairKill
  · cases hkill : lrd.regKills reg <;> simp [hr]

/-- The accesses of a move are all its own. -/
def OfMove (mn : M) (accesses : List (RegisterAccess M)) : Prop := ∀ access ∈ accesses, access.mnd.mn = mn

theorem isSome_regKills_foldl (h : OfMove mn accesses) : ((accesses.foldl g.process lrd).regKills r).isSome ↔
    (lrd.regKills r).isSome ∨ Written r accesses ∧ ((g.move mn).isUnconditional = true ∨
      ∃ first, lrd.potentialRegKills r = some first ∧ g.exclusingGuards first.mn mn = true) := by
  induction accesses generalizing lrd with
  | nil => simp [Written]
  | cons access accesses ih =>
    have hrest : OfMove mn accesses := fun access hmem => h access (by simp [hmem])
    rw [List.foldl_cons, ih hrest]
    cases access with
    | use mnd reg => simp [process, Written]
    | write mnd reg =>
      obtain rfl : mnd.mn = mn := h _ List.mem_cons_self
      have hwritten : Written r (.write mnd reg :: accesses) ↔ r = reg ∨ Written r accesses := by
        simp [Written, exists_or]
      rw [hwritten, process, isSome_regKills_processRegWrite, potentialRegKills_processRegWrite]
      by_cases hr : r = reg
      · subst hr
        by_cases hguard : (g.move mnd.mn).isUnconditional = true
        · simp [hguard]
        · simp [hguard, exclusingGuards_self]
      · simp [hr]

theorem potentialRegKills_foldl (h : OfMove mn accesses) :
    (Written r accesses → ((accesses.foldl g.process lrd).potentialRegKills r).map (·.mn) =
      if (g.move mn).isUnconditional then none else some mn) ∧
    (¬ Written r accesses → (accesses.foldl g.process lrd).potentialRegKills r = lrd.potentialRegKills r) := by
  induction accesses using List.reverseRecOn with
  | nil => simp [Written]
  | append_singleton accesses access ih =>
    have hrest : OfMove mn accesses := fun access hmem => h access (by simp [hmem])
    obtain ⟨hwritten, hnot⟩ := ih hrest
    rw [List.foldl_append]
    cases access with
    | use mnd reg =>
      have hsame : Written r (accesses ++ [.use mnd reg]) ↔ Written r accesses := by simp [Written]
      simpa [process, hsame] using ⟨hwritten, hnot⟩
    | write mnd reg =>
      obtain rfl : mnd.mn = mn := h (.write mnd reg) (by simp)
      have hsplit : Written r (accesses ++ [.write mnd reg]) ↔ Written r accesses ∨ r = reg := by
        simp [Written, exists_or]
      rw [hsplit, List.foldl_cons, List.foldl_nil, process, potentialRegKills_processRegWrite]
      by_cases hr : r = reg
      · by_cases hguard : (g.move mnd.mn).isUnconditional = true <;> simp [hr, hguard]
      · simpa [hr] using ⟨hwritten, hnot⟩

theorem mem_firstUsed_foldl (h : OfMove mn accesses) (hr : r ∈ (accesses.foldl g.process lrd).firstUsed) :
    r ∈ lrd.firstUsed ∨ Used r accesses ∧ lrd.regKills r = none := by
  induction accesses using List.reverseRecOn with
  | nil => exact .inl hr
  | append_singleton accesses access ih =>
    have hrest : OfMove mn accesses := fun access hmem => h access (by simp [hmem])
    rw [List.foldl_append] at hr
    cases access with
    | use mnd reg =>
      rcases mem_firstUsed_processRegUse.1 hr with hr | ⟨rfl, hkill⟩
      · rcases ih hrest hr with hr | ⟨hused, hkill⟩
        · exact .inl hr
        · exact .inr ⟨by simp [hused], hkill⟩
      · have hkept : ((accesses.foldl g.process lrd).regKills r).isSome ↔ _ := isSome_regKills_foldl hrest
        rw [hkill, Option.isSome_none, Bool.false_eq_true, false_iff, not_or] at hkept
        exact .inr ⟨⟨mnd, by simp⟩, by simpa using hkept.1⟩
    | write mnd reg =>
      rcases ih hrest hr with hr | ⟨hused, hkill⟩
      · exact .inl hr
      · exact .inr ⟨by simp [hused], hkill⟩

theorem firstUsed_subset_foldl : lrd.firstUsed ⊆ (accesses.foldl g.process lrd).firstUsed := by
  induction accesses generalizing lrd with
  | nil => exact subset_refl _
  | cons access accesses ih =>
    refine subset_trans ?_ ih
    cases access with
    | use mnd reg => exact fun r hr => mem_firstUsed_processRegUse.2 (.inl hr)
    | write mnd reg => exact subset_refl _

theorem mem_firstUsed_of_usedFirst (hkill : lrd.regKills r = none) (hused : UsedFirst r accesses) :
    r ∈ (accesses.foldl g.process lrd).firstUsed := by
  induction accesses generalizing lrd with
  | nil => exact hused.elim
  | cons access accesses ih =>
    rw [List.foldl_cons]
    cases access with
    | use mnd reg =>
      rcases hused with rfl | hused
      · have hmem : reg ∈ (processRegUse lrd mnd reg).firstUsed := mem_firstUsed_processRegUse.2 (.inr ⟨rfl, hkill⟩)
        exact firstUsed_subset_foldl hmem
      · exact ih (by simp [process, hkill]) hused
    | write mnd reg =>
      have hkept : ((g.processRegWrite lrd mnd reg).regKills r).isSome ↔ _ := isSome_regKills_processRegWrite
      simp only [hkill, hused.1.symm, Option.isSome_none, Bool.false_eq_true, false_and, or_self, iff_false] at hkept
      exact ih (by simpa [process] using hkept) hused.2

end Accesses

section Move
variable {accesses accesses' : List (RegisterAccess M)} {mnd : MoveNodeUse M} {reg : Option String}

@[simp] theorem used_useOf : Used r (useOf mnd reg) ↔ ∃ name, reg = some name ∧ r = .GPR name := by
  cases reg <;> simp [useOf, Used]

@[simp] theorem written_useOf : Written r (useOf mnd reg) ↔ False := by
  cases reg <;> simp [useOf, Written]

@[simp] theorem usedFirst_useOf : UsedFirst r (useOf mnd reg) ↔ ∃ name, reg = some name ∧ r = .GPR name := by
  cases reg <;> simp [useOf, UsedFirst, eq_comm]

@[simp] theorem used_writeOf : Used r (writeOf mnd reg) ↔ False := by
  cases reg <;> simp [writeOf, Used]

@[simp] theorem written_writeOf : Written r (writeOf mnd reg) ↔ ∃ name, reg = some name ∧ r = .GPR name := by
  cases reg <;> simp [writeOf, Written]

@[simp] theorem usedFirst_writeOf : UsedFirst r (writeOf mnd reg) ↔ False := by
  cases reg <;> simp [writeOf, UsedFirst]

theorem accesses_eq_ok (h : g.accesses special mn = .ok accesses) : ∃ ofGuard ofDestination,
    (g.move mn).guard.elim (.ok []) (g.processGuard mn) = .ok ofGuard ∧ g.processDestination special mn = .ok ofDestination ∧
      accesses = ofGuard ++ g.processSource special mn ++ ofDestination := by
  unfold MoveNodes.accesses at h
  split at h
  · cases h
  · rename_i ofGuard hguard
    split at h
    · cases h
    · rename_i ofDestination hdestination
      exact ⟨ofGuard, ofDestination, hguard, hdestination, (Except.ok.inj h).symm⟩

theorem usedFirst_iff (h : ¬ Written r accesses) : UsedFirst r accesses ↔ Used r accesses := by
  induction accesses with
  | nil => simp [UsedFirst, Used]
  | cons access accesses ih =>
    cases access with
    | use mnd reg =>
      have hused : Used r (.use mnd reg :: accesses) ↔ reg = r ∨ Used r accesses := by simp [Used, exists_or, eq_comm]
      rw [UsedFirst, ih (by simpa [Written] using h), hused]
    | write mnd reg =>
      have hreg : reg ≠ r := by
        rintro rfl
        exact h ⟨mnd, List.mem_cons_self⟩
      have hrest : ¬ Written r accesses := fun ⟨mnd, hmem⟩ => h ⟨mnd, List.mem_cons_of_mem _ hmem⟩
      simp [UsedFirst, ih hrest, hreg, Used]

theorem processGuard_spec (h : (g.move mn).guard.elim (.ok []) (g.processGuard mn) = .ok accesses) :
    OfMove mn accesses ∧ ¬ Written r accesses ∧
      (Used r accesses ↔ ∃ c name, (g.move mn).guard = some c ∧ c.registerName = some name ∧ r = .GPR name) := by
  cases hguard : (g.move mn).guard with
  | none =>
    rw [hguard] at h
    obtain rfl := Except.ok.inj h
    simp [OfMove, Written, Used]
  | some c =>
    rw [hguard, Option.elim_some, processGuard] at h
    split at h
    · rename_i name hname
      obtain rfl := Except.ok.inj h
      simp [OfMove, Written, Used, RegisterAccess.mnd, hname]
    · cases h

theorem used_processReturn :
    Used r (processReturn special mn) ↔ ∃ name, special.IsReturned name ∧ r = .GPR name := by
  simp [processReturn, SpecialRegisters.IsReturned, or_and_right, exists_or]

theorem written_processReturn : ¬ Written r (processReturn special mn) := by simp [processReturn]

theorem ofMove_useOf (h : mnd.mn = mn) : OfMove mn (useOf mnd reg) := by
  cases reg <;> simp [OfMove, useOf, RegisterAccess.mnd, h]

theorem ofMove_writeOf (h : mnd.mn = mn) : OfMove mn (writeOf mnd reg) := by
  cases reg <;> simp [OfMove, writeOf, RegisterAccess.mnd, h]

theorem OfMove.append (h : OfMove mn accesses) (h' : OfMove mn accesses') : OfMove mn (accesses ++ accesses') :=
  fun access hmem => (List.mem_append.1 hmem).elim (h access) (h' access)

theorem ofMove_processReturn : OfMove mn (processReturn special mn) :=
  ((ofMove_useOf rfl).append (ofMove_useOf rfl)).append (ofMove_useOf rfl)

theorem processSource_spec : OfMove mn (g.processSource special mn) ∧ ¬ Written r (g.processSource special mn) ∧
    (Used r (g.processSource special mn) ↔ (∃ name, (g.move mn).source = .GPR name ∧ r = .GPR name) ∨
      (g.move mn).source = .RA ∧ (r = .RA ∨ (g.move mn).isReturn = true ∧
        ∃ name, special.IsReturned name ∧ r = .GPR name)) := by
  unfold processSource
  cases hsource : (g.move mn).source with
  | GPR name => simp [OfMove, Written, Used, RegisterAccess.mnd]
  | other => simp [OfMove, Written, Used]
  | RA =>
    have hcons : ∀ rest : List (RegisterAccess M), OfMove mn rest →
        OfMove mn (.use ⟨mn, false, true, false⟩ .RA :: rest) := fun rest hrest access hmem =>
      (List.mem_cons.1 hmem).elim (fun heq => heq ▸ rfl) (hrest access)
    have hused : ∀ rest : List (RegisterAccess M),
        Used r (.use ⟨mn, false, true, false⟩ .RA :: rest) ↔ r = .RA ∨ Used r rest := by
      simp [Used, exists_or]
    have hwritten : ∀ rest : List (RegisterAccess M),
        Written r (.use ⟨mn, false, true, false⟩ .RA :: rest) ↔ Written r rest := by
      simp [Written]
    by_cases hreturn : (g.move mn).isReturn = true
    · simp only [hreturn, if_true, hused, hwritten, used_processReturn]
      exact ⟨hcons _ ofMove_processReturn, written_processReturn, by simp⟩
    · simp only [hreturn, if_false, hused, hwritten, Bool.false_eq_true]
      exact ⟨hcons _ (by simp [OfMove]), by simp [Written], by simp [Used]⟩

theorem used_params : Used r ((List.finRange 4).flatMap fun i => useOf mnd (special.params i)) ↔
    ∃ name, (∃ i, special.params i = some name) ∧ r = .GPR name := by
  have hflat : Used r ((List.finRange 4).flatMap fun i => useOf mnd (special.params i)) ↔
      ∃ i, Used r (useOf mnd (special.params i)) := by
    simp only [Used, List.mem_flatMap, List.mem_finRange, true_and]
    exact exists_comm
  rw [hflat]
  simp only [used_useOf]
  tauto

theorem written_params : ¬ Written r ((List.finRange 4).flatMap fun i => useOf mnd (special.params i)) := by
  rintro ⟨mnd', hmem⟩
  obtain ⟨i, -, hi⟩ := List.mem_flatMap.1 hmem
  exact written_useOf.1 ⟨mnd', hi⟩

/-- The register that is read may be a register of a result, when it is known to be one of a parameter. -/
theorem processCall_spec : OfMove mn (processCall special mn) ∧
    (Written r (processCall special mn) ↔ r = .RA ∨ ∃ name, special.IsResult name ∧ r = .GPR name) ∧
    (Used r (processCall special mn) ↔ ∃ name, special.IsArgument name ∧ r = .GPR name) ∧
    (special.SeparateParams → Used r (processCall special mn) → UsedFirst r (processCall special mn)) := by
  have hlink : ∀ r : RegisterName, (Written r [.write (⟨mn, false, true, false⟩ : MoveNodeUse M) .RA] ↔ r = .RA) ∧
      ¬ Used r [.write (⟨mn, false, true, false⟩ : MoveNodeUse M) .RA] := by
    simp [Written, Used]
  have hrv : ∀ r : RegisterName, ¬ Written r (if special.rvIsParamReg then useOf ⟨mn, false, false, true⟩ special.RV else []) ∧
      (Used r (if special.rvIsParamReg then useOf (⟨mn, false, false, true⟩ : MoveNodeUse M) special.RV else []) ↔
        special.rvIsParamReg = true ∧ ∃ name, special.RV = some name ∧ r = .GPR name) := by
    intro r
    by_cases hparam : special.rvIsParamReg = true
    · simp [hparam]
    · simp [hparam, Written, Used]
  refine ⟨?_, ?_, ?_, fun hparams hused => ?_⟩
  · refine .append (.append (.append (.append (.append ?_ (ofMove_useOf rfl)) ?_) (ofMove_writeOf rfl)) (ofMove_writeOf rfl)) ?_
    · simp [OfMove, RegisterAccess.mnd]
    · split
      · exact ofMove_useOf rfl
      · simp [OfMove]
    · intro access hmem
      obtain ⟨i, -, hi⟩ := List.mem_flatMap.1 hmem
      exact ofMove_useOf rfl access hi
  · simp only [processCall, written_append, (hlink r).1, (hrv r).1, written_useOf, written_writeOf, written_params,
      SpecialRegisters.IsResult, or_and_right, exists_or, or_false, or_assoc]
  · simp only [processCall, used_append, (hlink r).2, (hrv r).2, used_useOf, used_writeOf, used_params,
      SpecialRegisters.IsArgument, or_and_right, exists_or, or_false, false_or, or_assoc, and_assoc, exists_and_left]
  · have hfirst : ∀ r : RegisterName, ¬ UsedFirst r [.write (⟨mn, false, true, false⟩ : MoveNodeUse M) .RA] := by
      simp [UsedFirst]
    have hrv' := (hrv r).2
    rw [← usedFirst_iff (hrv r).1] at hrv'
    simp only [processCall, used_append, usedFirst_append, written_append, (hlink r).1, (hlink r).2, (hrv r).1, (hrv r).2,
      hfirst, hrv', used_useOf, used_writeOf, written_useOf, written_writeOf, usedFirst_useOf, usedFirst_writeOf,
      usedFirst_iff written_params, used_params, false_or, or_false, and_false] at hused ⊢
    have hRA : ∀ name, r = .GPR name → r ≠ .RA := by
      rintro name rfl
      simp
    rcases hused with (⟨name, hname, hr⟩ | ⟨hparam, name, hname, hr⟩) | ⟨name, ⟨i, hi⟩, hr⟩
    · exact .inl (.inl ⟨hRA name hr, name, hname, hr⟩)
    · exact .inl (.inr ⟨hRA name hr, hparam, name, hname, hr⟩)
    · obtain ⟨hhigh, hrvparam⟩ := hparams i name hi
      by_cases hRV : special.RV = some name
      · exact .inl (.inr ⟨hRA name hr, hrvparam hRV, name, hRV, hr⟩)
      · refine .inr ⟨?_, name, ⟨i, hi⟩, hr⟩
        subst hr
        simpa using ⟨hRV, hhigh⟩

theorem processDestination_spec (h : g.processDestination special mn = .ok accesses) : OfMove mn accesses ∧
    (Written r accesses ↔ g.Writes special mn r) ∧
    (Used r accesses ↔ (g.move mn).destination = .FUPort true ∧ ∃ name, special.IsArgument name ∧ r = .GPR name) ∧
    (special.SeparateParams → Used r accesses → UsedFirst r accesses) := by
  have hwrites : g.Writes special mn r ↔ (∃ name, (g.move mn).destination = .GPR name ∧ r = .GPR name) ∨
      (g.move mn).destination = .RA ∧ r = .RA ∨
      (g.move mn).destination = .FUPort true ∧ (r = .RA ∨ ∃ name, special.IsResult name ∧ r = .GPR name) := by
    constructor
    · rintro (hdestination | hdestination | hdestination | ⟨hdestination, hresult⟩) <;> simp_all
    · rintro (⟨name, hdestination, rfl⟩ | ⟨hdestination, rfl⟩ | ⟨hdestination, rfl | ⟨name, hresult, rfl⟩⟩)
      exacts [.GPR hdestination, .RA hdestination, .link hdestination, .result hdestination hresult]
  rw [hwrites]
  unfold processDestination at h
  cases hdestination : (g.move mn).destination with
  | FUPort triggersCall =>
    rw [hdestination] at h
    cases triggersCall with
    | false =>
      obtain rfl := Except.ok.inj h
      simp [OfMove, Written, Used]
    | true =>
      obtain rfl := Except.ok.inj h
      simpa using processCall_spec
  | RA =>
    rw [hdestination] at h
    obtain rfl := Except.ok.inj h
    simp [OfMove, Written, Used, RegisterAccess.mnd]
  | GPR name =>
    rw [hdestination] at h
    obtain rfl := Except.ok.inj h
    simp [OfMove, Written, Used, RegisterAccess.mnd]
  | other =>
    rw [hdestination] at h
    cases h

theorem accesses_spec (h : g.accesses special mn = .ok accesses) :
    OfMove mn accesses ∧ (Written r accesses ↔ g.Writes special mn r) ∧
      (((g.move mn).isReturn = true → (g.move mn).source = .RA) → (Used r accesses ↔ g.Reads special mn r)) ∧
      (special.SeparateParams → Used r accesses → UsedFirst r accesses) := by
  obtain ⟨ofGuard, ofDestination, hguard, hdestination, rfl⟩ := accesses_eq_ok h
  obtain ⟨hgMove, hgWritten, hgUsed⟩ := processGuard_spec (r := r) hguard
  obtain ⟨hsMove, hsWritten, hsUsed⟩ : _ ∧ _ ∧ (Used r (g.processSource special mn) ↔ _) := processSource_spec
  obtain ⟨hdMove, hdWritten, hdUsed, hdFirst⟩ := processDestination_spec (r := r) hdestination
  refine ⟨(hgMove.append hsMove).append hdMove, by simp [hgWritten, hsWritten, hdWritten], fun hreturn => ?_,
    fun hparams hused => ?_⟩
  · simp only [used_append, hgUsed, hsUsed, hdUsed]
    constructor
    · rintro ((⟨c, name, hc, hname, rfl⟩ | ⟨name, hsource, rfl⟩ | ⟨hsource, rfl | ⟨hret, name, hreturned, rfl⟩⟩) |
        ⟨hcall, name, hargument, rfl⟩)
      exacts [.guard hc hname, .GPR hsource, .RA hsource, .returned hret hreturned, .called hcall hargument]
    · intro hreads
      cases hreads with
      | guard hc hname => exact .inl (.inl ⟨_, _, hc, hname, rfl⟩)
      | GPR hsource => exact .inl (.inr (.inl ⟨_, hsource, rfl⟩))
      | RA hsource => exact .inl (.inr (.inr ⟨hsource, .inl rfl⟩))
      | returned hret hreturned => exact .inl (.inr (.inr ⟨hreturn hret, .inr ⟨hret, _, hreturned, rfl⟩⟩))
      | called hcall hargument => exact .inr ⟨hcall, _, hargument, rfl⟩
  · have hwritten : ¬ Written r (ofGuard ++ g.processSource special mn) := by simp [hgWritten, hsWritten]
    rw [usedFirst_append, usedFirst_iff hwritten]
    exact (used_append.1 hused).imp_right fun hused => ⟨hwritten, hdFirst hparams hused⟩

end Move

/-! ## The block -/

/-- What is kept of a block that has been gone through so far. -/
structure IsSummary (g : MoveNodes M) (special : SpecialRegisters) (done : List M) (lrd : LiveRangeData M) : Prop where
  kills : ∀ r, (lrd.regKills r).isSome ↔ g.Kills special (g.LastWriter special) done r
  firstUsed : ∀ r, r ∈ lrd.firstUsed ↔ g.ReadsFirst special (g.LastWriter special) done r
  potential : ∀ r, ¬ g.Kills special (g.LastWriter special) done r →
    ∀ n, (∃ first, lrd.potentialRegKills r = some first ∧ first.mn = n) ↔ g.LastWriter special done r n

def ReturnsThroughRA (g : MoveNodes M) (moves : List M) : Prop :=
  ∀ m ∈ moves, (g.move m).isReturn = true → (g.move m).source = .RA

theorem isSummary_empty : IsSummary g special [] (.empty : LiveRangeData M) := by
  refine ⟨fun r => ?_, fun r => ?_, fun r _ n => ?_⟩
  · simp [LiveRangeData.empty, Kills]
  · simp [LiveRangeData.empty, LiveRangeData.firstUsed, ReadsFirst]
  · simp [LiveRangeData.empty, LastWriter]

theorem IsSummary.concat {accesses : List (RegisterAccess M)} (h : IsSummary g special done lrd)
    (hparams : special.SeparateParams) (hreturn : (g.move m).isReturn = true → (g.move m).source = .RA)
    (haccesses : g.accesses special m = .ok accesses) :
    IsSummary g special (done ++ [m]) (accesses.foldl g.process lrd) := by
  have hmove : OfMove m accesses := (accesses_spec (r := .RA) haccesses).1
  have hnone : ∀ r, lrd.regKills r = none ↔ ¬ g.Kills special (g.LastWriter special) done r := by
    intro r
    rw [← h.kills r, Option.not_isSome_iff_eq_none]
  refine ⟨fun r => ?_, fun r => ?_, fun r hkills n => ?_⟩
  · obtain ⟨-, hwritten, -⟩ := accesses_spec (r := r) haccesses
    rw [isSome_regKills_foldl hmove, kills_concat, h.kills, hwritten]
    by_cases hkills : g.Kills special (g.LastWriter special) done r
    · simp [hkills]
    · have hpair : (∃ first, lrd.potentialRegKills r = some first ∧ g.exclusingGuards first.mn m = true) ↔
          ∃ n, g.LastWriter special done r n ∧ g.exclusingGuards n m = true := by
        simp only [← h.potential r hkills]
        grind
      rw [hpair]
      rfl
  · obtain ⟨-, -, hused, hfirst⟩ := accesses_spec (r := r) haccesses
    rw [readsFirst_concat, ← h.firstUsed r, ← hused hreturn, ← hnone r]
    constructor
    · exact mem_firstUsed_foldl hmove
    · rintro (hr | ⟨hr, hkill⟩)
      · exact firstUsed_subset_foldl hr
      · exact mem_firstUsed_of_usedFirst hkill (hfirst hparams hr)
  · obtain ⟨-, hwritten, -⟩ := accesses_spec (r := r) haccesses
    obtain ⟨hyes, hno⟩ : _ ∧ (_ → (accesses.foldl g.process lrd).potentialRegKills r = _) :=
      potentialRegKills_foldl hmove
    obtain ⟨hdone, hafter⟩ := not_or.1 (kills_concat.not.1 hkills)
    rw [lastWriter_concat]
    by_cases hwrites : g.Writes special m r
    · have hguard : (g.move m).isUnconditional = false := by
        simpa using fun hunconditional => hafter ⟨hwrites, .inl hunconditional⟩
      have hpotential := hyes (hwritten.2 hwrites)
      rw [hguard, if_neg (by simp)] at hpotential
      obtain ⟨first, hfirst, rfl⟩ := Option.map_eq_some_iff.1 hpotential
      simp [hfirst, hwrites, eq_comm]
    · rw [hno (hwritten.not.2 hwrites), h.potential r hdone]
      simp [hwrites]

/-- What is noted of a block is what it reads before it is killed, and what it kills. -/
theorem isSummary_of_constructIndividualBB (hparams : special.SeparateParams) (hreturns : g.ReturnsThroughRA moves)
    (h : g.constructIndividualBB special moves = .ok lrd) : IsSummary g special moves lrd := by
  have hrun : ∀ (moves done : List M) (lrd lrd' : LiveRangeData M), IsSummary g special done lrd →
      g.ReturnsThroughRA moves → g.constructFrom special lrd moves = .ok lrd' →
      IsSummary g special (done ++ moves) lrd' := by
    intro moves
    induction moves with
    | nil =>
      intro done lrd lrd' hdone _ h
      obtain rfl := Except.ok.inj h
      simpa using hdone
    | cons m moves ih =>
      intro done lrd lrd' hdone hreturns h
      rw [constructFrom] at h
      split at h
      · cases h
      · rename_i accesses haccesses
        have hnext := hdone.concat hparams (hreturns m List.mem_cons_self) haccesses
        simpa using ih _ _ _ hnext (fun x hx => hreturns x (List.mem_cons_of_mem _ hx)) h
  exact hrun moves [] _ _ isSummary_empty hreturns h

end MoveNodes

end Tce.DDG
