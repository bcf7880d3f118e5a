import Mathlib.Data.List.Nodup
import Mathlib.Algebra.Ring.Nat
import Tce.POM.EditingInvariant

/-!
# Addresses after any sequence of edits

The addresses of a program are contiguous after every sequence of edits in which the
three edits that can break them are not used so. Where the program ends below the top of
the address space, every address is then that of one instruction, and all the ways to
find it agree.
-/

namespace Tce.POM.World

section Conditions
variable (w : World)

/-- `removeLastInstruction` on a procedure that others follow leaves a gap, and neither the program
nor a procedure in it can start at a lower address. -/
def Edit.Sound : Edit → Prop
  | .removeLastInstruction c =>
    ∀ s, w.snippets c = some s → s.instructions = [] ∨ s.isInProgram = false ∨ w.lastProcedure = some c
  | .setStartAddress start => w.procedures = [] ∨ w.start ≤ start
  | .setSnippetStart c start => ∀ s, w.snippets c = some s → s.isInProgram = false ∨ s.start = start
  | _ => True

/-- Every edit of the sequence is sound in the world in which it happens. -/
def SoundRun : List Edit → World → Prop
  | [], _ => True
  | e :: edits, w => e.Sound w ∧ ∀ w', (w.edit e).state? = some w' → SoundRun edits w'

/-- The program ends below the top of the address space, and the index of an instruction in its
procedure is an `int`. -/
def Fits : Prop :=
  w.start.toNat + w.instructionVector.length < 2 ^ 32 ∧
    ∀ p ∈ w.procedures, ∀ s, w.snippets p = some s → s.instructions.length ≤ 2 ^ 31

/-- The address of an instruction, where it has one. -/
def addressOf (i : InstructionId) : Option InstructionAddress := (w.address i).map (·.1)

/-- Every instruction of a procedure is at the start address plus its index. -/
def Positions : Prop :=
  ∀ p ∈ w.procedures, ∀ s, w.snippets p = some s → ∀ k i, s.instructions[k]? = some i →
    w.addressOf i = some (s.start + BitVec.ofNat 32 k)

/-- One instruction at each address of the program, the one that the lookups give. -/
structure Agrees : Prop where
  unique : ∀ a : InstructionAddress, w.start.toNat ≤ a.toNat → a.toNat < w.start.toNat + w.instructionVector.length →
    ∃! i, i ∈ w.instructionVector ∧ w.addressOf i = some a
  address : ∀ (k : Nat) i, w.instructionVector[k]? = some i → w.addressOf i = some (w.start + BitVec.ofNat 32 k)
  instructionAt : ∀ (k : Nat) i, w.instructionVector[k]? = some i → w.instructionAt (w.start + BitVec.ofNat 32 k) = some i
  nextInstruction : ∀ (k : Nat) i, w.instructionVector[k]? = some i → w.nextInstruction i = some w.instructionVector[k + 1]?

end Conditions

section Runs
variable {w w' : World} {e : Edit}

theorem Good.edit (h : w.Good) (hsound : e.Sound w) : (w.edit e).Keeps Good := by
  cases e with
  | newInstruction => exact h.newInstruction
  | newCodeSnippet isProcedure start => exact h.newCodeSnippet
  | addProcedure p => exact h.addProcedure
  | removeProcedure p => exact h.removeProcedure
  | setStartAddress start => exact h.setStartAddress hsound
  | addInstruction i => exact h.addInstruction
  | add c i => exact h.add
  | addFront c i => exact h.addFront
  | insertAfter c pos i => exact h.insertAfter
  | insertBefore c pos i => exact h.insertBefore
  | remove c i => exact h.remove
  | clear c => exact h.clear
  | removeLastInstruction c => exact h.removeLastInstruction hsound
  | deleteInstructionAt c a => exact h.deleteInstructionAt
  | setSnippetStart c start => exact h.setSnippetStart hsound
  | appendCopy c cs => exact keeps_copyEach (fun _ _ hv => hv.add) h
  | append c cs => exact keeps_moveEach (fun _ _ hv => hv.add) h
  | prependCopy c cs => exact keeps_copyEachFromLast (fun _ _ hv => hv.addFront) h
  | prepend c cs => exact keeps_moveEachFromLast (fun _ _ hv => hv.addFront) h
  | insertCopyBefore c cs pos => exact keeps_copyEach (fun _ _ hv => hv.insertBefore) h
  | insertSnippetBefore c cs pos => exact keeps_moveEach (fun _ _ hv => hv.insertBefore) h
  | insertCopyAfter c cs pos => exact keeps_copyEachFromLast (fun _ _ hv => hv.insertAfter) h
  | insertSnippetAfter c cs pos => exact keeps_moveEachFromLast (fun _ _ hv => hv.insertAfter) h
  | queryAddress i =>
    show Throwing.Keeps Good (((w.address i).map fun r => Throwing.done r.2).getD (.threw w))
    cases ha : w.address i with
    | none => exact h
    | some r => exact (h.address ha).1

/-- The conditions are exact: any other edit of the three kinds does break the layout. -/
theorem Good.contiguous_edit_iff (h : w.Good) (hw : (w.edit e).state? = some w') : w'.Contiguous ↔ e.Sound w := by
  refine ⟨fun hcontiguous => ?_, fun hsound => ((h.edit hsound).of_state? hw).contiguous⟩
  cases e with
  | removeLastInstruction c =>
    intro s hs
    by_contra hnot
    simp only [not_or, Bool.not_eq_false] at hnot
    obtain ⟨hne, hin, hlast⟩ := hnot
    obtain rfl : w.setInstructions c s.instructions.dropLast = w' := by
      simpa [World.edit, World.removeLastInstruction, withSnippet, hs, Throwing.state?] using hw
    obtain ⟨pre, post, hsplit⟩ := List.append_of_mem ((h.valid.isInProgram_iff c s hs).mp hin)
    have hsnippets := snippets_setInstructions (l := s.instructions.dropLast) hs
    have hbefore := (h.contiguous.layout hsplit).after (b := s.start) (n := s.instructions.length) (by simp [extent, hs])
    have hafter := (hcontiguous.layout hsplit).after (b := s.start) (n := s.instructions.dropLast.length)
      (by simp [extent, hsnippets])
    cases post with
    | nil => exact hlast (by simp [lastProcedure, hsplit])
    | cons q rest =>
      have hq : q ≠ c := by
        have hnodup := h.valid.nodup_procedures
        rw [hsplit] at hnodup
        exact fun heq => (List.nodup_cons.mp (List.nodup_append.mp hnodup).2.1).1 (by simp [heq])
      obtain ⟨m, hm, -⟩ := hbefore
      obtain ⟨m', hm', -⟩ := hafter
      have hsame : (w.setInstructions c s.instructions.dropLast).extent q = w.extent q := by
        simp [extent, hsnippets, hq]
      have hstart : s.start + BitVec.ofNat 32 s.instructions.length =
          s.start + BitVec.ofNat 32 s.instructions.dropLast.length := by
        rw [hsame, hm] at hm'
        simpa using congrArg (Option.map (·.1)) hm'
      have hlen : s.instructions.length = s.instructions.dropLast.length + 1 := by
        have := List.length_pos_iff.mpr hne
        rw [List.length_dropLast]
        omega
      rw [hlen, BitVec.ofNat_add] at hstart
      bv_omega
  | setStartAddress start =>
    by_contra hnot
    obtain ⟨hne, hlt⟩ : w.procedures ≠ [] ∧ ¬w.start ≤ start := not_or.mp hnot
    have hnlt : ¬w.start < start := by bv_omega
    obtain rfl : { w with start := start } = w' := by
      simpa [World.edit, setStartAddress_eq h, hnlt, Throwing.state?] using hw
    obtain ⟨p, ps, hps⟩ := List.exists_cons_of_ne_nil hne
    obtain ⟨n, hn, -⟩ := h.contiguous.layout hps
    obtain ⟨m, hm, -⟩ := hcontiguous.layout hps
    have hextent : extent { w with start := start } p = w.extent p := rfl
    obtain ⟨heq, -⟩ : w.start = start ∧ n = m := by simpa [hextent, hn] using hm
    exact hlt (heq ▸ BitVec.le_refl _)
  | setSnippetStart c start =>
    intro s hs
    by_contra hnot
    simp only [not_or, Bool.not_eq_false] at hnot
    obtain ⟨hin, hne⟩ := hnot
    obtain rfl : w.putSnippet c (some { s with start := start }) = w' := by
      simpa [World.edit, World.setSnippetStart, withSnippet, hs, Throwing.state?] using hw
    obtain ⟨pre, post, hsplit⟩ := List.append_of_mem ((h.valid.isInProgram_iff c s hs).mp hin)
    have hcpre : c ∉ pre := by
      have hnodup := h.valid.nodup_procedures
      rw [hsplit] at hnodup
      exact fun hm => (List.nodup_append.mp hnodup).2.2 c hm c (by simp) rfl
    have hc : w.extent c = some (s.start, s.instructions.length) := by simp [extent, hs]
    have hc' : (w.putSnippet c (some { s with start := start })).extent c = some (start, s.instructions.length) := by
      simp [extent, putSnippet]
    refine hne (Layout.start_unique (h.contiguous.layout hsplit) (hcontiguous.layout hsplit) (fun p hp => ?_) hc hc').symm
    have hpc : p ≠ c := fun heq => hcpre (heq ▸ hp)
    simp [extent, putSnippet, hpc]
  | _ => trivial

theorem good_run {edits : List Edit} (h : w.Good) (hsound : SoundRun edits w) (hrun : run edits w = some w') : w'.Good := by
  induction edits generalizing w with
  | nil =>
    cases hrun
    exact h
  | cons e edits ih =>
    obtain ⟨v, hv, hrest⟩ := Option.bind_eq_some_iff.mp hrun
    exact ih ((h.edit hsound.1).of_state? hv) (hsound.2 v hv) hrest

end Runs

section Lookups
variable {w w' : World} {p : SnippetId} {s : CodeSnippet} {i : InstructionId} {j k : Nat} {pre post : List SnippetId}

/-- Whatever position is cached, the address is that of the index. -/
theorem Valid.addressOf_eq (h : w.Valid) (hs : w.snippets p = some s) (hi : s.instructions[k]? = some i) :
    w.addressOf i = some (s.start + BitVec.ofNat 32 k) := by
  obtain ⟨ins, hins, hparent⟩ := h.parent p s i hs (List.mem_of_getElem? hi)
  have hnodup := h.nodup p s hs
  obtain ⟨hk, hget⟩ := List.getElem?_eq_some_iff.mp hi
  unfold addressOf address
  simp only [hins, hparent, hs]
  split
  · rename_i hcached
    obtain ⟨hc, hcget⟩ := List.getElem?_eq_some_iff.mp hcached.2.2
    have hpos : ins.positionInProcedure.toNat = k := (List.Nodup.getElem_inj_iff hnodup).mp (hcget.trans hget.symm)
    simp [← hpos]
  · have hidx : s.instructions.idxOf? i = some k :=
      List.idxOf?_eq_some_iff.mpr ⟨hk, hget, fun j hj heq =>
        Nat.ne_of_lt hj ((List.Nodup.getElem_inj_iff hnodup).mp (heq.trans hget.symm))⟩
    simp [hidx]

theorem instructionsOf_eq (hs : w.snippets p = some s) : w.instructionsOf p = s.instructions := by
  simp [instructionsOf, hs]

/-- Each entry of the vector is an instruction of one procedure. -/
theorem locate {f : SnippetId → List InstructionId} {ps : List SnippetId} (h : (ps.flatMap f)[k]? = some i) :
    ∃ pre p post j, ps = pre ++ p :: post ∧ (f p)[j]? = some i ∧ k = (pre.flatMap f).length + j := by
  induction ps generalizing k with
  | nil => simp at h
  | cons p ps ih =>
    rw [List.flatMap_cons] at h
    by_cases hk : k < (f p).length
    · exact ⟨[], p, ps, k, rfl, by rwa [List.getElem?_append_left hk] at h, by simp⟩
    · rw [List.getElem?_append_right (by omega)] at h
      obtain ⟨pre, q, post, j, rfl, hj, heq⟩ := ih h
      refine ⟨p :: pre, q, post, j, rfl, hj, ?_⟩
      rw [List.flatMap_cons, List.length_append]
      omega

theorem Good.start_eq (h : w.Good) (hsplit : w.procedures = pre ++ p :: post) (hs : w.snippets p = some s) :
    s.start = w.start + BitVec.ofNat 32 (pre.flatMap w.instructionsOf).length := by
  have hlayout := h.contiguous.layout hsplit
  clear hsplit
  generalize w.start = a at hlayout
  induction pre generalizing a with
  | nil =>
    obtain ⟨n, hn, -⟩ := hlayout
    obtain ⟨hstart, -⟩ : s.start = a ∧ s.instructions.length = n := by simpa [extent, hs] using hn
    simp [hstart]
  | cons q pre ih =>
    obtain ⟨n, hn, hrest⟩ := hlayout
    obtain ⟨t, ht, -, rfl⟩ : ∃ t, w.snippets q = some t ∧ t.start = a ∧ t.instructions.length = n := by
      simpa [extent] using hn
    rw [ih _ hrest, List.flatMap_cons, List.length_append, instructionsOf_eq ht, BitVec.ofNat_add, BitVec.add_assoc]

/-- The offset of a procedure and its length, inside the program. -/
theorem offset_le (hsplit : w.procedures = pre ++ p :: post) (hs : w.snippets p = some s) :
    (pre.flatMap w.instructionsOf).length + s.instructions.length ≤ w.instructionVector.length := by
  simp [instructionVector, hsplit, instructionsOf_eq hs]

theorem Good.start_toNat (h : w.Good) (hfits : w.Fits) (hsplit : w.procedures = pre ++ p :: post)
    (hs : w.snippets p = some s) : s.start.toNat = w.start.toNat + (pre.flatMap w.instructionsOf).length ∧
      s.endAddress.toNat = s.start.toNat + s.instructions.length := by
  have hle := offset_le hsplit hs
  have hlt := hfits.1
  have hstart : s.start.toNat = w.start.toNat + (pre.flatMap w.instructionsOf).length := by
    rw [h.start_eq hsplit hs, BitVec.toNat_add, BitVec.toNat_ofNat]
    omega
  refine ⟨hstart, ?_⟩
  rw [CodeSnippet.endAddress, BitVec.toNat_add, BitVec.toNat_ofNat]
  omega

theorem Good.containing_iff (h : w.Good) (hfits : w.Fits) (hsplit : w.procedures = pre ++ p :: post)
    (hs : w.snippets p = some s) (hk : k < w.instructionVector.length) :
    w.containing (w.start + BitVec.ofNat 32 k) p = true ↔
      (pre.flatMap w.instructionsOf).length ≤ k ∧ k < (pre.flatMap w.instructionsOf).length + s.instructions.length := by
  obtain ⟨hstart, hend⟩ := h.start_toNat hfits hsplit hs
  have hlt := hfits.1
  have haddr : (w.start + BitVec.ofNat 32 k).toNat = w.start.toNat + k := by
    rw [BitVec.toNat_add, BitVec.toNat_ofNat]
    omega
  simp only [containing, hs, Option.any_some, decide_eq_true_eq, BitVec.le_def, BitVec.lt_def, haddr, hstart, hend]
  omega

/-- No procedure before the one of an instruction contains its address. -/
theorem Good.notContaining (h : w.Good) (hfits : w.Fits) (hsplit : w.procedures = pre ++ p :: post)
    (hle : (pre.flatMap w.instructionsOf).length ≤ k) (hk : k < w.instructionVector.length) :
    ∀ q ∈ pre, w.containing (w.start + BitVec.ofNat 32 k) q = false := by
  intro q hq
  obtain ⟨pre', post', rfl⟩ := List.append_of_mem hq
  have hsplit' : w.procedures = pre' ++ q :: (post' ++ p :: post) := by simp [hsplit]
  obtain ⟨t, ht, -⟩ := h.valid.procedure q (by simp [hsplit])
  have hlen : ((pre' ++ q :: post').flatMap w.instructionsOf).length =
      (pre'.flatMap w.instructionsOf).length + (t.instructions.length + (post'.flatMap w.instructionsOf).length) := by
    simp [instructionsOf_eq ht]
  have hnot : ¬w.containing (w.start + BitVec.ofNat 32 k) q = true := by
    rw [h.containing_iff hfits hsplit' ht hk]
    omega
  simpa using hnot

/-- Where the k-th instruction of the program is. -/
structure At (w : World) (k : Nat) (i : InstructionId) (pre : List SnippetId) (p : SnippetId) (post : List SnippetId)
    (s : CodeSnippet) (j : Nat) : Prop where
  split : w.procedures = pre ++ p :: post
  snippet : w.snippets p = some s
  getElem : s.instructions[j]? = some i
  index : k = (pre.flatMap w.instructionsOf).length + j

theorem Good.located (h : w.Good) (hk : w.instructionVector[k]? = some i) : ∃ pre p post s j, w.At k i pre p post s j := by
  obtain ⟨pre, p, post, j, hsplit, hj, rfl⟩ := locate hk
  obtain ⟨s, hs, -⟩ := h.valid.procedure p (by simp [hsplit])
  exact ⟨pre, p, post, s, j, hsplit, hs, by rwa [instructionsOf_eq hs] at hj, rfl⟩

section Located
variable (h : w.Good) (hat : w.At k i pre p post s j)
include h hat

theorem At.addressOf : w.addressOf i = some (w.start + BitVec.ofNat 32 k) := by
  rw [h.valid.addressOf_eq hat.snippet hat.getElem, h.start_eq hat.split hat.snippet, hat.index, BitVec.ofNat_add,
    BitVec.add_assoc]

omit h in
theorem At.lt_length : j < s.instructions.length := (List.getElem?_eq_some_iff.mp hat.getElem).1

omit h in
theorem At.lt_vector : k < w.instructionVector.length := by
  have := offset_le hat.split hat.snippet
  have := hat.lt_length
  have := hat.index
  omega

variable (hfits : w.Fits)
include hfits

theorem At.containing : w.containing (w.start + BitVec.ofNat 32 k) p = true := by
  rw [h.containing_iff hfits hat.split hat.snippet hat.lt_vector]
  have := hat.lt_length
  have := hat.index
  omega

theorem At.notContaining : ∀ q ∈ pre, w.containing (w.start + BitVec.ofNat 32 k) q = false :=
  h.notContaining hfits hat.split (hat.index ▸ Nat.le_add_right _ _) hat.lt_vector

theorem At.instructionAt : w.instructionAt (w.start + BitVec.ofNat 32 k) = some i := by
  have hfind : w.procedures.find? (w.containing (w.start + BitVec.ofNat 32 k)) = some p := by
    rw [hat.split, List.find?_append, List.find?_eq_none.mpr fun q hq => by simp [hat.notContaining h hfits q hq]]
    simp [hat.containing h hfits]
  have hbound := hfits.2 p (by simp [hat.split]) s hat.snippet
  have hj := hat.lt_length
  have hindex : w.start + BitVec.ofNat 32 k - s.start = BitVec.ofNat 32 j := by
    rw [h.start_eq hat.split hat.snippet, hat.index, BitVec.ofNat_add]
    bv_omega
  have hnat : (BitVec.ofNat 32 j).toNat = j := by
    rw [BitVec.toNat_ofNat]
    omega
  have hint : 0 ≤ (BitVec.ofNat 32 j).toInt := by
    rw [BitVec.toInt_eq_toNat_cond, hnat]
    split <;> omega
  have hsnippet : s.instructionAt (w.start + BitVec.ofNat 32 k) = some i := by
    simp only [CodeSnippet.instructionAt, hindex, hnat, if_pos hint, hat.getElem]
  simp only [World.instructionAt, hfind, Option.bind_some, hat.snippet, hsnippet]

end Located

/-- The first instruction of what follows. -/
theorem firstOfNonEmpty_eq (ps : List SnippetId) (hps : ∀ p ∈ ps, ∃ s, w.snippets p = some s) :
    w.firstOfNonEmpty ps = (ps.flatMap w.instructionsOf).head? := by
  induction ps with
  | nil => rfl
  | cons p ps ih =>
    obtain ⟨s, hs⟩ := hps p (by simp)
    have hrest := ih fun q hq => hps q (by simp [hq])
    rw [List.flatMap_cons, instructionsOf_eq hs]
    cases hl : s.instructions with
    | nil =>
      rw [List.nil_append, ← hrest]
      simp [firstOfNonEmpty, hs, hl]
    | cons i l => simp [firstOfNonEmpty, hs, hl, CodeSnippet.instructionAt]

/-- What follows the k-th instruction: the next one of its procedure, else the first one after that. -/
theorem At.next (hat : w.At k i pre p post s j) : w.instructionVector[k + 1]? =
    (s.instructions[j + 1]?).or (post.flatMap w.instructionsOf).head? := by
  have hlt := hat.lt_length
  have hvector : w.instructionVector =
      pre.flatMap w.instructionsOf ++ (s.instructions ++ post.flatMap w.instructionsOf) := by
    simp [instructionVector, hat.split, instructionsOf_eq hat.snippet]
  rw [hvector, hat.index, List.getElem?_append_right (by omega), Nat.add_assoc, Nat.add_sub_cancel_left]
  by_cases hj : j + 1 < s.instructions.length
  · simp [List.getElem?_append_left hj, hj]
  · have hend : j + 1 - s.instructions.length = 0 := by omega
    have hnone : s.instructions[j + 1]? = none := List.getElem?_eq_none (by omega)
    rw [List.getElem?_append_right (by omega), hend, hnone, List.head?_eq_getElem?]
    rfl

/-- Queries do not change where the instructions are. -/
theorem At.of_address {a : InstructionAddress} {q : InstructionId} (hat : w.At k i pre p post s j)
    (ha : w.address q = some (a, w')) : w'.At k i pre p post s j := by
  obtain rfl | ⟨ins, m, -, rfl⟩ := address_eq ha
  · exact hat
  · exact ⟨hat.split, hat.snippet, hat.getElem, hat.index⟩

theorem At.parent (h : w.Good) (hat : w.At k i pre p post s j) : (w.instructions i).bind (·.parent) = some p := by
  obtain ⟨ins, hi, hparent⟩ := h.valid.parent p s i hat.snippet (List.mem_of_getElem? hat.getElem)
  simp [hi, hparent]

theorem At.nextInstruction (h : w.Good) (hat : w.At k i pre p post s j) (hfits : w.Fits) :
    w.nextInstruction i = some w.instructionVector[k + 1]? := by
  obtain ⟨⟨a, w'⟩, ha, rfl⟩ := Option.map_eq_some_iff.mp (hat.addressOf h)
  obtain ⟨hgood, hsnippets, hprocedures, -⟩ := h.address ha
  have hat' := hat.of_address ha
  obtain ⟨⟨a', w''⟩, ha', haddr⟩ := Option.map_eq_some_iff.mp (hat'.addressOf hgood)
  obtain ⟨hgood', hsnippets', -, -⟩ := hgood.address ha'
  have hstart : w'.start = w.start := by
    obtain rfl | ⟨_, _, -, rfl⟩ := address_eq ha <;> rfl
  have hin : s.isInProgram = true := (h.valid.isInProgram_iff p s hat.snippet).mpr (by simp [hat.split])
  have hsame : w'.containing = w.containing := by
    funext a q
    simp [World.containing, hsnippets]
  -- the loop stops at the procedure of the instruction
  have hdrop : w'.procedures.dropWhile (!w'.containing (w.start + BitVec.ofNat 32 k) ·) = p :: post := by
    rw [hsame, hat'.split, List.dropWhile_append_of_pos fun q hq => by simp [hat.notContaining h hfits q hq]]
    exact List.dropWhile_cons_of_neg (by simp [hat.containing h hfits])
  have hindex : a' - s.start + 1 = BitVec.ofNat 32 (j + 1) := by
    have ha' : a' = w.start + BitVec.ofNat 32 k := hstart ▸ haddr
    rw [ha', h.start_eq hat.split hat.snippet, hat.index, BitVec.ofNat_add, BitVec.ofNat_add]
    bv_omega
  have hnat : (BitVec.ofNat 32 (j + 1)).toNat = j + 1 := by
    have := hat.lt_vector
    have := hat.index
    have := hfits.1
    rw [BitVec.toNat_ofNat]
    omega
  have hnext : w'.nextInSnippet p s i = some (s.instructions[j + 1]?, w'') := by
    simp only [nextInSnippet, hat'.parent hgood, if_true, ha', Option.map_some, hindex, hnat]
  have hfirst : w''.firstOfNonEmpty post = (post.flatMap w.instructionsOf).head? := by
    have hsnippets'' : w''.snippets = w.snippets := hsnippets'.trans hsnippets
    have hsame'' : w''.instructionsOf = w.instructionsOf := by
      funext q
      simp [instructionsOf, hsnippets'']
    rw [← hsame'']
    refine firstOfNonEmpty_eq post fun q hq => ?_
    obtain ⟨t, ht, -⟩ := h.valid.procedure q (by simp [hat.split, hq])
    exact ⟨t, hsnippets'' ▸ ht⟩
  rw [hat.next, ← hfirst]
  simp only [World.nextInstruction, hat.parent h, Option.any_some, hat.snippet, hin, if_true, ha, hdrop,
    hsnippets ▸ hat.snippet, hnext]
  cases s.instructions[j + 1]? <;> rfl

theorem Good.agrees (h : w.Good) (hfits : w.Fits) : w.Agrees := by
  have haddress : ∀ (k : Nat) i, w.instructionVector[k]? = some i → w.addressOf i = some (w.start + BitVec.ofNat 32 k) := by
    intro k i hk
    obtain ⟨pre, p, post, s, j, hat⟩ := h.located hk
    exact hat.addressOf h
  refine ⟨?_, haddress, ?_, ?_⟩
  · intro a hlow hhigh
    have hk : a.toNat - w.start.toNat < w.instructionVector.length := by omega
    have hback : w.start + BitVec.ofNat 32 (a.toNat - w.start.toNat) = a := by
      have := hfits.1
      bv_omega
    refine ⟨w.instructionVector[a.toNat - w.start.toNat], ⟨List.getElem_mem hk, ?_⟩, ?_⟩
    · rw [haddress _ _ (List.getElem?_eq_getElem hk), hback]
    · rintro i ⟨hi, ha⟩
      obtain ⟨k, hlt, rfl⟩ := List.getElem_of_mem hi
      rw [haddress k _ (List.getElem?_eq_getElem hlt)] at ha
      have heq : w.start + BitVec.ofNat 32 k = a := by simpa using ha
      have hbound := hfits.1
      have hkk : k = a.toNat - w.start.toNat := by bv_omega
      subst hkk
      rfl
  · intro k i hk
    obtain ⟨pre, p, post, s, j, hat⟩ := h.located hk
    exact hat.instructionAt h hfits
  · intro k i hk
    obtain ⟨pre, p, post, s, j, hat⟩ := h.located hk
    exact hat.nextInstruction h hfits

theorem Good.positions (h : w.Good) : w.Positions :=
  fun _ _ _ hs _ _ hi => h.valid.addressOf_eq hs hi

end Lookups

/-- After every sequence of sound edits of a program. -/
theorem addresses_contiguous (start : InstructionAddress) (edits : List Edit) (w : World)
    (hsound : SoundRun edits (empty start)) (hrun : run edits (empty start) = some w) :
    w.Contiguous ∧ w.Positions ∧ (w.Fits → w.Agrees) :=
  have hgood := good_run ⟨valid_empty start, trivial⟩ hsound hrun
  ⟨hgood.contiguous, hgood.positions, hgood.agrees⟩

theorem soundRun_of_forall {edits : List Edit} {w : World} (h : ∀ e ∈ edits, ∀ v, e.Sound v) : SoundRun edits w := by
  induction edits generalizing w with
  | nil => trivial
  | cons e edits ih => exact ⟨h e (by simp) w, fun _ _ => ih fun d hd => h d (by simp [hd])⟩

/-- Two procedures, 0 and 1, with an instruction each. -/
def twoProcedures : List Edit :=
  [.newCodeSnippet true 0, .newCodeSnippet true 0, .newInstruction, .newInstruction, .addProcedure 0, .addProcedure 1,
    .add 0 2, .add 1 3]

theorem addresses_contiguous_two : ∃ w, run twoProcedures (empty 16) = some w ∧ w.instructionVector = [2, 3] ∧
    w.Contiguous ∧ w.Positions ∧ (w.Fits → w.Agrees) :=
  ⟨_, rfl, rfl, addresses_contiguous 16 twoProcedures _ (soundRun_of_forall (by simp [twoProcedures, Edit.Sound])) rfl⟩

/-- **Exactly the sound edits keep the addresses contiguous**, after every sequence of them. -/
theorem contiguous_iff_sound (start : InstructionAddress) (edits : List Edit) (w w' : World) (e : Edit)
    (hsound : SoundRun edits (empty start)) (hrun : run edits (empty start) = some w)
    (hedit : (w.edit e).state? = some w') : w'.Contiguous ↔ e.Sound w :=
  (good_run ⟨valid_empty start, trivial⟩ hsound hrun).contiguous_edit_iff hedit

theorem contiguous_iff_sound_two : ∃ w w', run twoProcedures (empty 16) = some w ∧
    (w.edit (.removeLastInstruction 0)).state? = some w' ∧
      (w'.Contiguous ↔ Edit.Sound w (.removeLastInstruction 0)) :=
  ⟨_, _, rfl, rfl, contiguous_iff_sound 16 twoProcedures _ _ _
    (soundRun_of_forall (by simp [twoProcedures, Edit.Sound])) rfl rfl⟩

/-- Without its last instruction the first procedure ends at 16, but the second one stays at 17. -/
theorem not_addresses_contiguous : ¬∀ (start : InstructionAddress) (edits : List Edit) (w : World),
    run edits (empty start) = some w → w.Contiguous ∧ w.Positions ∧ w.Agrees := by
  intro h
  have hafter : (run (twoProcedures ++ [.removeLastInstruction 0]) (empty 16)).map
      (fun w => (w.start, w.procedures, w.extent 0, w.extent 1)) = some (16, [0, 1], some (16, 0), some (17, 1)) := rfl
  obtain ⟨w, hw, heq⟩ := Option.map_eq_some_iff.mp hafter
  simp only [Prod.mk.injEq] at heq
  obtain ⟨hstart, hprocedures, hfirst, hsecond⟩ := heq
  obtain ⟨n, hn, m, hm, -⟩ := (h 16 _ w hw).1.layout hprocedures
  obtain ⟨-, rfl⟩ : (16 : InstructionAddress) = w.start ∧ 0 = n := by simpa [hfirst] using hn
  simp [hsecond, hstart] at hm

end Tce.POM.World
