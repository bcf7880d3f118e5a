import Mathlib.Data.List.Perm.Basic
import Tce.POM.Addresses

/-!
# Edits keep the addresses contiguous

Three do not in general: `removeLastInstruction` forgets the procedures that follow,
`Program::setStartAddress` moves procedures up but never down, and the start address of
a registered procedure can be assigned.
-/

namespace Tce.POM.World

variable {w w' : World} {c cs p : SnippetId} {s s' : CodeSnippet} {i pos : InstructionId} {ins : Instruction}
  {l : List InstructionId} {d start : InstructionAddress}

section Frames

@[simp] theorem snippets_setParent (parent : Option SnippetId) : (w.setParent i parent).snippets = w.snippets := rfl

@[simp] theorem procedures_setInstructions : (w.setInstructions c l).procedures = w.procedures := rfl

@[simp] theorem snippets_deleteInstructions : (w.deleteInstructions l).snippets = w.snippets := by
  induction l generalizing w with
  | nil => rfl
  | cons i l ih => exact ih

@[simp] theorem procedures_deleteInstructions : (w.deleteInstructions l).procedures = w.procedures := by
  induction l generalizing w with
  | nil => rfl
  | cons i l ih => exact ih

@[simp] theorem start_deleteInstructions : (w.deleteInstructions l).start = w.start := by
  induction l generalizing w with
  | nil => rfl
  | cons i l ih => exact ih

theorem snippets_setInstructions (hs : w.snippets c = some s) :
    (w.setInstructions c l).snippets = Function.update w.snippets c (some { s with instructions := l }) := by
  simp [setInstructions, putSnippet, hs]

theorem Contiguous.congr (h : w.Contiguous) (hps : w'.procedures = w.procedures) (hstart : w'.start = w.start)
    (hother : ∀ p ∈ w.procedures, w'.extent p = w.extent p) : w'.Contiguous := by
  show Layout _ w'.start w'.procedures
  rw [hps, hstart]
  exact Layout.congr h hother

theorem Contiguous.layout {ps : List SnippetId} (h : w.Contiguous) (hps : w.procedures = ps) :
    Layout w.extent w.start ps := hps ▸ h

theorem Good.moveFollowing {t : CodeSnippet} (h : w.Good) (hv : w'.Valid) (hps : w'.procedures = w.procedures)
    (hstart : w'.start = w.start) (hs : w.snippets c = some s) (ht : w'.snippets c = some t)
    (hsame : t.start = s.start) (hother : ∀ p, p ≠ c → w'.snippets p = w.snippets p)
    (hd : BitVec.ofNat 32 t.instructions.length = BitVec.ofNat 32 s.instructions.length + d) :
    (w'.moveFollowing c d).Keeps Good := by
  rw [moveFollowing_eq hv ht]
  have hc : w.extent c = some (s.start, s.instructions.length) := by simp [extent, hs]
  have hc' : w'.extent c = some (s.start, t.instructions.length) := by simp [extent, ht, hsame]
  exact ⟨hv.shiftAll, h.contiguous.resize h.valid hps hstart hc hc' (fun p hp => by simp [extent, hother p hp]) hd⟩

end Frames

section Ownership

theorem Valid.mem_unique (h : w.Valid) (hs : w.snippets c = some s) (hi : i ∈ s.instructions)
    (hs' : w.snippets cs = some s') (hi' : i ∈ s'.instructions) : c = cs := by
  obtain ⟨x, hx, hc⟩ := h.parent c s i hs hi
  obtain ⟨y, hy, hcs⟩ := h.parent cs s' i hs' hi'
  obtain rfl : x = y := by simpa [hx] using hy
  simpa [hc] using hcs

theorem Valid.notMem_of_free (h : w.Valid) (hi : w.instructions i = some ins) (hfree : ins.parent = none)
    (hs : w.snippets c = some s) : i ∉ s.instructions := by
  intro hmem
  obtain ⟨x, hx, hc⟩ := h.parent c s i hs hmem
  obtain rfl : ins = x := by simpa [hi] using hx
  simp [hfree] at hc

theorem Valid.not_isInProgram (h : w.Valid) (hs : w.snippets c = some s) (hin : s.isInProgram = false) :
    c ∉ w.procedures := by
  intro hmem
  simp [(h.isInProgram_iff c s hs).mpr hmem] at hin

theorem Valid.isProcedure (h : w.Valid) (hs : w.snippets c = some s) (hin : c ∈ w.procedures) :
    s.isProcedure = true := by
  obtain ⟨t, ht, hproc⟩ := h.procedure c hin
  obtain rfl : s = t := by simpa [hs] using ht
  exact hproc

/-- A free instruction enters the list of a snippet. -/
theorem Valid.place (h : w.Valid) (hs : w.snippets c = some s) (hi : w.instructions i = some ins)
    (hfree : ins.parent = none) (hl : l.Perm (i :: s.instructions)) : (w.place c i l).Valid := by
  have hnot := h.notMem_of_free hi hfree hs
  have hparent : (w.setParent i (some c)).Valid :=
    h.putInstruction (fun _ => h.instruction_lt i ins hi) fun d t ht hmem => absurd hmem (h.notMem_of_free hi hfree ht)
  refine hparent.setInstructions (s := s) hs (hl.nodup_iff.mpr (List.nodup_cons.mpr ⟨hnot, h.nodup c s hs⟩)) ?_
  intro j hj
  obtain rfl | hj := List.mem_cons.mp (hl.mem_iff.mp hj)
  · exact ⟨{ ins with parent := some c }, by simp [setParent, World.putInstruction, hi], rfl⟩
  · have hne : j ≠ i := fun heq => hnot (heq ▸ hj)
    simpa [setParent, World.putInstruction, hne] using h.parent c s j hs hj

/-- Only instructions that no snippet has in its list are deleted. -/
theorem Valid.deleteInstructions (h : w.Valid)
    (hl : ∀ i ∈ l, ∀ c s, w.snippets c = some s → i ∉ s.instructions) : (w.deleteInstructions l).Valid := by
  induction l generalizing w with
  | nil => exact h
  | cons i l ih =>
    have hi : (w.putInstruction i none).Valid :=
      h.putInstruction (by simp) fun c s hs hmem => absurd hmem (hl i (by simp) c s hs)
    exact ih hi fun j hj => hl j (by simp [hj])

/-- Some of the instructions of a snippet are taken from its list. -/
theorem Valid.takeOut (h : w.Valid) (hs : w.snippets c = some s) (hl : l.Sublist s.instructions) :
    (w.setInstructions c l).Valid :=
  h.setInstructions hs (hl.nodup (h.nodup c s hs)) fun i hi => h.parent c s i hs (hl.subset hi)

/-- What is taken out of the list of a snippet is in no list. -/
theorem Valid.notMem_takenOut (h : w.Valid) (hs : w.snippets c = some s) (hi : i ∈ s.instructions) (hl : i ∉ l)
    {t : CodeSnippet} (ht : (w.setInstructions c l).snippets p = some t) : i ∉ t.instructions := by
  rw [snippets_setInstructions hs] at ht
  by_cases hp : p = c
  · subst hp
    obtain rfl : { s with instructions := l } = t := by simpa using ht
    exact hl
  · exact fun hmem => hp (h.mem_unique (by simpa [hp] using ht) hmem hs hi)

/-- A snippet changes its place in memory or in the program, but not its instructions. -/
theorem Valid.putSnippet {t : CodeSnippet} (h : w.Valid) {ps : List SnippetId} (hs : w.snippets p = some s) (hps : ps.Nodup)
    (hl : t.instructions = s.instructions) (hin : t.isInProgram = true ↔ p ∈ ps)
    (hproc : p ∈ ps → t.isProcedure = true) (hmem : ∀ c, c ≠ p → (c ∈ ps ↔ c ∈ w.procedures)) :
    Valid { w.putSnippet p (some t) with procedures := ps } := by
  have hat : ∀ c u, (w.putSnippet p (some t)).snippets c = some u →
      (c = p ∧ u = t) ∨ (c ≠ p ∧ w.snippets c = some u) := by
    intro c u hu
    by_cases hc : c = p
    · subst hc
      exact .inl ⟨rfl, by simpa [World.putSnippet, eq_comm] using hu⟩
    · exact .inr ⟨hc, by simpa [World.putSnippet, hc] using hu⟩
  refine ⟨hps, ?_, ?_, ?_, ?_, ?_, h.instruction_lt⟩
  · intro c u hu
    obtain ⟨rfl, rfl⟩ | ⟨hc, hu⟩ := hat c u hu
    · exact hin
    · exact (h.isInProgram_iff c u hu).trans (hmem c hc).symm
  · intro c hc
    by_cases hcp : c = p
    · subst hcp
      exact ⟨t, by simp [World.putSnippet], hproc hc⟩
    · obtain ⟨u, hu, huproc⟩ := h.procedure c ((hmem c hcp).mp hc)
      exact ⟨u, by simpa [World.putSnippet, hcp] using hu, huproc⟩
  · intro c u hu
    obtain ⟨rfl, rfl⟩ | ⟨-, hu⟩ := hat c u hu
    · exact hl ▸ h.nodup _ s hs
    · exact h.nodup c u hu
  · intro c u j hu hj
    obtain ⟨rfl, rfl⟩ | ⟨-, hu⟩ := hat c u hu
    · exact h.parent _ s j hs (hl ▸ hj)
    · exact h.parent c u j hu hj
  · intro c u hu
    obtain ⟨rfl, rfl⟩ | ⟨-, hu⟩ := hat c u hu
    · exact h.snippet_lt _ s hs
    · exact h.snippet_lt c u hu

end Ownership

section SingleInstruction

theorem keeps_withSnippet {f : CodeSnippet → Throwing World} {P : World → Prop}
    (h : ∀ s, w.snippets c = some s → (f s).Keeps P) : (w.withSnippet c f).Keeps P := by
  unfold withSnippet
  split
  · rename_i s hs
    exact h s hs
  · trivial

theorem keeps_withInstruction {f : Instruction → Throwing World} {P : World → Prop}
    (h : ∀ ins, w.instructions i = some ins → (f ins).Keeps P) : (w.withInstruction i f).Keeps P := by
  unfold withInstruction
  split
  · rename_i ins hi
    exact h ins hi
  · trivial

/-- An edit that adds an instruction has to be looked at for free instructions only. -/
theorem keeps_ifFree (h : w.Good) {f : CodeSnippet → Throwing World}
    (hf : ∀ s ins, w.snippets c = some s → w.instructions i = some ins → ins.parent = none → (f s).Keeps Good) :
    (w.ifFree c i f).Keeps Good := by
  refine keeps_withSnippet fun s hs => keeps_withInstruction fun ins hi => ?_
  split
  · exact h
  · exact hf s ins hs hi (by simp_all)

theorem Good.place (h : w.Good) (hs : w.snippets c = some s) (hi : w.instructions i = some ins)
    (hfree : ins.parent = none) (hl : l.Perm (i :: s.instructions)) :
    ((w.place c i l).moveFollowing c 1).Keeps Good := by
  have hsnippets : (w.place c i l).snippets = Function.update w.snippets c (some { s with instructions := l }) :=
    snippets_setInstructions (w := w.setParent i (some c)) hs
  refine h.moveFollowing (h.valid.place hs hi hfree hl) rfl rfl hs (t := { s with instructions := l })
    (by simp [hsnippets]) rfl (fun p hp => by simp [hsnippets, hp]) ?_
  simp [hl.length_eq, BitVec.ofNat_add]

/-- In a plain code snippet nothing is moved. -/
theorem Good.place_plain (h : w.Good) (hs : w.snippets c = some s) (hplain : s.isProcedure = false)
    (hi : w.instructions i = some ins) (hfree : ins.parent = none) (hl : l.Perm (i :: s.instructions)) :
    (Throwing.done (w.place c i l)).Keeps Good := by
  have hsnippets : (w.place c i l).snippets = Function.update w.snippets c (some { s with instructions := l }) :=
    snippets_setInstructions (w := w.setParent i (some c)) hs
  have hkeep := h.place hs hi hfree hl
  simpa [World.moveFollowing, withSnippet, hsnippets, hplain] using hkeep

theorem Good.add (h : w.Good) : (w.add c i).Keeps Good :=
  keeps_ifFree h fun s _ hs hi hfree => h.place hs hi hfree (List.perm_append_singleton i s.instructions)

theorem Good.addFront (h : w.Good) : (w.addFront c i).Keeps Good := by
  refine keeps_withSnippet fun s hs => ?_
  split
  · trivial
  · rename_i hplain
    refine keeps_ifFree h fun t ins ht hi hfree => ?_
    obtain rfl : s = t := by simpa [hs] using ht
    exact h.place_plain hs (by simpa using hplain) hi hfree (List.Perm.refl _)

theorem perm_insertedBefore : (insertedBefore pos i l).Perm (i :: l) :=
  List.perm_insertIdx i l List.idxOf_le_length

theorem perm_insertedAfter (h : pos ∈ l) : (insertedAfter pos i l).Perm (i :: l) :=
  List.perm_insertIdx i l (List.idxOf_lt_length_of_mem h)

theorem Good.insertBefore (h : w.Good) : (w.insertBefore c pos i).Keeps Good := by
  refine keeps_ifFree h fun s ins hs hi hfree => ?_
  split
  · exact h.place hs hi hfree perm_insertedBefore
  · trivial

/-- A query changes the cached position of an instruction only. -/
theorem address_eq {a : InstructionAddress} (h : w.address i = some (a, w')) :
    w' = w ∨ ∃ ins k, w.instructions i = some ins ∧
      w' = w.putInstruction i (some { ins with positionInProcedure := BitVec.ofNat 32 k }) := by
  unfold address at h
  split at h
  · cases h
  rename_i ins hins
  split at h
  · cases h
  split at h
  · cases h
  split at h
  · exact .inl (by simp_all)
  split at h
  · rename_i k _
    exact .inr ⟨ins, k, hins, by simp_all⟩
  · cases h

theorem Good.putPosition (h : w.Good) (hi : w.instructions i = some ins) (k : InstructionAddress) :
    (w.putInstruction i (some { ins with positionInProcedure := k })).Good := by
  refine ⟨h.valid.putInstruction (fun _ => h.valid.instruction_lt i ins hi) ?_, h.contiguous⟩
  intro c s hs hmem
  obtain ⟨x, hx, hc⟩ := h.valid.parent c s i hs hmem
  obtain rfl : ins = x := by simpa [hi] using hx
  exact ⟨_, rfl, hc⟩

/-- After a query the snippets are as before and every instruction has the parent it had. -/
theorem Good.address {a : InstructionAddress} (h : w.Good) (ha : w.address i = some (a, w')) :
    w'.Good ∧ w'.snippets = w.snippets ∧ w'.procedures = w.procedures ∧
      ∀ j, (w'.instructions j).map (·.parent) = (w.instructions j).map (·.parent) := by
  obtain rfl | ⟨ins, k, hi, rfl⟩ := address_eq ha
  · exact ⟨h, rfl, rfl, fun _ => rfl⟩
  · refine ⟨h.putPosition hi _, rfl, rfl, fun j => ?_⟩
    by_cases hj : j = i
    · subst hj
      simp [putInstruction, hi]
    · simp [putInstruction, hj]

theorem Good.nextInSnippet {r : Option InstructionId} (h : w.Good) (hr : w.nextInSnippet c s pos = some (r, w')) :
    w'.Good ∧ w'.snippets = w.snippets ∧ ∀ j, (w'.instructions j).map (·.parent) = (w.instructions j).map (·.parent) := by
  unfold World.nextInSnippet at hr
  split at hr
  · obtain ⟨⟨a, v⟩, ha, heq⟩ := Option.map_eq_some_iff.mp hr
    obtain ⟨-, rfl⟩ : _ ∧ v = w' := by simpa using heq
    obtain ⟨hgood, hsnippets, -, hparent⟩ := h.address ha
    exact ⟨hgood, hsnippets, hparent⟩
  · cases hr

theorem Good.insertAfter (h : w.Good) : (w.insertAfter c pos i).Keeps Good := by
  refine keeps_ifFree h fun s ins hs hi hfree => ?_
  split
  · split
    · rename_i hpos
      split
      · exact h.place hs hi hfree (perm_insertedAfter hpos)
      · exact h.add
    · exact h
  · rename_i hplain
    split
    · exact h
    · rename_i w' hnext
      exact (h.nextInSnippet hnext).1.add
    · rename_i next w' hnext
      obtain ⟨hgood, hsnippets, hparent⟩ := h.nextInSnippet hnext
      split
      · obtain ⟨x, hx, hnone⟩ : ∃ x, w'.instructions i = some x ∧ x.parent = none := by
          simpa [hi, hfree] using hparent i
        exact hgood.place_plain (hsnippets ▸ hs) (by simpa using hplain) hx hnone perm_insertedBefore
      · trivial

theorem erase_length_add_one {l : List InstructionId} (hi : i ∈ l) :
    BitVec.ofNat 32 (l.erase i).length = BitVec.ofNat 32 l.length + -1 := by
  have hlen := List.length_erase_add_one hi
  have hsum : BitVec.ofNat 32 l.length = BitVec.ofNat 32 (l.erase i).length + 1 := by
    rw [← hlen, BitVec.ofNat_add]
    rfl
  rw [hsum]
  bv_omega

/-- The instruction is gone from the list and has no parent. -/
theorem Valid.removed (h : w.Valid) (hs : w.snippets c = some s) (hi : w.instructions i = some ins)
    (hmem : i ∈ s.instructions) : ((w.setInstructions c (s.instructions.erase i)).setParent i none).Valid :=
  (h.takeOut hs List.erase_sublist).putInstruction (fun _ => h.instruction_lt i ins hi)
    fun _ _ ht hin => absurd hin (h.notMem_takenOut hs hmem (h.nodup c s hs).not_mem_erase ht)

theorem Good.remove (h : w.Good) : (w.remove c i).Keeps Good := by
  refine keeps_withSnippet fun s hs => keeps_withInstruction fun ins hi => ?_
  split
  · exact h
  split
  · trivial
  split
  · rename_i hmem
    have hsnippets := snippets_setInstructions (l := s.instructions.erase i) hs
    simp only
    split
    · rename_i hout
      have hfree := h.valid.not_isInProgram hs (by simp_all)
      refine ⟨h.valid.takeOut hs List.erase_sublist, h.contiguous.congr rfl rfl fun p hp => ?_⟩
      have hne : p ≠ c := fun heq => hfree (heq ▸ hp)
      simp [extent, hsnippets, hne]
    · exact h.moveFollowing (h.valid.removed hs hi hmem) rfl rfl hs
        (t := { s with instructions := s.instructions.erase i }) (by simp [hsnippets]) rfl
        (fun p hp => by simp [hsnippets, hp]) (erase_length_add_one hmem)
  · exact h

theorem Good.clear (h : w.Good) : (w.clear c).Keeps Good := by
  refine keeps_withSnippet fun s hs => ?_
  have hsnippets := snippets_setInstructions (l := []) hs
  have hvalid : ((w.setInstructions c []).deleteInstructions s.instructions).Valid :=
    (h.valid.takeOut hs (List.nil_sublist _)).deleteInstructions fun i hi d t ht =>
      h.valid.notMem_takenOut hs hi (List.not_mem_nil) ht
  refine h.moveFollowing hvalid (by simp) (by simp; rfl) hs (t := { s with instructions := [] })
    (by simp [hsnippets]) rfl (fun p hp => by simp [hsnippets, hp]) ?_
  simp [← BitVec.sub_eq_add_neg]

theorem CodeSnippet.mem_of_instructionAt {a : InstructionAddress} (h : s.instructionAt a = some i) :
    i ∈ s.instructions := by
  simp only [CodeSnippet.instructionAt] at h
  split at h
  · exact List.mem_of_getElem? h
  · cases h

/-- An instruction that is removed is in no list afterwards. -/
theorem notMem_of_remove (h : w.Good) (hs : w.snippets c = some s) (hi : i ∈ s.instructions)
    (hdone : w.remove c i = .done w') (t : CodeSnippet) (ht : w'.snippets p = some t) : i ∉ t.instructions := by
  obtain ⟨ins, hins, hc⟩ := h.valid.parent c s i hs hi
  have hnot : i ∉ s.instructions.erase i := (h.valid.nodup c s hs).not_mem_erase
  have hsnippets := snippets_setInstructions (l := s.instructions.erase i) hs
  have hmove := moveFollowing_eq (c := c) (d := -1) (h.valid.removed hs hins hi)
    (s := { s with instructions := s.instructions.erase i }) (by simp [hsnippets])
  have hne : s.instructions.isEmpty = false := by simpa using List.ne_nil_of_mem hi
  simp only [World.remove, withSnippet, withInstruction, hs, hins, hc, hi, ne_eq, not_true_eq_false, if_false,
    if_true, hne, Bool.and_false, Bool.false_eq_true, hmove] at hdone
  split at hdone
  · cases hdone
  · cases hdone
    obtain ⟨u, hu, heq⟩ : ∃ u, (w.setInstructions c (s.instructions.erase i)).snippets p = some u ∧
        u.instructions = t.instructions := by
      simp only [shiftAll, snippets_setParent] at ht
      split at ht
      · obtain ⟨u, hu, rfl⟩ := Option.map_eq_some_iff.mp ht
        exact ⟨u, hu, rfl⟩
      · exact ⟨t, ht, rfl⟩
    exact heq ▸ h.valid.notMem_takenOut hs hi hnot hu

theorem Good.deleteInstructionAt {a : InstructionAddress} (h : w.Good) : (w.deleteInstructionAt c a).Keeps Good := by
  refine keeps_withSnippet fun s hs => ?_
  split
  · exact h
  · rename_i i hi
    have hmem := CodeSnippet.mem_of_instructionAt hi
    have hkeep : (w.remove c i).Keeps Good := h.remove
    split
    · rename_i w' hdone
      have hgood : w'.Good := by rwa [hdone] at hkeep
      refine ⟨hgood.valid.putInstruction (by simp) fun d t ht hin => ?_, hgood.contiguous⟩
      exact absurd hin (notMem_of_remove h hs hmem hdone t ht)
    · trivial

end SingleInstruction

section WholeSnippet

theorem Good.newInstruction (h : w.Good) : w.newInstruction.Good := by
  have hlt {c s} (hs : w.snippets c = some s) : w.next ∉ s.instructions := fun hmem => by
    obtain ⟨x, hx, -⟩ := h.valid.parent c s w.next hs hmem
    exact absurd (h.valid.instruction_lt _ x hx) (Nat.lt_irrefl _)
  refine ⟨⟨h.valid.nodup_procedures, h.valid.isInProgram_iff, h.valid.procedure, h.valid.nodup, ?_, ?_, ?_⟩, h.contiguous⟩
  · intro c s i hs hi
    have hne : i ≠ w.next := fun heq => hlt hs (heq ▸ hi)
    simpa [World.newInstruction, putInstruction, hne] using h.valid.parent c s i hs hi
  · intro c s hs
    exact Nat.lt_succ_of_lt (h.valid.snippet_lt c s hs)
  · intro i ins hi
    by_cases hne : i = w.next
    · exact hne ▸ Nat.lt_succ_self _
    · refine Nat.lt_succ_of_lt (h.valid.instruction_lt i ins ?_)
      simpa [World.newInstruction, putInstruction, hne] using hi

theorem Good.newCodeSnippet {isProcedure : Bool} (h : w.Good) : (w.newCodeSnippet isProcedure start).Good := by
  have hnot : w.next ∉ w.procedures := fun hmem => by
    obtain ⟨s, hs, -⟩ := h.valid.procedure _ hmem
    exact absurd (h.valid.snippet_lt _ s hs) (Nat.lt_irrefl _)
  have hat : ∀ c s, (w.newCodeSnippet isProcedure start).snippets c = some s →
      (c = w.next ∧ s.isInProgram = false ∧ s.instructions = []) ∨ w.snippets c = some s := by
    intro c s hs
    by_cases hc : c = w.next
    · subst hc
      obtain rfl : { isProcedure := isProcedure, start := start } = s := by
        simpa [World.newCodeSnippet, putSnippet] using hs
      exact .inl ⟨rfl, rfl, rfl⟩
    · exact .inr (by simpa [World.newCodeSnippet, putSnippet, hc] using hs)
  have hsame : ∀ c ∈ w.procedures, (w.newCodeSnippet isProcedure start).snippets c = w.snippets c := by
    intro c hc
    have hne : c ≠ w.next := fun heq => hnot (heq ▸ hc)
    simp [World.newCodeSnippet, putSnippet, hne]
  refine ⟨⟨h.valid.nodup_procedures, ?_, ?_, ?_, ?_, ?_, ?_⟩, h.contiguous.congr rfl rfl ?_⟩
  · intro c s hs
    obtain ⟨rfl, hin, -⟩ | hs := hat c s hs
    · simp only [hin, Bool.false_eq_true, false_iff]
      exact hnot
    · exact h.valid.isInProgram_iff c s hs
  · intro c hc
    simpa [hsame c hc] using h.valid.procedure c hc
  · intro c s hs
    obtain ⟨-, -, hnil⟩ | hs := hat c s hs
    · simp [hnil]
    · exact h.valid.nodup c s hs
  · intro c s i hs hi
    obtain ⟨-, -, hnil⟩ | hs := hat c s hs
    · simp [hnil] at hi
    · exact h.valid.parent c s i hs hi
  · intro c s hs
    obtain ⟨rfl, -⟩ | hs := hat c s hs
    · exact Nat.lt_succ_self _
    · exact Nat.lt_succ_of_lt (h.valid.snippet_lt c s hs)
  · intro i ins hi
    exact Nat.lt_succ_of_lt (h.valid.instruction_lt i ins hi)
  · intro p hp
    simp [extent, hsame p hp]

theorem Good.deleteSnippet (h : w.Good) : (w.deleteSnippet cs).Keeps Good := by
  refine keeps_withSnippet fun s hs => ?_
  split
  · trivial
  rename_i hin
  have hnot := h.valid.not_isInProgram hs (by simpa using hin)
  have hat : ∀ c t, (w.putSnippet cs none).snippets c = some t → c ≠ cs ∧ w.snippets c = some t := by
    intro c t ht
    by_cases hc : c = cs
    · subst hc
      simp [putSnippet] at ht
    · exact ⟨hc, by simpa [putSnippet, hc] using ht⟩
  have hsame : ∀ c ∈ w.procedures, (w.putSnippet cs none).snippets c = w.snippets c := by
    intro c hc
    have hne : c ≠ cs := fun heq => hnot (heq ▸ hc)
    simp [putSnippet, hne]
  have hvalid : (w.putSnippet cs none).Valid := by
    refine ⟨h.valid.nodup_procedures, ?_, ?_, ?_, ?_, ?_, h.valid.instruction_lt⟩
    · exact fun c t ht => h.valid.isInProgram_iff c t (hat c t ht).2
    · intro c hc
      simpa [hsame c hc] using h.valid.procedure c hc
    · exact fun c t ht => h.valid.nodup c t (hat c t ht).2
    · exact fun c t i ht hi => h.valid.parent c t i (hat c t ht).2 hi
    · exact fun c t ht => h.valid.snippet_lt c t (hat c t ht).2
  refine ⟨hvalid.deleteInstructions fun i hi c t ht hin => ?_, h.contiguous.congr (by simp; rfl) (by simp; rfl) ?_⟩
  · obtain ⟨hne, ht⟩ := hat c t ht
    exact hne (h.valid.mem_unique ht hin hs hi)
  · intro p hp
    simp [extent, hsame p hp]

variable {insert : InstructionId → World → Throwing World}

theorem keeps_copyThen (hinsert : ∀ i v, Good v → (insert i v).Keeps Good) (k : Nat) (w : World) (h : w.Good) :
    (copyThen cs insert k w).Keeps Good := by
  refine keeps_withSnippet fun s hs => ?_
  split
  · exact hinsert _ _ h.newInstruction
  · trivial

theorem keeps_moveThen (hinsert : ∀ i v, Good v → (insert i v).Keeps Good) (k : Nat) (w : World) (h : w.Good) :
    (moveThen cs insert k w).Keeps Good := by
  refine keeps_withSnippet fun s hs => ?_
  split
  · exact h.remove.andThen fun v hv => hinsert _ v hv
  · trivial

theorem keeps_copyEach (hinsert : ∀ i v, Good v → (insert i v).Keeps Good) (h : w.Good) :
    (copyEach c cs insert w).Keeps Good := by
  refine keeps_withSnippet fun s hs => ?_
  split
  · trivial
  · exact Throwing.keeps_forEach (keeps_copyThen hinsert) _ h

theorem keeps_copyEachFromLast (hinsert : ∀ i v, Good v → (insert i v).Keeps Good) (h : w.Good) :
    (copyEachFromLast cs insert w).Keeps Good :=
  keeps_withSnippet fun _ _ => Throwing.keeps_forEach (keeps_copyThen hinsert) _ h

theorem keeps_moveEach (hinsert : ∀ i v, Good v → (insert i v).Keeps Good) (h : w.Good) :
    (moveEach cs insert w).Keeps Good :=
  keeps_withSnippet fun _ _ =>
    (Throwing.keeps_forEach (keeps_moveThen hinsert) _ h).andThen fun _ hv => hv.deleteSnippet

theorem keeps_moveEachFromLast (hinsert : ∀ i v, Good v → (insert i v).Keeps Good) (h : w.Good) :
    (moveEachFromLast cs insert w).Keeps Good :=
  keeps_withSnippet fun _ _ =>
    (Throwing.keeps_forEach (keeps_moveThen hinsert) _ h).andThen fun _ hv => hv.deleteSnippet

end WholeSnippet

section Procedures

theorem Good.addInstruction (h : w.Good) : (w.addInstruction i).Keeps Good := by
  unfold World.addInstruction
  split
  · exact h
  · exact h.add

theorem Good.addProcedure (h : w.Good) : (w.addProcedure p).Keeps Good := by
  refine keeps_withSnippet fun s hs => ?_
  split
  · trivial
  split
  · exact h
  rename_i hproc hin
  have hnot := h.valid.not_isInProgram hs (by simpa using hin)
  have hnodup : (w.procedures ++ [p]).Nodup :=
    (List.perm_append_singleton p w.procedures).nodup_iff.mpr (List.nodup_cons.mpr ⟨hnot, h.valid.nodup_procedures⟩)
  have hother : ∀ start, ∀ q ∈ w.procedures,
      (w.putSnippet p (some { s with isInProgram := true, start := start })).extent q = w.extent q := by
    intro start q hq
    have hne : q ≠ p := fun heq => hnot (heq ▸ hq)
    simp [extent, putSnippet, hne]
  refine ⟨h.valid.putSnippet hs hnodup rfl (by simp) (fun _ => by simpa using hproc) fun c hc => by simp [hc], ?_⟩
  show Layout (World.extent (w.putSnippet p _)) w.start (w.procedures ++ [p])
  obtain hnil | ⟨pre, q, hlast⟩ := List.eq_nil_or_concat w.procedures
  · rw [hnil]
    exact ⟨s.instructions.length, by simp [extent, putSnippet, lastProcedure, hnil], trivial⟩
  · obtain ⟨t, ht, -⟩ := h.valid.procedure q (by simp [hlast])
    rw [List.concat_eq_append] at hlast
    rw [hlast]
    refine Layout.concat ((h.contiguous.layout hlast).congr fun r hr => hother _ r (by simpa [hlast] using hr))
      ((hother _ q (by simp [hlast])).trans (by simp [extent, ht]; exact ⟨rfl, rfl⟩)) (n := s.instructions.length) ?_
    simp [extent, putSnippet, lastProcedure, hlast, ht, CodeSnippet.endAddress]

theorem Good.removeProcedure (h : w.Good) : (w.removeProcedure p).Keeps Good := by
  refine keeps_withSnippet fun s hs => ?_
  split
  · exact h
  rename_i hin
  split
  · trivial
  rw [moveFollowing_eq h.valid hs]
  have hmem : p ∈ w.procedures := (h.valid.isInProgram_iff p s hs).mp (by simpa using hin)
  obtain ⟨pre, post, hsplit⟩ := List.append_of_mem hmem
  have hnodup := h.valid.nodup_procedures
  rw [hsplit] at hnodup
  obtain ⟨-, hpost, hdisjoint⟩ := List.nodup_append.mp hnodup
  have hcpost : p ∉ post := (List.nodup_cons.mp hpost).1
  have hcpre : p ∉ pre := fun hm => hdisjoint p hm p (by simp) rfl
  have hfollow := following_append hsplit hcpre
  have herase : w.procedures.erase p = pre ++ post := by simp [hsplit, List.erase_append_right _ hcpre]
  have hshifted : (w.shiftAll (w.following p) (s.start - s.endAddress)).snippets p = some s := by
    simp [shiftAll, hfollow, hcpost, hs]
  refine ⟨?_, ?_⟩
  · have hgone : p ∉ w.procedures.erase p := h.valid.nodup_procedures.not_mem_erase
    exact h.valid.shiftAll.putSnippet hshifted (h.valid.nodup_procedures.erase p) rfl (by simpa [shiftAll] using hgone)
      (fun hin => absurd hin hgone) fun c hc => List.mem_erase_of_ne hc
  · show Layout _ w.start (w.procedures.erase p)
    rw [herase]
    have hextent : w.extent p = some (s.start, s.instructions.length) := by simp [extent, hs]
    refine Layout.erase (h.contiguous.layout hsplit) hextent ?_ ?_
    · intro q hq
      have hne : q ≠ p := fun heq => hcpre (heq ▸ hq)
      have hnot : q ∉ post := fun hm => hdisjoint q hq q (by simp [hm]) rfl
      simp [extent, putSnippet, shiftAll, hne, hfollow, hnot]
    · intro q hq
      have hne : q ≠ p := fun heq => hcpost (heq ▸ hq)
      have hdiff : s.start - s.endAddress = -BitVec.ofNat 32 s.instructions.length := by
        simp only [CodeSnippet.endAddress]
        bv_omega
      simp [extent, putSnippet, shiftAll, hne, hfollow, hq, hdiff, BitVec.sub_eq_add_neg, Function.comp_def]

end Procedures

section Assignments

theorem Valid.setStart (h : w.Valid) : Valid { w with start := start } :=
  ⟨h.nodup_procedures, h.isInProgram_iff, h.procedure, h.nodup, h.parent, h.snippet_lt, h.instruction_lt⟩

/-- The first procedure is at the start address, so the procedures are moved if that is lower. -/
theorem setStartAddress_eq (h : w.Good) : w.setStartAddress start =
    if w.start < start then World.shiftAll w.procedures (start - w.start) { w with start := start }
    else { w with start := start } := by
  unfold World.setStartAddress
  cases hps : w.procedures with
  | nil => simp [shiftAll]
  | cons p ps =>
    obtain ⟨n, hp, -⟩ := h.contiguous.layout hps
    obtain ⟨s, hs, hfirst, -⟩ : ∃ s, w.snippets p = some s ∧ s.start = w.start ∧ s.instructions.length = n := by
      simpa [extent] using hp
    have hnodup : (p :: ps).Nodup := hps ▸ h.valid.nodup_procedures
    simp only [List.head?_cons, hs, hfirst, moveProcedure]
    rw [List.dropWhile_cons_of_neg (by simp), foldl_shift hnodup]

/-- The program may start later, but not earlier. -/
theorem Good.setStartAddress (h : w.Good) (hstart : w.procedures = [] ∨ w.start ≤ start) :
    (w.setStartAddress start).Good := by
  rw [setStartAddress_eq h]
  split
  · refine ⟨h.valid.setStart.shiftAll, ?_⟩
    have hback : w.start + (start - w.start) = start := by bv_omega
    have hshift := Layout.shift (f := World.extent (World.shiftAll w.procedures (start - w.start) { w with start := start }))
      (d := start - w.start) h.contiguous fun p hp => by simp [extent, shiftAll, hp, Function.comp_def]
    rwa [hback] at hshift
  · rename_i hlt
    refine ⟨h.valid.setStart, ?_⟩
    obtain hnil | hle := hstart
    · show Layout _ start w.procedures
      rw [hnil]
      trivial
    · obtain rfl : w.start = start := by bv_omega
      exact h.contiguous

/-- Only the last procedure, or one that is in no program, may lose its last instruction so. -/
theorem Good.removeLastInstruction (h : w.Good)
    (hlast : ∀ s, w.snippets c = some s → s.instructions = [] ∨ s.isInProgram = false ∨ w.lastProcedure = some c) :
    (w.removeLastInstruction c).Keeps Good := by
  refine keeps_withSnippet fun s hs => ?_
  have hsnippets := snippets_setInstructions (l := s.instructions.dropLast) hs
  refine ⟨h.valid.takeOut hs (List.dropLast_sublist _), ?_⟩
  have hself : (w.setInstructions c s.instructions.dropLast).extent c = some (s.start, s.instructions.dropLast.length) := by
    simp [extent, hsnippets]
  have hother : ∀ p, p ≠ c → (w.setInstructions c s.instructions.dropLast).extent p = w.extent p :=
    fun p hp => by simp [extent, hsnippets, hp]
  obtain hnil | hin | hlast := hlast s hs
  · refine h.contiguous.congr rfl rfl fun p _ => ?_
    by_cases hp : p = c
    · subst hp
      rw [hself]
      simp [extent, hs, hnil]
    · exact hother p hp
  · refine h.contiguous.congr rfl rfl fun p hp => hother p fun heq => ?_
    exact h.valid.not_isInProgram hs hin (heq ▸ hp)
  · obtain ⟨pre, hsplit⟩ : ∃ pre, w.procedures = pre ++ [c] := List.getLast?_eq_some_iff.mp hlast
    have hnodup := h.valid.nodup_procedures
    rw [hsplit] at hnodup
    have hcpre : c ∉ pre := fun hm => (List.nodup_append.mp hnodup).2.2 c hm c (by simp) rfl
    have hc : w.extent c = some (s.start, s.instructions.length) := by simp [extent, hs]
    show Layout _ w.start w.procedures
    rw [hsplit]
    refine Layout.resize (d := BitVec.ofNat 32 s.instructions.dropLast.length - BitVec.ofNat 32 s.instructions.length)
      (h.contiguous.layout hsplit) hc hself (by bv_omega)
      (fun p hp => hother p fun heq => hcpre (heq ▸ hp)) (by simp)

theorem Good.setSnippetStart (h : w.Good)
    (hstart : ∀ s, w.snippets c = some s → s.isInProgram = false ∨ s.start = start) :
    (w.setSnippetStart c start).Keeps Good := by
  refine keeps_withSnippet fun s hs => ⟨?_, h.contiguous.congr rfl rfl fun p hp => ?_⟩
  · exact h.valid.putSnippet (t := { s with start := start }) hs h.valid.nodup_procedures rfl (h.valid.isInProgram_iff c s hs)
      (h.valid.isProcedure (s := s) hs) fun _ _ => Iff.rfl
  · by_cases hpc : p = c
    · subst hpc
      obtain hin | hsame := hstart s hs
      · exact absurd hp (h.valid.not_isInProgram hs hin)
      · simp [extent, putSnippet, hs, hsame]
    · simp [extent, putSnippet, hpc]

end Assignments

end Tce.POM.World
