import Tce.POM.LabelLookups

/-!
# Labels of a removed instruction

`Procedure::remove` looks for the labels to remove by the address the instruction had, when the
instruction has left the list and the one after it is at that address.
-/

namespace Tce.POM

namespace World
variable {w : World} {c p q : SnippetId} {s t : CodeSnippet} {i j : InstructionId} {k : Nat}

theorem toNat_add_ofNat {a : InstructionAddress} (h : a.toNat + k < 2 ^ 32) :
    (a + BitVec.ofNat 32 k).toNat = a.toNat + k := by
  rw [BitVec.toNat_add, BitVec.toNat_ofNat]
  omega

theorem Good.end_lt (h : w.Good) (hfits : w.Fits) (hc : c ∈ w.procedures) (hs : w.snippets c = some s) :
    s.start.toNat + s.instructions.length < 2 ^ 32 := by
  obtain ⟨pre, post, hsplit⟩ := List.append_of_mem hc
  have hstart := (h.start_toNat hfits hsplit hs).1
  have hle := offset_le hsplit hs
  have hlt := hfits.1
  omega

/-- Of two procedures of a program one is over before the other starts. -/
theorem Good.disjoint (h : w.Good) (hfits : w.Fits) (hc : c ∈ w.procedures) (hs : w.snippets c = some s)
    (hq : q ∈ w.procedures) (ht : w.snippets q = some t) (hne : q ≠ c) :
    t.start.toNat + t.instructions.length ≤ s.start.toNat ∨ s.start.toNat + s.instructions.length ≤ t.start.toNat := by
  obtain ⟨pre, post, hsplit⟩ := List.append_of_mem hc
  have hstart := (h.start_toNat hfits hsplit hs).1
  have hmem : q ∈ pre ∨ q ∈ post := by
    rw [hsplit, List.mem_append, List.mem_cons] at hq
    rcases hq with hq | rfl | hq
    · exact .inl hq
    · exact absurd rfl hne
    · exact .inr hq
  rcases hmem with hmem | hmem
  · left
    obtain ⟨before, between, rfl⟩ := List.append_of_mem hmem
    have hsplit' : w.procedures = before ++ q :: (between ++ c :: post) := by simp [hsplit]
    have hstart' := (h.start_toNat hfits hsplit' ht).1
    have hlength : ((before ++ q :: between).flatMap w.instructionsOf).length =
        (before.flatMap w.instructionsOf).length + (t.instructions.length + (between.flatMap w.instructionsOf).length) := by
      simp [instructionsOf_eq ht]
    omega
  · right
    obtain ⟨between, after, rfl⟩ := List.append_of_mem hmem
    have hsplit' : w.procedures = (pre ++ c :: between) ++ q :: after := by simp [hsplit]
    have hstart' := (h.start_toNat hfits hsplit' ht).1
    have hlength : ((pre ++ c :: between).flatMap w.instructionsOf).length =
        (pre.flatMap w.instructionsOf).length + (s.instructions.length + (between.flatMap w.instructionsOf).length) := by
      simp [instructionsOf_eq hs]
    omega

theorem mem_instructionVector : i ∈ w.instructionVector ↔ ∃ p ∈ w.procedures, ∃ s, w.snippets p = some s ∧ i ∈ s.instructions := by
  rw [instructionVector, List.mem_flatMap]
  constructor
  · rintro ⟨p, hp, hmem⟩
    cases hs : w.snippets p with
    | none => simp [instructionsOf, hs] at hmem
    | some s => exact ⟨p, hp, s, hs, instructionsOf_eq hs ▸ hmem⟩
  · rintro ⟨p, hp, s, hs, hmem⟩
    exact ⟨p, hp, instructionsOf_eq hs ▸ hmem⟩

theorem instructionVector_shiftAll {l : List SnippetId} {d : InstructionAddress} :
    (w.shiftAll l d).instructionVector = w.instructionVector := by
  have hof : (w.shiftAll l d).instructionsOf = w.instructionsOf := by
    funext p
    by_cases hp : p ∈ l
    · cases hs : w.snippets p <;> simp [instructionsOf, shiftAll, hp, hs]
    · simp [instructionsOf, shiftAll, hp]
  rw [instructionVector, instructionVector, hof]
  rfl

/-- Taking one instruction from the list of its procedure takes it from the program. -/
theorem mem_vector_erased {pre post : List InstructionId} (h : w.Good) (hc : c ∈ w.procedures)
    (hs : w.snippets c = some s) (hsplit : s.instructions = pre ++ i :: post) :
    j ∈ ((w.setInstructions c (pre ++ post)).setParent i none).instructionVector ↔ j ∈ w.instructionVector ∧ j ≠ i := by
  have hsnippets := snippets_setInstructions (l := pre ++ post) hs
  have hnodup := h.valid.nodup c s hs
  rw [hsplit] at hnodup
  have hnot : i ∉ pre ++ post := (List.nodup_cons.mp (List.perm_middle.nodup_iff.mp hnodup)).1
  rw [mem_instructionVector, mem_instructionVector, snippets_setParent, hsnippets]
  constructor
  · rintro ⟨p, hp, t, ht, hmem⟩
    by_cases hpc : p = c
    · subst hpc
      rw [Function.update_self] at ht
      cases ht
      refine ⟨⟨p, hp, s, hs, ?_⟩, fun heq => hnot (heq ▸ hmem)⟩
      rw [hsplit]
      exact ((List.sublist_cons_self i post).append_left pre).subset hmem
    · rw [Function.update_of_ne hpc] at ht
      refine ⟨⟨p, hp, t, ht, hmem⟩, ?_⟩
      rintro rfl
      exact hpc (h.valid.mem_unique ht hmem hs (by simp [hsplit]))
  · rintro ⟨⟨p, hp, t, ht, hmem⟩, hji⟩
    by_cases hpc : p = c
    · subst hpc
      rw [hs] at ht
      cases ht
      refine ⟨p, hp, _, Function.update_self .., ?_⟩
      rw [hsplit] at hmem
      simpa [hji] using hmem
    · exact ⟨p, hp, t, by rw [Function.update_of_ne hpc, ht], hmem⟩

end World

section Erased
variable {w : World} {c : SnippetId} {s : CodeSnippet} {i : InstructionId} {pre post : List InstructionId}
  {label : CodeLabel}

theorem erase_split (hnodup : s.instructions.Nodup) (hsplit : s.instructions = pre ++ i :: post) :
    s.instructions.erase i = pre ++ post ∧ s.instructions.idxOf i = pre.length := by
  rw [hsplit] at hnodup ⊢
  have hnot : i ∉ pre := by
    intro hmem
    exact (List.nodup_append.mp hnodup).2.2 i hmem i List.mem_cons_self rfl
  rw [List.erase_append_right _ hnot, List.erase_cons_head, List.idxOf_append_of_notMem hnot, List.idxOf_cons_self]
  exact ⟨rfl, Nat.add_zero _⟩

variable (h : w.Good) (hfits : w.Fits) (hc : c ∈ w.procedures) (hs : w.snippets c = some s)
  (hsplit : s.instructions = pre ++ i :: post)
include h hfits hc hs hsplit

omit hfits hc in
/-- Without its place in the list an instruction has no address. -/
theorem address_erased (htarget : label.target = .instruction i) :
    label.address (w.setInstructions c (pre ++ post)) = none := by
  have hnodup := h.valid.nodup c s hs
  obtain ⟨ins, hins, hparent⟩ := h.valid.parent c s i hs (by simp [hsplit])
  rw [hsplit] at hnodup
  obtain ⟨-, hpost, hdisjoint⟩ := List.nodup_append.mp hnodup
  have hnot : i ∉ pre ++ post := by
    rw [List.mem_append]
    rintro (hmem | hmem)
    · exact hdisjoint i hmem i List.mem_cons_self rfl
    · exact (List.nodup_cons.mp hpost).1 hmem
  have hsnippet : (w.setInstructions c (pre ++ post)).snippets c = some { s with instructions := pre ++ post } := by
    simp [World.snippets_setInstructions hs]
  have hins' : (w.setInstructions c (pre ++ post)).instructions i = some ins := hins
  have hnone : (pre ++ post).idxOf? i = none := by
    rw [List.idxOf?_eq_none_iff]
    exact hnot
  have hcached : (pre ++ post)[ins.positionInProcedure.toNat]? ≠ some i := fun heq => hnot (List.mem_of_getElem? heq)
  simp only [CodeLabel.address, htarget, World.addressOf, World.address, hins', hparent, hsnippet, hcached, hnone,
    and_false, if_false, Option.map_none]

/-- What is at the address of the instruction when it is out of the list. -/
theorem address_after_erase (hlive : label.IsLive w) (hne : label.target ≠ .instruction i) :
    label.address (w.setInstructions c (pre ++ post)) ≠ none ∧
      (label.address (w.setInstructions c (pre ++ post)) = some (s.start + BitVec.ofNat 32 pre.length) ↔
        (∃ j rest, label.target = .instruction j ∧ post = j :: rest) ∨
          ∃ q ∈ w.procedures, ∃ t, label.target = .procedure q ∧ w.snippets q = some t ∧
            t.start = s.start + BitVec.ofNat 32 pre.length) := by
  have hvalid : (w.setInstructions c (pre ++ post)).Valid := by
    apply h.valid.takeOut hs
    rw [hsplit]
    exact (List.sublist_cons_self i post).append_left pre
  have hsnippets := World.snippets_setInstructions (l := pre ++ post) hs
  have hend := h.end_lt hfits hc hs
  have hlength : s.instructions.length = pre.length + (post.length + 1) := by simp [hsplit]
  have haddr := @World.toNat_add_ofNat pre.length s.start (by omega)
  obtain ⟨name, target⟩ := label
  cases target with
  | procedure q =>
    obtain ⟨t, ht, -⟩ := h.valid.procedure q hlive
    have hstart : ((w.setInstructions c (pre ++ post)).snippets q).map (·.start) = some t.start := by
      by_cases hq : q = c
      · subst hq
        rw [hs] at ht
        cases ht
        simp [hsnippets]
      · simp [hsnippets, hq, ht]
    simp only [CodeLabel.address, hstart]
    constructor
    · exact Option.some_ne_none _
    · rw [Option.some_inj]
      constructor
      · intro heq
        exact .inr ⟨q, hlive, t, rfl, ht, heq⟩
      · rintro (⟨j, -, hj, -⟩ | ⟨q', -, t', hq', ht', heq⟩)
        · cases hj
        · cases hq'
          rw [ht] at ht'
          cases ht'
          exact heq
  | instruction j =>
    have hno : ¬∃ q ∈ w.procedures, ∃ t, LabelTarget.instruction j = .procedure q ∧ w.snippets q = some t ∧
        t.start = s.start + BitVec.ofNat 32 pre.length := by
      rintro ⟨q, -, t, hq, -⟩
      cases hq
    simp only [CodeLabel.address, or_iff_left hno]
    obtain ⟨q, hq, t, ht, hmem⟩ := World.mem_instructionVector.mp hlive
    by_cases hqc : q = c
    · subst hqc
      rw [hs] at ht
      cases ht
      have hsnippet : (w.setInstructions q (pre ++ post)).snippets q = some { s with instructions := pre ++ post } := by
        simp [hsnippets]
      have hji : j ≠ i := fun heq => hne (heq ▸ rfl)
      have hmem' : j ∈ pre ++ post := by
        rw [hsplit] at hmem
        simpa [hji] using hmem
      obtain ⟨k, hk⟩ := List.mem_iff_getElem?.mp hmem'
      rw [hvalid.addressOf_eq hsnippet hk, Option.some_inj]
      have hklt := (List.getElem?_eq_some_iff.mp hk).1
      rw [List.length_append] at hklt
      have hkaddr := @World.toNat_add_ofNat k s.start (by omega)
      refine ⟨Option.some_ne_none _, ?_⟩
      constructor
      · intro heq
        have heq : s.start + BitVec.ofNat 32 k = s.start + BitVec.ofNat 32 pre.length := heq
        have hkpre : k = pre.length := by
          have := congrArg BitVec.toNat heq
          omega
        subst hkpre
        rw [List.getElem?_append_right (Nat.le_refl _), Nat.sub_self] at hk
        cases post with
        | nil => cases hk
        | cons first rest =>
          cases hk
          exact ⟨j, rest, rfl, rfl⟩
      · rintro ⟨j', rest, hj, rfl⟩
        cases hj
        have hnodup := hvalid.nodup q _ hsnippet
        have hget : (pre ++ j :: rest)[pre.length]? = some j := by simp
        have hkpre : k = pre.length :=
          (List.getElem?_inj (List.getElem?_eq_some_iff.mp hk).1 hnodup).mp (hk.trans hget.symm)
        rw [hkpre]
    · have hsnippet : (w.setInstructions c (pre ++ post)).snippets q = some t := by simp [hsnippets, hqc, ht]
      obtain ⟨k, hk⟩ := List.mem_iff_getElem?.mp hmem
      have hklt := (List.getElem?_eq_some_iff.mp hk).1
      have hend' := h.end_lt hfits hq ht
      have hkaddr := @World.toNat_add_ofNat k t.start (by omega)
      rw [hvalid.addressOf_eq hsnippet hk, Option.some_inj]
      refine ⟨Option.some_ne_none _, ?_⟩
      constructor
      · intro heq
        have := congrArg BitVec.toNat heq
        have hdisjoint := h.disjoint hfits hc hs hq ht hqc
        omega
      · rintro ⟨j', rest, hj, rfl⟩
        cases hj
        exact absurd (h.valid.mem_unique ht hmem hs (by simp [hsplit])) hqc

end Erased

/-- `CodeLabel::instructionReference`; none where it throws. -/
def CodeLabel.instruction (w : World) (label : CodeLabel) : Option InstructionId :=
  match label.target with
  | .instruction ins => some ins
  | .procedure proc => (w.snippets proc).bind (·.instructions.head?)

namespace LabelledProgram

/-- A program whose labels are all where they were made to be, and hold their references. -/
structure WellFormed (lp : LabelledProgram) : Prop extends lp.Consistent where
  good : lp.world.Good
  fits : lp.world.Fits
  referenced : ∀ owner ∈ lp.allCodeLabels, ∀ ins, owner.label.target = .instruction ins → lp.hasReference ins = true

/-- Nothing of the program has a label with the target. -/
def Unlabelled (lp : LabelledProgram) (target : LabelTarget) : Prop :=
  ∀ owner ∈ lp.allCodeLabels, owner.label.target ≠ target

/-- These labels are gone from every table, the others are not, and the lookups agree. -/
structure RemovesLabels (lp lp' : LabelledProgram) (gone : CodeLabel → Bool) : Prop where
  all : lp'.allCodeLabels = lp.allCodeLabels.filter fun owner => !gone owner.label
  scopes : ∀ scope, lp'.codeLabels scope = (lp.codeLabels scope).filter fun label => !gone label
  agree : lp'.LookupsAgree

theorem RemovesLabels.of_same {lp lp' : LabelledProgram} {gone : CodeLabel → Bool}
    (hall : lp'.allCodeLabels = lp.allCodeLabels) (hscopes : lp'.codeLabels = lp.codeLabels)
    (hcons : lp.Consistent) (hgone : ∀ owner ∈ lp.allCodeLabels, gone owner.label = false)
    (hagree : lp'.LookupsAgree) : RemovesLabels lp lp' gone where
  all := by
    rw [hall, List.filter_eq_self.mpr]
    intro owner hmem
    simp [hgone owner hmem]
  scopes := by
    intro scope
    rw [hscopes, List.filter_eq_self.mpr]
    intro label hmem
    simp [hgone _ (hcons.mem_codeLabels.mp hmem)]
  agree := hagree

/-- A label that is taken out of the list of all labels is found by its name nevertheless. -/
theorem RemovesLabels.mem_of_mem {lp lp' : LabelledProgram} {gone : CodeLabel → Bool} {owner : LabelOwner}
    (h : RemovesLabels lp lp' gone) (hcons : lp.Consistent) (hscopes : lp'.codeLabels = lp.codeLabels)
    (hmem : owner ∈ lp.allCodeLabels) : gone owner.label = false ∧ owner ∈ lp'.allCodeLabels := by
  have hlabel : owner.label ∈ lp.codeLabels owner.scope := hcons.mem_codeLabels.mpr hmem
  have hscope := h.scopes owner.scope
  rw [hscopes] at hscope
  rw [hscope] at hlabel
  have hgone : gone owner.label = false := by simpa using (List.mem_filter.mp hlabel).2
  refine ⟨hgone, ?_⟩
  rw [h.all]
  exact List.mem_filter.mpr ⟨hmem, by simp [hgone]⟩

end LabelledProgram

end Tce.POM
