import Tce.POM.LabelRemoval

/-!
# When removals maintain the labels

The tables that names are looked up in are never updated, so nothing may have a label that
a removal concerns.
-/

namespace Tce.POM.LabelledProgram

section Remove
variable {lp : LabelledProgram} {c : SnippetId} {i : InstructionId} {s : CodeSnippet} {pre post : List InstructionId}

/-- The labels of a removed instruction go, but for those of a first instruction that others follow. -/
def goneWith (lp : LabelledProgram) (c : SnippetId) (i : InstructionId) (label : CodeLabel) : Bool :=
  label.instruction lp.world = some i &&
    !(lp.world.snippets c).any fun s => s.instructions.head? = some i && s.instructions ≠ [i]

/-- `Procedure::remove` returns and leaves the labels as it should. -/
def RemoveMaintains (lp : LabelledProgram) (c : SnippetId) (i : InstructionId) : Prop :=
  ∃ lp', lp.remove c i = .done lp' ∧ RemovesLabels lp lp' (lp.goneWith c i)

/-- The instruction has no label. Neither has the next one, if this one is not the first and
something refers to it, nor a procedure at the same address, if it is the only one. -/
structure RemovableUnlabelled (lp : LabelledProgram) (c : SnippetId) (i : InstructionId) : Prop where
  instruction : lp.Unlabelled (.instruction i)
  next : ∀ s, lp.world.snippets c = some s → ∀ pre j post, s.instructions = pre ++ i :: j :: post → pre ≠ [] →
    lp.hasReference i = true → lp.Unlabelled (.instruction j)
  only : ∀ s, lp.world.snippets c = some s → s.instructions = [i] → ∀ q t, lp.world.snippets q = some t →
    t.start = s.start → lp.Unlabelled (.procedure q)

/-- A label does not get lost that another instruction or a procedure has. -/
theorem IsLive_of_erased {w w' : World} {label : CodeLabel} (hlive : label.IsLive w)
    (hne : label.target ≠ .instruction i) (hps : w'.procedures = w.procedures)
    (hmem : ∀ j, j ∈ w'.instructionVector ↔ j ∈ w.instructionVector ∧ j ≠ i) : label.IsLive w' := by
  obtain ⟨name, target⟩ := label
  cases target with
  | instruction j =>
    have hji : j ≠ i := fun heq => hne (heq ▸ rfl)
    exact (hmem j).mpr ⟨hlive, hji⟩
  | procedure q =>
    show q ∈ w'.procedures
    rw [hps]
    exact hlive

/-- What the removal of the instruction does to the world, whatever happens to the labels. -/
theorem exists_remove_world (h : lp.world.Good) (hc : c ∈ lp.world.procedures) (hs : lp.world.snippets c = some s)
    (hsplit : s.instructions = pre ++ i :: post) :
    ∃ w', (((lp.world.setInstructions c (pre ++ post)).setParent i none).moveFollowing c (-1)) = .done w' ∧
      w'.Good ∧ w'.procedures = lp.world.procedures ∧
        ∀ j, j ∈ w'.instructionVector ↔ j ∈ lp.world.instructionVector ∧ j ≠ i := by
  have hnodup := h.valid.nodup c s hs
  have hmem : i ∈ s.instructions := by simp [hsplit]
  obtain ⟨ins, hins, hparent⟩ := h.valid.parent c s i hs hmem
  obtain ⟨herase, -⟩ := erase_split hnodup hsplit
  have hvalid := h.valid.removed hs hins hmem
  rw [herase] at hvalid
  have hsnippets := World.snippets_setInstructions (l := pre ++ post) hs
  have hsnippet : ((lp.world.setInstructions c (pre ++ post)).setParent i none).snippets c =
      some { s with instructions := pre ++ post } := by simp [hsnippets]
  have hmove := World.moveFollowing_eq (d := -1) hvalid hsnippet
  have hworld : lp.world.remove c i = .done
      (((lp.world.setInstructions c (pre ++ post)).setParent i none).shiftAll
        (((lp.world.setInstructions c (pre ++ post)).setParent i none).following c) (-1)) := by
    have hin := (h.valid.isInProgram_iff c s hs).mpr hc
    have hne : s.instructions ≠ [] := List.ne_nil_of_mem hmem
    simpa [World.remove, World.withSnippet, World.withInstruction, hs, hins, hparent, hmem, hne, herase, hin] using hmove
  have hgood : (lp.world.remove c i).Keeps World.Good := h.remove
  rw [hworld] at hgood
  refine ⟨_, hmove, hgood, rfl, ?_⟩
  intro j
  rw [World.instructionVector_shiftAll]
  exact World.mem_vector_erased h hc hs hsplit

theorem split_unique {l pre' post' : List InstructionId} (hnodup : l.Nodup) (hsplit : l = pre ++ i :: post)
    (hsplit' : l = pre' ++ i :: post') : pre = pre' ∧ post = post' := by
  subst hsplit
  obtain ⟨-, hnodupPost, hdisjoint⟩ := List.nodup_append.mp hnodup
  have hpre : i ∉ pre := fun hmem => hdisjoint i hmem i List.mem_cons_self rfl
  have hpost : i ∉ post := (List.nodup_cons.mp hnodupPost).1
  obtain ⟨heq, -, hrest⟩ := (List.append_cons_inj_of_notMem hpre hpost).mp hsplit'
  exact ⟨heq, hrest⟩

/-- The labels are looked for unless the instruction is the first of several, or not referred to. -/
theorem remove_eq (h : lp.world.Good) (hc : c ∈ lp.world.procedures) (hs : lp.world.snippets c = some s)
    (hsplit : s.instructions = pre ++ i :: post) {w' : World}
    (hw : ((lp.world.setInstructions c (pre ++ post)).setParent i none).moveFollowing c (-1) = .done w') :
    lp.remove c i =
      if (pre ≠ [] ∧ lp.hasReference i = true) ∨ pre ++ post = [] then
        match removeCodeLabels (lp.world.setInstructions c (pre ++ post)) (s.start + BitVec.ofNat 32 pre.length)
          lp.allCodeLabels with
        | .done owners => .done { lp with world := w', allCodeLabels := owners }
        | .threw owners =>
          .threw { lp with world := lp.world.setInstructions c (pre ++ post), allCodeLabels := owners }
        | .undefined => .undefined
      else .done { lp with world := w' } := by
  have hnodup := h.valid.nodup c s hs
  have hmem : i ∈ s.instructions := by simp [hsplit]
  obtain ⟨ins, hins, hparent⟩ := h.valid.parent c s i hs hmem
  obtain ⟨herase, hidx⟩ := erase_split hnodup hsplit
  have hin := (h.valid.isInProgram_iff c s hs).mpr hc
  have hproc := h.valid.isProcedure hs hc
  have hfirst : (s.instructions.head? = some i) ↔ pre = [] := by
    rw [hsplit] at hnodup ⊢
    cases pre with
    | nil => simp
    | cons first pre =>
      have hne : first ≠ i := by
        rintro rfl
        exact (List.nodup_append.mp hnodup).2.2 first List.mem_cons_self first List.mem_cons_self rfl
      simp [hne]
  have hempty : s.instructions.isEmpty = false := by simp [hsplit]
  have hcond : ((!decide (s.instructions.head? = some i) && (s.isInProgram && lp.hasReference i)) ||
      (pre ++ post).isEmpty) = true ↔ (pre ≠ [] ∧ lp.hasReference i = true) ∨ pre ++ post = [] := by
    simp [hfirst, hin]
  simp only [remove, hs, hins, hproc, hparent, hempty, hmem, herase, hidx, hin, Bool.not_true, Bool.false_eq_true,
    if_false, if_true, ne_eq, not_true_eq_false]
  rw [hin] at hcond
  by_cases hclears : (pre ≠ [] ∧ lp.hasReference i = true) ∨ pre ++ post = []
  · rw [if_pos (hcond.mpr hclears), if_pos hclears]
    cases removeCodeLabels (lp.world.setInstructions c (pre ++ post)) (s.start + BitVec.ofNat 32 pre.length)
        lp.allCodeLabels with
    | done owners => simp only [Throwing.map, Throwing.andThen, hw]
    | threw owners => rfl
    | undefined => rfl
  · rw [if_neg (fun heq => hclears (hcond.mp heq)), if_neg hclears]
    simp only [Throwing.map, Throwing.andThen, hw]

/-- Where the labels are looked for there are none. -/
theorem RemovableUnlabelled.noneAtAddress (hfree : lp.RemovableUnlabelled c i) (h : lp.WellFormed)
    (hc : c ∈ lp.world.procedures) (hs : lp.world.snippets c = some s) (hsplit : s.instructions = pre ++ i :: post)
    (hclears : (pre ≠ [] ∧ lp.hasReference i = true) ∨ pre ++ post = []) (owner : LabelOwner)
    (hmem : owner ∈ lp.allCodeLabels) :
    ¬((∃ j rest, owner.label.target = .instruction j ∧ post = j :: rest) ∨
      ∃ q ∈ lp.world.procedures, ∃ t, owner.label.target = .procedure q ∧ lp.world.snippets q = some t ∧
        t.start = s.start + BitVec.ofNat 32 pre.length) := by
  rintro (⟨j, rest, htarget, rfl⟩ | ⟨q, hq, t, htarget, ht, hstart⟩)
  · rcases hclears with ⟨hne, href⟩ | hnil
    · exact hfree.next s hs pre j rest hsplit hne href owner hmem htarget
    · simp at hnil
  · by_cases hpre : pre = []
    · subst hpre
      rcases hclears with ⟨hne, -⟩ | hnil
      · exact hne rfl
      · rw [List.nil_append] at hnil
        subst hnil
        exact hfree.only s hs hsplit q t ht (by simpa using hstart) owner hmem htarget
    · have hpos := List.length_pos_iff.mpr hpre
      have hlength : s.instructions.length = pre.length + (post.length + 1) := by simp [hsplit]
      have hend := h.good.end_lt h.fits hc hs
      have haddr := @World.toNat_add_ofNat pre.length s.start (by omega)
      have hnat := congrArg BitVec.toNat hstart
      by_cases hqc : q = c
      · subst hqc
        rw [hs] at ht
        cases ht
        omega
      · have hdisjoint := h.good.disjoint h.fits hc hs hq ht hqc
        omega

/-- And there is no label that has to go. -/
theorem RemovableUnlabelled.not_gone (hfree : lp.RemovableUnlabelled c i) (h : lp.WellFormed)
    (hc : c ∈ lp.world.procedures) (hs : lp.world.snippets c = some s) (hsplit : s.instructions = pre ++ i :: post)
    (owner : LabelOwner) (hmem : owner ∈ lp.allCodeLabels) : lp.goneWith c i owner.label = false := by
  by_contra hgone
  obtain ⟨hinstruction, hkept⟩ := Bool.and_eq_true_iff.mp ((Bool.not_eq_false _).mp hgone)
  have hinstruction : owner.label.instruction lp.world = some i := of_decide_eq_true hinstruction
  cases htarget : owner.label.target with
  | instruction j =>
    simp only [CodeLabel.instruction, htarget, Option.some.injEq] at hinstruction
    exact hfree.instruction owner hmem (hinstruction ▸ htarget)
  | procedure q =>
    simp only [CodeLabel.instruction, htarget, Option.bind_eq_some_iff] at hinstruction
    obtain ⟨t, ht, hhead⟩ := hinstruction
    obtain rfl : q = c := h.good.valid.mem_unique ht (List.mem_of_mem_head? hhead) hs (by simp [hsplit])
    rw [hs] at ht
    cases ht
    have honly : s.instructions = [i] := by
      simpa [hs, hhead] using hkept
    exact hfree.only s hs honly q s hs rfl owner hmem htarget

theorem remove_iff (h : lp.WellFormed) (hc : c ∈ lp.world.procedures) (hs : lp.world.snippets c = some s)
    (hi : i ∈ s.instructions) : lp.RemoveMaintains c i ↔ lp.RemovableUnlabelled c i := by
  obtain ⟨pre, post, hsplit⟩ := List.append_of_mem hi
  obtain ⟨w', hw, hgood, hps, hvector⟩ := exists_remove_world h.good hc hs hsplit
  have hremove := remove_eq h.good hc hs hsplit hw
  have hafter := fun owner hmem => @address_after_erase lp.world c s i pre post (LabelOwner.label owner) h.good h.fits hc hs
    hsplit (h.live owner hmem)
  constructor
  · rintro ⟨lp', hdone, hlabels⟩
    have hinstruction : lp.Unlabelled (.instruction i) := by
      intro owner hmem htarget
      by_cases hclears : (pre ≠ [] ∧ lp.hasReference i = true) ∨ pre ++ post = []
      · have hthrew : ∃ left, removeCodeLabels (lp.world.setInstructions c (pre ++ post))
            (s.start + BitVec.ofNat 32 pre.length) lp.allCodeLabels = .threw left :=
          removeCodeLabels_threw hmem (address_erased h.good hs hsplit htarget)
        obtain ⟨left, hleft⟩ := hthrew
        rw [hremove, if_pos hclears, hleft] at hdone
        cases hdone
      · rw [hremove, if_neg hclears] at hdone
        cases hdone
        have hdead : ¬owner.label.IsLive w' := by
          intro hlive
          simp only [CodeLabel.IsLive, htarget] at hlive
          exact ((hvector i).mp hlive).2 rfl
        exact @Consistent.not_lookupsAgree { lp with world := w' } owner hmem hdead hlabels.agree
    have haddressed : Addressed (lp.world.setInstructions c (pre ++ post)) (lp.allCodeLabels.map (·.label)) := by
      intro label hmem
      obtain ⟨owner, howner, rfl⟩ := List.mem_map.mp hmem
      exact (hafter owner howner (hinstruction owner howner)).1
    -- no label that is removed by its address can be one that has to go or to stay
    have hstays : ((pre ≠ [] ∧ lp.hasReference i = true) ∨ pre ++ post = []) → ∀ owner ∈ lp.allCodeLabels,
        owner.label.address (lp.world.setInstructions c (pre ++ post)) ≠ some (s.start + BitVec.ofNat 32 pre.length) := by
      intro hclears owner hmem
      rw [hremove, if_pos hclears, removeCodeLabels_eq haddressed] at hdone
      cases hdone
      have hstill := (hlabels.mem_of_mem h.toConsistent rfl hmem).2
      exact of_decide_eq_true (List.mem_filter.mp hstill).2
    refine ⟨hinstruction, ?_, ?_⟩
    · intro s' hs' pre' j post' hsplit' hne href owner hmem htarget
      rw [hs] at hs'
      cases hs'
      obtain ⟨rfl, hpost⟩ := split_unique (h.good.valid.nodup c s hs) hsplit hsplit'
      exact hstays (.inl ⟨hne, href⟩) owner hmem
        ((hafter owner hmem (hinstruction owner hmem)).2.mpr (.inl ⟨j, post', htarget, hpost⟩))
    · intro s' hs' honly q t ht hstart owner hmem htarget
      rw [hs] at hs'
      cases hs'
      obtain ⟨rfl, rfl⟩ := split_unique (h.good.valid.nodup c s hs) hsplit (show s.instructions = [] ++ i :: [] from honly)
      have hq : q ∈ lp.world.procedures := by
        have hlive := h.live owner hmem
        simpa only [CodeLabel.IsLive, htarget] using hlive
      exact hstays (.inr rfl) owner hmem ((hafter owner hmem (hinstruction owner hmem)).2.mpr
        (.inr ⟨q, hq, t, htarget, ht, by simp [hstart]⟩))
  · intro hfree
    have haddressed : Addressed (lp.world.setInstructions c (pre ++ post)) (lp.allCodeLabels.map (·.label)) := by
      intro label hmem
      obtain ⟨owner, howner, rfl⟩ := List.mem_map.mp hmem
      exact (hafter owner howner (hfree.instruction owner howner)).1
    have hdone : lp.remove c i = .done { lp with world := w' } := by
      rw [hremove]
      by_cases hclears : (pre ≠ [] ∧ lp.hasReference i = true) ∨ pre ++ post = []
      · rw [if_pos hclears, removeCodeLabels_eq haddressed, List.filter_eq_self.mpr]
        intro owner hmem
        apply decide_eq_true
        intro haddress
        exact hfree.noneAtAddress h hc hs hsplit hclears owner hmem
          ((hafter owner hmem (hfree.instruction owner hmem)).2.mp haddress)
      · rw [if_neg hclears]
    have hcons : Consistent { lp with world := w' } :=
      { live := fun owner hmem => IsLive_of_erased (h.live owner hmem) (hfree.instruction owner hmem) hps hvector
        tables := h.tables
        names := h.names }
    refine ⟨_, hdone, .of_same rfl rfl h.toConsistent ?_ (hcons.lookupsAgree hgood.valid)⟩
    intro owner hmem
    exact hfree.not_gone h hc hs hsplit owner hmem

end Remove

section RemoveProcedure
variable {lp : LabelledProgram} {w : World} {p : SnippetId} {s : CodeSnippet} {lastAddress addr : InstructionAddress}
  {owners owners' : List LabelOwner} {rounds : Nat}

def ofProcedure (lp : LabelledProgram) (p : SnippetId) (label : CodeLabel) : Bool :=
  (label.instruction lp.world).any fun ins => ins ∈ lp.world.instructionsOf p

/-- `Program::removeProcedure` ends, returns, and leaves the labels as it should. -/
def RemoveProcedureMaintains (lp : LabelledProgram) (p : SnippetId) : Prop :=
  ∃ rounds lp', lp.removeProcedure rounds p = some (.done lp') ∧ RemovesLabels lp lp' (lp.ofProcedure p)

/-- The procedure is not an empty one at address 0, and neither it, nor an instruction of it, nor
another procedure that starts where it does has a label; an empty procedure may share its start. -/
structure ProcedureUnlabelled (lp : LabelledProgram) (p : SnippetId) (s : CodeSnippet) : Prop where
  ends : s.instructions = [] → s.start ≠ 0
  procedure : lp.Unlabelled (.procedure p)
  instructions : ∀ i ∈ s.instructions, lp.Unlabelled (.instruction i)
  sameStart : s.instructions ≠ [] → ∀ q t, lp.world.snippets q = some t → t.start = s.start →
    lp.Unlabelled (.procedure q)

theorem Addressed.filter (h : Addressed w (owners.map (·.label))) (keep : LabelOwner → Bool) :
    Addressed w ((owners.filter keep).map (·.label)) := by
  intro label hmem
  obtain ⟨owner, howner, rfl⟩ := List.mem_map.mp hmem
  exact h _ (List.mem_map_of_mem (List.mem_filter.mp howner).1)

/-- No address comes after the last one there is. -/
theorem removeLabelsUpTo_eq_none (h : Addressed w (owners.map (·.label))) :
    removeLabelsUpTo w (BitVec.allOnes 32) rounds addr owners = none := by
  induction rounds generalizing addr owners with
  | zero => rfl
  | succ rounds ih =>
    have hle : addr ≤ BitVec.allOnes 32 := by
      have hlt := addr.isLt
      rw [BitVec.le_def, BitVec.toNat_allOnes]
      omega
    rw [removeLabelsUpTo, if_pos hle, removeCodeLabels_eq h]
    exact ih (Addressed.filter h _)

/-- When it ends no label is left at one of the addresses. -/
theorem not_mem_of_removeLabelsUpTo (h : Addressed w (owners.map (·.label)))
    (hdone : removeLabelsUpTo w lastAddress rounds addr owners = some (.done owners')) {owner : LabelOwner}
    (hmem : owner ∈ owners') :
    owner ∈ owners ∧ ∀ a, owner.label.address w = some a → ¬(addr ≤ a ∧ a ≤ lastAddress) := by
  induction rounds generalizing addr owners with
  | zero => cases hdone
  | succ rounds ih =>
    rw [removeLabelsUpTo] at hdone
    by_cases hle : addr ≤ lastAddress
    · rw [if_pos hle, removeCodeLabels_eq h] at hdone
      obtain ⟨hin, hnone⟩ := ih (Addressed.filter h _) hdone
      obtain ⟨hin, hne⟩ := List.mem_filter.mp hin
      refine ⟨hin, ?_⟩
      rintro a ha ⟨hlow, hhigh⟩
      have hadd : a ≠ addr := fun heq => of_decide_eq_true hne (heq ▸ ha)
      exact hnone a ha ⟨by bv_omega, hhigh⟩
    · rw [if_neg hle] at hdone
      cases hdone
      refine ⟨hmem, ?_⟩
      rintro a - ⟨hlow, hhigh⟩
      exact hle (by bv_omega)

/-- It ends, and leaves the list as it is where no label is at one of the addresses. -/
theorem exists_removeLabelsUpTo (h : Addressed w (owners.map (·.label))) (hlast : lastAddress ≠ BitVec.allOnes 32)
    (hnone : ∀ owner ∈ owners, ∀ a, owner.label.address w = some a → ¬(addr ≤ a ∧ a ≤ lastAddress)) :
    ∃ rounds, removeLabelsUpTo w lastAddress rounds addr owners = some (.done owners) := by
  induction hn : lastAddress.toNat + 1 - addr.toNat generalizing addr with
  | zero =>
    have hle : ¬addr ≤ lastAddress := by bv_omega
    exact ⟨1, by rw [removeLabelsUpTo, if_neg hle]⟩
  | succ n ih =>
    have hle : addr ≤ lastAddress := by bv_omega
    have hnext : lastAddress.toNat + 1 - (addr + 1).toNat = n := by
      have hones : (BitVec.allOnes 32).toNat = 4294967295 := rfl
      bv_omega
    obtain ⟨rounds, hrounds⟩ := ih
      (fun owner hmem a ha hin => hnone owner hmem a ha ⟨by bv_omega, hin.2⟩) hnext
    refine ⟨rounds + 1, ?_⟩
    have hsame : owners.filter (fun owner => owner.label.address w ≠ some addr) = owners := by
      rw [List.filter_eq_self]
      intro owner hmem
      apply decide_eq_true
      intro ha
      exact hnone owner hmem addr ha ⟨BitVec.le_refl _, hle⟩
    rw [removeLabelsUpTo, if_pos hle, removeCodeLabels_eq h, hsame]
    exact hrounds

/-- The procedures that follow are moved, and the procedure is out of the program. -/
def detached (w : World) (p : SnippetId) (s : CodeSnippet) : World :=
  { (w.shiftAll (w.following p) (s.start - s.endAddress)).putSnippet p (some { s with isInProgram := false }) with
    procedures := w.procedures.erase p }

/-- What the removal of the procedure does to the world, when the loop over the labels has ended. -/
theorem exists_removeProcedure_world (h : lp.world.Good) (hp : p ∈ lp.world.procedures)
    (hs : lp.world.snippets p = some s) (hlast : s.endAddress - 1 ≠ BitVec.allOnes 32) :
    ∃ w', (∀ rounds, lp.removeProcedure rounds p =
        (removeLabelsUpTo lp.world (s.endAddress - 1) rounds s.start lp.allCodeLabels).map fun result =>
          (result.map fun owners => { lp with allCodeLabels := owners }).andThen fun lp' =>
            .done { lp' with world := w' }) ∧
      w'.Good ∧ (∀ q, q ∈ w'.procedures ↔ q ≠ p ∧ q ∈ lp.world.procedures) ∧
        ∀ j, j ∈ lp.world.instructionVector → j ∉ s.instructions → j ∈ w'.instructionVector := by
  have hin := (h.valid.isInProgram_iff p s hs).mpr hp
  have hmove := World.moveFollowing_eq (d := s.start - s.endAddress) h.valid hs
  have hworld : lp.world.removeProcedure p = .done (detached lp.world p s) := by
    simp only [World.removeProcedure, World.withSnippet, hs, hin, Bool.not_true, Bool.false_eq_true, if_false,
      if_neg hlast, hmove, Throwing.andThen]
    rfl
  have hgood : (lp.world.removeProcedure p).Keeps World.Good := h.removeProcedure
  rw [hworld] at hgood
  refine ⟨detached lp.world p s, ?_, hgood, ?_, ?_⟩
  · intro rounds
    simp only [removeProcedure, hs, hin, Bool.not_true, Bool.false_eq_true, if_false]
    congr 1
    funext result
    cases result with
    | done owners =>
      simp only [Throwing.map, Throwing.andThen, hmove]
      rfl
    | threw owners => rfl
    | undefined => rfl
  · intro q
    exact h.valid.nodup_procedures.mem_erase_iff
  · intro j hj hnot
    obtain ⟨q, hq, t, ht, hmem⟩ := World.mem_instructionVector.mp hj
    have hne : q ≠ p := by
      rintro rfl
      rw [hs] at ht
      cases ht
      exact hnot hmem
    refine List.mem_flatMap.mpr ⟨q, (h.valid.nodup_procedures.mem_erase_iff).mpr ⟨hne, hq⟩, ?_⟩
    by_cases hshift : q ∈ lp.world.following p
    · simpa [detached, World.instructionsOf, World.putSnippet, World.shiftAll, hne, hshift, ht] using hmem
    · simpa [detached, World.instructionsOf, World.putSnippet, World.shiftAll, hne, hshift, ht] using hmem

theorem toNat_lastAddress (h : lp.world.Good) (hfits : lp.world.Fits) (hp : p ∈ lp.world.procedures)
    (hs : lp.world.snippets p = some s) (hne : s.instructions ≠ []) :
    (s.endAddress - 1).toNat + 1 = s.start.toNat + s.instructions.length := by
  have hend := h.end_lt hfits hp hs
  have hpos := List.length_pos_iff.mpr hne
  have haddr := @World.toNat_add_ofNat s.instructions.length s.start hend
  rw [CodeSnippet.endAddress]
  bv_omega

theorem lastAddress_ne (h : lp.world.Good) (hfits : lp.world.Fits) (hp : p ∈ lp.world.procedures)
    (hs : lp.world.snippets p = some s) (hends : s.instructions = [] → s.start ≠ 0) :
    s.endAddress - 1 ≠ BitVec.allOnes 32 := by
  have hones : (BitVec.allOnes 32).toNat = 4294967295 := rfl
  by_cases hnil : s.instructions = []
  · have hstart := hends hnil
    have hend : s.endAddress = s.start := by simp [CodeSnippet.endAddress, hnil]
    rw [hend]
    bv_omega
  · have hlast := toNat_lastAddress h hfits hp hs hnil
    have hend := h.end_lt hfits hp hs
    bv_omega

/-- No label that is left has an address of the procedure. -/
theorem ProcedureUnlabelled.noneInRange (hfree : lp.ProcedureUnlabelled p s) (h : lp.WellFormed)
    (hp : p ∈ lp.world.procedures) (hs : lp.world.snippets p = some s) (owner : LabelOwner)
    (hmem : owner ∈ lp.allCodeLabels) (a : InstructionAddress) (ha : owner.label.address lp.world = some a) :
    ¬(s.start ≤ a ∧ a ≤ s.endAddress - 1) := by
  rintro ⟨hlow, hhigh⟩
  by_cases hnil : s.instructions = []
  · have hstart := hfree.ends hnil
    have hend : s.endAddress = s.start := by simp [CodeSnippet.endAddress, hnil]
    rw [hend] at hhigh
    bv_omega
  have hlast := toNat_lastAddress h.good h.fits hp hs hnil
  have hlive := h.live owner hmem
  cases htarget : owner.label.target with
  | instruction j =>
    simp only [CodeLabel.IsLive, htarget] at hlive
    simp only [CodeLabel.address, htarget] at ha
    obtain ⟨q, hq, t, ht, hj⟩ := World.mem_instructionVector.mp hlive
    obtain ⟨k, hk⟩ := List.mem_iff_getElem?.mp hj
    have hqp : q ≠ p := by
      rintro rfl
      rw [hs] at ht
      cases ht
      exact hfree.instructions j hj owner hmem htarget
    have hklt := (List.getElem?_eq_some_iff.mp hk).1
    have hend := h.good.end_lt h.fits hq ht
    have hkaddr := @World.toNat_add_ofNat k t.start (by omega)
    rw [h.good.valid.addressOf_eq ht hk] at ha
    cases ha
    have hdisjoint := h.good.disjoint h.fits hp hs hq ht hqp
    rw [BitVec.le_def] at hlow hhigh
    omega
  | procedure q =>
    simp only [CodeLabel.IsLive, htarget] at hlive
    obtain ⟨t, ht, -⟩ := h.good.valid.procedure q hlive
    simp only [CodeLabel.address, htarget, ht, Option.map_some, Option.some.injEq] at ha
    subst ha
    have hqp : q ≠ p := fun heq => hfree.procedure owner hmem (heq ▸ htarget)
    have hstart : t.start ≠ s.start := fun heq => hfree.sameStart hnil q t ht heq owner hmem htarget
    have hdisjoint := h.good.disjoint h.fits hp hs hlive ht hqp
    have hpos := List.length_pos_iff.mpr hnil
    rw [BitVec.le_def] at hlow hhigh
    have hnat : t.start.toNat ≠ s.start.toNat := fun heq => hstart (BitVec.eq_of_toNat_eq heq)
    omega

theorem removeProcedure_iff (h : lp.WellFormed) (hp : p ∈ lp.world.procedures) (hs : lp.world.snippets p = some s) :
    lp.RemoveProcedureMaintains p ↔ lp.ProcedureUnlabelled p s := by
  have haddressed : Addressed lp.world (lp.allCodeLabels.map (·.label)) := by
    intro label hmem
    obtain ⟨owner, howner, rfl⟩ := List.mem_map.mp hmem
    exact (h.live owner howner).address_ne_none h.good.valid
  constructor
  · rintro ⟨rounds, lp', hdone, hlabels⟩
    have hin := (h.good.valid.isInProgram_iff p s hs).mpr hp
    have hlast : s.endAddress - 1 ≠ BitVec.allOnes 32 := by
      intro hlast
      simp only [removeProcedure, hs, hin, Bool.not_true, Bool.false_eq_true, if_false, hlast,
        removeLabelsUpTo_eq_none haddressed, Option.map_none] at hdone
      cases hdone
    obtain ⟨w', hremove, -, hprocedures, -⟩ := exists_removeProcedure_world h.good hp hs hlast
    rw [hremove, Option.map_eq_some_iff] at hdone
    obtain ⟨result, hloop, hresult⟩ := hdone
    cases result with
    | threw owners => cases hresult
    | undefined => cases hresult
    | done owners =>
      cases hresult
      have hstays : ∀ owner ∈ lp.allCodeLabels, lp.ofProcedure p owner.label = false ∧
          ∀ a, owner.label.address lp.world = some a → ¬(s.start ≤ a ∧ a ≤ s.endAddress - 1) := by
        intro owner hmem
        obtain ⟨hgone, hstill⟩ := hlabels.mem_of_mem h.toConsistent rfl hmem
        exact ⟨hgone, (not_mem_of_removeLabelsUpTo haddressed hloop hstill).2⟩
      have hinstructions : ∀ i ∈ s.instructions, lp.Unlabelled (.instruction i) := by
        intro i hi owner hmem htarget
        have hgone := (hstays owner hmem).1
        simp [ofProcedure, CodeLabel.instruction, htarget, World.instructionsOf_eq hs, hi] at hgone
      constructor
      · intro hnil hzero
        apply hlast
        simp only [CodeSnippet.endAddress, hnil, hzero]
        rfl
      · intro owner hmem htarget
        have hdead : ¬owner.label.IsLive w' := by
          intro hlive
          simp only [CodeLabel.IsLive, htarget] at hlive
          exact ((hprocedures p).mp hlive).1 rfl
        have hstill := (hlabels.mem_of_mem h.toConsistent rfl hmem).2
        exact @Consistent.not_lookupsAgree { lp with world := w', allCodeLabels := owners } owner hstill hdead
          hlabels.agree
      · exact hinstructions
      · intro hnil q t ht hstart owner hmem htarget
        have haddress : owner.label.address lp.world = some s.start := by
          simp [CodeLabel.address, htarget, ht, hstart]
        have hnat := toNat_lastAddress h.good h.fits hp hs hnil
        have hpos := List.length_pos_iff.mpr hnil
        refine (hstays owner hmem).2 s.start haddress ⟨BitVec.le_refl _, ?_⟩
        rw [BitVec.le_def]
        omega
  · intro hfree
    have hlast := lastAddress_ne h.good h.fits hp hs hfree.ends
    obtain ⟨w', hremove, hgood, hprocedures, hvector⟩ := exists_removeProcedure_world h.good hp hs hlast
    obtain ⟨rounds, hrounds⟩ := exists_removeLabelsUpTo haddressed hlast (hfree.noneInRange h hp hs)
    have hlive : ∀ owner ∈ lp.allCodeLabels, owner.label.IsLive w' := by
      intro owner hmem
      have hlive := h.live owner hmem
      cases htarget : owner.label.target with
      | instruction j =>
        simp only [CodeLabel.IsLive, htarget] at hlive ⊢
        exact hvector j hlive fun hj => hfree.instructions j hj owner hmem htarget
      | procedure q =>
        simp only [CodeLabel.IsLive, htarget] at hlive ⊢
        exact (hprocedures q).mpr ⟨fun heq => hfree.procedure owner hmem (heq ▸ htarget), hlive⟩
    have hcons : Consistent { lp with world := w' } := ⟨hlive, h.tables, h.names⟩
    refine ⟨rounds, { lp with world := w' }, ?_, .of_same rfl rfl h.toConsistent ?_ (hcons.lookupsAgree hgood.valid)⟩
    · rw [hremove, hrounds]
      rfl
    · intro owner hmem
      by_contra hgone
      rw [Bool.not_eq_false, ofProcedure, World.instructionsOf_eq hs, Option.any_eq_true] at hgone
      obtain ⟨i, hinstruction, hi⟩ := hgone
      have hi : i ∈ s.instructions := of_decide_eq_true hi
      cases htarget : owner.label.target with
      | instruction j =>
        simp only [CodeLabel.instruction, htarget, Option.some.injEq] at hinstruction
        exact hfree.instructions i hi owner hmem (hinstruction ▸ htarget)
      | procedure q =>
        simp only [CodeLabel.instruction, htarget, Option.bind_eq_some_iff] at hinstruction
        obtain ⟨t, ht, hhead⟩ := hinstruction
        obtain rfl : q = p := h.good.valid.mem_unique ht (List.mem_of_mem_head? hhead) hs hi
        exact hfree.procedure owner hmem htarget

end RemoveProcedure

/-- Both removals maintain the labels exactly where none of these labels exist. -/
theorem maintains_iff {lp : LabelledProgram} (h : lp.WellFormed) :
    ∀ p ∈ lp.world.procedures, ∀ s, lp.world.snippets p = some s →
      (∀ i ∈ s.instructions, (lp.RemoveMaintains p i ↔ lp.RemovableUnlabelled p i)) ∧
        (lp.RemoveProcedureMaintains p ↔ lp.ProcedureUnlabelled p s) :=
  fun _ hp _ hs => ⟨fun _ hi => remove_iff h hp hs hi, removeProcedure_iff h hp hs⟩

section Example

/-- One procedure, 0, with the instructions 1, 2 and 3, and nothing labelled. -/
def threeInstructions : List World.Edit :=
  [.newCodeSnippet true 0, .newInstruction, .newInstruction, .newInstruction, .addProcedure 0, .add 0 1, .add 0 2,
    .add 0 3]

def unlabelled (w : World) : LabelledProgram :=
  { world := w, hasReference := fun _ => false, codeLabels := fun _ => [], allCodeLabels := [] }

theorem wellFormed_unlabelled {w : World} (hgood : w.Good) (hfits : w.Fits) : (unlabelled w).WellFormed where
  live := by simp [unlabelled]
  tables := by simp [unlabelled]
  names := by simp [unlabelled]
  good := hgood
  fits := hfits
  referenced := by simp [unlabelled]

theorem WellFormed.addCodeLabel {lp : LabelledProgram} (h : lp.WellFormed) {scope : ScopeId} {label : CodeLabel}
    (hlive : label.IsLive lp.world) : (lp.addCodeLabel scope label).Keeps WellFormed := by
  have hcons : (lp.addCodeLabel scope label).Keeps Consistent := h.toConsistent.addCodeLabel hlive
  unfold LabelledProgram.addCodeLabel at hcons ⊢
  cases hcontains : lp.containsCodeLabel scope label.name with
  | true => exact h
  | false =>
    rw [hcontains] at hcons
    refine { toConsistent := hcons, good := h.good, fits := h.fits, referenced := ?_ }
    intro owner hmem ins htarget
    rcases List.mem_append.mp hmem with hmem | hmem
    · simp [h.referenced owner hmem ins htarget]
    · rw [List.mem_singleton.mp hmem] at htarget
      have htarget : label.target = .instruction ins := htarget
      simp [htarget]

/-- The program of three instructions with one label, which is as the operations build it. -/
theorem exists_labelled (i : InstructionId) (hi : i ∈ [1, 2, 3]) :
    ∃ w s lp, World.run threeInstructions (World.empty 16) = some w ∧
      (unlabelled w).addCodeLabel 0 ⟨"loop", .instruction i⟩ = .done lp ∧ lp.world = w ∧ lp.WellFormed ∧
        lp.allCodeLabels = [⟨⟨"loop", .instruction i⟩, 0⟩] ∧ 0 ∈ w.procedures ∧
          w.snippets 0 = some s ∧ s.instructions = [1, 2, 3] := by
  have hrun : (World.run threeInstructions (World.empty 16)).map
      (fun w => (w.start, w.procedures, (w.snippets 0).map (·.instructions))) = some (16, [0], some [1, 2, 3]) := rfl
  obtain ⟨w, hw, heq⟩ := Option.map_eq_some_iff.mp hrun
  simp only [Prod.mk.injEq, Option.map_eq_some_iff] at heq
  obtain ⟨hstart, hprocedures, s, hs, hinstructions⟩ := heq
  have hgood : w.Good := World.good_run ⟨World.valid_empty 16, trivial⟩
    (World.soundRun_of_forall (by simp [threeInstructions, World.Edit.Sound])) hw
  have hvector : w.instructionVector = [1, 2, 3] := by
    simp [World.instructionVector, hprocedures, World.instructionsOf, hs, hinstructions]
  have hfits : w.Fits := by
    refine ⟨by simp [hstart, hvector], ?_⟩
    intro p hp t ht
    rw [hprocedures, List.mem_singleton] at hp
    subst hp
    rw [hs] at ht
    cases ht
    simp [hinstructions]
  have hlive : CodeLabel.IsLive w ⟨"loop", .instruction i⟩ := by
    simpa [CodeLabel.IsLive, hvector] using hi
  have hkeeps : ((unlabelled w).addCodeLabel 0 ⟨"loop", .instruction i⟩).Keeps WellFormed :=
    (wellFormed_unlabelled hgood hfits).addCodeLabel hlive
  exact ⟨w, s, _, hw, rfl, rfl, hkeeps, rfl, by simp [hprocedures], hs, hinstructions⟩

/-- The address of a labelled instruction is asked for when it has none. -/
theorem not_removeMaintains_labelled : ∃ w lp, World.run threeInstructions (World.empty 16) = some w ∧
    (unlabelled w).addCodeLabel 0 ⟨"loop", .instruction 2⟩ = .done lp ∧ lp.WellFormed ∧ ¬lp.RemoveMaintains 0 2 := by
  obtain ⟨w, s, lp, hw, hadd, rfl, hwell, hall, hp, hs, hinstructions⟩ := exists_labelled 2 (by simp)
  refine ⟨lp.world, lp, hw, hadd, hwell, ?_⟩
  rw [remove_iff hwell hp hs (by simp [hinstructions])]
  intro hfree
  exact hfree.instruction _ (by rw [hall]; exact List.mem_singleton_self _) rfl

theorem removeMaintains_last : ∃ w lp, World.run threeInstructions (World.empty 16) = some w ∧
    (unlabelled w).addCodeLabel 0 ⟨"loop", .instruction 1⟩ = .done lp ∧ lp.RemoveMaintains 0 3 := by
  obtain ⟨w, s, lp, hw, hadd, rfl, hwell, hall, hp, hs, hinstructions⟩ := exists_labelled 1 (by simp)
  refine ⟨lp.world, lp, hw, hadd, (((maintains_iff hwell) 0 hp s hs).1 3 (by simp [hinstructions])).mpr ?_⟩
  constructor
  · simp [Unlabelled, hall]
  · intro s' hs' pre j post hsplit
    rw [hs] at hs'
    cases hs'
    rw [hinstructions] at hsplit
    have hlast : [1, 2, 3] = [1, 2] ++ 3 :: ([] : List InstructionId) := rfl
    have hnil := (split_unique (by decide) hlast hsplit).2
    cases hnil
  · intro s' hs' honly
    rw [hs] at hs'
    cases hs'
    rw [hinstructions] at honly
    cases honly

end Example

end Tce.POM.LabelledProgram
