import Tce.POM.CodeLabels

/-!
# Label lookups

The labels of the scopes and the list of all labels are kept together, and the three ways
to find a label then find the same ones.
-/

namespace Tce.POM

section Addresses
variable {w : World} {address : InstructionAddress} {labels : List CodeLabel} {owners : List LabelOwner}

/-- No label of the list has lost its address. -/
def Addressed (w : World) (labels : List CodeLabel) : Prop := ∀ label ∈ labels, label.address w ≠ none

theorem findAtAddress_eq (h : Addressed w labels) (index : Nat) :
    findAtAddress w address index labels = some (labels.filter fun label => label.address w = some address)[index]? := by
  induction labels generalizing index with
  | nil => rfl
  | cons label labels ih =>
    have hrest : Addressed w labels := fun l hl => h l (List.mem_cons_of_mem _ hl)
    obtain ⟨a, ha⟩ := Option.ne_none_iff_exists'.mp (h label List.mem_cons_self)
    simp only [findAtAddress, ha]
    by_cases heq : a = address
    · subst heq
      rw [if_pos rfl, List.filter_cons_of_pos (by simp [ha])]
      cases index with
      | zero => rfl
      | succ index => exact ih hrest index
    · rw [if_neg heq, List.filter_cons_of_neg (by simp [ha, heq]), ih hrest]

/-- The lookups by address find every label, at its address. -/
theorem exists_findAtAddress_iff (h : Addressed w labels) {label : CodeLabel} :
    (∃ address index, findAtAddress w address index labels = some (some label)) ↔ label ∈ labels := by
  constructor
  · rintro ⟨address, index, hfind⟩
    rw [findAtAddress_eq h, Option.some_inj] at hfind
    exact (List.mem_filter.mp (List.mem_of_getElem? hfind)).1
  · intro hmem
    obtain ⟨a, ha⟩ := Option.ne_none_iff_exists'.mp (h label hmem)
    have hfilter : label ∈ labels.filter fun label => label.address w = some a :=
      List.mem_filter.mpr ⟨hmem, decide_eq_true ha⟩
    obtain ⟨index, hindex⟩ := List.mem_iff_getElem?.mp hfilter
    exact ⟨a, index, by rw [findAtAddress_eq h, hindex]⟩

theorem address_of_findAtAddress (h : Addressed w labels) {index : Nat} {label : CodeLabel}
    (hfind : findAtAddress w address index labels = some (some label)) :
    label ∈ labels ∧ label.address w = some address := by
  rw [findAtAddress_eq h, Option.some_inj] at hfind
  obtain ⟨hmem, haddr⟩ := List.mem_filter.mp (List.mem_of_getElem? hfind)
  exact ⟨hmem, of_decide_eq_true haddr⟩

theorem removeCodeLabels_eq (h : Addressed w (owners.map (·.label))) :
    removeCodeLabels w address owners = .done (owners.filter fun owner => owner.label.address w ≠ some address) := by
  induction owners with
  | nil => rfl
  | cons owner owners ih =>
    have hrest : Addressed w (owners.map (·.label)) := fun l hl => h l (List.mem_cons_of_mem _ hl)
    obtain ⟨a, ha⟩ := Option.ne_none_iff_exists'.mp (h owner.label List.mem_cons_self)
    simp only [removeCodeLabels, ha]
    by_cases heq : a = address
    · rw [if_pos heq, List.filter_cons_of_neg (by simp [ha, heq]), ih hrest]
    · rw [if_neg heq, List.filter_cons_of_pos (by simp [ha, heq]), ih hrest]
      rfl

/-- A label without an address makes the removal throw, whatever is removed. -/
theorem removeCodeLabels_threw {owner : LabelOwner} (hmem : owner ∈ owners) (hnone : owner.label.address w = none) :
    ∃ left, removeCodeLabels w address owners = .threw left := by
  induction owners with
  | nil => simp at hmem
  | cons first owners ih =>
    cases ha : first.label.address w with
    | none => exact ⟨first :: owners, by simp [removeCodeLabels, ha]⟩
    | some a =>
      rcases List.mem_cons.mp hmem with rfl | hmem
      · rw [hnone] at ha
        cases ha
      · obtain ⟨left, hleft⟩ := ih hmem
        by_cases heq : a = address
        · exact ⟨left, by simp [removeCodeLabels, ha, heq, hleft]⟩
        · exact ⟨first :: left, by simp [removeCodeLabels, ha, heq, hleft, Throwing.map]⟩

end Addresses

/-- The instruction is in a procedure of the program, or the procedure is. -/
def CodeLabel.IsLive (w : World) (label : CodeLabel) : Prop :=
  match label.target with
  | .instruction ins => ins ∈ w.instructionVector
  | .procedure proc => proc ∈ w.procedures

theorem CodeLabel.IsLive.address_ne_none {w : World} {label : CodeLabel} (h : label.IsLive w) (hvalid : w.Valid) :
    label.address w ≠ none := by
  obtain ⟨name, target⟩ := label
  cases target with
  | instruction ins =>
    obtain ⟨p, hp, hmem⟩ := List.mem_flatMap.mp h
    obtain ⟨s, hs, -⟩ := hvalid.procedure p hp
    rw [World.instructionsOf_eq hs] at hmem
    obtain ⟨k, hk⟩ := List.mem_iff_getElem?.mp hmem
    show w.addressOf ins ≠ none
    rw [hvalid.addressOf_eq hs hk]
    exact Option.some_ne_none _
  | procedure proc =>
    obtain ⟨s, hs, -⟩ := hvalid.procedure proc h
    simp [address, hs]

namespace LabelledProgram

/-- What a lookup finds is live, no address throws, and all find the same labels. -/
structure LookupsAgree (lp : LabelledProgram) : Prop where
  live : ∀ index label, lp.globalCodeLabel index = some label → label.IsLive lp.world
  addressed : ∀ address index, lp.globalCodeLabelAt address index ≠ none
  atAddress : ∀ address index label, lp.globalCodeLabelAt address index = some (some label) →
    label.address lp.world = some address
  address_iff : ∀ label, (∃ address index, lp.globalCodeLabelAt address index = some (some label)) ↔
    ∃ index, lp.globalCodeLabel index = some label
  name_iff : ∀ label, (∃ scope, lp.codeLabel scope label.name = some label) ↔
    ∃ index, lp.globalCodeLabel index = some label
  scope_iff : ∀ scope label, (∃ address index, lp.codeLabelAt scope address index = some (some label)) ↔
    lp.codeLabel scope label.name = some label

/-- The tables as `addCodeLabel` builds them, for labels that are live. -/
structure Consistent (lp : LabelledProgram) : Prop where
  live : ∀ owner ∈ lp.allCodeLabels, owner.label.IsLive lp.world
  tables : ∀ scope, lp.codeLabels scope = (lp.allCodeLabels.filter (·.scope = scope)).map (·.label)
  names : ∀ scope, ((lp.codeLabels scope).map (·.name)).Nodup

namespace Consistent
variable {lp : LabelledProgram}

theorem mem_codeLabels (h : lp.Consistent) {scope : ScopeId} {label : CodeLabel} :
    label ∈ lp.codeLabels scope ↔ ⟨label, scope⟩ ∈ lp.allCodeLabels := by
  rw [h.tables scope, List.mem_map]
  constructor
  · rintro ⟨⟨label', scope'⟩, hfilter, rfl⟩
    obtain ⟨hmem, hscope⟩ := List.mem_filter.mp hfilter
    obtain rfl : scope' = scope := of_decide_eq_true hscope
    exact hmem
  · intro hmem
    exact ⟨⟨label, scope⟩, List.mem_filter.mpr ⟨hmem, decide_eq_true rfl⟩, rfl⟩

theorem find?_of_names_nodup {labels : List CodeLabel} {label : CodeLabel} (hnodup : (labels.map (·.name)).Nodup)
    (hmem : label ∈ labels) : labels.find? (fun l => l.name = label.name) = some label := by
  induction labels with
  | nil => simp at hmem
  | cons first labels ih =>
    rw [List.map_cons] at hnodup
    obtain ⟨hnot, hnodup⟩ := List.nodup_cons.mp hnodup
    rcases List.mem_cons.mp hmem with rfl | hmem
    · simp
    · have hne : first.name ≠ label.name := by
        intro heq
        exact hnot (heq ▸ List.mem_map_of_mem hmem)
      rw [List.find?_cons_of_neg (by simpa using hne), ih hnodup hmem]

theorem codeLabel_iff (h : lp.Consistent) {scope : ScopeId} {label : CodeLabel} :
    lp.codeLabel scope label.name = some label ↔ label ∈ lp.codeLabels scope := by
  constructor
  · exact List.mem_of_find?_eq_some
  · exact find?_of_names_nodup (h.names scope)

theorem globalCodeLabel_iff {label : CodeLabel} :
    (∃ index, lp.globalCodeLabel index = some label) ↔ label ∈ lp.allCodeLabels.map (·.label) := by
  rw [List.mem_iff_getElem?]
  simp [globalCodeLabel]

theorem lookupsAgree (h : lp.Consistent) (hvalid : lp.world.Valid) : lp.LookupsAgree := by
  have hall : Addressed lp.world (lp.allCodeLabels.map (·.label)) := by
    intro label hmem
    obtain ⟨owner, howner, rfl⟩ := List.mem_map.mp hmem
    exact (h.live owner howner).address_ne_none hvalid
  have hscope : ∀ scope, Addressed lp.world (lp.codeLabels scope) := by
    intro scope label hmem
    exact (h.live _ (h.mem_codeLabels.mp hmem)).address_ne_none hvalid
  constructor
  · intro index label hfind
    obtain ⟨owner, howner, rfl⟩ := List.mem_map.mp (globalCodeLabel_iff.mp ⟨index, hfind⟩)
    exact h.live owner howner
  · intro address index hnone
    rw [globalCodeLabelAt, findAtAddress_eq hall] at hnone
    cases hnone
  · intro address index label hfind
    exact (address_of_findAtAddress hall hfind).2
  · intro label
    rw [globalCodeLabel_iff]
    exact exists_findAtAddress_iff hall
  · intro label
    rw [globalCodeLabel_iff, List.mem_map]
    constructor
    · rintro ⟨scope, hfind⟩
      exact ⟨⟨label, scope⟩, h.mem_codeLabels.mp (h.codeLabel_iff.mp hfind), rfl⟩
    · rintro ⟨⟨label', scope⟩, hmem, rfl⟩
      exact ⟨scope, h.codeLabel_iff.mpr (h.mem_codeLabels.mpr hmem)⟩
  · intro scope label
    rw [h.codeLabel_iff]
    exact exists_findAtAddress_iff (hscope scope)

/-- A label that is not live any more is found by its index. -/
theorem not_lookupsAgree {owner : LabelOwner} (hmem : owner ∈ lp.allCodeLabels)
    (hdead : ¬owner.label.IsLive lp.world) : ¬lp.LookupsAgree := by
  intro hagree
  obtain ⟨index, hindex⟩ := globalCodeLabel_iff.mpr (List.mem_map_of_mem hmem)
  exact hdead (hagree.live index _ hindex)

theorem addCodeLabel (h : lp.Consistent) {scope : ScopeId} {label : CodeLabel} (hlive : label.IsLive lp.world) :
    (lp.addCodeLabel scope label).Keeps Consistent := by
  unfold LabelledProgram.addCodeLabel
  cases hcontains : lp.containsCodeLabel scope label.name with
  | true => exact h
  | false =>
    have hnew : label.name ∉ (lp.codeLabels scope).map (·.name) := by
      intro hmem
      obtain ⟨l, hl, heq⟩ := List.mem_map.mp hmem
      have hany : lp.containsCodeLabel scope label.name = true := List.any_eq_true.mpr ⟨l, hl, decide_eq_true heq⟩
      rw [hcontains] at hany
      cases hany
    constructor
    · intro owner hmem
      rcases List.mem_append.mp hmem with hmem | hmem
      · exact h.live owner hmem
      · rw [List.mem_singleton.mp hmem]
        exact hlive
    · intro scope'
      by_cases heq : scope' = scope
      · subst heq
        simp [h.tables scope', List.filter_append]
      · simp [heq, Ne.symm heq, h.tables scope', List.filter_append]
    · intro scope'
      by_cases heq : scope' = scope
      · subst heq
        simp only [Function.update_self, List.map_append, List.map_cons, List.map_nil]
        exact List.nodup_append.mpr ⟨h.names scope', List.nodup_singleton _, by
          intro a ha b hb
          rw [List.mem_singleton.mp hb]
          exact fun hab => hnew (hab ▸ ha)⟩
      · simp only [Function.update_of_ne heq]
        exact h.names scope'

end Consistent

end LabelledProgram

end Tce.POM
