import Tce.BEM.BEMGenerator
import Tce.Base.Dictionary

/-!
# Destination register fields of long immediates

The widths of the fields are those the templates require, the narrowest field is
filled first, and a destination goes to the first field it fits in. A template that
has two destinations for one field stops the generator; when there is none, every
destination with several registers has a field of its own.
-/

namespace Tce.BEM

section Widths
variable {widths sizes : List Nat}

theorem length_increase (widths sizes : List Nat) : (increase widths sizes).length = widths.length := by
  induction widths generalizing sizes with
  | nil => cases sizes <;> rfl
  | cons w widths ih => cases sizes <;> simp [increase, ih]

theorem exists_le_increase {w : Nat} (h : w ∈ widths) : ∃ w' ∈ increase widths sizes, w ≤ w' := by
  induction widths generalizing sizes with
  | nil => cases h
  | cons v widths ih =>
    cases sizes with
    | nil => exact ⟨w, h, Nat.le_refl _⟩
    | cons s sizes =>
      rcases List.mem_cons.mp h with rfl | hmem
      · exact ⟨_, List.mem_cons_self, Nat.le_max_left _ _⟩
      · obtain ⟨w', hw', hle⟩ := ih hmem
        exact ⟨w', List.mem_cons_of_mem _ hw', hle⟩

theorem exists_size_le_increase {s : Nat} (hlen : sizes.length ≤ widths.length) (h : s ∈ sizes) :
    ∃ w ∈ increase widths sizes, s ≤ w := by
  induction sizes generalizing widths with
  | nil => cases h
  | cons t sizes ih =>
    cases widths with
    | nil => simp at hlen
    | cons v widths =>
      rcases List.mem_cons.mp h with rfl | hmem
      · exact ⟨_, List.mem_cons_self, Nat.le_max_right _ _⟩
      · obtain ⟨w, hw, hle⟩ := ih (by simpa using hlen) hmem
        exact ⟨w, List.mem_cons_of_mem _ hw, hle⟩

theorem le_of_mem_increase {w : Nat} (h : w ∈ increase widths sizes) : ∃ v ∈ widths, v ≤ w := by
  induction widths generalizing sizes with
  | nil => cases sizes <;> cases h
  | cons v widths ih =>
    cases sizes with
    | nil => exact ⟨w, h, Nat.le_refl _⟩
    | cons s sizes =>
      rcases List.mem_cons.mp h with rfl | hmem
      · exact ⟨v, List.mem_cons_self, Nat.le_max_left _ _⟩
      · obtain ⟨v', hv', hle⟩ := ih hmem
        exact ⟨v', List.mem_cons_of_mem _ hv', hle⟩

theorem size_le_of_mem_increase {w : Nat} (hlen : widths.length = sizes.length) (h : w ∈ increase widths sizes) :
    ∃ s ∈ sizes, s ≤ w := by
  induction widths generalizing sizes with
  | nil => cases sizes <;> cases h
  | cons v widths ih =>
    cases sizes with
    | nil => simp at hlen
    | cons s sizes =>
      rcases List.mem_cons.mp h with rfl | hmem
      · exact ⟨s, List.mem_cons_self, Nat.le_max_right _ _⟩
      · obtain ⟨s', hs', hle⟩ := ih (by simpa using hlen) hmem
        exact ⟨s', List.mem_cons_of_mem _ hs', hle⟩

theorem le_max_of_mem_increase {w a b : Nat} (hw : ∀ x ∈ widths, x ≤ a) (hs : ∀ x ∈ sizes, x ≤ b)
    (h : w ∈ increase widths sizes) : w ≤ max a b := by
  induction widths generalizing sizes with
  | nil => cases sizes <;> cases h
  | cons v widths ih =>
    have hv := hw v List.mem_cons_self
    cases sizes with
    | nil =>
      have := hw w h
      omega
    | cons s sizes =>
      have hsb := hs s List.mem_cons_self
      rcases List.mem_cons.mp h with rfl | hmem
      · omega
      · exact ih (fun x hx => hw x (List.mem_cons_of_mem _ hx)) (fun x hx => hs x (List.mem_cons_of_mem _ hx)) hmem

theorem increase_sorted (hw : widths.Pairwise (· ≥ ·)) (hs : sizes.Pairwise (· ≥ ·)) :
    (increase widths sizes).Pairwise (· ≥ ·) := by
  induction widths generalizing sizes with
  | nil => cases sizes <;> exact List.Pairwise.nil
  | cons w widths ih =>
    cases sizes with
    | nil => exact hw
    | cons s sizes =>
      obtain ⟨hwall, hwtail⟩ := List.pairwise_cons.mp hw
      obtain ⟨hsall, hstail⟩ := List.pairwise_cons.mp hs
      exact List.pairwise_cons.mpr ⟨fun x hx => le_max_of_mem_increase hwall hsall hx, ih hwtail hstail⟩

end Widths

section FieldWidths
variable {m : Machine} {iTemp : PIG.InstructionTemplate} {iu : ImmediateUnit}

theorem length_requiredSizes : (requiredSizes m iTemp).length = (indexedDestinations m iTemp).length := by
  rw [requiredSizes, (descending_perm _).length_eq, List.length_map]

theorem length_le_fieldCount (h : iTemp ∈ m.instructionTemplates) :
    (indexedDestinations m iTemp).length ≤ fieldCount m :=
  le_foldr_max (List.mem_map_of_mem (f := fun t => (indexedDestinations m t).length) h)

theorem mem_requiredSizes (h : iu ∈ indexedDestinations m iTemp) : indexLength iu ∈ requiredSizes m iTemp :=
  (descending_perm _).mem_iff.mpr (List.mem_map_of_mem h)

theorem requiredSizes_pos {s : Nat} (h : s ∈ requiredSizes m iTemp) : 0 < s := by
  obtain ⟨iu, hiu, rfl⟩ := List.mem_map.mp ((descending_perm _).mem_iff.mp h)
  have := (List.mem_filter.mp hiu).2
  simp only [Bool.and_eq_true, decide_eq_true_eq] at this
  exact bitLength_pos (by omega)

/-- The widths after a part of the templates. -/
theorem foldl_increase (templates : List PIG.InstructionTemplate) (hlen : ∀ t ∈ templates,
    (indexedDestinations m t).length ≤ fieldCount m) {widths : List Nat} (hw : widths.length = fieldCount m)
    (hsorted : widths.Pairwise (· ≥ ·)) :
    let result := templates.foldl (fun widths iTemp => increase widths (requiredSizes m iTemp)) widths
    result.length = fieldCount m ∧ result.Pairwise (· ≥ ·) ∧
      (∀ w ∈ widths, ∃ w' ∈ result, w ≤ w') ∧
      (∀ t ∈ templates, ∀ s ∈ requiredSizes m t, ∃ w ∈ result, s ≤ w) ∧
      ((∀ w ∈ widths, 0 < w) ∨ (∃ t ∈ templates, (indexedDestinations m t).length = fieldCount m) →
        ∀ w ∈ result, 0 < w) := by
  induction templates generalizing widths with
  | nil =>
    refine ⟨hw, hsorted, fun w hw => ⟨w, hw, Nat.le_refl _⟩, by simp, ?_⟩
    rintro (hpos | ⟨t, ht, _⟩)
    · exact hpos
    · cases ht
  | cons t templates ih =>
    have hsize : (requiredSizes m t).length ≤ widths.length := by
      rw [length_requiredSizes, hw]
      exact hlen t List.mem_cons_self
    obtain ⟨hlen', hsort', hold, hnew, hpos⟩ := ih (fun t' ht' => hlen t' (List.mem_cons_of_mem _ ht'))
      (show (increase widths (requiredSizes m t)).length = fieldCount m by rw [length_increase, hw])
      (increase_sorted hsorted (descending_sorted _))
    refine ⟨hlen', hsort', ?_, ?_, ?_⟩
    · intro w hmem
      obtain ⟨w', hw', hle⟩ := exists_le_increase hmem
      obtain ⟨w'', hw'', hle'⟩ := hold w' hw'
      exact ⟨w'', hw'', Nat.le_trans hle hle'⟩
    · intro t' ht' s hs
      rcases List.mem_cons.mp ht' with rfl | hmem
      · obtain ⟨w, hwmem, hle⟩ := exists_size_le_increase hsize hs
        obtain ⟨w', hw', hle'⟩ := hold w hwmem
        exact ⟨w', hw', Nat.le_trans hle hle'⟩
      · exact hnew t' hmem s hs
    · rintro (hposw | ⟨t', ht', hfull⟩)
      · refine hpos (.inl fun w hmem => ?_)
        obtain ⟨v, hv, hle⟩ := le_of_mem_increase hmem
        exact Nat.lt_of_lt_of_le (hposw v hv) hle
      · rcases List.mem_cons.mp ht' with rfl | hmem
        · refine hpos (.inl fun w hwmem => ?_)
          have hsame : widths.length = (requiredSizes m t').length := by rw [length_requiredSizes, hw, hfull]
          obtain ⟨s, hs, hle⟩ := size_le_of_mem_increase hsame hwmem
          exact Nat.lt_of_lt_of_le (requiredSizes_pos hs) hle
        · exact hpos (.inr ⟨t', hmem, hfull⟩)

theorem fieldWidths_sorted (m : Machine) : (fieldWidths m).Pairwise (· ≥ ·) :=
  (foldl_increase m.instructionTemplates (fun _ h => length_le_fieldCount h) List.length_replicate
    (List.pairwise_replicate.mpr (.inr (Nat.le_refl _)))).2.1

theorem exists_fieldWidth (ht : iTemp ∈ m.instructionTemplates) (hiu : iu ∈ indexedDestinations m iTemp) :
    ∃ w ∈ fieldWidths m, indexLength iu ≤ w :=
  (foldl_increase m.instructionTemplates (fun _ h => length_le_fieldCount h) List.length_replicate
    (List.pairwise_replicate.mpr (.inr (Nat.le_refl _)))).2.2.2.1 iTemp ht _ (mem_requiredSizes hiu)

theorem exists_foldr_max {l : List Nat} (h : 0 < l.foldr max 0) : l.foldr max 0 ∈ l := by
  induction l with
  | nil => simp at h
  | cons n l ih =>
    simp only [List.foldr_cons] at h ⊢
    rcases Nat.le_total (l.foldr max 0) n with hle | hge
    · rw [Nat.max_eq_left hle]
      exact List.mem_cons_self
    · rw [Nat.max_eq_right hge] at h ⊢
      exact List.mem_cons_of_mem _ (ih h)

theorem fieldWidths_pos {w : Nat} (h : w ∈ fieldWidths m) : 0 < w := by
  have hrun := foldl_increase m.instructionTemplates (fun _ h => length_le_fieldCount h) List.length_replicate
    (List.pairwise_replicate.mpr (.inr (Nat.le_refl 0)))
  by_cases hcount : 0 < fieldCount m
  · obtain ⟨t, ht, hfull⟩ := List.mem_map.mp (exists_foldr_max hcount)
    exact hrun.2.2.2.2 (.inr ⟨t, ht, hfull⟩) w h
  · have hnil : fieldWidths m = [] := List.eq_nil_of_length_eq_zero (hrun.1.trans (by omega))
    rw [hnil] at h
    cases h

end FieldWidths

section Destinations
variable {m : Machine} {pairs : List (PIG.InstructionTemplate × ImmediateUnit)} {mapped : List ImmDstMapping}
  {field : LImmDstRegisterField}

/-- The names of a template and an immediate unit. -/
def mappingOf (pair : PIG.InstructionTemplate × ImmediateUnit) : ImmDstMapping := (pair.1.name, pair.2.name)

/-- The destinations a field of this width takes: those that fit and have no field yet. -/
def taken (pairs : List (PIG.InstructionTemplate × ImmediateUnit)) (mapped : List ImmDstMapping) (width : Nat) :
    List ImmDstMapping :=
  (pairs.filter fun pair => indexLength pair.2 ≤ width && !mapped.contains (mappingOf pair)).map mappingOf

theorem mem_taken {mapping : ImmDstMapping} {width : Nat} : mapping ∈ taken pairs mapped width ↔
    ∃ pair ∈ pairs, mappingOf pair = mapping ∧ indexLength pair.2 ≤ width ∧ mapping ∉ mapped := by
  simp only [taken, List.mem_map, List.mem_filter, Bool.and_eq_true, decide_eq_true_eq, List.contains_eq_mem,
    Bool.not_eq_true', decide_eq_false_iff_not]
  constructor
  · rintro ⟨pair, ⟨hmem, hle, hnot⟩, rfl⟩
    exact ⟨pair, hmem, rfl, hle, hnot⟩
  · rintro ⟨pair, hmem, rfl, hle, hnot⟩
    exact ⟨pair, ⟨hmem, hle, hnot⟩, rfl⟩

theorem taken_congr {mapped' : List ImmDstMapping} {width : Nat}
    (h : ∀ pair ∈ pairs, mappingOf pair ∈ mapped ↔ mappingOf pair ∈ mapped') :
    taken pairs mapped width = taken pairs mapped' width := by
  unfold taken
  congr 1
  apply List.filter_congr
  intro pair hpair
  simp only [List.contains_eq_mem, h pair hpair]

/-- A field takes its destinations when no two of them have one template. -/
theorem addDestinations_eq_some (hpairs : (pairs.map mappingOf).Nodup)
    (hone : ((field.destinationMap ++ taken pairs mapped field.width).map (·.1)).Nodup) :
    ∃ mapped' field', addDestinations pairs mapped field = some (mapped', field') ∧
      (∀ mapping, mapping ∈ mapped' ↔ mapping ∈ mapped ∨ mapping ∈ taken pairs mapped field.width) ∧
      field' = { field with destinationMap := field.destinationMap ++ taken pairs mapped field.width } := by
  induction pairs generalizing mapped field with
  | nil => exact ⟨mapped, field, rfl, by simp [taken], by simp [taken]⟩
  | cons pair pairs ih =>
    obtain ⟨iTemp, iu⟩ := pair
    obtain ⟨hnotin, htail⟩ := List.nodup_cons.mp hpairs
    by_cases hfits : (indexLength iu ≤ field.width && (iTemp.name, iu.name) ∉ mapped) = true
    · have htaken : taken ((iTemp, iu) :: pairs) mapped field.width =
          (iTemp.name, iu.name) :: taken pairs mapped field.width := by
        rw [taken, List.filter_cons_of_pos (by simpa [mappingOf] using hfits)]
        rfl
      have hcongr : taken pairs ((iTemp.name, iu.name) :: mapped) field.width = taken pairs mapped field.width := by
        apply taken_congr
        intro p hp
        have : mappingOf p ≠ (iTemp.name, iu.name) := fun he => hnotin (List.mem_map.mpr ⟨p, hp, he⟩)
        simp [this]
      rw [htaken] at hone
      have hnew : field.destinationMap.lookup iTemp.name = none := by
        apply List.lookup_eq_none_iff.mpr
        intro p hp
        have := (List.nodup_append.mp (List.map_append ▸ hone)).2.2 p.1 (List.mem_map_of_mem hp) iTemp.name (by simp)
        simpa using Ne.symm this
      have hadd : field.addDestination iTemp.name iu.name =
          some { field with destinationMap := field.destinationMap ++ [(iTemp.name, iu.name)] } := by
        simp [LImmDstRegisterField.addDestination, hnew]
      have hone' : (((field.destinationMap ++ [(iTemp.name, iu.name)]) ++
          taken pairs ((iTemp.name, iu.name) :: mapped) field.width).map (·.1)).Nodup := by
        simpa [hcongr] using hone
      obtain ⟨mapped', field', hrun, hmapped, hfield⟩ :=
        @ih _ { field with destinationMap := field.destinationMap ++ [(iTemp.name, iu.name)] } htail hone'
      refine ⟨mapped', field', by simp only [addDestinations, hfits, if_true, hadd, Option.bind_some, hrun], ?_, ?_⟩
      · intro mapping
        rw [hmapped, hcongr, htaken, List.mem_cons, List.mem_cons]
        tauto
      · rw [hfield, htaken, hcongr]
        simp
    · have htaken : taken ((iTemp, iu) :: pairs) mapped field.width = taken pairs mapped field.width := by
        rw [taken, List.filter_cons_of_neg (by simpa [mappingOf] using hfits)]
        rfl
      rw [htaken] at hone ⊢
      obtain ⟨mapped', field', hrun, hrest⟩ := ih htail hone
      exact ⟨mapped', field', by simp only [addDestinations, hfits, Bool.false_eq_true, if_false, hrun], hrest⟩

/-- No two indexed destinations of a template fit in the same fields. -/
def DestinationsApart (m : Machine) : Prop :=
  ∀ iTemp ∈ m.instructionTemplates, ∀ iu ∈ indexedDestinations m iTemp, ∀ iu' ∈ indexedDestinations m iTemp,
    iu ≠ iu' → ∃ w ∈ fieldWidths m, ¬ (indexLength iu ≤ w ↔ indexLength iu' ≤ w)

theorem mem_destinationPairs {iTemp : PIG.InstructionTemplate} {iu : ImmediateUnit} :
    (iTemp, iu) ∈ destinationPairs m ↔ iTemp ∈ m.instructionTemplates ∧ iu ∈ indexedDestinations m iTemp := by
  simp [destinationPairs]

theorem template_eq {t t' : PIG.InstructionTemplate} (h : t ∈ m.instructionTemplates) (h' : t' ∈ m.instructionTemplates)
    (he : t.name = t'.name) : t = t' :=
  List.inj_on_of_nodup_map m.instructionTemplates_nodup h h' he

theorem immediateUnit_eq {iu iu' : ImmediateUnit} (h : iu ∈ m.immediateUnits) (h' : iu' ∈ m.immediateUnits)
    (he : iu.name = iu'.name) : iu = iu' :=
  List.inj_on_of_nodup_map m.immediateUnits_nodup h h' he

theorem mappings_nodup (m : Machine) : ((destinationPairs m).map mappingOf).Nodup := by
  have hunits : m.immediateUnits.Nodup := List.Nodup.of_map _ m.immediateUnits_nodup
  have hpairs : (destinationPairs m).Nodup := by
    apply List.nodup_flatMap.mpr
    constructor
    · intro t ht
      exact (hunits.filter _).map fun a b h => (Prod.mk.inj h).2
    · refine (List.Nodup.of_map _ m.instructionTemplates_nodup).imp fun {t t'} hne => ?_
      intro pair h h'
      obtain ⟨_, _, rfl⟩ := List.mem_map.mp h
      obtain ⟨_, _, he⟩ := List.mem_map.mp h'
      exact hne (Prod.mk.inj he).1.symm
  refine hpairs.map_on ?_
  rintro ⟨t, iu⟩ h ⟨t', iu'⟩ h' he
  obtain ⟨ht, hiu⟩ := mem_destinationPairs.mp h
  obtain ⟨ht', hiu'⟩ := mem_destinationPairs.mp h'
  obtain ⟨htname, hiuname⟩ := Prod.mk.inj he
  obtain rfl := template_eq ht ht' htname
  obtain rfl := immediateUnit_eq (List.mem_of_mem_filter hiu) (List.mem_of_mem_filter hiu') hiuname
  rfl

/-- The mappings after the fields of some widths: those of the destinations that fit in one. -/
def MappedBy (m : Machine) (mapped : List ImmDstMapping) (widths : List Nat) : Prop :=
  ∀ pair ∈ destinationPairs m, mappingOf pair ∈ mapped ↔ ∃ w ∈ widths, indexLength pair.2 ≤ w

/-- Of the destinations of a template a field takes at most one. -/
theorem taken_nodup (h : DestinationsApart m) {before after : List Nat} {width : Nat}
    (hwidths : (fieldWidths m).reverse = before ++ width :: after) (hmapped : MappedBy m mapped before) :
    ((taken (destinationPairs m) mapped width).map (·.1)).Nodup := by
  have hsorted : (before ++ width :: after).Pairwise (· ≤ ·) := by
    rw [← hwidths]
    exact List.pairwise_reverse.mpr (fieldWidths_sorted m)
  have hafter : ∀ w ∈ after, width ≤ w :=
    (List.pairwise_cons.mp (List.pairwise_append.mp hsorted).2.1).1
  have hnodup : (taken (destinationPairs m) mapped width).Nodup :=
    (mappings_nodup m).sublist (List.Sublist.map _ List.filter_sublist)
  refine hnodup.map_on ?_
  intro a ha b hb he
  obtain ⟨⟨t, iu⟩, hpair, rfl, hle, hnew⟩ := mem_taken.mp ha
  obtain ⟨⟨t', iu'⟩, hpair', rfl, hle', hnew'⟩ := mem_taken.mp hb
  obtain ⟨ht, hiu⟩ := mem_destinationPairs.mp hpair
  obtain ⟨ht', hiu'⟩ := mem_destinationPairs.mp hpair'
  obtain rfl := template_eq ht ht' he
  by_cases hsame : iu = iu'
  · rw [hsame]
  · exfalso
    obtain ⟨w, hw, hdiff⟩ := h t ht iu hiu iu' hiu' hsame
    apply hdiff
    rcases List.mem_append.mp (hwidths ▸ List.mem_reverse.mpr hw) with hbefore | hrest
    · have h1 := fun hfit => hnew ((hmapped _ hpair).mpr ⟨w, hbefore, hfit⟩)
      have h2 := fun hfit => hnew' ((hmapped _ hpair').mpr ⟨w, hbefore, hfit⟩)
      exact ⟨fun hfit => absurd hfit h1, fun hfit => absurd hfit h2⟩
    · have hwidth : width ≤ w := by
        rcases List.mem_cons.mp hrest with rfl | hmem
        · exact Nat.le_refl _
        · exact hafter w hmem
      exact ⟨fun _ => Nat.le_trans hle' hwidth, fun _ => Nat.le_trans hle hwidth⟩

/-- Fields of which each destination left that fits in one has one, and none has two. -/
structure FieldsFor (m : Machine) (mapped : List ImmDstMapping) (widths : List Nat)
    (fields : List LImmDstRegisterField) : Prop where
  functional : ∀ field ∈ fields, (field.destinationMap.map (·.1)).Nodup
  unmapped : ∀ field ∈ fields, ∀ mapping ∈ field.destinationMap, mapping ∉ mapped
  disjoint : fields.Pairwise fun f g => ∀ mapping ∈ f.destinationMap, mapping ∉ g.destinationMap
  complete : ∀ pair ∈ destinationPairs m, mappingOf pair ∉ mapped → (∃ w ∈ widths, indexLength pair.2 ≤ w) →
    ∃ field ∈ fields, mappingOf pair ∈ field.destinationMap ∧ indexLength pair.2 ≤ field.width

theorem addFields_eq_some (h : DestinationsApart m) {before widths : List Nat}
    (hwidths : (fieldWidths m).reverse = before ++ widths) (hmapped : MappedBy m mapped before) :
    ∃ fields, addFields m widths mapped = some fields ∧ FieldsFor m mapped widths fields := by
  induction widths generalizing before mapped with
  | nil => exact ⟨[], rfl, by simp, by simp, List.Pairwise.nil, by simp⟩
  | cons width widths ih =>
    have hpos : 0 < width := fieldWidths_pos (m := m) (List.mem_reverse.mp (hwidths ▸ by simp))
    have hone : ((LImmDstRegisterField.destinationMap ⟨width, []⟩ ++ taken (destinationPairs m) mapped width).map
        (·.1)).Nodup := by
      simpa using taken_nodup h hwidths hmapped
    obtain ⟨mapped', field, hrun, hmem, hfield⟩ := addDestinations_eq_some (mappings_nodup m) hone
    rw [List.nil_append] at hfield
    have hmapped' : MappedBy m mapped' (before ++ [width]) := by
      intro pair hpair
      rw [hmem, hmapped pair hpair, mem_taken]
      constructor
      · rintro (⟨w, hw, hle⟩ | ⟨other, hother, he, hle, _⟩)
        · exact ⟨w, List.mem_append_left _ hw, hle⟩
        · obtain rfl := List.inj_on_of_nodup_map (mappings_nodup m) hother hpair he
          exact ⟨width, by simp, hle⟩
      · rintro ⟨w, hw, hle⟩
        rcases List.mem_append.mp hw with hold | hnew
        · exact .inl ⟨w, hold, hle⟩
        · obtain rfl := List.mem_singleton.mp hnew
          by_cases hin : mappingOf pair ∈ mapped
          · exact .inl ((hmapped pair hpair).mp hin)
          · exact .inr ⟨pair, hpair, rfl, hle, hin⟩
    obtain ⟨fields, hfields, hrest⟩ := ih (by simpa using hwidths) hmapped'
    refine ⟨field :: fields, ?_, ?_, ?_, ?_, ?_⟩
    · have : ¬ width < 1 := by omega
      simp only [addFields, if_neg this, hrun, Option.bind_some, hfields, Option.map_some]
    · intro f hf
      rcases List.mem_cons.mp hf with rfl | hmemf
      · rw [hfield]
        exact taken_nodup h hwidths hmapped
      · exact hrest.functional f hmemf
    · intro f hf mapping hmapping
      rcases List.mem_cons.mp hf with rfl | hmemf
      · rw [hfield] at hmapping
        obtain ⟨_, _, _, _, hnot⟩ := mem_taken.mp hmapping
        exact hnot
      · exact fun hin => hrest.unmapped f hmemf mapping hmapping ((hmem mapping).mpr (.inl hin))
    · refine List.pairwise_cons.mpr ⟨fun g hg mapping hmapping hin => ?_, hrest.disjoint⟩
      rw [hfield] at hmapping
      exact hrest.unmapped g hg mapping hin ((hmem mapping).mpr (.inr hmapping))
    · intro pair hpair hnot hfit
      by_cases hnow : indexLength pair.2 ≤ width
      · refine ⟨field, List.mem_cons_self, ?_, ?_⟩
        · rw [hfield]
          exact mem_taken.mpr ⟨pair, hpair, rfl, hnow, hnot⟩
        · rw [hfield]
          exact hnow
      · have hnot' : mappingOf pair ∉ mapped' := by
          intro hin
          obtain ⟨other, hother, he, hle, _⟩ := mem_taken.mp (((hmem _).mp hin).resolve_left hnot)
          obtain rfl := List.inj_on_of_nodup_map (mappings_nodup m) hother hpair he
          exact hnow hle
        have hfit' : ∃ w ∈ widths, indexLength pair.2 ≤ w := by
          obtain ⟨w, hw, hle⟩ := hfit
          rcases List.mem_cons.mp hw with rfl | hmemw
          · exact absurd hle hnow
          · exact ⟨w, hmemw, hle⟩
        obtain ⟨f, hf, hin, hle⟩ := hrest.complete pair hpair hnot' hfit'
        exact ⟨f, List.mem_cons_of_mem _ hf, hin, hle⟩

/-- `LImmDstRegisterField::immediateUnit`: none when it throws. -/
def LImmDstRegisterField.immediateUnit (field : LImmDstRegisterField) (instructionTemplate : String) : Option String :=
  field.destinationMap.lookup instructionTemplate

/-- Every destination with several registers gets one field, wide enough for its index, and
no other destination of its template gets it. -/
theorem addLongImmDstRegisterFields_eq_some (h : DestinationsApart m) :
    ∃ fields, addLongImmDstRegisterFields m = some fields ∧
      (fields.Pairwise fun f g => ∀ mapping ∈ f.destinationMap, mapping ∉ g.destinationMap) ∧
      ∀ iTemp ∈ m.instructionTemplates, ∀ iu ∈ indexedDestinations m iTemp, ∃ field ∈ fields,
        field.immediateUnit iTemp.name = some iu.name ∧ indexLength iu ≤ field.width := by
  have hnone : MappedBy m [] [] := by simp [MappedBy]
  obtain ⟨fields, hrun, hfields⟩ := addFields_eq_some h (List.nil_append (fieldWidths m).reverse).symm hnone
  refine ⟨fields, hrun, hfields.disjoint, ?_⟩
  intro iTemp ht iu hiu
  obtain ⟨w, hw, hle⟩ := exists_fieldWidth ht hiu
  obtain ⟨field, hfield, hmem, hwidth⟩ := hfields.complete (iTemp, iu) (mem_destinationPairs.mpr ⟨ht, hiu⟩) (by simp)
    ⟨w, List.mem_reverse.mpr hw, hle⟩
  exact ⟨field, hfield, Dictionary.lookup_of_mem (hfields.functional field hfield) hmem, hwidth⟩

end Destinations

end Tce.BEM
