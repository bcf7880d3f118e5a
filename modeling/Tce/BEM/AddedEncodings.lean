import Tce.BEM.BEMGenerator

/-!
# Encodings that are added

Encodings of one calculation can be added one after the other: each is past those
that are there, so the test accepts it, and what it stands for is new. A table or a
field then holds just the encodings that were handed out.
-/

namespace Tce.BEM

open Handout

section Calculated
variable {α κ : Type} [DecidableEq α] {width : α → Nat} {keys : α → List κ} {items : List α} {widths : List Nat}
  {encodings : List Encoding} {handed : List (κ × Encoding)}

theorem map_fst_zip_descending (h : calculateEncodings widths = some encodings) :
    (encodings.zip (descending widths)).map (·.1) = encodings := by
  apply List.map_fst_zip
  rw [(calculateEncodings_ordered h).2, (descending_perm widths).length_eq]

theorem map_snd_zip_descending (h : calculateEncodings widths = some encodings) :
    (encodings.zip (descending widths)).map (·.2) = descending widths := by
  apply List.map_snd_zip
  rw [(calculateEncodings_ordered h).2, (descending_perm widths).length_eq]

/-- The encodings handed out are those of the calculation. -/
theorem handed_encodings {rounds : Nat} (h : calculateEncodings widths = some encodings)
    (hh : handOut width keys rounds items (encodings.zip (descending widths)) = some handed) :
    handed.map (·.2) = encodings ∧ (handed.map (·.2)).Pairwise Encoding.Precedes := by
  have heq : handed.map (·.2) = encodings := (handOut_spec hh).1.trans (map_fst_zip_descending h)
  exact ⟨heq, heq ▸ (calculateEncodings_ordered h).1⟩

/-- When the widths are those of the items, each key gets an encoding. -/
theorem handOut_calculated (hwidths : widths.Perm (items.flatMap fun i => List.replicate (keys i).length (width i)))
    (h : calculateEncodings widths = some encodings) :
    ∃ handed, handOut width keys items.length items (encodings.zip (descending widths)) = some handed ∧
      (handed.map (·.1)).Perm (items.flatMap keys) := by
  have hsnd := map_snd_zip_descending h
  have hperm : ((encodings.zip (descending widths)).map (·.2)).Perm
      (items.flatMap fun i => List.replicate (keys i).length (width i)) := by
    rw [hsnd]
    exact (descending_perm widths).trans hwidths
  obtain ⟨handed, hhanded⟩ := handOut_complete (Nat.le_refl _) (by rw [hsnd]; exact descending_sorted widths) hperm
  exact ⟨handed, hhanded, handOut_perm hperm hhanded⟩

end Calculated

section Tables
variable {table table' : SocketCodeTable} {codes : List (PortCode × Encoding)}

/-- The codes with their encodings. -/
def coded (codes : List (PortCode × Encoding)) : List PortCode := codes.map fun c => { c.1 with encoding := some c.2 }

@[simp] theorem coded_cons (c : PortCode × Encoding) (codes : List (PortCode × Encoding)) :
    coded (c :: codes) = { c.1 with encoding := some c.2 } :: coded codes := rfl

theorem SocketCodeTable.addPortCodes_inv (h : table.addPortCodes codes = some table') :
    table' = { table with portCodes := table.portCodes ++ coded codes } := by
  induction codes generalizing table with
  | nil =>
    obtain rfl := Option.some.inj h
    simp [coded]
  | cons c codes ih =>
    obtain ⟨next, hnext, hrest⟩ := Option.bind_eq_some_iff.mp h
    unfold SocketCodeTable.addPortCode at hnext
    split at hnext
    · obtain rfl := Option.some.inj hnext
      simpa using ih hrest
    · cases hnext

/-- What the table asks of codes that are added to it. -/
structure SocketCodeTable.CanAdd (table : SocketCodeTable) (codes : List (PortCode × Encoding)) : Prop where
  ordered : (codes.map (·.2)).Pairwise Encoding.Precedes
  keys : (codes.map (·.1.key)).Nodup
  past : ∀ code ∈ table.portCodes, ∃ e, code.encoding = some e ∧ ∀ c ∈ codes, e.Precedes c.2
  new : ∀ code ∈ table.portCodes, ∀ c ∈ codes, code.key ≠ c.1.key

theorem SocketCodeTable.CanAdd.tail {c : PortCode × Encoding} (h : table.CanAdd (c :: codes)) :
    SocketCodeTable.CanAdd { table with portCodes := table.portCodes ++ [{ c.1 with encoding := some c.2 }] }
      codes where
  ordered := (List.pairwise_cons.mp h.ordered).2
  keys := (List.nodup_cons.mp h.keys).2
  past := by
    intro code hcode
    rcases List.mem_append.mp hcode with hold | hnew
    · obtain ⟨e, he, hpast⟩ := h.past code hold
      exact ⟨e, he, fun d hd => hpast d (List.mem_cons_of_mem _ hd)⟩
    · obtain rfl := List.mem_singleton.mp hnew
      exact ⟨c.2, rfl, fun d hd => (List.pairwise_cons.mp h.ordered).1 d.2 (List.mem_map_of_mem hd)⟩
  new := by
    intro code hcode d hd
    rcases List.mem_append.mp hcode with hold | hnew
    · exact h.new code hold d (List.mem_cons_of_mem _ hd)
    · obtain rfl := List.mem_singleton.mp hnew
      intro heq
      exact (List.nodup_cons.mp h.keys).1 (List.mem_map.mpr ⟨d, hd, heq.symm⟩)

theorem SocketCodeTable.addPortCodes_eq_some (h : table.CanAdd codes) :
    table.addPortCodes codes = some { table with portCodes := table.portCodes ++ coded codes } := by
  induction codes generalizing table with
  | nil => simp [SocketCodeTable.addPortCodes, coded]
  | cons c codes ih =>
    have hcan : table.canAddPortEncoding c.2 = true := by
      apply List.all_eq_true.mpr
      intro code hcode
      obtain ⟨e, he, hpast⟩ := h.past code hcode
      have hsep := (hpast c List.mem_cons_self).separate
      have hamb := (not_congr ambiguous_iff).mpr (not_not_intro hsep)
      simpa [he] using hamb
    have hnew : table.hasPortCode c.1.key = false := by
      apply List.any_eq_false.mpr
      intro code hcode
      simpa using h.new code hcode c List.mem_cons_self
    have hadd : table.addPortCode { c.1 with encoding := some c.2 } =
        some { table with portCodes := table.portCodes ++ [{ c.1 with encoding := some c.2 }] } := by
      simp [SocketCodeTable.addPortCode, SocketCodeTable.canAddPortCode, hcan, hnew]
    simp only [SocketCodeTable.addPortCodes, hadd, Option.bind_some, ih h.tail]
    simp

end Tables

section Fields
variable {field field' : SlotField} {handed : List (Component × Encoding)}

theorem SlotField.addEncodings_inv (h : field.addEncodings handed = some field') :
    field' = { field with encodings := field.encodings ++ handed } := by
  induction handed generalizing field with
  | nil =>
    obtain rfl := Option.some.inj h
    simp
  | cons c handed ih =>
    obtain ⟨next, hnext, hrest⟩ := Option.bind_eq_some_iff.mp h
    unfold SlotField.addEncoding at hnext
    split at hnext
    · cases hnext
    · obtain rfl := Option.some.inj hnext
      simpa using ih hrest

/-- What the field asks of encodings that are added to it. -/
structure SlotField.CanAdd (field : SlotField) (handed : List (Component × Encoding)) : Prop where
  left : field.componentIDPosition = .left
  ordered : ((field.encodings ++ handed).map (·.2)).Pairwise Encoding.Precedes
  distinct : (field.encodings ++ handed).Pairwise fun c d => c.1.same d.1 = false
  bridges : (field.encodings ++ handed).countP (fun c => c.1.isBridge) ≤ 2
  immediates : ∀ c ∈ field.encodings ++ handed, ∀ w, c.1 = .immediate w → 0 < w

theorem not_ambiguous_tested {component : Component} {enc existing : Encoding} (h : existing.Precedes enc)
    (himm : ∀ w, component = .immediate w → 0 < w) :
    ambiguous enc existing (component.testedWidth existing)
      ((component.testedWidth existing : Int) - enc.width) = false := by
  have hplain := (not_congr ambiguous_iff).mpr (not_not_intro h.separate)
  cases component with
  | immediate w =>
    exact not_ambiguous_shifted (himm w rfl) (Nat.lt_of_lt_of_le h.width_pos h.1)
  | nop => simpa [Component.testedWidth] using hplain
  | socket _ _ => simpa [Component.testedWidth] using hplain
  | bridge _ => simpa [Component.testedWidth] using hplain

theorem SlotField.CanAdd.addEncoding {c : Component × Encoding} (h : field.CanAdd (c :: handed)) :
    field.addEncoding c.1 c.2 = some { field with encodings := field.encodings ++ [c] } := by
  have hord := (List.pairwise_append.mp (List.map_append ▸ h.ordered)).2.2
  have hsame : field.encodings.any (fun d => d.1.same c.1) = false := by
    apply List.any_eq_false.mpr
    intro d hd
    simp [(List.pairwise_append.mp h.distinct).2.2 d hd c List.mem_cons_self]
  have hcan : field.canAddComponentEncoding c.2 = true := by
    apply List.all_eq_true.mpr
    intro d hd
    have hmem : d ∈ field.encodings := by
      unfold SlotField.tested at hd
      split at hd
      · exact hd
      · exact (List.mem_filter.mp hd).1
    have hpre := hord d.2 (List.mem_map_of_mem hmem) c.2 (by simp)
    have hamb := not_ambiguous_tested hpre (h.immediates d (List.mem_append_left _ hmem))
    simp [SlotField.calculateAlignment, h.left, hamb]
  have hbridges : c.1.isBridge = true → field.encodings.countP (fun d => d.1.isBridge) ≠ 2 := by
    intro hb h2
    have := h.bridges
    rw [List.countP_append, h2, List.countP_cons_of_pos (p := fun d : Component × Encoding => d.1.isBridge) hb] at this
    omega
  have hfull : (c.1.isBridge && (field.encodings.countP fun d => d.1.isBridge) = 2) = false := by
    simpa using hbridges
  simp [SlotField.addEncoding, hsame, hcan, hfull]

theorem SlotField.addEncodings_eq_some (h : field.CanAdd handed) :
    field.addEncodings handed = some { field with encodings := field.encodings ++ handed } := by
  induction handed generalizing field with
  | nil => simp [SlotField.addEncodings]
  | cons c handed ih =>
    have hnext : SlotField.CanAdd { field with encodings := field.encodings ++ [c] } handed := by
      constructor
      · exact h.left
      · simpa using h.ordered
      · simpa using h.distinct
      · simpa using h.bridges
      · simpa using h.immediates
    simp only [SlotField.addEncodings, h.addEncoding, Option.bind_some, ih hnext]
    simp

end Fields

end Tce.BEM
