import Tce.Storage.CommittedValues

/-!
# The range check of memories

The check subtracts the size of the access from the last address, in words. In a
memory that ends before the access fits, the difference wraps around, and nearly
every address passes.
-/

namespace Tce.Storage

namespace Memory
variable (m : Memory) (address : Word) (count : Nat)

/-- The units that the next commit writes. -/
def requested : List (Word × MAU) := m.writeRequests.flatMap fun request => unitsFrom request.address request.data

/-- Some of the units are at no address of the memory. -/
def SomeOutside : Prop :=
  ∃ i < count, address.toNat + i < m.start.toNat ∨ m.end_.toNat < address.toNat + i

/-- The check throws exactly if a unit is outside, and what a write that is accepted adds to the
next commit is at addresses of the memory. -/
structure RangeChecked : Prop where
  throws : m.checkRange address count = false ↔ m.SomeOutside address count
  commits : ∀ data m', m.write address count data = some (m', .done) →
    ∀ unit ∈ (m.request address (unpack m.MAUSize data count)).requested, unit ∈ m.requested ∨ m.InRange unit.1

/-- The memory does not end before the access fits, or the address is below the memory, or it is one of
the last of all words. -/
def CheckFits : Prop :=
  count ≤ m.end_.toNat + 1 ∨ address.toNat < m.start.toNat ∨ 2 ^ 32 + m.end_.toNat + 1 < address.toNat + count

end Memory

section Correctness
variable {m : Memory} {address : Word} {count : Nat}

theorem Memory.checkRange_eq_false : m.checkRange address count = false ↔
    address.toNat < m.start.toNat ∨ (m.end_ - BitVec.ofNat 32 count + 1).toNat < address.toNat := by
  simp only [Memory.checkRange, BitVec.lt_def, Bool.not_eq_false', Bool.or_eq_true, decide_eq_true_eq]

/-- The last address that passes, which wraps around if the access does not fit. -/
theorem toNat_lastAddress (hpos : 0 < count) (hsize : count ≤ maxAccessSize) :
    (m.end_ - BitVec.ofNat 32 count + 1).toNat =
      if count ≤ m.end_.toNat + 1 then m.end_.toNat + 1 - count else 2 ^ 32 + m.end_.toNat + 1 - count := by
  have hend := m.end_.isLt
  have hone : (1 : Word).toNat = 1 := rfl
  rw [maxAccessSize] at hsize
  rw [BitVec.toNat_add, BitVec.toNat_sub, BitVec.toNat_ofNat, hone]
  split <;> omega

theorem someOutside_of_not_within (hpos : 0 < count) : m.SomeOutside address count ↔ ¬ m.Within address count := by
  rw [Memory.Within]
  constructor
  · rintro ⟨i, hi, hout⟩ ⟨-, hlow, hhigh⟩
    omega
  · intro h
    by_cases hlow : address.toNat < m.start.toNat
    · exact ⟨0, hpos, .inl hlow⟩
    · exact ⟨count - 1, by omega, .inr (by omega)⟩

theorem write_done {data : Word} {m' : Memory} (h : m.write address count data = some (m', .done)) :
    m.checkRange address count = true := by
  rw [Memory.write] at h
  by_cases hcheck : m.checkRange address count = true
  · exact hcheck
  · rw [if_neg hcheck] at h
    cases h

theorem requested_request (data : List MAU) :
    (m.request address data).requested = m.requested ++ unitsFrom address data := by
  simp [Memory.requested, Memory.request]

theorem commits_of_throws (hpos : 0 < count)
    (h : m.checkRange address count = false ↔ m.SomeOutside address count) (data : Word) (m' : Memory)
    (hdone : m.write address count data = some (m', .done)) :
    ∀ unit ∈ (m.request address (unpack m.MAUSize data count)).requested, unit ∈ m.requested ∨ m.InRange unit.1 := by
  have hcheck := write_done hdone
  have hwithin : m.Within address count := by
    by_contra hnot
    rw [h.2 ((someOutside_of_not_within hpos).2 hnot)] at hcheck
    cases hcheck
  intro unit hunit
  rw [requested_request] at hunit
  refine (List.mem_append.1 hunit).imp_right fun hnew => inRange_of_unit ?_ unit hnew
  rwa [length_unpack]

/-- **The range check is right** exactly if it fits. -/
theorem rangeChecked_iff (hpos : 0 < count) (hsize : count ≤ maxAccessSize) :
    m.RangeChecked address count ↔ m.CheckFits address count := by
  have hiff : (m.checkRange address count = false ↔ m.SomeOutside address count) ↔ m.CheckFits address count := by
    have hend := m.end_.isLt
    have haddress := address.isLt
    rw [Memory.checkRange_eq_false, someOutside_of_not_within hpos, toNat_lastAddress hpos hsize, Memory.Within,
      Memory.CheckFits]
    rw [maxAccessSize] at hsize
    by_cases hfits : count ≤ m.end_.toNat + 1
    · rw [if_pos hfits]
      omega
    · rw [if_neg hfits]
      omega
  constructor
  · intro h
    exact hiff.1 h.throws
  · intro h
    exact ⟨hiff.2 h, commits_of_throws hpos (hiff.2 h)⟩

/-- Two units at the end of a memory of two. -/
theorem rangeChecked_pair : (⟨.idealSRAM, 0, 1, 8, [], PagedArray.new 1⟩ : Memory).RangeChecked 0 2 :=
  (rangeChecked_iff (by decide) (by decide)).2 (.inl (by decide))

/-- Four units pass the check of a memory of two. -/
theorem not_rangeChecked_pair : ¬ (⟨.idealSRAM, 0, 1, 8, [], PagedArray.new 1⟩ : Memory).RangeChecked 0 4 := by
  intro h
  have hcheck : (⟨.idealSRAM, 0, 1, 8, [], PagedArray.new 1⟩ : Memory).checkRange 0 4 = true := by decide
  rw [h.throws.2 ⟨2, by decide, .inr (by decide)⟩] at hcheck
  cases hcheck

end Correctness

end Tce.Storage
