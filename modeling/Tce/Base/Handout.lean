import Mathlib.Data.List.Sort

/-!
# Handing out by width

Codes for given widths, the widest first, go to items that need some codes each.
Each round looks for the first item left with the width of the next code, and the
item takes as many codes as it needs from there on. When the widths are those of
the items every item gets its codes.
-/

namespace Tce.Handout
variable {α κ ε : Type} [DecidableEq α] (width : α → Nat) (keys : α → List κ)

/-- Gives up when no item is left for a code, or an item needs more codes than there are. -/
def handOut : Nat → List α → List (ε × Nat) → Option (List (κ × ε))
  | _, _, [] => some []
  | 0, _, _ :: _ => none
  | rounds + 1, items, (code, w) :: codes =>
    match items.find? fun item => width item = w with
    | none => none
    | some item =>
      if (keys item).length ≤ codes.length + 1 then
        (handOut rounds (items.erase item) (((code, w) :: codes).drop (keys item).length)).map
          ((keys item).zip ((((code, w) :: codes).map (·.1)).take (keys item).length) ++ ·)
      else none

variable {width keys}

theorem flatMap_perm_erase {β : Type} {items : List α} {item : α} (h : item ∈ items) (f : α → List β) :
    (items.flatMap f).Perm (f item ++ (items.erase item).flatMap f) := by
  have := (List.perm_cons_erase h).flatMap_right f
  simpa using this

/-- Each code goes to one key, in the order of the codes, and no key gets two. -/
theorem handOut_spec {rounds : Nat} {items : List α} {codes : List (ε × Nat)} {handed : List (κ × ε)}
    (h : handOut width keys rounds items codes = some handed) :
    handed.map (·.2) = codes.map (·.1) ∧ ∃ left, (handed.map (·.1) ++ left).Perm (items.flatMap keys) := by
  induction rounds generalizing items codes handed with
  | zero =>
    cases codes with
    | nil =>
      obtain rfl := Option.some.inj h
      exact ⟨rfl, _, List.Perm.refl _⟩
    | cons c codes => cases h
  | succ rounds ih =>
    cases codes with
    | nil =>
      obtain rfl := Option.some.inj h
      exact ⟨rfl, _, List.Perm.refl _⟩
    | cons c codes =>
      obtain ⟨code, w⟩ := c
      simp only [handOut] at h
      split at h
      case h_1 => cases h
      rename_i item hitem
      split at h
      case isFalse => cases h
      rename_i hlen
      obtain ⟨tail, htail, rfl⟩ := Option.map_eq_some_iff.mp h
      obtain ⟨hcodes, left, hperm⟩ := ih htail
      have hle : ((((code, w) :: codes).map (·.1)).take (keys item).length).length = (keys item).length := by
        rw [List.length_take, List.length_map, List.length_cons, Nat.min_eq_left hlen]
      constructor
      · rw [List.map_append, hcodes, List.map_snd_zip hle.le, List.map_drop, List.take_append_drop]
      · refine ⟨left, ?_⟩
        rw [List.map_append, List.map_fst_zip hle.ge, List.append_assoc]
        exact (hperm.append_left _).trans (flatMap_perm_erase (List.mem_of_find?_eq_some hitem) keys).symm

theorem drop_perm {widths left : List Nat} {w n : Nat} (hsorted : widths.Pairwise (· ≥ ·))
    (hmax : ∀ x ∈ widths, x ≤ w) (h : widths.Perm (List.replicate n w ++ left)) :
    (widths.drop n).Perm left := by
  induction n generalizing widths with
  | zero => exact h
  | succ n ih =>
    have hw : w ∈ widths := h.mem_iff.mpr (by simp)
    cases widths with
    | nil => cases hw
    | cons x widths =>
      obtain ⟨hhead, htail⟩ := List.pairwise_cons.mp hsorted
      have hx : x = w := by
        have hle := hmax x List.mem_cons_self
        rcases List.mem_cons.mp hw with rfl | hmem
        · rfl
        · exact Nat.le_antisymm hle (hhead w hmem)
      subst hx
      refine ih htail (fun y hy => hmax y (List.mem_cons_of_mem _ hy)) ?_
      exact List.Perm.cons_inv (a := x) h

/-- When the widths are those of the items, every key gets a code. -/
theorem handOut_complete {rounds : Nat} {items : List α} {codes : List (ε × Nat)}
    (hrounds : items.length ≤ rounds) (hsorted : (codes.map (·.2)).Pairwise (· ≥ ·))
    (hwidths : (codes.map (·.2)).Perm (items.flatMap fun i => List.replicate (keys i).length (width i))) :
    ∃ handed, handOut width keys rounds items codes = some handed := by
  induction rounds generalizing items codes with
  | zero =>
    obtain rfl : items = [] := List.eq_nil_of_length_eq_zero (by omega)
    obtain rfl : codes = [] := by simpa using hwidths
    exact ⟨_, rfl⟩
  | succ rounds ih =>
    cases codes with
    | nil => exact ⟨_, rfl⟩
    | cons c codes =>
      obtain ⟨code, w⟩ := c
      have hitem : ∃ item, items.find? (fun i => width i = w) = some item := by
        have hw : w ∈ items.flatMap fun i => List.replicate (keys i).length (width i) :=
          hwidths.mem_iff.mp (by simp)
        obtain ⟨i, hi, hrep⟩ := List.mem_flatMap.mp hw
        have hwi := List.eq_of_mem_replicate hrep
        apply Option.isSome_iff_exists.mp
        exact List.find?_isSome.mpr ⟨i, hi, by simp [hwi]⟩
      obtain ⟨item, hfind⟩ := hitem
      have hmem := List.mem_of_find?_eq_some hfind
      have hwidth : width item = w := by simpa using List.find?_some hfind
      have hperm := hwidths.trans (flatMap_perm_erase hmem _)
      rw [hwidth] at hperm
      have hlen : (keys item).length ≤ codes.length + 1 := by
        have := hperm.length_eq
        simp only [List.map_cons, List.length_cons, List.length_map, List.length_append,
          List.length_replicate] at this
        omega
      have hmax : ∀ x ∈ ((code, w) :: codes).map (·.2), x ≤ w := by
        intro x hx
        rcases List.mem_cons.mp hx with rfl | hx
        · exact Nat.le_refl _
        · exact (List.pairwise_cons.mp hsorted).1 x hx
      have hdrop := drop_perm hsorted hmax hperm
      rw [← List.map_drop] at hdrop
      have hrest : (items.erase item).length ≤ rounds := by
        have := List.length_erase_of_mem hmem
        omega
      obtain ⟨tail, htail⟩ := ih hrest (by rw [List.map_drop]; exact hsorted.drop) hdrop
      simp only [handOut, hfind, if_pos hlen, htail, Option.map_some]
      exact ⟨_, rfl⟩

theorem handOut_perm {rounds : Nat} {items : List α} {codes : List (ε × Nat)} {handed : List (κ × ε)}
    (hwidths : (codes.map (·.2)).Perm (items.flatMap fun i => List.replicate (keys i).length (width i)))
    (h : handOut width keys rounds items codes = some handed) :
    (handed.map (·.1)).Perm (items.flatMap keys) := by
  obtain ⟨hcodes, left, hperm⟩ := handOut_spec h
  have hlen : (handed.map (·.1)).length = (items.flatMap keys).length := by
    have h1 := congrArg List.length hcodes
    have h2 := hwidths.length_eq
    simp only [List.length_map, List.length_flatMap, List.length_replicate] at h1 h2 ⊢
    omega
  have hleft : left = [] := by
    have := hperm.length_eq
    rw [List.length_append] at this
    exact List.eq_nil_of_length_eq_zero (by omega)
  simpa [hleft] using hperm

end Tce.Handout
