import Mathlib.Data.Prod.Lex

/-!
# Ordered maps

A map as the list of its entries in the order of their keys, each key once.
`set` writes one key and `erase` takes one out; the entries of all others stay
where they are.
-/

namespace Tce.OrderedMap
variable {K V : Type} [LinearOrder K]

def Ordered (m : List (K × V)) : Prop := m.Pairwise (·.1 < ·.1)

def find (m : List (K × V)) (k : K) : Option V := (m.find? fun e => e.1 = k).map (·.2)

def set (m : List (K × V)) (k : K) (v : V) : List (K × V) :=
  m.filter (fun e => e.1 < k) ++ (k, v) :: m.filter (fun e => k < e.1)

def erase (m : List (K × V)) (k : K) : List (K × V) := m.filter fun e => e.1 ≠ k

theorem mem_erase {m : List (K × V)} {k : K} {e : K × V} : e ∈ erase m k ↔ e.1 ≠ k ∧ e ∈ m := by
  simp [erase, and_comm]

theorem mem_set {m : List (K × V)} {k : K} {v : V} {e : K × V} :
    e ∈ set m k v ↔ e = (k, v) ∨ e.1 ≠ k ∧ e ∈ m := by
  have split : e.1 ≠ k ↔ e.1 < k ∨ k < e.1 := ne_iff_lt_or_gt
  simp only [set, List.mem_append, List.mem_cons, List.mem_filter, decide_eq_true_eq, split]
  tauto

/-- One key has one value. -/
theorem value_unique {m : List (K × V)} (h : Ordered m) {k : K} {v v' : V}
    (hv : (k, v) ∈ m) (hv' : (k, v') ∈ m) : v = v' := by
  induction m with
  | nil => cases hv
  | cons e m ih =>
    obtain ⟨hlt, hm⟩ := List.pairwise_cons.mp h
    have later {w : V} (hw : (k, w) ∈ m) : e.1 < k := hlt _ hw
    cases hv with
    | head =>
      cases hv' with
      | head => rfl
      | tail _ hv' => exact absurd (later hv') (lt_irrefl _)
    | tail _ hv =>
      cases hv' with
      | head => exact absurd (later hv) (lt_irrefl _)
      | tail _ hv' => exact ih hm hv hv'

theorem mem_of_find {m : List (K × V)} {k : K} {v : V} (h : find m k = some v) : (k, v) ∈ m := by
  obtain ⟨e, he, rfl⟩ := Option.map_eq_some_iff.mp h
  have hk : e.1 = k := by simpa using List.find?_some he
  subst hk
  exact List.mem_of_find?_eq_some he

theorem find_of_mem {m : List (K × V)} (h : Ordered m) {k : K} {v : V} (hv : (k, v) ∈ m) :
    find m k = some v := by
  cases hf : find m k with
  | some w => simp [value_unique h hv (mem_of_find hf)]
  | none =>
    have := List.find?_eq_none.mp (Option.map_eq_none_iff.mp hf) _ hv
    simp at this

theorem not_mem_of_find {m : List (K × V)} {k : K} (h : find m k = none) (v : V) : (k, v) ∉ m := by
  intro hv
  have := List.find?_eq_none.mp (Option.map_eq_none_iff.mp h) _ hv
  simp at this

theorem ordered_set {m : List (K × V)} (h : Ordered m) (k : K) (v : V) : Ordered (set m k v) := by
  apply List.pairwise_append.mpr
  refine ⟨h.filter _, List.pairwise_cons.mpr ⟨?_, h.filter _⟩, ?_⟩
  · intro e he
    simpa using (List.mem_filter.mp he).2
  · intro a ha b hb
    have hak : a.1 < k := by simpa using (List.mem_filter.mp ha).2
    cases hb with
    | head => exact hak
    | tail _ hb =>
      have hkb : k < b.1 := by simpa using (List.mem_filter.mp hb).2
      exact hak.trans hkb

theorem ordered_erase {m : List (K × V)} (h : Ordered m) (k : K) : Ordered (erase m k) := h.filter _

/-- The entries before a key and those after it are all the others. -/
theorem split_at {m : List (K × V)} (h : Ordered m) {k : K} (hk : ∀ e ∈ m, e.1 ≠ k) :
    m.filter (fun e => e.1 < k) ++ m.filter (fun e => k < e.1) = m := by
  induction m with
  | nil => rfl
  | cons e m ih =>
    obtain ⟨hlt, hm⟩ := List.pairwise_cons.mp h
    have hi := ih hm fun x hx => hk x (List.mem_cons_of_mem _ hx)
    rcases lt_or_gt_of_ne (hk e List.mem_cons_self) with he | he
    · simp only [List.filter_cons, he, he.le.not_gt, decide_true, decide_false, ↓reduceIte,
        List.cons_append, Bool.false_eq_true, hi]
    · have later : ∀ x ∈ m, k < x.1 := fun x hx => he.trans (hlt x hx)
      have hnone : m.filter (fun x => decide (x.1 < k)) = [] := by
        apply List.filter_eq_nil_iff.mpr
        intro x hx
        simpa using (later x hx).le
      have hall : m.filter (fun x => decide (k < x.1)) = m := by
        apply List.filter_eq_self.mpr
        intro x hx
        simpa using later x hx
      simp [he, he.le.not_gt, hnone, hall]

/-- Keys that a filter leaves out may be written without a change to what it keeps. -/
theorem filter_set {m : List (K × V)} (h : Ordered m) {f : K → Bool} {k : K} (hk : f k = false) (v : V) :
    (set m k v).filter (fun e => f e.1) = m.filter (fun e => f e.1) := by
  have kept : Ordered (m.filter fun e => f e.1) := h.filter _
  have other : ∀ e ∈ m.filter (fun e => f e.1), e.1 ≠ k := by
    intro e he hek
    simp [hek, hk] at he
  have := split_at kept other
  simpa [set, hk, List.filter_filter, Bool.and_comm] using this

/-- Entries that are set in the order of their keys are the map. -/
theorem foldl_set {m : List (K × V)} (h : Ordered m) : m.foldl (fun m e => set m e.1 e.2) [] = m := by
  suffices hall : ∀ acc : List (K × V), Ordered (acc ++ m) → m.foldl (fun m e => set m e.1 e.2) acc = acc ++ m from
    hall [] h
  clear h
  induction m with
  | nil => simp
  | cons e m ih =>
    intro acc h
    have hlast : set acc e.1 e.2 = acc ++ [e] := by
      have hlt : ∀ x ∈ acc, x.1 < e.1 := fun x hx => (List.pairwise_append.mp h).2.2 x hx e List.mem_cons_self
      have hall : acc.filter (fun x => x.1 < e.1) = acc := List.filter_eq_self.mpr fun x hx => by simpa using hlt x hx
      have hnone : acc.filter (fun x => e.1 < x.1) = [] :=
        List.filter_eq_nil_iff.mpr fun x hx => by simpa using (hlt x hx).le
      simp [set, hall, hnone]
    rw [List.foldl_cons, hlast, ih _ (by simpa using h), List.append_assoc, List.singleton_append]

/-- The first entry whose key is not less. -/
def lowerBound (m : List (K × V)) (k : K) : Option (K × V) := m.find? fun e => k ≤ e.1

/-- An entry is the lower bound when no other has a key between. -/
theorem lowerBound_of_mem {m : List (K × V)} (h : Ordered m) {k : K} {e : K × V} (he : e ∈ m) (hk : k ≤ e.1)
    (hleast : ∀ e' ∈ m, k ≤ e'.1 → e.1 ≤ e'.1) : lowerBound m k = some e := by
  induction m with
  | nil => cases he
  | cons x m ih =>
    obtain ⟨hlt, hm⟩ := List.pairwise_cons.mp h
    rw [lowerBound, List.find?_cons]
    rcases List.mem_cons.mp he with rfl | he
    · simp [hk]
    · have hx : ¬k ≤ x.1 := fun hx => absurd (hlt e he) (hleast x List.mem_cons_self hx).not_gt
      simp only [hx, decide_false]
      exact ih hm he fun e' he' => hleast e' (List.mem_cons_of_mem x he')

/-- The entries of a map that is built from a list without two values for a key. -/
theorem mem_foldl_set {l : List (K × V)} (hone : ∀ e ∈ l, ∀ e' ∈ l, e.1 = e'.1 → e = e') {e : K × V} :
    e ∈ l.foldl (fun m e => set m e.1 e.2) [] ↔ e ∈ l := by
  suffices hall : ∀ m : List (K × V), (∀ e ∈ m ++ l, ∀ e' ∈ m ++ l, e.1 = e'.1 → e = e') →
      (e ∈ l.foldl (fun m e => set m e.1 e.2) m ↔ e ∈ m ∨ e ∈ l) by
    simpa using hall [] hone
  clear hone
  induction l with
  | nil => simp
  | cons x l ih =>
    intro m hone
    have hmem : ∀ y, y ∈ set m x.1 x.2 ++ l ↔ y ∈ m ++ x :: l := by
      intro y
      rw [List.mem_append, List.mem_append, mem_set, List.mem_cons]
      constructor
      · rintro ((rfl | ⟨_, hy⟩) | hy)
        · exact Or.inr (Or.inl rfl)
        · exact Or.inl hy
        · exact Or.inr (Or.inr hy)
      · rintro (hy | rfl | hy)
        · by_cases hkey : y.1 = x.1
          · have := hone y (List.mem_append_left _ hy) x (List.mem_append_right _ List.mem_cons_self) hkey
            exact Or.inl (Or.inl this)
          · exact Or.inl (Or.inr ⟨hkey, hy⟩)
        · exact Or.inl (Or.inl rfl)
        · exact Or.inr hy
    rw [List.foldl_cons, ih _ fun y hy y' hy' => hone y ((hmem y).mp hy) y' ((hmem y').mp hy'), ← List.mem_append, hmem,
      List.mem_append]

theorem ordered_foldl_set (l : List (K × V)) : Ordered (l.foldl (fun m e => set m e.1 e.2) []) := by
  suffices hall : ∀ m : List (K × V), Ordered m → Ordered (l.foldl (fun m e => set m e.1 e.2) m) from
    hall [] List.Pairwise.nil
  induction l with
  | nil => exact fun _ h => h
  | cons x l ih => exact fun m h => ih _ (ordered_set h x.1 x.2)

end Tce.OrderedMap
