import Mathlib.Data.List.Sort

/-!
# Levels

The nodes of a graph are put on levels, each as soon as all its predecessors
are on earlier ones. Without cycles the level of a node is its depth.
-/

namespace Tce

namespace Levels

/-- A node is one deeper than the deepest of its predecessors. -/
def IsDepth (preds : Nat → List Nat) (depth : Nat → Nat) : Prop :=
  ∀ n, depth n = ((preds n).map fun m => depth m + 1).foldr max 0

def next (count : Nat) (preds : Nat → List Nat) (done : List Nat) : List Nat :=
  (List.range count).filter fun n => !done.contains n && (preds n).all (done.contains ·)

/-- Levels are added until each node has one. -/
def compute (count : Nat) (preds : Nat → List Nat) : (fuel : Nat) → List (List Nat) → Option (List (List Nat))
  | 0, _ => none
  | fuel + 1, levels =>
    if levels.flatten.length < count then compute count preds fuel (levels ++ [next count preds levels.flatten])
    else some levels

def level (count : Nat) (depth : Nat → Nat) (t : Nat) : List Nat := (List.range count).filter fun n => depth n = t

def upTo (count : Nat) (depth : Nat → Nat) (t : Nat) : List (List Nat) := (List.range t).map (level count depth)

/-- The order of the nodes by level. -/
def Before (depth : Nat → Nat) (a b : Nat) : Prop := depth a < depth b ∨ depth a = depth b ∧ a < b

theorem le_foldr_max {ns : List Nat} {n : Nat} (hn : n ∈ ns) : n ≤ ns.foldr max 0 := by
  induction ns with
  | nil => cases hn
  | cons m ns ih =>
    cases List.mem_cons.1 hn with
    | inl heq => exact heq ▸ Nat.le_max_left _ _
    | inr hn => exact Nat.le_trans (ih hn) (Nat.le_max_right _ _)

theorem foldr_max_mem {ns : List Nat} (hpos : 0 < ns.foldr max 0) : ns.foldr max 0 ∈ ns := by
  induction ns with
  | nil => cases hpos
  | cons m ns ih =>
    rw [List.foldr_cons] at hpos ⊢
    by_cases hle : ns.foldr max 0 ≤ m
    · rw [Nat.max_eq_left hle]
      exact List.mem_cons_self
    · rw [Nat.max_eq_right (Nat.le_of_not_le hle)]
      exact List.mem_cons_of_mem _ (ih (by omega))

/-- A graph whose edges go up has depths. -/
theorem exists_depth {preds : Nat → List Nat} (rank : Nat → Nat) (h : ∀ n, ∀ m ∈ preds n, rank m < rank n) :
    ∃ depth, IsDepth preds depth := by
  have hupTo : ∀ k, ∃ depth : Nat → Nat, ∀ n, rank n < k → depth n = ((preds n).map fun m => depth m + 1).foldr max 0 := by
    intro k
    induction k with
    | zero => exact ⟨fun _ => 0, fun n hn => by cases hn⟩
    | succ k ih =>
      obtain ⟨depth, hdepth⟩ := ih
      refine ⟨fun n => if rank n < k then depth n else ((preds n).map fun m => depth m + 1).foldr max 0, fun n hn => ?_⟩
      have hpreds : ((preds n).map fun m =>
          (if rank m < k then depth m else ((preds m).map fun m => depth m + 1).foldr max 0) + 1) =
          (preds n).map fun m => depth m + 1 := by
        apply List.map_congr_left
        intro m hm
        rw [if_pos (Nat.lt_of_lt_of_le (h n m hm) (Nat.le_of_lt_succ hn))]
      dsimp only
      rw [hpreds]
      split
      · next hlt => exact hdepth n hlt
      · rfl
  choose depth hdepth using hupTo
  -- the depth of a node is the same in all of them
  have hsame : ∀ j k n, rank n < j → rank n < k → depth j n = depth k n := by
    intro j k n
    induction hr : rank n using Nat.strong_induction_on generalizing n with
    | _ r ih =>
      intro hj hk
      rw [hdepth j n (hr ▸ hj), hdepth k n (hr ▸ hk)]
      congr 1
      apply List.map_congr_left
      intro m hm
      have hlt := h n m hm
      rw [ih (rank m) (hr ▸ hlt) m rfl (by omega) (by omega)]
  refine ⟨fun n => depth (rank n + 1) n, fun n => ?_⟩
  dsimp only
  rw [hdepth (rank n + 1) n (Nat.lt_succ_self _)]
  congr 1
  apply List.map_congr_left
  intro m hm
  have hlt := h n m hm
  rw [hsame (rank n + 1) (rank m + 1) m (by omega) (by omega)]

section depths
variable {count : Nat} {preds : Nat → List Nat} {depth : Nat → Nat}

theorem IsDepth.lt (h : IsDepth preds depth) {m n : Nat} (hm : m ∈ preds n) : depth m < depth n := by
  rw [h n]
  exact le_foldr_max (List.mem_map.2 ⟨m, hm, rfl⟩)

theorem IsDepth.le_iff (h : IsDepth preds depth) {n t : Nat} : depth n ≤ t ↔ ∀ m ∈ preds n, depth m < t := by
  constructor
  · exact fun hle m hm => Nat.lt_of_lt_of_le (h.lt hm) hle
  · intro hlt
    by_contra hgt
    have hmem : depth n ∈ (preds n).map fun m => depth m + 1 := by
      rw [h n]
      exact foldr_max_mem (by rw [← h n]; omega)
    obtain ⟨m, hm, heq⟩ := List.mem_map.1 hmem
    have := hlt m hm
    omega

theorem mem_upTo {t n : Nat} : n ∈ (upTo count depth t).flatten ↔ n < count ∧ depth n < t := by
  unfold upTo level
  simp only [List.mem_flatten, List.mem_map, List.mem_range]
  constructor
  · rintro ⟨_, ⟨s, hs, rfl⟩, hn⟩
    rw [List.mem_filter, List.mem_range, decide_eq_true_iff] at hn
    exact ⟨hn.1, hn.2 ▸ hs⟩
  · rintro ⟨hn, ht⟩
    exact ⟨_, ⟨depth n, ht, rfl⟩, List.mem_filter.2 ⟨List.mem_range.2 hn, decide_eq_true rfl⟩⟩

theorem upTo_sorted (count : Nat) (depth : Nat → Nat) (t : Nat) :
    (upTo count depth t).flatten.Pairwise (Before depth) := by
  unfold upTo level
  rw [List.pairwise_flatten]
  constructor
  · intro l hl
    obtain ⟨s, -, rfl⟩ := List.mem_map.1 hl
    apply List.Pairwise.imp_of_mem ?_ (List.pairwise_lt_range.filter _)
    intro a b ha hb hlt
    rw [List.mem_filter, decide_eq_true_iff] at ha hb
    exact .inr ⟨ha.2.trans hb.2.symm, hlt⟩
  · rw [List.pairwise_map]
    apply List.pairwise_lt_range.imp
    intro s s' hlt a ha b hb
    rw [List.mem_filter, decide_eq_true_iff] at ha hb
    exact .inl (by rw [ha.2, hb.2]; exact hlt)

theorem Before.irrefl (a : Nat) : ¬ Before depth a a := by
  rintro (h | ⟨-, h⟩) <;> exact Nat.lt_irrefl _ h

theorem Before.asymm {a b : Nat} (h : Before depth a b) : ¬ Before depth b a := by
  unfold Before at h ⊢
  omega

theorem upTo_nodup (t : Nat) : (upTo count depth t).flatten.Nodup :=
  List.Pairwise.imp (fun {a b} (h : Before depth a b) (heq : a = b) => Before.irrefl b (heq ▸ h)) (upTo_sorted count depth t)

/-- The next level has the nodes of the next depth. -/
theorem next_upTo (h : IsDepth preds depth) (hpreds : ∀ n, ∀ m ∈ preds n, m < count) (t : Nat) :
    next count preds (upTo count depth t).flatten = level count depth t := by
  unfold next level
  apply List.filter_congr
  intro n hn
  rw [Bool.eq_iff_iff, Bool.and_eq_true, Bool.not_eq_true', decide_eq_true_iff, List.all_eq_true]
  simp only [List.contains_iff_mem, ← Bool.not_eq_true, mem_upTo]
  have hle := h.le_iff (n := n) (t := t)
  constructor
  · rintro ⟨hge, hall⟩
    have hn := List.mem_range.1 hn
    have := hle.2 fun m hm => (hall m hm).2
    have : ¬ depth n < t := fun hlt => hge ⟨hn, hlt⟩
    omega
  · intro heq
    exact ⟨fun hlt => by omega, fun m hm => ⟨hpreds n m hm, hle.1 (Nat.le_of_eq heq) m hm⟩⟩

/-- While nodes are left, some have the next depth. -/
theorem exists_next (h : IsDepth preds depth) (hpreds : ∀ n, ∀ m ∈ preds n, m < count) {t n : Nat} (hn : n < count)
    (ht : t ≤ depth n) : ∃ m < count, depth m = t := by
  induction hd : depth n using Nat.strong_induction_on generalizing n with
  | _ d ih =>
    by_cases heq : depth n = t
    · exact ⟨n, hn, heq⟩
    · have hlt : ¬ depth n ≤ t := by omega
      rw [h.le_iff] at hlt
      push Not at hlt
      obtain ⟨m, hm, hge⟩ := hlt
      exact ih (depth m) (hd ▸ h.lt hm) (hpreds n m hm) hge rfl

theorem length_upTo_lt (h : IsDepth preds depth) (hpreds : ∀ n, ∀ m ∈ preds n, m < count) {t : Nat}
    (hlt : (upTo count depth t).flatten.length < count) :
    (upTo count depth t).flatten.length < (upTo count depth (t + 1)).flatten.length := by
  have hleft : ∃ n < count, t ≤ depth n := by
    by_contra hnone
    push Not at hnone
    have hsub : List.range count ⊆ (upTo count depth t).flatten :=
      fun n hn => mem_upTo.2 ⟨List.mem_range.1 hn, hnone n (List.mem_range.1 hn)⟩
    have := (List.subperm_of_subset List.nodup_range hsub).length_le
    rw [List.length_range] at this
    omega
  obtain ⟨n, hn, ht⟩ := hleft
  obtain ⟨m, hm, hdepth⟩ := exists_next h hpreds hn ht
  unfold upTo
  rw [List.range_succ, List.map_append, List.flatten_append, List.length_append]
  have hmem : m ∈ level count depth t := List.mem_filter.2 ⟨List.mem_range.2 hm, decide_eq_true hdepth⟩
  have := List.length_pos_of_mem hmem
  simp only [List.map_cons, List.map_nil, List.flatten_cons, List.flatten_nil, List.append_nil]
  omega

theorem compute_from (h : IsDepth preds depth) (hpreds : ∀ n, ∀ m ∈ preds n, m < count) {fuel : Nat} : ∀ {t : Nat},
    count < (upTo count depth t).flatten.length + fuel →
    ∃ t', compute count preds fuel (upTo count depth t) = some (upTo count depth t') ∧ ∀ n < count, depth n < t' := by
  induction fuel with
  | zero =>
    intro t hfuel
    have hsub : (upTo count depth t).flatten ⊆ List.range count :=
      fun n hn => List.mem_range.2 (mem_upTo.1 hn).1
    have := (List.subperm_of_subset (upTo_nodup t) hsub).length_le
    rw [List.length_range] at this
    omega
  | succ fuel ih =>
    intro t hfuel
    unfold compute
    by_cases hlt : (upTo count depth t).flatten.length < count
    · rw [if_pos hlt, next_upTo h hpreds]
      have hless := length_upTo_lt h hpreds hlt
      have hsucc : upTo count depth t ++ [level count depth t] = upTo count depth (t + 1) := by
        unfold upTo
        rw [List.range_succ, List.map_append]
        rfl
      rw [hsucc]
      exact ih (by omega)
    · rw [if_neg hlt]
      refine ⟨t, rfl, fun n hn => ?_⟩
      have hsub : (upTo count depth t).flatten ⊆ List.range count :=
        fun n hn => List.mem_range.2 (mem_upTo.1 hn).1
      have hperm := (List.subperm_of_subset (upTo_nodup t) hsub).perm_of_length_le (by rw [List.length_range]; omega)
      exact (mem_upTo.1 (hperm.mem_iff.2 (List.mem_range.2 hn))).2

/-- The levels are those of the depths. -/
theorem compute_eq (h : IsDepth preds depth) (hpreds : ∀ n, ∀ m ∈ preds n, m < count) :
    ∃ t, compute count preds (count + 1) [] = some (upTo count depth t) ∧ ∀ n < count, depth n < t := by
  apply compute_from h hpreds (t := 0)
  unfold upTo
  simp

/-- By levels each node comes after its predecessors. -/
theorem upTo_ordered (h : IsDepth preds depth) (hpreds : ∀ n, ∀ m ∈ preds n, m < count) {t : Nat}
    {before after : List Nat} {n : Nat} (heq : (upTo count depth t).flatten = before ++ n :: after) :
    ∀ m ∈ preds n, m ∈ before := by
  intro m hm
  have hlt := h.lt hm
  have hn : n < count ∧ depth n < t := mem_upTo.1 (heq ▸ List.mem_append_right _ List.mem_cons_self)
  have hmem : m ∈ before ++ n :: after := heq ▸ mem_upTo.2 ⟨hpreds n m hm, by omega⟩
  have hsorted := heq ▸ upTo_sorted count depth t
  cases List.mem_append.1 hmem with
  | inl hb => exact hb
  | inr hm' =>
    cases List.mem_cons.1 hm' with
    | inl heq => exact absurd hlt (heq ▸ Nat.lt_irrefl _)
    | inr hm' =>
      have := List.rel_of_pairwise_cons (List.pairwise_append.1 hsorted).2.1 hm'
      unfold Before at this
      omega

/-- Nodes keep their order when they are put on levels if they do not get less deep. -/
theorem filter_upTo_iff {t : Nat} (ht : ∀ n < count, depth n < t) (q : Nat → Bool) :
    (upTo count depth t).flatten.filter q = (List.range count).filter q ↔
      ∀ a b, a < b → b < count → q a = true → q b = true → depth a ≤ depth b := by
  constructor
  · intro heq a b hab hb ha' hb'
    have hsorted := (upTo_sorted count depth t).filter q
    rw [heq] at hsorted
    have hboth : (List.range count).filter q |>.Pairwise fun a b => a < b ∧ Before depth a b :=
      (List.pairwise_lt_range.filter q).and hsorted
    have hmem : ∀ n, n < count → q n = true → n ∈ (List.range count).filter q :=
      fun n hn hq => List.mem_filter.2 ⟨List.mem_range.2 hn, hq⟩
    obtain ⟨l, r, hsplit⟩ := List.append_of_mem (hmem b hb hb')
    have ha : a ∈ l ++ b :: r := hsplit ▸ hmem a (Nat.lt_trans hab hb) ha'
    rw [hsplit, List.pairwise_append] at hboth
    cases List.mem_append.1 ha with
    | inl hl =>
      have hbefore := (hboth.2.2 a hl b List.mem_cons_self).2
      unfold Before at hbefore
      omega
    | inr hr =>
      cases List.mem_cons.1 hr with
      | inl heq => exact absurd heq (Nat.ne_of_lt hab)
      | inr hr => exact absurd (List.rel_of_pairwise_cons hboth.2.1 hr).1 (Nat.lt_asymm hab)
  · intro hmono
    have hrange : ((List.range count).filter q).Pairwise (Before depth) := by
      apply List.Pairwise.imp_of_mem ?_ (List.pairwise_lt_range.filter q)
      intro a b ha hb hlt
      obtain ⟨-, ha⟩ := List.mem_filter.1 ha
      obtain ⟨hbc, hb⟩ := List.mem_filter.1 hb
      have := hmono a b hlt (List.mem_range.1 hbc) ha hb
      unfold Before
      omega
    have hperm : ((upTo count depth t).flatten.filter q).Perm ((List.range count).filter q) := by
      apply List.Perm.filter
      rw [List.perm_ext_iff_of_nodup (upTo_nodup t) List.nodup_range]
      intro n
      rw [mem_upTo, List.mem_range]
      exact ⟨And.left, fun hn => ⟨hn, ht n hn⟩⟩
    exact hperm.eq_of_pairwise (fun a b _ _ hab hba => absurd hba hab.asymm) ((upTo_sorted count depth t).filter q) hrange

end depths

end Levels

end Tce
