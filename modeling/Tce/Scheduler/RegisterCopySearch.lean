import Tce.Base.ShortestChains
import Tce.Scheduler.RegisterCopyAdder

/-!
# The search for scratch registers

Level by level the search finds the registers by the length of their shortest
chains, so it ends at a shortest chain to the destination if there is one.
-/

namespace Tce.RegisterCopyAdder

namespace Routing
variable {routing : Routing}

/-- A register that the source is connected to. -/
def First (routing : Routing) (i : Nat) : Prop :=
  i < routing.count ∧ routing.wide i = true ∧ routing.fromSource i = true

def Step (routing : Routing) (j i : Nat) : Prop :=
  i < routing.count ∧ routing.wide i = true ∧ routing.between j i = true

def Last (routing : Routing) (i : Nat) : Prop := routing.toDestination i = true

abbrev AtLevel (routing : Routing) : Nat → Nat → Prop := Chain.AtLevel routing.First routing.Step

theorem lt_count_of_chain {k i : Nat} (h : Chain routing.First routing.Step k i) : i < routing.count := by
  cases h with
  | first h => exact h.1
  | step _ h => exact h.1

/-! ## One level -/

/-- A register without connection that some register of the level before reaches. -/
def IsNew (routing : Routing) (level : Nat) (s : Search) (i : Nat) : Prop :=
  s.dist i = 0 ∧ routing.wide i = true ∧ ∃ j < routing.count, s.dist j = level - 1 ∧ routing.between j i = true

/-- The register is connected from register `j`. -/
structure Connected (routing : Routing) (level i : Nat) (s t : Search) : Prop where
  dist : t.dist = Function.update s.dist i level
  conn : ∃ j < routing.count, s.dist j = level - 1 ∧ routing.between j i = true ∧ t.conn = Function.update s.conn i j
  connCount : 0 < t.connCount
  correctSizeTempsFound : t.correctSizeTempsFound = s.correctSizeTempsFound
  last : t.last = if routing.toDestination i then some i else s.last

/-- Register `j` of the level before reaches register `i`. -/
def Reaches (routing : Routing) (level i : Nat) (s : Search) (j : Nat) : Prop :=
  s.dist j = level - 1 ∧ routing.between j i = true

theorem connect_of_not_reaches {level i : Nat} {js : List Nat} {s : Search}
    (h : ∀ j ∈ js, ¬routing.Reaches level i s j) : routing.connect level i js s = s := by
  induction js with
  | nil => rfl
  | cons j js ih =>
    obtain ⟨hj, hrest⟩ := List.forall_mem_cons.1 h
    have hno : ¬(s.dist j == level - 1 && routing.between j i) = true := by
      rw [Bool.and_eq_true, beq_iff_eq]
      exact hj
    rw [connect, if_neg hno]
    exact ih hrest

theorem connect_of_reaches {level i : Nat} {js : List Nat} (hjs : ∀ j ∈ js, j < routing.count) (hpos : 0 < level)
    {s : Search} (hi : s.dist i ≠ level - 1) (hlast : s.last = none) (h : ∃ j ∈ js, routing.Reaches level i s j) :
    Connected routing level i s (routing.connect level i js s) := by
  induction js generalizing s with
  | nil =>
    obtain ⟨j, hj, -⟩ := h
    cases hj
  | cons j js ih =>
    obtain ⟨hj, hrest⟩ := List.forall_mem_cons.1 hjs
    rw [connect]
    by_cases hreaches : routing.Reaches level i s j
    · have hyes : (s.dist j == level - 1 && routing.between j i) = true := by
        rw [Bool.and_eq_true, beq_iff_eq]
        exact hreaches
      rw [if_pos hyes]
      dsimp only
      by_cases hdestination : routing.toDestination i = true
      · rw [if_pos hdestination]
        exact ⟨rfl, ⟨j, hj, hreaches.1, hreaches.2, rfl⟩, Nat.succ_pos _, rfl, (if_pos hdestination).symm⟩
      · rw [if_neg hdestination]
        -- registers after this one may reach `i` too, and replace it
        generalize hs' : Search.mk (Function.update s.dist i level) (Function.update s.conn i j) (s.connCount + 1)
          s.correctSizeTempsFound s.last = s'
        have hdist : s'.dist = Function.update s.dist i level := by rw [← hs']
        have hconn : s'.conn = Function.update s.conn i j := by rw [← hs']
        have hdist_i : s'.dist i = level := by rw [hdist, Function.update_self]
        by_cases hmore : ∃ j ∈ js, routing.Reaches level i s' j
        · have hconnected := ih hrest (s := s') (by omega) (by rw [← hs']; exact hlast) hmore
          obtain ⟨j', hj', hlevel', hbetween', hconn'⟩ := hconnected.conn
          have hne : j' ≠ i := fun heq => by
            rw [heq, hdist_i] at hlevel'
            omega
          rw [hdist, Function.update_of_ne hne] at hlevel'
          refine ⟨?_, ⟨j', hj', hlevel', hbetween', ?_⟩, hconnected.connCount, ?_, ?_⟩
          · rw [hconnected.dist, hdist, Function.update_idem]
          · rw [hconn', hconn, Function.update_idem]
          · rw [hconnected.correctSizeTempsFound, ← hs']
          · rw [hconnected.last, if_neg hdestination, if_neg hdestination, ← hs']
        · rw [connect_of_not_reaches fun j hj hreaches => hmore ⟨j, hj, hreaches⟩]
          refine ⟨hdist, ⟨j, hj, hreaches.1, hreaches.2, hconn⟩, ?_, ?_, ?_⟩
          · rw [← hs']
            exact Nat.succ_pos _
          · rw [← hs']
          · rw [if_neg hdestination, ← hs']
    · have hno : ¬(s.dist j == level - 1 && routing.between j i) = true := by
        rw [Bool.and_eq_true, beq_iff_eq]
        exact hreaches
      rw [if_neg hno]
      obtain ⟨j', hj', hreaches'⟩ := h
      cases List.mem_cons.1 hj' with
      | inl heq =>
        rw [heq] at hreaches'
        exact absurd hreaches' hreaches
      | inr hmem => exact ih hrest hi hlast ⟨j', hmem, hreaches'⟩

/-- Some registers of a level have been tried, from the state `s` at its start. -/
structure Tried (routing : Routing) (level : Nat) (s : Search) (tried : List Nat) (t : Search) : Prop where
  dist : ∀ i, t.dist i = level ∧ i ∈ tried ∧ routing.IsNew level s i ∨
    t.dist i = s.dist i ∧ ¬(i ∈ tried ∧ routing.IsNew level s i)
  conn : ∀ i, i ∈ tried → routing.IsNew level s i →
    t.conn i < routing.count ∧ s.dist (t.conn i) = level - 1 ∧ routing.between (t.conn i) i = true
  conn_eq : ∀ i, ¬(i ∈ tried ∧ routing.IsNew level s i) → t.conn i = s.conn i
  connCount : 0 < t.connCount ↔ ∃ i ∈ tried, routing.IsNew level s i
  correctSizeTempsFound : s.correctSizeTempsFound ≤ t.correctSizeTempsFound

theorem Tried.dist_eq {level : Nat} {s t : Search} {tried : List Nat} (h : Tried routing level s tried t) {i : Nat}
    (hi : ¬(i ∈ tried ∧ routing.IsNew level s i)) : t.dist i = s.dist i := by
  cases h.dist i with
  | inl hnew => exact absurd ⟨hnew.2.1, hnew.2.2⟩ hi
  | inr hold => exact hold.1

/-- Registers that are tried do not change what the level before reaches. -/
theorem Tried.dist_before {level : Nat} (hlevel : 2 ≤ level) {s t : Search} {tried : List Nat}
    (h : Tried routing level s tried t) (j : Nat) : t.dist j = level - 1 ↔ s.dist j = level - 1 := by
  cases h.dist j with
  | inl hnew =>
    obtain ⟨hdist, -, hzero, -⟩ := hnew
    omega
  | inr hold => rw [hold.1]

theorem Tried.skip {level : Nat} {s t : Search} {tried : List Nat} (h : Tried routing level s tried t) {i : Nat}
    (hi : ¬routing.IsNew level s i) : Tried routing level s (tried ++ [i]) t := by
  have hmem (k : Nat) : k ∈ tried ++ [i] ∧ routing.IsNew level s k ↔ k ∈ tried ∧ routing.IsNew level s k := by
    rw [List.mem_append, List.mem_singleton]
    constructor
    · rintro ⟨hk | rfl, hnew⟩
      · exact ⟨hk, hnew⟩
      · exact absurd hnew hi
    · rintro ⟨hk, hnew⟩
      exact ⟨.inl hk, hnew⟩
  refine ⟨fun k => ?_, fun k hk hnew => ?_, fun k hk => ?_, ?_, h.correctSizeTempsFound⟩
  · rw [hmem]
    exact h.dist k
  · exact h.conn k ((hmem k).1 ⟨hk, hnew⟩).1 hnew
  · exact h.conn_eq k fun hk' => hk ((hmem k).2 hk')
  · rw [h.connCount]
    exact exists_congr fun k => (hmem k).symm

theorem Tried.congr {level : Nat} {s t u : Search} {tried : List Nat} (h : Tried routing level s tried t)
    (hdist : u.dist = t.dist) (hconn : u.conn = t.conn) (hcount : u.connCount = t.connCount)
    (hfound : t.correctSizeTempsFound ≤ u.correctSizeTempsFound) : Tried routing level s tried u := by
  refine ⟨fun k => ?_, fun k => ?_, fun k => ?_, ?_, h.correctSizeTempsFound.trans hfound⟩
  · rw [hdist]
    exact h.dist k
  · rw [hconn]
    exact h.conn k
  · rw [hconn]
    exact h.conn_eq k
  · rw [hcount]
    exact h.connCount

theorem Tried.connect {level : Nat} (hlevel : 2 ≤ level) {s t u : Search} {tried : List Nat}
    (h : Tried routing level s tried t) {i : Nat} (hnew : routing.IsNew level s i)
    (hconnected : Connected routing level i t u) : Tried routing level s (tried ++ [i]) u := by
  obtain ⟨j, hj, hbefore, hbetween, hconn⟩ := hconnected.conn
  rw [h.dist_before hlevel] at hbefore
  have hmem (k : Nat) (hk : k ≠ i) :
      k ∈ tried ++ [i] ∧ routing.IsNew level s k ↔ k ∈ tried ∧ routing.IsNew level s k := by
    rw [List.mem_append, List.mem_singleton, or_iff_left hk]
  refine ⟨fun k => ?_, fun k hk hnew' => ?_, fun k hk => ?_, ?_, ?_⟩
  · rw [hconnected.dist]
    by_cases hk : k = i
    · rw [hk, Function.update_self]
      exact .inl ⟨rfl, List.mem_append_right _ (List.mem_singleton_self i), hnew⟩
    · rw [Function.update_of_ne hk, hmem k hk]
      exact h.dist k
  · rw [hconn]
    by_cases hki : k = i
    · rw [hki, Function.update_self]
      exact ⟨hj, hbefore, hbetween⟩
    · rw [Function.update_of_ne hki]
      exact h.conn k ((hmem k hki).1 ⟨hk, hnew'⟩).1 hnew'
  · have hki : k ≠ i := fun heq =>
      hk ⟨List.mem_append_right _ (List.mem_singleton.2 heq), heq ▸ hnew⟩
    rw [hconn, Function.update_of_ne hki]
    exact h.conn_eq k fun hk' => hk ((hmem k hki).2 hk')
  · exact ⟨fun _ => ⟨i, List.mem_append_right _ (List.mem_singleton_self i), hnew⟩, fun _ => hconnected.connCount⟩
  · rw [hconnected.correctSizeTempsFound]
    exact h.correctSizeTempsFound

/-- A level ends at the destination, or when all registers are tried. -/
theorem nextLevel_spec (routing : Routing) (is : List Nat) {level : Nat} (hlevel : 2 ≤ level) {s : Search}
    {tried : List Nat} (hnodup : (tried ++ is).Nodup) {t : Search} (h : Tried routing level s tried t)
    (hlast : t.last = none) (hnone : ∀ i ∈ tried, routing.IsNew level s i → ¬routing.Last i) :
    ∃ tried', tried' <+: tried ++ is ∧ Tried routing level s tried' (routing.nextLevel level is t) ∧
      ((∃ i ∈ tried', (routing.nextLevel level is t).last = some i ∧ routing.IsNew level s i ∧ routing.Last i) ∨
        (tried' = tried ++ is ∧ (routing.nextLevel level is t).last = none ∧
          ∀ i ∈ tried', routing.IsNew level s i → ¬routing.Last i)) := by
  induction is generalizing tried t with
  | nil => exact ⟨tried, List.prefix_append _ _, h, .inr ⟨(List.append_nil tried).symm, hlast, hnone⟩⟩
  | cons i is ih =>
    have hassoc : tried ++ i :: is = (tried ++ [i]) ++ is := by rw [List.append_assoc, List.singleton_append]
    rw [hassoc] at hnodup ⊢
    have hi : i ∉ tried := fun hmem =>
      (List.nodup_append.1 (List.nodup_append.1 hnodup).1).2.2 i hmem i (List.mem_singleton_self i) rfl
    have hdist : t.dist i = s.dist i := h.dist_eq fun hmem => hi hmem.1
    have hnotlast : ¬t.last.isSome = true := by
      rw [hlast]
      exact Bool.false_ne_true
    have hskip {u : Search} (hu : Tried routing level s tried u) (hulast : u.last = none)
        (hold : ¬routing.IsNew level s i) := ih hnodup (hu.skip hold) hulast fun k hk hnew => by
      rcases List.mem_append.1 hk with hk | hk
      · exact hnone k hk hnew
      · exact absurd (List.mem_singleton.1 hk ▸ hnew) hold
    rw [nextLevel, if_neg hnotlast]
    by_cases hopen : (t.dist i == 0 && routing.wide i) = true
    · rw [if_pos hopen]
      rw [Bool.and_eq_true, beq_iff_eq, hdist] at hopen
      have ht : Tried routing level s tried { t with correctSizeTempsFound := t.correctSizeTempsFound + 1 } :=
        h.congr rfl rfl rfl (Nat.le_succ _)
      by_cases hreaches : ∃ j ∈ List.range routing.count, routing.Reaches level i
          { t with correctSizeTempsFound := t.correctSizeTempsFound + 1 } j
      · have hconnected := connect_of_reaches (fun j hj => List.mem_range.1 hj) (by omega)
          (s := { t with correctSizeTempsFound := t.correctSizeTempsFound + 1 }) (by dsimp only; omega) hlast hreaches
        have hnew : routing.IsNew level s i := by
          obtain ⟨j, hj, hbefore, hbetween⟩ := hreaches
          exact ⟨hopen.1, hopen.2, j, List.mem_range.1 hj, (h.dist_before hlevel j).1 hbefore, hbetween⟩
        have htried := ht.connect hlevel hnew hconnected
        by_cases hdestination : routing.toDestination i = true
        · -- what follows is not tried
          have hfound := hconnected.last
          rw [if_pos hdestination] at hfound
          have hstop (rest : List Nat) {u : Search} (hu : u.last = some i) : routing.nextLevel level rest u = u := by
            cases rest with
            | nil => rfl
            | cons k rest =>
              rw [nextLevel, if_pos]
              rw [hu]
              rfl
          rw [hstop is hfound]
          have hmem : i ∈ tried ++ [i] := List.mem_append_right _ (List.mem_singleton_self i)
          exact ⟨tried ++ [i], List.prefix_append _ _, htried, .inl ⟨i, hmem, hfound, hnew, hdestination⟩⟩
        · have hfound := hconnected.last
          rw [if_neg hdestination] at hfound
          apply ih hnodup htried (hfound.trans hlast)
          intro k hk hnewk
          rcases List.mem_append.1 hk with hk | hk
          · exact hnone k hk hnewk
          · rw [List.mem_singleton.1 hk]
            exact hdestination
      · rw [connect_of_not_reaches fun j hj hj' => hreaches ⟨j, hj, hj'⟩]
        apply hskip ht hlast
        rintro ⟨-, -, j, hj, hbefore, hbetween⟩
        exact hreaches ⟨j, List.mem_range.2 hj, (h.dist_before hlevel j).2 hbefore, hbetween⟩
    · rw [if_neg hopen]
      apply hskip h hlast
      rintro ⟨hzero, hwide, -⟩
      rw [Bool.and_eq_true, beq_iff_eq, hdist] at hopen
      exact hopen ⟨hzero, hwide⟩

/-! ## All levels -/

/-- The register before register `i` is one of the level before. -/
structure Sound (routing : Routing) (s : Search) : Prop where
  first : ∀ i, s.dist i = 1 → routing.First i
  step : ∀ i k, 0 < k → s.dist i = k + 1 → s.dist (s.conn i) = k ∧ routing.Step (s.conn i) i

/-- The registers up to this level are found, and the destination is not. -/
structure Level (routing : Routing) (level : Nat) (s : Search) : Prop where
  sound : Sound routing s
  dist : ∀ i k, 0 < k → (s.dist i = k ↔ k ≤ level ∧ routing.AtLevel k i)
  last : s.last = none
  unfound : ∀ k ≤ level, ∀ i, routing.AtLevel k i → ¬routing.Last i

/-- A chain of registers that goes on to the destination. -/
def Leads (routing : Routing) : List Nat → Prop
  | [] => False
  | [i] => i < routing.count ∧ routing.toDestination i = true
  | j :: i :: rest => j < routing.count ∧ routing.between j i = true ∧ routing.Leads (i :: rest)

theorem Sound.lt_count {s : Search} (h : Sound routing s) {i : Nat} (hi : s.dist i ≠ 0) : i < routing.count := by
  obtain ⟨k, hk⟩ := Nat.exists_eq_succ_of_ne_zero hi
  cases k with
  | zero => exact (h.first i hk).1
  | succ k => exact (h.step i (k + 1) (Nat.succ_pos k) hk).2.1

theorem Sound.leads_trace {s : Search} (h : Sound routing s) {k i : Nat} (hi : s.dist i = k + 1) {rest : List Nat}
    (hrest : routing.Leads (i :: rest)) : routing.Leads (trace s.conn k i ++ rest) := by
  induction k generalizing i rest with
  | zero => exact hrest
  | succ k ih =>
    obtain ⟨hdist, hstep⟩ := h.step i (k + 1) (Nat.succ_pos k) hi
    rw [trace, List.append_assoc]
    apply ih hdist
    exact ⟨h.lt_count (by omega), hstep.2.2, hrest⟩

theorem length_trace (conn : Nat → Nat) (k i : Nat) : (trace conn k i).length = k + 1 := by
  induction k generalizing i with
  | zero => rfl
  | succ k ih => rw [trace, List.length_append, ih, List.length_singleton]

theorem Tried.sound {level : Nat} (hlevel : 2 ≤ level) {s t : Search} {tried : List Nat}
    (h : Tried routing level s tried t) (htried : ∀ i ∈ tried, i < routing.count) (hs : Sound routing s) :
    Sound routing t := by
  constructor
  · intro i hi
    cases h.dist i with
    | inl hnew => omega
    | inr hold => exact hs.first i (hold.1 ▸ hi)
  · intro i k hk hi
    cases h.dist i with
    | inl hnew =>
      obtain ⟨hdist, hmem, hnew⟩ := hnew
      obtain ⟨-, hbefore, hbetween⟩ := h.conn i hmem hnew
      refine ⟨?_, htried i hmem, hnew.2.1, hbetween⟩
      have heq := (h.dist_before hlevel (t.conn i)).2 hbefore
      omega
    | inr hold =>
      rw [h.conn_eq i hold.2]
      obtain ⟨hdist, hstep⟩ := hs.step i k hk (hold.1 ▸ hi)
      refine ⟨?_, hstep⟩
      rw [h.dist_eq fun hnew => ?_]
      · exact hdist
      · have hzero := hnew.2.1
        omega

theorem Level.isNew_iff {level : Nat} {s t : Search} (h : Level routing level s) (hlevel : 0 < level)
    (ht : t.dist = s.dist) {i : Nat} (hi : i < routing.count) :
    routing.IsNew (level + 1) t i ↔ routing.AtLevel (level + 1) i := by
  rw [Routing.AtLevel, Chain.atLevel_succ_iff hlevel, IsNew, ht, Nat.add_sub_cancel]
  constructor
  · rintro ⟨hzero, hwide, j, -, hj, hbetween⟩
    refine ⟨⟨j, ((h.dist j level hlevel).1 hj).2, hi, hwide, hbetween⟩, fun k hk hatLevel => ?_⟩
    have hk' := (h.dist i k hatLevel.1.pos).2 ⟨hk, hatLevel⟩
    have hpos := hatLevel.1.pos
    omega
  · rintro ⟨⟨j, hj, -, hwide, hbetween⟩, hnew⟩
    refine ⟨?_, hwide, j, lt_count_of_chain hj.1, (h.dist j level hlevel).2 ⟨Nat.le_refl _, hj⟩, hbetween⟩
    by_contra hpos
    obtain ⟨hle, hatLevel⟩ := (h.dist i _ (Nat.pos_of_ne_zero hpos)).1 rfl
    exact hnew _ hle hatLevel

/-- The search stops at a shortest chain to the destination, or when there is no chain to it. -/
def Result (routing : Routing) (s : Search) (level : Nat) : Prop :=
  (∃ i, s.last = some i ∧ Chain.IsShortest routing.First routing.Step routing.Last level ∧
    routing.Leads (trace s.conn (level - 1) i)) ∨
  (s.last = none ∧ 0 < level ∧ ∀ k i, Chain routing.First routing.Step k i → ¬routing.Last i)

theorem Result.pos {s : Search} {level : Nat} (h : Result routing s level) : 0 < level := by
  rcases h with ⟨i, -, hshortest, -⟩ | ⟨-, hpos, -⟩
  · obtain ⟨j, hchain, -⟩ := hshortest.1
    exact hchain.pos
  · exact hpos

theorem Result.found {s : Search} {level : Nat} (h : Result routing s level)
    (hchain : ∃ k i, Chain routing.First routing.Step k i ∧ routing.Last i) :
    ∃ i, s.last = some i ∧ Chain.IsShortest routing.First routing.Step routing.Last level ∧
      routing.Leads (trace s.conn (level - 1) i) := by
  rcases h with hfound | ⟨-, -, hnone⟩
  · exact hfound
  · obtain ⟨k, i, hchain, hlast⟩ := hchain
    exact absurd hlast (hnone k i hchain)

/-- Every level takes a register of its own. -/
theorem level_le_count {level : Nat} (h : ∃ i, routing.AtLevel level i) : level ≤ routing.count := by
  obtain ⟨i, hi⟩ := h
  have hlevels (k : Fin level) : ∃ j : Fin routing.count, routing.AtLevel (k + 1) j := by
    obtain ⟨j, hj⟩ := hi.exists_before (Nat.succ_pos k) k.isLt
    exact ⟨⟨j, lt_count_of_chain hj.1⟩, hj⟩
  choose register hregister using hlevels
  have hinjective : Function.Injective register := fun k k' heq => by
    have hlevel := (hregister k).eq (heq ▸ hregister k')
    exact Fin.ext (Nat.succ.inj hlevel)
  simpa using Fintype.card_le_of_injective register hinjective

theorem firstLevel_spec (routing : Routing) (is : List Nat) (his : ∀ i ∈ is, i < routing.count) {s : Search}
    (hs : ∀ i, s.dist i ≤ 1) (hlast : s.last = none) :
    (∃ i, (routing.firstLevel is s).last = some i ∧ routing.First i ∧ routing.Last i) ∨
      ((routing.firstLevel is s).last = none ∧
        (∀ i k, 0 < k → ((routing.firstLevel is s).dist i = k ↔ k = 1 ∧ (s.dist i = 1 ∨ i ∈ is ∧ routing.First i))) ∧
        ∀ i ∈ is, routing.First i → ¬routing.Last i) := by
  induction is generalizing s with
  | nil =>
    refine .inr ⟨hlast, fun i k hk => ?_, fun i hi => absurd hi List.not_mem_nil⟩
    have hle := hs i
    simp only [firstLevel, List.not_mem_nil, false_and, or_false]
    omega
  | cons i is ih =>
    obtain ⟨hi, hrest⟩ := List.forall_mem_cons.1 his
    -- a register that the source is not connected to
    have hskip {u : Search} (hdist : u.dist = s.dist) (hulast : u.last = none) (hno : ¬routing.First i) :
        (∃ k, (routing.firstLevel is u).last = some k ∧ routing.First k ∧ routing.Last k) ∨
          ((routing.firstLevel is u).last = none ∧
            (∀ j k, 0 < k →
              ((routing.firstLevel is u).dist j = k ↔ k = 1 ∧ (s.dist j = 1 ∨ j ∈ i :: is ∧ routing.First j))) ∧
            ∀ j ∈ i :: is, routing.First j → ¬routing.Last j) := by
      cases ih hrest (s := u) (hdist ▸ hs) hulast with
      | inl hfound => exact .inl hfound
      | inr hnone =>
        obtain ⟨hnone, hlevel, hopen⟩ := hnone
        refine .inr ⟨hnone, fun j k hk => ?_, fun j hj hfirst => ?_⟩
        · rw [hlevel j k hk, hdist, List.mem_cons, or_and_right]
          have hout : ¬(j = i ∧ routing.First j) := fun ⟨heq, hfirst⟩ => hno (heq ▸ hfirst)
          rw [or_iff_right hout]
        · rcases List.mem_cons.1 hj with rfl | hj
          · exact absurd hfirst hno
          · exact hopen j hj hfirst
    rw [firstLevel]
    by_cases hwide : routing.wide i = true
    · rw [if_neg (by rw [hwide]; exact Bool.false_ne_true)]
      dsimp only
      by_cases hsource : routing.fromSource i = true
      · rw [if_pos hsource]
        have hfirst : routing.First i := ⟨hi, hwide, hsource⟩
        by_cases hdestination : routing.toDestination i = true
        · rw [if_pos hdestination]
          exact .inl ⟨i, rfl, hfirst, hdestination⟩
        · rw [if_neg hdestination]
          generalize hu : Search.mk (Function.update s.dist i 1) s.conn s.connCount (s.correctSizeTempsFound + 1)
            s.last = u
          have hdist : u.dist = Function.update s.dist i 1 := by rw [← hu]
          have hle (j : Nat) : u.dist j ≤ 1 := by
            rw [hdist]
            by_cases hj : j = i
            · rw [hj, Function.update_self]
            · rw [Function.update_of_ne hj]
              exact hs j
          cases ih hrest hle (by rw [← hu]; exact hlast) with
          | inl hfound => exact .inl hfound
          | inr hnone =>
            obtain ⟨hnone, hlevel, hopen⟩ := hnone
            refine .inr ⟨hnone, fun j k hk => ?_, fun j hj hfirst => ?_⟩
            · rw [hlevel j k hk, hdist, List.mem_cons]
              by_cases hj : j = i
              · simp [hj, hfirst]
              · simp [hj]
            · rcases List.mem_cons.1 hj with rfl | hj
              · exact hdestination
              · exact hopen j hj hfirst
      · rw [if_neg hsource]
        exact hskip rfl hlast fun hfirst => hsource hfirst.2.2
    · rw [if_pos (by rw [Bool.not_eq_true] at hwide; rw [hwide]; rfl)]
      exact hskip rfl hlast fun hfirst => hwide hfirst.2.1

theorem le_firstLevel_found {n : Nat} (is : List Nat) {s : Search} (h : n ≤ s.correctSizeTempsFound) :
    n ≤ (routing.firstLevel is s).correctSizeTempsFound := by
  induction is generalizing s with
  | nil => exact h
  | cons i is ih =>
    have hsucc : n ≤ s.correctSizeTempsFound + 1 := h.trans (Nat.le_succ _)
    rw [firstLevel]
    split
    · exact ih h
    · dsimp only
      split
      · split
        · exact hsucc
        · exact ih hsucc
      · exact ih hsucc

/-- A register that is wide enough is counted. -/
theorem firstLevel_found {is : List Nat} {s : Search} (h : ∃ i ∈ is, routing.wide i = true) :
    1 ≤ (routing.firstLevel is s).correctSizeTempsFound := by
  induction is with
  | nil =>
    obtain ⟨i, hi, -⟩ := h
    cases hi
  | cons i is ih =>
    have hone : 1 ≤ s.correctSizeTempsFound + 1 := Nat.le_add_left 1 _
    rw [firstLevel]
    split
    · next hnarrow =>
      apply ih
      obtain ⟨j, hj, hwide⟩ := h
      rcases List.mem_cons.1 hj with rfl | hj
      · rw [hwide] at hnarrow
        cases hnarrow
      · exact ⟨j, hj, hwide⟩
    · dsimp only
      split
      · split
        · exact hone
        · exact le_firstLevel_found is hone
      · exact le_firstLevel_found is hone

theorem Tried.start (level : Nat) {s : Search} (hcount : s.connCount = 0) : Tried routing level s [] s where
  dist i := .inr ⟨rfl, fun hnew => List.not_mem_nil hnew.1⟩
  conn i hi := absurd hi List.not_mem_nil
  conn_eq i _ := rfl
  connCount := by
    rw [hcount]
    exact ⟨fun h => absurd h (Nat.lt_irrefl 0), fun ⟨i, hi, _⟩ => absurd hi List.not_mem_nil⟩
  correctSizeTempsFound := Nat.le_refl _

/-- The next level ends at the destination, or it is complete. -/
theorem Level.next {level : Nat} (hlevel : 0 < level) {s : Search} (h : Level routing level s) {t : Search}
    (ht : routing.nextLevel (level + 1) (List.range routing.count) { s with connCount := 0 } = t) :
    s.correctSizeTempsFound ≤ t.correctSizeTempsFound ∧
      (t.connCount ≠ 0 ↔ ∃ i, routing.AtLevel (level + 1) i) ∧
      (t.last.isSome = true ∧ Result routing t (level + 1) ∨ Level routing (level + 1) t) := by
  have hlevel' : 2 ≤ level + 1 := Nat.succ_le_succ hlevel
  obtain ⟨tried, hinit, htried, hstop⟩ := nextLevel_spec routing (List.range routing.count) hlevel'
    (s := { s with connCount := 0 }) List.nodup_range (.start (level + 1) rfl) h.last fun i hi =>
    absurd hi List.not_mem_nil
  rw [ht] at htried hstop
  have hcount (i : Nat) (hi : i ∈ tried) : i < routing.count := List.mem_range.1 (hinit.subset hi)
  have hnew (i : Nat) (hi : i < routing.count) := h.isNew_iff hlevel (t := { s with connCount := 0 }) rfl hi
  have hsound : Sound routing t := htried.sound hlevel' hcount ⟨h.sound.first, h.sound.step⟩
  refine ⟨htried.correctSizeTempsFound, ?_⟩
  rw [← Nat.pos_iff_ne_zero, htried.connCount]
  rcases hstop with ⟨i, hi, hlast, hi', hdestination⟩ | ⟨hall, hlast, hopen⟩
  · have hatLevel := (hnew i (hcount i hi)).1 hi'
    refine ⟨⟨fun _ => ⟨i, hatLevel⟩, fun _ => ⟨i, hi, hi'⟩⟩, .inl ⟨by rw [hlast]; rfl, .inl ⟨i, hlast, ?_, ?_⟩⟩⟩
    · apply Chain.isShortest_of_levels hatLevel hdestination
      exact fun k hk j hj => h.unfound k (Nat.le_of_lt_succ hk) j hj
    · have hdist : t.dist i = level + 1 := by
        cases htried.dist i with
        | inl hfound => exact hfound.1
        | inr hold => exact absurd ⟨hi, hi'⟩ hold.2
      rw [← List.append_nil (trace _ _ _)]
      exact hsound.leads_trace hdist ⟨hcount i hi, hdestination⟩
  · rw [List.nil_append] at hall
    have hmem (i : Nat) (hi : i < routing.count) : i ∈ tried := hall ▸ List.mem_range.2 hi
    constructor
    · constructor
      · rintro ⟨i, hi, hi'⟩
        exact ⟨i, (hnew i (hcount i hi)).1 hi'⟩
      · rintro ⟨i, hi⟩
        have hlt := lt_count_of_chain hi.1
        exact ⟨i, hmem i hlt, (hnew i hlt).2 hi⟩
    · refine .inr ⟨hsound, fun i k hk => ?_, hlast, fun k hk i hi => ?_⟩
      · cases htried.dist i with
        | inl hfound =>
          obtain ⟨hdist, hi, hi'⟩ := hfound
          have hatLevel := (hnew i (hcount i hi)).1 hi'
          rw [hdist]
          constructor
          · rintro rfl
            exact ⟨Nat.le_refl _, hatLevel⟩
          · rintro ⟨-, hatLevel'⟩
            exact hatLevel.eq hatLevel'
        | inr hold =>
          obtain ⟨hdist, hold⟩ := hold
          rw [hdist, h.dist i k hk]
          constructor
          · rintro ⟨hle, hatLevel⟩
            exact ⟨hle.trans (Nat.le_succ _), hatLevel⟩
          · rintro ⟨hle, hatLevel⟩
            refine ⟨Nat.le_of_lt_succ (lt_of_le_of_ne hle ?_), hatLevel⟩
            rintro rfl
            have hlt := lt_count_of_chain hatLevel.1
            exact hold ⟨hmem i hlt, (hnew i hlt).2 hatLevel⟩
      · rcases Nat.lt_or_eq_of_le hk with hlt | rfl
        · exact h.unfound k (Nat.le_of_lt_succ hlt) i hi
        · have hlt := lt_count_of_chain hi.1
          exact hopen i (hmem i hlt) ((hnew i hlt).2 hi)

theorem Level.start {s : Search} (hlast : s.last = none)
    (hdist : ∀ i k, 0 < k → (s.dist i = k ↔ k = 1 ∧ routing.First i)) (hopen : ∀ i, routing.First i → ¬routing.Last i) :
    Level routing 1 s := by
  refine ⟨⟨fun i hi => ?_, fun i k hk hi => ?_⟩, fun i k hk => ?_, hlast, fun k hk i hi => ?_⟩
  · exact ((hdist i 1 Nat.one_pos).1 hi).2
  · have hone := ((hdist i (k + 1) (Nat.succ_pos k)).1 hi).1
    omega
  · rw [hdist i k hk]
    constructor
    · rintro ⟨rfl, hfirst⟩
      exact ⟨Nat.le_refl 1, Chain.atLevel_one.2 hfirst⟩
    · rintro ⟨hle, hatLevel⟩
      obtain rfl : k = 1 := by omega
      exact ⟨rfl, Chain.atLevel_one.1 hatLevel⟩
  · obtain rfl : k = 1 := Nat.le_antisymm hk hi.1.pos
    exact hopen i (Chain.atLevel_one.1 hi)

/-- The level after an empty one is not needed. -/
theorem Level.result {level : Nat} {s : Search} (h : Level routing (level + 1) s)
    (hempty : ¬∃ i, routing.AtLevel (level + 1) i) : Result routing s (level + 1) := by
  refine .inr ⟨h.last, Nat.succ_pos level, fun k i hchain => ?_⟩
  obtain ⟨k', -, hatLevel⟩ := Chain.exists_atLevel hchain
  have hlt := Chain.lt_of_empty (Nat.succ_pos level) (fun i hi => hempty ⟨i, hi⟩) hatLevel
  exact h.unfound k' (Nat.le_of_lt hlt) i hatLevel

theorem levels_spec (fuel : Nat) {level : Nat} (hlevel : 0 < level) {s : Search} (h : Level routing level s)
    (hreached : level = 1 ∨ ∃ i, routing.AtLevel level i) (hfuel : routing.count + 3 ≤ fuel + level) :
    ∃ t level', routing.levels fuel level s = some (t, level') ∧ Result routing t level' ∧
      s.correctSizeTempsFound ≤ t.correctSizeTempsFound := by
  have hle : level ≤ routing.count + 1 := by
    rcases hreached with rfl | hreached
    · omega
    · exact (level_le_count hreached).trans (Nat.le_succ _)
  induction fuel generalizing level s with
  | zero => omega
  | succ fuel ih =>
    rw [levels, if_neg (by rw [h.last]; exact Bool.false_ne_true)]
    generalize ht : routing.nextLevel (level + 1) (List.range routing.count) { s with connCount := 0 } = t
    obtain ⟨hfound, hconnected, hnext⟩ := h.next hlevel ht
    dsimp only
    by_cases hempty : t.connCount = 0
    · rw [if_pos hempty]
      refine ⟨t, level + 1, rfl, ?_, hfound⟩
      rcases hnext with ⟨-, hresult⟩ | hnext
      · exact hresult
      · exact hnext.result fun hexists => hconnected.2 hexists hempty
    · rw [if_neg hempty]
      have hreached' := hconnected.1 hempty
      have hle' := level_le_count hreached'
      rcases hnext with ⟨hlast, hresult⟩ | hnext
      · cases fuel with
        | zero => omega
        | succ fuel =>
          rw [levels, if_pos hlast]
          exact ⟨t, level + 1, rfl, hresult, hfound⟩
      · obtain ⟨u, level', hlevels, hresult, hfound'⟩ := ih (Nat.succ_pos level) hnext (.inr hreached') (by omega)
          (by omega)
        exact ⟨u, level', hlevels, hresult, hfound.trans hfound'⟩

/-- The search ends, at a shortest chain if there is one. -/
theorem search_spec (routing : Routing) :
    ∃ s level, routing.search = some (s, level) ∧ Result routing s level ∧
      ((∃ i < routing.count, routing.wide i = true) → 1 ≤ s.correctSizeTempsFound) := by
  have hfound (h : ∃ i < routing.count, routing.wide i = true) :
      1 ≤ (routing.firstLevel (List.range routing.count) start).correctSizeTempsFound := by
    obtain ⟨i, hi, hwide⟩ := h
    exact firstLevel_found ⟨i, List.mem_range.2 hi, hwide⟩
  rw [search]
  rcases firstLevel_spec routing (List.range routing.count) (s := start)
    (fun i hi => List.mem_range.1 hi) (fun i => Nat.zero_le 1) rfl with ⟨i, hlast, hfirst, hdestination⟩ | hnone
  · rw [levels, if_pos (by rw [hlast]; rfl)]
    refine ⟨_, 1, rfl, .inl ⟨i, hlast, ?_, hfirst.1, hdestination⟩, hfound⟩
    apply Chain.isShortest_of_levels (Chain.atLevel_one.2 hfirst) hdestination
    intro k hk j hj
    exact absurd hj.1.pos (by omega)
  · obtain ⟨hlast, hdist, hopen⟩ := hnone
    have hlevel : Level routing 1 (routing.firstLevel (List.range routing.count) start) := by
      apply Level.start hlast
      · intro i k hk
        rw [hdist i k hk]
        constructor
        · rintro ⟨rfl, hzero | hfirst⟩
          · cases hzero
          · exact ⟨rfl, hfirst.2⟩
        · rintro ⟨rfl, hfirst⟩
          exact ⟨rfl, .inr ⟨List.mem_range.2 hfirst.1, hfirst⟩⟩
      · exact fun i hfirst => hopen i (List.mem_range.2 hfirst.1) hfirst
    obtain ⟨t, level, hlevels, hresult, hle⟩ := levels_spec (routing.count + 2) Nat.one_pos hlevel (.inl rfl)
      (by omega)
    exact ⟨t, level, hlevels, hresult, fun h => (hfound h).trans hle⟩

end Routing

end Tce.RegisterCopyAdder
