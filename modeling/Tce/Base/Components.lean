import Mathlib.Data.List.Nodup

/-!
# Clocked components

Components share an environment. An entry is put into a component, and its
clock is advanced. What a component does is said by an abstract one, related to
it; a component whose flag is down has an abstract one that is idle, and the
clock of an idle one changes nothing. So components with their flags down can
be skipped:

* `agree_foldlM`: loops whose steps agree, agree;
* `advancePending_agree`: to skip a component agrees with its abstract clock;
* `shift_only`: with all but one idle, the abstract clock is that of the one.
-/

namespace Tce

/-- Two results with related values and the same environment, or the same error. -/
def Agree {X A E ε : Type} (R : X → A → Prop) : Except ε (X × E) → Except ε (A × E) → Prop
  | .ok (x, e), .ok (a, e') => R x a ∧ e = e'
  | .error f, .error f' => f = f'
  | _, _ => False

theorem agree_bind {X A X' A' E ε : Type} {R : X → A → Prop} {R' : X' → A' → Prop} {r : Except ε (X × E)}
    {r' : Except ε (A × E)} {f : X × E → Except ε (X' × E)} {g : A × E → Except ε (A' × E)} (h : Agree R r r')
    (hfg : ∀ x a e, R x a → r = .ok (x, e) → r' = .ok (a, e) → Agree R' (f (x, e)) (g (a, e))) :
    Agree R' (r >>= f) (r' >>= g) := by
  cases r with
  | error e =>
    cases r' with
    | error e' => exact h
    | ok p => exact h.elim
  | ok p =>
    cases r' with
    | error e' => exact h.elim
    | ok q =>
      obtain ⟨x, e⟩ := p
      obtain ⟨a, e'⟩ := q
      obtain ⟨hxa, rfl⟩ := h
      exact hfg x a e hxa rfl rfl

theorem agree_error {X A E ε : Type} {R : X → A → Prop} {r : Except ε (X × E)} {e : ε} (h : Agree R r (.error e)) :
    r = .error e := by
  cases r with
  | error f => exact congrArg _ h
  | ok p => exact h.elim

theorem agree_ok {X A E ε : Type} {R : X → A → Prop} {r : Except ε (X × E)} {a : A} {e : E}
    (h : Agree R r (.ok (a, e))) : ∃ x, r = .ok (x, e) ∧ R x a := by
  cases r with
  | error f => exact h.elim
  | ok p =>
    obtain ⟨x, e'⟩ := p
    obtain ⟨hxa, rfl⟩ := h
    exact ⟨x, rfl, hxa⟩

/-- A component that can be entered, with a clock and a flag. -/
structure Clocked (X E ε : Type) where
  start : X → E → Except ε (X × E)
  advance : X → E → Except ε (X × E)
  hasPending : X → Bool

/-- What a component does, said by states `A`. -/
structure Component {X E ε : Type} (x : Clocked X E ε) (A : Type) where
  enter : A → E → Except ε (A × E)
  shift : A → E → Except ε (A × E)
  Rel : X → A → Prop
  /-- There is room for an entry. -/
  Ready : A → Prop
  Idle : A → Prop
  start_agree : ∀ {s a e}, Rel s a → Ready a → Agree Rel (x.start s e) (enter a e)
  advance_agree : ∀ {s a e}, Rel s a → Agree Rel (x.advance s e) (shift a e)
  ready_shift : ∀ {a a' e e'}, shift a e = .ok (a', e') → Ready a'
  idle_of_not_pending : ∀ {s a}, Rel s a → x.hasPending s = false → Idle a
  shift_idle : ∀ {a e}, Idle a → shift a e = .ok (a, e)

namespace Component
variable {ι : Type} [DecidableEq ι] {X A : ι → Type} {E ε : Type} {x : ∀ k, Clocked (X k) E ε}

/-- The clock of one component. -/
def advanceOne (x : ∀ k, Clocked (X k) E ε) (s : (∀ k, X k) × E) (k : ι) : Except ε ((∀ k, X k) × E) := do
  let (t, e) ← (x k).advance (s.1 k) s.2
  return (Function.update s.1 k t, e)

/-- The clock of a component whose flag is up; the ones are counted whose flags
are up after it. -/
def advancePending (x : ∀ k, Clocked (X k) E ε) (s : ((∀ k, X k) × Nat) × E) (k : ι) :
    Except ε (((∀ k, X k) × Nat) × E) :=
  if (x k).hasPending (s.1.1 k) then do
    let (xs, e) ← advanceOne x (s.1.1, s.2) k
    return ((xs, if (x k).hasPending (xs k) then s.1.2 + 1 else s.1.2), e)
  else return s

variable (C : ∀ k, Component (x k) (A k))

def Rels (xs : ∀ k, X k) (as : ∀ k, A k) : Prop := ∀ k, (C k).Rel (xs k) (as k)

def shiftOne (s : (∀ k, A k) × E) (k : ι) : Except ε ((∀ k, A k) × E) := do
  let (a, e) ← (C k).shift (s.1 k) s.2
  return (Function.update s.1 k a, e)

variable {C}

theorem rels_update {xs : ∀ k, X k} {as : ∀ k, A k} (h : Rels C xs as) {k : ι} {t : X k} {a : A k}
    (hk : (C k).Rel t a) : Rels C (Function.update xs k t) (Function.update as k a) := by
  intro j
  by_cases hj : j = k
  · subst hj
    rw [Function.update_self, Function.update_self]
    exact hk
  · rw [Function.update_of_ne hj, Function.update_of_ne hj]
    exact h j

theorem advanceOne_agree {xs : ∀ k, X k} {as : ∀ k, A k} (h : Rels C xs as) (e : E) (k : ι) :
    Agree (Rels C) (advanceOne x (xs, e) k) (shiftOne C (as, e) k) := by
  unfold advanceOne shiftOne
  apply agree_bind ((C k).advance_agree (h k))
  intro t a e' hxa _ _
  exact ⟨rels_update h hxa, rfl⟩

theorem shiftOne_idle {as : ∀ k, A k} {k : ι} (h : (C k).Idle (as k)) (e : E) : shiftOne C (as, e) k = .ok (as, e) := by
  unfold shiftOne
  dsimp only
  rw [(C k).shift_idle h]
  change Except.ok (Function.update as k (as k), e) = _
  rw [Function.update_eq_self]

/-- A component that is skipped agrees with its abstract clock. -/
theorem advancePending_agree {xs : ∀ k, X k} {as : ∀ k, A k} (h : Rels C xs as) (active : Nat) (e : E) (k : ι) :
    Agree (fun s as => Rels C s.1 as) (advancePending x ((xs, active), e) k) (shiftOne C (as, e) k) := by
  unfold advancePending
  by_cases hpending : (x k).hasPending (xs k) = true
  · rw [if_pos hpending, ← bind_pure (shiftOne C (as, e) k)]
    apply agree_bind (advanceOne_agree h e k)
    intro ys bs e' hys _ _
    exact ⟨hys, rfl⟩
  · rw [if_neg hpending, shiftOne_idle ((C k).idle_of_not_pending (h k) (by simpa using hpending))]
    exact ⟨h, rfl⟩

theorem advanceOne_ok {xs ys : ∀ k, X k} {e e' : E} {k : ι} (h : advanceOne x (xs, e) k = .ok (ys, e')) :
    ∀ j, j ≠ k → ys j = xs j := by
  unfold advanceOne at h
  cases hk : (x k).advance (xs k) e with
  | error f =>
    simp only [hk] at h
    cases h
  | ok p =>
    simp only [hk] at h
    cases h
    exact fun j hj => Function.update_of_ne hj _ _

/-- The loop over the components counts those whose flags are up at its end. -/
theorem advancePending_count {ks : List ι} : ∀ {xs ys : ∀ k, X k} {active active' : Nat} {e e' : E}, ks.Nodup →
    ks.foldlM (advancePending x) ((xs, active), e) = .ok ((ys, active'), e') →
    active' = active + (ks.filter fun k => (x k).hasPending (ys k)).length ∧ ∀ j, j ∉ ks → ys j = xs j := by
  induction ks with
  | nil =>
    intro xs ys active active' e e' _ h
    cases h
    exact ⟨rfl, fun j _ => rfl⟩
  | cons k ks ih =>
    intro xs ys active active' e e' hnodup h
    obtain ⟨hk, hnodup⟩ := List.nodup_cons.1 hnodup
    rw [List.foldlM_cons] at h
    -- the step leaves the others as they are and counts this one
    have hstep : ∃ zs e₁, advancePending x ((xs, active), e) k =
        .ok ((zs, if (x k).hasPending (zs k) then active + 1 else active), e₁) ∧ ∀ j, j ≠ k → zs j = xs j := by
      unfold advancePending at h ⊢
      by_cases hpending : (x k).hasPending (xs k) = true
      · rw [if_pos hpending] at h ⊢
        cases hone : advanceOne x (xs, e) k with
        | error f =>
          simp only [hone] at h
          cases h
        | ok p => exact ⟨p.1, p.2, rfl, advanceOne_ok hone⟩
      · refine ⟨xs, e, ?_, fun j _ => rfl⟩
        rw [if_neg hpending, if_neg hpending]
        rfl
    obtain ⟨zs, e₁, hstep, hothers⟩ := hstep
    rw [hstep] at h
    obtain ⟨hcount, hrest⟩ := ih hnodup h
    constructor
    · rw [hcount, List.filter_cons, hrest k hk]
      split
      · rw [List.length_cons]
        omega
      · rfl
    · intro j hj
      rw [List.mem_cons, not_or] at hj
      rw [hrest j hj.2, hothers j hj.1]

omit [DecidableEq ι] in
/-- Loops whose steps agree, agree. -/
theorem agree_foldlM {S T : Type} {R : S → T → Prop} {f : S × E → ι → Except ε (S × E)} {g : T × E → ι → Except ε (T × E)}
    (hfg : ∀ s t e k, R s t → Agree R (f (s, e) k) (g (t, e) k)) (ks : List ι) :
    ∀ {s t} (e : E), R s t → Agree R (ks.foldlM f (s, e)) (ks.foldlM g (t, e)) := by
  induction ks with
  | nil => exact fun e h => ⟨h, rfl⟩
  | cons k ks ih =>
    intro s t e h
    rw [List.foldlM_cons, List.foldlM_cons]
    apply agree_bind (hfg s t e k h)
    intro s' t' e' h' _ _
    exact ih e' h'

/-- What a step of the abstract clock leaves as it was, and what it makes ready. -/
theorem shiftOne_ok {as as' : ∀ k, A k} {e e' : E} {k : ι} (h : shiftOne C (as, e) k = .ok (as', e')) :
    (∀ j, j ≠ k → as' j = as j) ∧ (C k).Ready (as' k) := by
  unfold shiftOne at h
  cases hk : (C k).shift (as k) e with
  | error f =>
    simp only [hk] at h
    cases h
  | ok p =>
    obtain ⟨a, e₁⟩ := p
    simp only [hk] at h
    cases h
    refine ⟨fun j hj => Function.update_of_ne hj _ _, ?_⟩
    rw [Function.update_self]
    exact (C k).ready_shift hk

/-- After the abstract clock its components are ready. -/
theorem shift_ready {ks : List ι} : ∀ {as as' : ∀ k, A k} {e e' : E}, ks.foldlM (shiftOne C) (as, e) = .ok (as', e') →
    ∀ k, k ∈ ks ∨ (C k).Ready (as k) → (C k).Ready (as' k) := by
  induction ks with
  | nil =>
    intro as as' e e' h k hk
    cases h
    exact hk.resolve_left (by simp)
  | cons j ks ih =>
    intro as as' e e' h k hk
    rw [List.foldlM_cons] at h
    cases hj : shiftOne C (as, e) j with
    | error f =>
      rw [hj] at h
      cases h
    | ok p =>
      obtain ⟨as₁, e₁⟩ := p
      rw [hj] at h
      obtain ⟨hothers, hready⟩ := shiftOne_ok hj
      apply ih h k
      by_cases hkj : k = j
      · exact .inr (hkj ▸ hready)
      · rw [List.mem_cons, or_iff_right hkj] at hk
        exact hk.imp_right fun hr => by rwa [hothers k hkj]

/-- With every component idle the abstract clock changes nothing. -/
theorem shift_none {ks : List ι} {as : ∀ k, A k} (h : ∀ k, (C k).Idle (as k)) (e : E) :
    ks.foldlM (shiftOne C) (as, e) = .ok (as, e) := by
  induction ks with
  | nil => rfl
  | cons k ks ih =>
    rw [List.foldlM_cons, shiftOne_idle (h k)]
    exact ih

/-- With all but one idle the abstract clock is that of the one. -/
theorem shift_only {ks : List ι} {k : ι} : ∀ {as : ∀ k, A k}, ks.Nodup → k ∈ ks →
    (∀ j, j ≠ k → (C j).Idle (as j)) → ∀ e : E, ks.foldlM (shiftOne C) (as, e) = shiftOne C (as, e) k := by
  induction ks with
  | nil =>
    intro as _ hmem
    cases hmem
  | cons j ks ih =>
    intro as hnodup hmem hidle e
    obtain ⟨hj, hnodup⟩ := List.nodup_cons.1 hnodup
    rw [List.foldlM_cons]
    by_cases hjk : j = k
    · subst hjk
      -- the others come after it and do nothing
      have hrest : ∀ (ls : List ι), j ∉ ls → ∀ (as' : ∀ k, A k) (e' : E), (∀ i, i ≠ j → as' i = as i) →
          ls.foldlM (shiftOne C) (as', e') = .ok (as', e') := by
        intro ls
        induction ls with
        | nil => exact fun _ _ _ _ => rfl
        | cons i ls ihl =>
          intro hls as' e' hsame
          have hij : i ≠ j := fun h => hls (h ▸ List.mem_cons_self)
          rw [List.foldlM_cons, shiftOne_idle (by rw [hsame i hij]; exact hidle i hij)]
          exact ihl (fun h => hls (List.mem_cons_of_mem _ h)) as' e' hsame
      cases hshift : shiftOne C (as, e) j with
      | error f => rfl
      | ok p => exact hrest ks hj p.1 p.2 (shiftOne_ok hshift).1
    · rw [shiftOne_idle (hidle j hjk)]
      exact ih hnodup ((List.mem_cons.1 hmem).resolve_left (Ne.symm hjk)) hidle e

end Component

end Tce
