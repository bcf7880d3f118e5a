import Tce.Base.Components

/-!
# Function units of the simulator

`FUState` starts the operation triggered in a cycle and advances the clocks of
the executors of the unit. It counts the executors that may have an operation
in flight, and skips their clocks when there is none, or all but the one of the
last trigger when there is one.

An executor belongs to one operation, so an operation is its position in the
list of executors.
-/

namespace Tce

/-- The operation context: whether it has no states, and the clock of those it has. -/
structure ContextClock (E : Type) where
  isEmpty : E → Bool
  advanceClock : E → E

/-- Errors of the unit itself, of its conflict detector, and those of operations. -/
inductive FUFault (ε : Type) where
  | noOperationCode (message : String)
  | resourceConflict (message : String)
  | operation (error : ε)
  deriving DecidableEq, Repr

structure FUState {n : Nat} (X : Fin n → Type) (E : Type) where
  idle : Bool
  trigger : Bool
  nextOperation : Option (Fin n)
  nextExecutor : Option (Fin n)
  executors : ∀ k, X k
  activeExecutors : Nat
  env : E

namespace FUState
variable {n : Nat} {X A : Fin n → Type} {E ε : Type}

/-- A unit as the constructor makes it. -/
def create (executors : ∀ k, X k) (env : E) : FUState X E :=
  { idle := false, trigger := false, nextOperation := none, nextExecutor := none, executors, activeExecutors := 0, env }

def setTriggered (s : FUState X E) : FUState X E := { s with trigger := true, idle := false }

/-- The executor is none when it has to be looked up. -/
def setOperation (s : FUState X E) (operation : Fin n) (executor : Option (Fin n)) : FUState X E :=
  { s with nextOperation := some operation, nextExecutor := executor }

/-- Writes to triggering ports: with an operation and its executor, with an
operation alone, or without one. -/
inductive Trigger (n : Nat) where
  | operationAndExecutor (operation : Fin n)
  | operation (operation : Fin n)
  | port
  deriving DecidableEq, Repr

def write (s : FUState X E) : Trigger n → FUState X E
  | .operationAndExecutor k => (s.setOperation k (some k)).setTriggered
  | .operation k => (s.setOperation k none).setTriggered
  | .port => s.setTriggered

def isIdle (context : ContextClock E) (s : FUState X E) : Bool := s.idle && context.isEmpty s.env

def endClock (x : ∀ k, Clocked (X k) E (FUFault ε)) (s : FUState X E) : Except (FUFault ε) (FUState X E) :=
  if s.trigger then
    match s.nextOperation with
    | none => .error (.noOperationCode "Tried to trigger FU without operation code.")
    | some operation => do
      let executor := s.nextExecutor.getD operation
      let (t, env) ← (x executor).start (s.executors executor) s.env
      let s := { s with
        trigger := false
        nextExecutor := some executor
        executors := Function.update s.executors executor t
        env := env }
      return if (x executor).hasPending t then { s with activeExecutors := s.activeExecutors + 1, idle := false } else s
  else .ok s

/-- The states of the context are advanced if there are any. -/
def advanceContext (context : ContextClock E) (env : E) : E :=
  if context.isEmpty env then env else context.advanceClock env

/-- `nextExecutor_`, when only one executor is active and it is pending. -/
def onlyActive (x : ∀ k, Clocked (X k) E (FUFault ε)) (s : FUState X E) : Option (Fin n) :=
  if s.activeExecutors = 1 then s.nextExecutor.filter fun k => (x k).hasPending (s.executors k) else none

def advanceClock (x : ∀ k, Clocked (X k) E (FUFault ε)) (context : ContextClock E) (s : FUState X E) :
    Except (FUFault ε) (FUState X E) :=
  if s.activeExecutors = 0 ∧ context.isEmpty s.env then .ok { s with idle := true }
  else
    match s.onlyActive x with
    | some k => do
      let (executors, env) ← Component.advanceOne x (s.executors, s.env) k
      let pending := (x k).hasPending (executors k)
      return { s with
        executors := executors
        env := advanceContext context env
        activeExecutors := if pending then 1 else 0
        idle := !pending }
    | none => do
      let ((executors, active), env) ←
        (List.finRange n).foldlM (Component.advancePending x) ((s.executors, 0), s.env)
      let env := advanceContext context env
      return { s with
        executors := executors
        env := env
        activeExecutors := active
        idle := decide (active = 0) && context.isEmpty env }

/-- The plain simulation: every executor is advanced, in the order of the list. -/
def advanceAll (x : ∀ k, Clocked (X k) E (FUFault ε)) (context : ContextClock E) (s : FUState X E) :
    Except (FUFault ε) (FUState X E) := do
  let (executors, env) ← (List.finRange n).foldlM (Component.advanceOne x) (s.executors, s.env)
  return { s with executors := executors, env := advanceContext context env }

/-- What else goes on in a cycle: moves before the end of the clock, memories
between it and the advance, and the rest of the machine after it. -/
structure Cycle (n : Nat) (E : Type) where
  triggers : List (Trigger n)
  moves : E → E
  memories : E → E
  rest : E → E

def cycle (x : ∀ k, Clocked (X k) E (FUFault ε)) (advance : FUState X E → Except (FUFault ε) (FUState X E))
    (s : FUState X E) (c : Cycle n E) : Except (FUFault ε) (FUState X E) := do
  let s := c.triggers.foldl write { s with env := c.moves s.env }
  let s ← s.endClock x
  let s ← advance { s with env := c.memories s.env }
  return { s with env := c.rest s.env }

def run (x : ∀ k, Clocked (X k) E (FUFault ε)) (advance : FUState X E → Except (FUFault ε) (FUState X E))
    (s : FUState X E) (cycles : List (Cycle n E)) : Except (FUFault ε) (FUState X E) :=
  cycles.foldlM (cycle x advance) s

/-! ## No executor with an operation in flight is skipped -/

section skip
variable {x : ∀ k, Clocked (X k) E (FUFault ε)} (C : ∀ k, Component (x k) (A k))

/-- The count is high enough: at 0 nothing is in flight, and at 1 nothing but in
the pending executor of the last trigger. -/
structure Counted (s : FUState X E) (as : ∀ k, A k) : Prop where
  zero : s.activeExecutors = 0 → ∀ k, (C k).Idle (as k)
  zero_next : s.activeExecutors = 0 → ∀ k, s.nextExecutor = some k → (x k).hasPending (s.executors k) = false
  one : s.activeExecutors = 1 → ∀ k, s.nextExecutor = some k → (x k).hasPending (s.executors k) = true →
    ∀ j, j ≠ k → (C j).Idle (as j)
  idle : s.idle = true → s.activeExecutors = 0

/-- A unit with fast paths and one without them, in the same abstract state. -/
structure Related (s t : FUState X E) (as : ∀ k, A k) : Prop where
  left : Component.Rels C s.executors as
  right : Component.Rels C t.executors as
  env : s.env = t.env
  trigger : s.trigger = t.trigger
  nextOperation : s.nextOperation = t.nextOperation
  nextExecutor : s.nextExecutor = t.nextExecutor

/-- The relation between two cycles. -/
structure Between (s t : FUState X E) (as : ∀ k, A k) : Prop extends Related C s t as where
  counted : Counted C s as
  ready : ∀ k, (C k).Ready (as k)
  untriggered : s.trigger = false

/-- The same error, or related states. -/
def Results (R : FUState X E → FUState X E → (∀ k, A k) → Prop) :
    Except (FUFault ε) (FUState X E) → Except (FUFault ε) (FUState X E) → Prop
  | .ok s, .ok t => ∃ as, R s t as
  | .error e, .error e' => e = e'
  | _, _ => False

theorem results_bind {R R' : FUState X E → FUState X E → (∀ k, A k) → Prop}
    {r r' : Except (FUFault ε) (FUState X E)} {f g : FUState X E → Except (FUFault ε) (FUState X E)}
    (h : Results R r r') (hfg : ∀ s t as, R s t as → Results R' (f s) (g t)) : Results R' (r >>= f) (r' >>= g) := by
  cases r with
  | error e =>
    cases r' with
    | error e' => exact h
    | ok t => exact h.elim
  | ok s =>
    cases r' with
    | error e' => exact h.elim
    | ok t =>
      obtain ⟨as, h⟩ := h
      exact hfg s t as h

variable {C}

/-- A write to a port triggers, and sets nothing that is not started at the end
of the clock. -/
theorem related_write {s t : FUState X E} {as : ∀ k, A k} (h : Related C s t as) (trigger : Trigger n) :
    Related C (s.write trigger) (t.write trigger) as := by
  cases trigger with
  | operationAndExecutor k => exact ⟨h.left, h.right, h.env, rfl, rfl, rfl⟩
  | operation k => exact ⟨h.left, h.right, h.env, rfl, rfl, rfl⟩
  | port => exact ⟨h.left, h.right, h.env, rfl, h.nextOperation, h.nextExecutor⟩

theorem write_eq (s : FUState X E) (trigger : Trigger n) :
    ((s.write trigger).trigger = true ∧ (s.write trigger).idle = false) ∧
      (s.write trigger).executors = s.executors ∧ (s.write trigger).activeExecutors = s.activeExecutors := by
  cases trigger <;> exact ⟨⟨rfl, rfl⟩, rfl, rfl⟩

theorem related_writes (triggers : List (Trigger n)) : ∀ {s t : FUState X E} {as : ∀ k, A k}, Related C s t as →
    Related C (triggers.foldl write s) (triggers.foldl write t) as := by
  induction triggers with
  | nil => exact id
  | cons trigger triggers ih => exact fun h => ih (related_write h trigger)

/-- After the writes of a cycle the unit is triggered, or everything is as before. -/
theorem writes_eq {triggers : List (Trigger n)} : ∀ {s : FUState X E},
    ((triggers.foldl write s).executors = s.executors ∧
      (triggers.foldl write s).activeExecutors = s.activeExecutors) ∧
    ((triggers.foldl write s).trigger = true ∧ (triggers.foldl write s).idle = false ∨ triggers.foldl write s = s) := by
  induction triggers with
  | nil => exact ⟨⟨rfl, rfl⟩, .inr rfl⟩
  | cons trigger triggers ih =>
    intro s
    obtain ⟨htrigger, hexecutors, hactive⟩ := write_eq s trigger
    obtain ⟨⟨h1, h2⟩, h3⟩ := @ih (s.write trigger)
    refine ⟨⟨h1.trans hexecutors, h2.trans hactive⟩, .inl ?_⟩
    cases h3 with
    | inl h => exact h
    | inr h =>
      rw [List.foldl_cons, h]
      exact htrigger

/-- The end of the clock keeps the relation and the count. Before it the count
is right for the executors, whatever operation the writes have set. -/
theorem endClock_results {s t : FUState X E} {as : ∀ k, A k} (h : Related C s t as)
    (hready : ∀ k, (C k).Ready (as k)) (hcounted : s.trigger = false → Counted C s as)
    (hzero : s.activeExecutors = 0 → ∀ k, (C k).Idle (as k)) (hidle : s.trigger = true → s.idle = false) :
    Results (fun s t as => Related C s t as ∧ Counted C s as ∧ s.trigger = false) (s.endClock x) (t.endClock x) := by
  unfold endClock
  rw [← h.trigger, ← h.nextOperation, ← h.nextExecutor, ← h.env]
  by_cases htrigger : s.trigger = true
  swap
  · rw [if_neg htrigger, if_neg htrigger]
    have hfalse : s.trigger = false := by simpa using htrigger
    exact ⟨as, h, hcounted hfalse, hfalse⟩
  rw [if_pos htrigger, if_pos htrigger]
  cases hnext : s.nextOperation with
  | none => rfl
  | some operation =>
    dsimp only
    generalize s.nextExecutor.getD operation = k
    have hleft := (C k).start_agree (h.left k) (hready k) (e := s.env)
    have hright := (C k).start_agree (h.right k) (hready k) (e := s.env)
    cases henter : (C k).enter (as k) s.env with
    | error e =>
      rw [henter] at hleft hright
      rw [agree_error hleft, agree_error hright]
      rfl
    | ok p =>
      obtain ⟨a, env⟩ := p
      rw [henter] at hleft hright
      obtain ⟨u, hu, hua⟩ := agree_ok hleft
      obtain ⟨v, hv, hva⟩ := agree_ok hright
      rw [hu, hv]
      refine ⟨Function.update as k a, ?_, ?_, ?_⟩
      · refine ⟨?_, ?_, ?_, ?_, ?_, ?_⟩
        · split <;> exact Component.rels_update h.left hua
        · split <;> exact Component.rels_update h.right hva
        all_goals split <;> split <;> rfl
      · by_cases hpending : (x k).hasPending u = true
        · -- the executor is counted
          simp only [if_pos hpending]
          refine ⟨fun hactive => by simp at hactive, fun hactive => by simp at hactive, fun hactive j hj _ i hi => ?_,
            fun hidle => by simp at hidle⟩
          simp only [Option.some.injEq] at hj
          subst hj
          rw [Function.update_of_ne hi]
          exact hzero (by simpa using hactive) i
        · -- its flag is down, so it has nothing in flight
          have hdown : (x k).hasPending u = false := by simpa using hpending
          simp only [if_neg hpending]
          refine ⟨fun hactive j => ?_, fun _ j hj => ?_, fun _ j hj hup => ?_, fun htrue => ?_⟩
          · by_cases hjk : j = k
            · subst hjk
              rw [Function.update_self]
              exact (C j).idle_of_not_pending hua hdown
            · rw [Function.update_of_ne hjk]
              exact hzero hactive j
          · simp only [Option.some.injEq] at hj
            subst hj
            dsimp only
            rw [Function.update_self]
            exact hdown
          · simp only [Option.some.injEq] at hj
            subst hj
            dsimp only at hup
            rw [Function.update_self] at hup
            exact absurd hup hpending
          · rw [hidle htrigger] at htrue
            cases htrue
      · split <;> rfl

/-- The executors that are advanced are those that would do anything. -/
theorem advanceClock_results (context : ContextClock E) {s t : FUState X E} {as : ∀ k, A k} (h : Related C s t as)
    (hcounted : Counted C s as) (htrigger : s.trigger = false) :
    Results (Between C) (s.advanceClock x context) (t.advanceAll x context) := by
  have hplain := Component.agree_foldlM (fun xs as e k (hxs : Component.Rels C xs as) =>
    Component.advanceOne_agree hxs e k) (List.finRange n) s.env h.right
  unfold advanceAll
  rw [← h.env]
  unfold advanceClock
  by_cases hzero : s.activeExecutors = 0 ∧ context.isEmpty s.env = true
  · -- nothing is in flight
    rw [if_pos hzero]
    rw [Component.shift_none (hcounted.zero hzero.1)] at hplain
    obtain ⟨ys, hys, hrels⟩ := agree_ok hplain
    rw [hys]
    refine ⟨as, ⟨h.left, hrels, ?_, h.trigger, h.nextOperation, h.nextExecutor⟩,
      ⟨hcounted.zero, hcounted.zero_next, hcounted.one, fun _ => hzero.1⟩, fun k => ?_, htrigger⟩
    · exact (if_pos hzero.2).symm
    · exact (C k).ready_shift ((C k).shift_idle (hcounted.zero hzero.1 k) (e := s.env))
  rw [if_neg hzero]
  cases honly : s.onlyActive x with
  | some k =>
    -- only the executor of the last trigger has something in flight
    obtain ⟨hactive, hnext, hup⟩ : s.activeExecutors = 1 ∧ s.nextExecutor = some k ∧
        (x k).hasPending (s.executors k) = true := by
      unfold onlyActive at honly
      split at honly
      · next hactive =>
        obtain ⟨hnext, hup⟩ := Option.filter_eq_some_iff.1 honly
        exact ⟨hactive, hnext, hup⟩
      · cases honly
    have hothers := hcounted.one hactive k hnext hup
    rw [Component.shift_only (List.nodup_finRange n) (List.mem_finRange k) hothers] at hplain
    have hfast := Component.advanceOne_agree h.left s.env k
    cases hshift : Component.shiftOne C (as, s.env) k with
    | error e =>
      rw [hshift] at hplain hfast
      dsimp only
      rw [agree_error hplain, agree_error hfast]
      rfl
    | ok p =>
      obtain ⟨bs, env⟩ := p
      rw [hshift] at hplain hfast
      obtain ⟨ys, hys, hrels⟩ := agree_ok hplain
      obtain ⟨zs, hzs, hrels'⟩ := agree_ok hfast
      obtain ⟨hsame, hready⟩ := Component.shiftOne_ok hshift
      dsimp only
      rw [hys, hzs]
      have hidle : ∀ j, j ≠ k → (C j).Idle (bs j) := fun j hj => by rw [hsame j hj]; exact hothers j hj
      refine ⟨bs, ⟨hrels', hrels, rfl, h.trigger, h.nextOperation, h.nextExecutor⟩, ⟨?_, ?_, ?_, ?_⟩, fun j => ?_,
        htrigger⟩
      · intro hdown j
        by_cases hj : j = k
        · subst hj
          exact (C j).idle_of_not_pending (hrels' j) (by simpa using hdown)
        · exact hidle j hj
      · intro hdown j hj
        obtain rfl : k = j := Option.some.inj (hnext.symm.trans hj)
        simpa using hdown
      · intro _ j hj _ i hi
        obtain rfl : k = j := Option.some.inj (hnext.symm.trans hj)
        exact hidle i hi
      · intro hdown
        have : (x k).hasPending (zs k) = false := by simpa using hdown
        simp [this]
      · by_cases hj : j = k
        · exact hj ▸ hready
        · exact (C j).ready_shift ((C j).shift_idle (hidle j hj) (e := env))
  | none =>
    -- the loop over all executors
    have hfast := Component.agree_foldlM (R := fun (p : (∀ k, X k) × Nat) as => Component.Rels C p.1 as)
      (fun p as e k hp => Component.advancePending_agree hp p.2 e k) (List.finRange n) (s := (s.executors, 0)) s.env h.left
    cases hshift : (List.finRange n).foldlM (Component.shiftOne C) (as, s.env) with
    | error e =>
      rw [hshift] at hplain hfast
      dsimp only
      rw [agree_error hplain, agree_error hfast]
      rfl
    | ok p =>
      obtain ⟨bs, env⟩ := p
      rw [hshift] at hplain hfast
      obtain ⟨ys, hys, hrels⟩ := agree_ok hplain
      obtain ⟨⟨zs, active⟩, hzs, hrels'⟩ := agree_ok hfast
      dsimp only at hrels'
      have hcount := (Component.advancePending_count (List.nodup_finRange n) hzs).1
      rw [Nat.zero_add] at hcount
      dsimp only
      rw [hys, hzs]
      have hmem {j : Fin n} (hup : (x j).hasPending (zs j) = true) :
          j ∈ (List.finRange n).filter fun k => (x k).hasPending (zs k) :=
        List.mem_filter.2 ⟨List.mem_finRange j, hup⟩
      have hdown (hactive : active = 0) (j : Fin n) : (x j).hasPending (zs j) = false := by
        rw [hactive] at hcount
        have hnil := List.length_eq_zero_iff.1 hcount.symm
        by_contra hup
        have := hmem (j := j) (by simpa using hup)
        rw [hnil] at this
        cases this
      refine ⟨bs, ⟨hrels', hrels, rfl, h.trigger, h.nextOperation, h.nextExecutor⟩, ⟨?_, ?_, ?_, ?_⟩, fun j => ?_,
        htrigger⟩
      · exact fun hactive j => (C j).idle_of_not_pending (hrels' j) (hdown hactive j)
      · exact fun hactive j _ => hdown hactive j
      · intro hactive j _ hup i hi
        apply (C i).idle_of_not_pending (hrels' i)
        by_contra hup'
        dsimp only at hactive
        rw [hcount] at hactive
        obtain ⟨o, ho⟩ := List.length_eq_one_iff.1 hactive
        have hj := hmem hup
        have hi' := hmem (j := i) (by simpa using hup')
        rw [ho, List.mem_singleton] at hj hi'
        exact hi (hi'.trans hj.symm)
      · intro hidle
        simp only [Bool.and_eq_true, decide_eq_true_eq] at hidle
        exact hidle.1
      · exact Component.shift_ready hshift j (.inl (List.mem_finRange j))

theorem cycle_results {context : ContextClock E} {s t : FUState X E} {as : ∀ k, A k} (h : Between C s t as)
    (c : Cycle n E) : Results (Between C) (cycle x (advanceClock x context) s c) (cycle x (advanceAll x context) t c) := by
  unfold cycle
  have hmoves : Related C { s with env := c.moves s.env } { t with env := c.moves t.env } as :=
    ⟨h.left, h.right, congrArg c.moves h.env, h.trigger, h.nextOperation, h.nextExecutor⟩
  obtain ⟨⟨hexecutors, hactive⟩, hwrites⟩ := @writes_eq n X E c.triggers { s with env := c.moves s.env }
  have hend := endClock_results (x := x) (related_writes c.triggers hmoves) h.ready
    (fun hfalse => by
      cases hwrites with
      | inl htrue =>
        rw [htrue.1] at hfalse
        cases hfalse
      | inr hsame =>
        rw [hsame]
        exact ⟨h.counted.zero, h.counted.zero_next, h.counted.one, h.counted.idle⟩)
    (fun hzero => h.counted.zero (hactive.symm.trans hzero))
    (fun htrue => by
      cases hwrites with
      | inl hidle => exact hidle.2
      | inr hsame =>
        rw [hsame] at htrue
        exact absurd (h.untriggered.symm.trans htrue) (by simp))
  apply results_bind hend
  rintro s₁ t₁ bs ⟨h₁, hcounted, htrigger⟩
  have hmemories : Related C { s₁ with env := c.memories s₁.env } { t₁ with env := c.memories t₁.env } bs :=
    ⟨h₁.left, h₁.right, congrArg c.memories h₁.env, h₁.trigger, h₁.nextOperation, h₁.nextExecutor⟩
  apply results_bind (advanceClock_results context hmemories
    ⟨hcounted.zero, hcounted.zero_next, hcounted.one, hcounted.idle⟩ htrigger)
  intro s₂ t₂ cs h₂
  exact ⟨cs, ⟨h₂.left, h₂.right, congrArg c.rest h₂.env, h₂.trigger, h₂.nextOperation, h₂.nextExecutor⟩,
    ⟨h₂.counted.zero, h₂.counted.zero_next, h₂.counted.one, h₂.counted.idle⟩, h₂.ready, h₂.untriggered⟩

theorem run_results (context : ContextClock E) (cycles : List (Cycle n E)) : ∀ {s t : FUState X E} {as : ∀ k, A k},
    Between C s t as → Results (Between C) (run x (advanceClock x context) s cycles) (run x (advanceAll x context) t cycles) := by
  induction cycles with
  | nil => exact fun h => ⟨_, h⟩
  | cons c cycles ih =>
    intro s t as h
    unfold run
    rw [List.foldlM_cons, List.foldlM_cons]
    apply results_bind (cycle_results h c)
    exact fun s' t' bs h' => ih h'

end skip

/-! ## Idle units -/

section idle
variable {x : ∀ k, Clocked (X k) E (FUFault ε)} {context : ContextClock E} {s t : FUState X E}

/-- The machine leaves out the clocks of units that are idle. -/
def unlessIdle (context : ContextClock E) (clock : FUState X E → Except (FUFault ε) (FUState X E)) (s : FUState X E) :
    Except (FUFault ε) (FUState X E) :=
  if s.isIdle context then .ok s else clock s

def machineCycle (x : ∀ k, Clocked (X k) E (FUFault ε)) (context : ContextClock E) (s : FUState X E) (c : Cycle n E) :
    Except (FUFault ε) (FUState X E) := do
  let s ← unlessIdle context (endClock x) (c.triggers.foldl write { s with env := c.moves s.env })
  let s ← unlessIdle context (advanceClock x context) { s with env := c.memories s.env }
  return { s with env := c.rest s.env }

def IdleSound (s : FUState X E) : Prop := s.idle = true → s.trigger = false ∧ s.activeExecutors = 0

theorem IdleSound.endClock_eq (h : s.IdleSound) : unlessIdle context (endClock x) s = s.endClock x := by
  unfold unlessIdle isIdle
  split
  · next hidle => rw [endClock, (h (Bool.and_eq_true_iff.1 hidle).1).1, if_neg (by simp)]
  · rfl

theorem IdleSound.advanceClock_eq (h : s.IdleSound) :
    unlessIdle context (advanceClock x context) s = s.advanceClock x context := by
  unfold unlessIdle isIdle
  split
  · next hidle =>
    obtain ⟨hidle, hempty⟩ := Bool.and_eq_true_iff.1 hidle
    rw [advanceClock, if_pos ⟨(h hidle).2, hempty⟩, ← hidle]
  · rfl

theorem bind_ok_congr {α β : Type} {r : Except ε α} {f g : α → Except ε β} {R : β → Prop}
    (h : ∀ a, r = .ok a → f a = g a ∧ ∀ b, g a = .ok b → R b) : r >>= f = r >>= g ∧ ∀ b, r >>= g = .ok b → R b := by
  cases r with
  | error e => exact ⟨rfl, fun _ hb => by cases hb⟩
  | ok a => exact h a rfl

theorem bind_ok {α β : Type} {r : Except ε α} {f : α → Except ε β} {b : β} (h : r >>= f = .ok b) :
    ∃ a, r = .ok a ∧ f a = .ok b := by
  cases r with
  | error e => cases h
  | ok a => exact ⟨a, rfl, h⟩

theorem IdleSound.endClock (h : s.IdleSound) (ht : s.endClock x = .ok t) : t.trigger = false ∧ t.IdleSound := by
  unfold FUState.endClock at ht
  split at ht
  · next htrigger =>
    split at ht
    · cases ht
    obtain ⟨⟨u, env⟩, -, ht⟩ := bind_ok ht
    cases ht
    split
    · exact ⟨rfl, fun hidle => by cases hidle⟩
    · exact ⟨rfl, fun hidle => absurd htrigger (by simp [(h hidle).1])⟩
  · next htrigger =>
    cases ht
    exact ⟨Bool.eq_false_iff.2 htrigger, h⟩

theorem idleSound_advanceClock (h : s.trigger = false) (ht : s.advanceClock x context = .ok t) : t.IdleSound := by
  unfold advanceClock at ht
  split at ht
  · next hzero =>
    cases ht
    exact fun _ => ⟨h, hzero.1⟩
  split at ht
  · obtain ⟨_, -, ht⟩ := bind_ok ht
    cases ht
    exact fun hidle => ⟨h, if_neg (by simpa using hidle)⟩
  · obtain ⟨_, -, ht⟩ := bind_ok ht
    cases ht
    exact fun hidle => ⟨h, of_decide_eq_true (Bool.and_eq_true_iff.1 hidle).1⟩

theorem IdleSound.machineCycle_eq (h : s.IdleSound) (c : Cycle n E) :
    machineCycle x context s c = cycle x (advanceClock x context) s c ∧
      ∀ t, cycle x (advanceClock x context) s c = .ok t → t.IdleSound := by
  have hwrites : (c.triggers.foldl write { s with env := c.moves s.env }).IdleSound := by
    obtain ⟨-, h' | h'⟩ := @writes_eq n X E c.triggers { s with env := c.moves s.env }
    · exact fun hidle => absurd h'.2 (by simp [hidle])
    · rw [h']
      exact h
  unfold machineCycle cycle
  rw [hwrites.endClock_eq]
  apply bind_ok_congr
  intro s₁ h₁
  obtain ⟨htrigger, hidle⟩ := hwrites.endClock h₁
  have hmemories : IdleSound { s₁ with env := c.memories s₁.env } := hidle
  rw [hmemories.advanceClock_eq]
  apply bind_ok_congr
  intro s₂ h₂
  refine ⟨rfl, fun b hb => ?_⟩
  cases hb
  have hsound : s₂.IdleSound :=
    idleSound_advanceClock (s := { s₁ with env := c.memories s₁.env }) htrigger h₂
  exact hsound

end idle

end FUState

end Tce
