import Tce.Base.ClockedRuns
import Tce.Simulator.MultiLatencyExecutor

/-!
# Latency of operations

An executor runs cycles in which its operation may be triggered. Each trigger
has its results, and a result gets to its port with the last clock advance of
its latency; the advances write nothing else. What is in flight is the line of
the triggers in the last cycles, for the ring buffer as for the slots.
-/

namespace Tce.Simulator

section computes
variable {P V Ctx D ε : Type}

/-- A trigger in the environment gives the outputs; they had some values before. -/
def HWOperation.Computes (op : HWOperation P V Ctx ε) (env : Env P V Ctx D) (outputs : Fin op.numberOfOutputs → V) :
    Prop :=
  ∃ old inputs ready context,
    op.simulateTrigger (env.ports ∘ op.inputBinding) old env.context = .ok (inputs, outputs, ready, context)

/-- A trigger in the environment throws. -/
def HWOperation.Throws (op : HWOperation P V Ctx ε) (env : Env P V Ctx D) (e : ε) : Prop :=
  ∃ old, op.simulateTrigger (env.ports ∘ op.inputBinding) old env.context = .error e

/-- The outputs are computed from the inputs alone, and nothing else is changed. -/
def Operation.SideEffectFree (op : Operation V Ctx ε) : Prop :=
  ∃ compute : (Fin op.numberOfInputs → V) → Except ε ((Fin op.numberOfOutputs → V) × Bool),
    ∀ inputs outputs context, op.simulateTrigger inputs outputs context =
      (compute inputs).map fun r => (inputs, r.1, r.2, context)

theorem Operation.SideEffectFree.writesOutputs {op : Operation V Ctx ε} (h : op.SideEffectFree) : op.WritesOutputs := by
  obtain ⟨compute, hcompute⟩ := h
  intro inputs outputs outputs' context
  rw [hcompute, hcompute]

end computes

/-! ## What is claimed of a run -/

section latency
variable {P V Ctx D ε X : Type} (op : HWOperation P V Ctx ε) (x : Clocked X (Env P V Ctx D) (FUFault ε))
  (latency : Fin op.numberOfOutputs → Nat) (start : X × Env P V Ctx D) (cycles : Nat → ClockedCycle (Env P V Ctx D))

/-- In the first `n` cycles the triggers have these results, and they get to
the ports each with the last advance of its latency. -/
structure Delivers (n : Nat) (results : Nat → Fin op.numberOfOutputs → V) : Prop where
  computed : ∀ t, t < n → (cycles t).trigger = true → ∃ s, x.run cycles start t = .ok s ∧
    op.Computes ((cycles t).moves s.2) (results t)
  /-- The result of the trigger in cycle `t` is on its port after cycle `t + latency - 1`. -/
  delivered : ∀ k, k < n → ∀ s moved after, x.run cycles start k = .ok s → x.move (cycles k) s = .ok moved →
    x.tick moved = .ok after → ∀ t o, t + latency o = k + 1 → (cycles t).trigger = true →
      after.2.ports (op.outputBinding o) = results t o
  /-- With no trigger that long ago the advance leaves the port as it is. -/
  kept : ∀ k, k < n → ∀ s moved after, x.run cycles start k = .ok s → x.move (cycles k) s = .ok moved →
    x.tick moved = .ok after → ∀ o, (∀ t, t + latency o = k + 1 → (cycles t).trigger = false) →
      after.2.ports (op.outputBinding o) = moved.2.ports (op.outputBinding o)
  others : ∀ k, k < n → ∀ s moved after, x.run cycles start k = .ok s → x.move (cycles k) s = .ok moved →
    x.tick moved = .ok after → ∀ p, (∀ o, op.outputBinding o ≠ p) → after.2.ports p = moved.2.ports p

/-- A run fails with its operation only, and delivers the results of each trigger. -/
structure HasLatency : Prop where
  delivers : ∀ n s, x.run cycles start n = .ok s → ∃ results, Delivers op x latency start cycles n results
  fails : ∀ n e, x.run cycles start n = .error e → ∃ t s f, t < n ∧ x.run cycles start t = .ok s ∧
    (cycles t).trigger = true ∧ op.Throws ((cycles t).moves s.2) f ∧ e = .operation f

end latency

/-! ## Executors as lines -/

namespace Line
variable {P V Ctx D ε : Type} {op : HWOperation P V Ctx ε}

/-- The result of an output that has its latency behind it with the next advance. -/
def arriving (line : Line op) (latency : Fin op.numberOfOutputs → Nat) (o : Fin op.numberOfOutputs) : Option V :=
  if latency o = 0 then none else (line (latency o - 1)).map (· o)

/-- The line of the triggers before cycle `n`. -/
def ofTriggers (op : HWOperation P V Ctx ε) (cycles : Nat → ClockedCycle (Env P V Ctx D))
    (results : Nat → Fin op.numberOfOutputs → V) (n : Nat) : Line op := fun age =>
  if 0 < age ∧ age < op.latency ∧ age ≤ n ∧ (cycles (n - age)).trigger = true then some (results (n - age)) else none

/-- The line in cycle `n`, after the trigger. -/
def inCycle (op : HWOperation P V Ctx ε) (cycles : Nat → ClockedCycle (Env P V Ctx D))
    (results : Nat → Fin op.numberOfOutputs → V) (n : Nat) : Line op :=
  if (cycles n).trigger then Function.update (ofTriggers op cycles results n) 0 (some (results n))
  else ofTriggers op cycles results n

variable {cycles : Nat → ClockedCycle (Env P V Ctx D)} {results : Nat → Fin op.numberOfOutputs → V} {n : Nat}

theorem ofTriggers_zero : ofTriggers op cycles results n 0 = none := if_neg (by omega)

theorem ofTriggers_start : ofTriggers op cycles results 0 = fun _ => none := by
  funext age
  exact if_neg (by omega)

/-- The line is that of results before the cycle only. -/
theorem ofTriggers_congr {results' : Nat → Fin op.numberOfOutputs → V} (h : ∀ t, t < n → results' t = results t) :
    ofTriggers op cycles results' n = ofTriggers op cycles results n := by
  funext age
  unfold ofTriggers
  by_cases hage : 0 < age ∧ age < op.latency ∧ age ≤ n ∧ (cycles (n - age)).trigger = true
  · rw [if_pos hage, if_pos hage, h _ (by omega)]
  · rw [if_neg hage, if_neg hage]

theorem inCycle_eq {age : Nat} (h : age < op.latency) : inCycle op cycles results n age =
    if age ≤ n ∧ (cycles (n - age)).trigger = true then some (results (n - age)) else none := by
  unfold inCycle
  cases age with
  | zero =>
    rw [Nat.sub_zero]
    cases htrigger : (cycles n).trigger with
    | true => simp
    | false => simp [ofTriggers_zero]
  | succ age =>
    have hline : ofTriggers op cycles results n (age + 1) =
        if age + 1 ≤ n ∧ (cycles (n - (age + 1))).trigger = true then some (results (n - (age + 1))) else none := by
      unfold ofTriggers
      simp only [Nat.succ_pos, h, true_and]
    rw [← hline]
    split
    · exact Function.update_of_ne (Nat.succ_ne_zero age) _ _
    · rfl

theorem older_inCycle : (inCycle op cycles results n).older = ofTriggers op cycles results (n + 1) := by
  funext age
  cases age with
  | zero => exact ofTriggers_zero.symm
  | succ age =>
    dsimp only [older]
    by_cases hage : age + 1 < op.latency
    · rw [if_pos hage, inCycle_eq (by omega), ofTriggers]
      have hle : age + 1 ≤ n + 1 ↔ age ≤ n := by omega
      simp only [Nat.succ_pos, hage, hle, true_and, Nat.add_sub_add_right]
    · rw [if_neg hage, ofTriggers, if_neg (by omega)]

/-- What arrives in cycle `n` is the result of the trigger that has its latency behind it. -/
theorem arriving_inCycle {latency : Fin op.numberOfOutputs → Nat} {o : Fin op.numberOfOutputs}
    (h : 0 < latency o ∧ latency o ≤ op.latency) : (inCycle op cycles results n).arriving latency o =
    if latency o ≤ n + 1 ∧ (cycles (n + 1 - latency o)).trigger = true then some (results (n + 1 - latency o) o)
    else none := by
  have hle : latency o - 1 ≤ n ↔ latency o ≤ n + 1 := by omega
  have hsub : n - (latency o - 1) = n + 1 - latency o := by omega
  rw [arriving, if_neg (by omega), inCycle_eq (by omega)]
  simp only [hle, hsub]
  split <;> rfl

theorem older_zero (line : Line op) : line.older 0 = none := rfl

end Line

section line
variable {P V Ctx D ε X : Type} [DecidableEq P] (op : HWOperation P V Ctx ε)
  (x : Clocked X (Env P V Ctx D) (FUFault ε)) (latency : Fin op.numberOfOutputs → Nat)

/-- The clock advance of a line. -/
def Ticks (Rel : X → Line op → Prop) (line : Line op) (s : X × Env P V Ctx D) : Prop :=
  ∃ after, x.tick s = .ok after ∧ Rel after.1 line.older ∧
    after.2.ports = writeSome op.outputBinding (line.arriving latency) s.2.ports

/-- The executor keeps the line of the results in flight. -/
structure HoldsLines (Rel : X → Line op → Prop) : Prop where
  ready : ∀ {s line}, Rel s line → line 0 = none
  idle : ∀ {s line} env, Rel s line → Ticks op x latency Rel line (s, env)
  trigger : ∀ {s line} env, Rel s line →
    (∃ f, op.Throws env f ∧ x.start s env >>= x.tick = .error (.operation f)) ∨
    ∃ outputs moved, op.Computes env outputs ∧ x.start s env = .ok moved ∧
      Ticks op x latency Rel (Function.update line 0 (some outputs)) moved

variable {op x latency} {Rel : X → Line op → Prop} {cycles : Nat → ClockedCycle (Env P V Ctx D)}

/-- A cycle fails with its operation, or the line has the results of its
trigger and gets one advance older. -/
theorem HoldsLines.cycle (h : HoldsLines op x latency Rel) {s : X} (env : Env P V Ctx D) {n : Nat}
    {results : Nat → Fin op.numberOfOutputs → V} (hs : Rel s (Line.ofTriggers op cycles results n)) :
    (∃ f, (cycles n).trigger = true ∧ op.Throws ((cycles n).moves env) f ∧
      x.move (cycles n) (s, env) >>= x.tick = .error (.operation f)) ∨
    ∃ outputs moved, ((cycles n).trigger = true → op.Computes ((cycles n).moves env) outputs) ∧
      x.move (cycles n) (s, env) = .ok moved ∧
      Ticks op x latency Rel (Line.inCycle op cycles (Function.update results n outputs) n) moved := by
  have hbefore (outputs : Fin op.numberOfOutputs → V) :
      Line.ofTriggers op cycles (Function.update results n outputs) n = Line.ofTriggers op cycles results n :=
    Line.ofTriggers_congr fun t ht => Function.update_of_ne (Nat.ne_of_lt ht) _ _
  cases htrigger : (cycles n).trigger with
  | false =>
    refine .inr ⟨results n, _, (fun hfalse => by cases hfalse), Clocked.move_idle htrigger _, ?_⟩
    rw [Line.inCycle, htrigger, hbefore]
    exact h.idle _ hs
  | true =>
    rw [Clocked.move_trigger htrigger]
    obtain ⟨f, hthrows, hfails⟩ | ⟨outputs, moved, hcomputes, hmoved, hticks⟩ := h.trigger ((cycles n).moves env) hs
    · exact .inl ⟨f, rfl, hthrows, hfails⟩
    · refine .inr ⟨outputs, moved, fun _ => hcomputes, hmoved, ?_⟩
      rw [Line.inCycle, htrigger, hbefore, Function.update_self]
      exact hticks

/-- What one more cycle delivers. -/
theorem Delivers.succ {start before moved after : X × Env P V Ctx D} {n : Nat}
    {results : Nat → Fin op.numberOfOutputs → V} {outputs : Fin op.numberOfOutputs → V}
    (hlatency : ∀ o, 0 < latency o ∧ latency o ≤ op.latency) (h : Delivers op x latency start cycles n results)
    (hrun : x.run cycles start n = .ok before) (hmoved : x.move (cycles n) before = .ok moved)
    (htick : x.tick moved = .ok after)
    (hcomputes : (cycles n).trigger = true → op.Computes ((cycles n).moves before.2) outputs)
    (hports : after.2.ports = writeSome op.outputBinding
      ((Line.inCycle op cycles (Function.update results n outputs) n).arriving latency) moved.2.ports) :
    Delivers op x latency start cycles (n + 1) (Function.update results n outputs) := by
  -- in the last cycle the run is this one
  have hlast {s' moved' after' : X × Env P V Ctx D} (hs : x.run cycles start n = .ok s')
      (hm : x.move (cycles n) s' = .ok moved') (ha : x.tick moved' = .ok after') : moved' = moved ∧ after' = after := by
    rw [hrun] at hs
    cases hs
    rw [hmoved] at hm
    cases hm
    rw [htick] at ha
    cases ha
    exact ⟨rfl, rfl⟩
  have hport (o : Fin op.numberOfOutputs) : after.2.ports (op.outputBinding o) =
      (if latency o ≤ n + 1 ∧ (cycles (n + 1 - latency o)).trigger = true then
        some (Function.update results n outputs (n + 1 - latency o) o) else none).getD
          (moved.2.ports (op.outputBinding o)) := by
    rw [hports, writeSome_binding op.outputBinding_injective, Line.arriving_inCycle (hlatency o)]
  refine ⟨?_, ?_, ?_, ?_⟩
  · intro t ht htrigger
    by_cases htn : t = n
    · subst htn
      rw [Function.update_self]
      exact ⟨before, hrun, hcomputes htrigger⟩
    · rw [Function.update_of_ne htn]
      exact h.computed t (by omega) htrigger
  · intro k hk s' moved' after' hs hm ha t o hto htrigger
    by_cases hkn : k = n
    · subst hkn
      obtain ⟨rfl, rfl⟩ := hlast hs hm ha
      have ht : k + 1 - latency o = t := by omega
      rw [hport o, ht, if_pos ⟨by omega, htrigger⟩]
      rfl
    · have hpos := (hlatency o).1
      rw [Function.update_of_ne (by omega)]
      exact h.delivered k (by omega) s' moved' after' hs hm ha t o hto htrigger
  · intro k hk s' moved' after' hs hm ha o hnone
    by_cases hkn : k = n
    · subst hkn
      obtain ⟨rfl, rfl⟩ := hlast hs hm ha
      rw [hport o, if_neg]
      · rfl
      · rintro ⟨hle, htrigger⟩
        rw [hnone (k + 1 - latency o) (by omega)] at htrigger
        cases htrigger
    · exact h.kept k (by omega) s' moved' after' hs hm ha o hnone
  · intro k hk s' moved' after' hs hm ha p hp
    by_cases hkn : k = n
    · subst hkn
      obtain ⟨rfl, rfl⟩ := hlast hs hm ha
      rw [hports]
      exact writeSome_of_ne hp
    · exact h.others k (by omega) s' moved' after' hs hm ha p hp

/-- In each run the executor holds the line of its triggers. -/
theorem HoldsLines.run (h : HoldsLines op x latency Rel) (hlatency : ∀ o, 0 < latency o ∧ latency o ≤ op.latency)
    {s : X} (hs : Rel s fun _ => none) (env : Env P V Ctx D) : ∀ {n r}, x.run cycles (s, env) n = .ok r →
    ∃ results, Rel r.1 (Line.ofTriggers op cycles results n) ∧ Delivers op x latency (s, env) cycles n results := by
  intro n
  induction n with
  | zero =>
    intro r hr
    cases hr
    refine ⟨fun _ => op.outputStorage, ?_, ?_⟩
    · rw [Line.ofTriggers_start]
      exact hs
    · exact ⟨fun _ ht => by omega, fun _ hk => by omega, fun _ hk => by omega, fun _ hk => by omega⟩
  | succ n ih =>
    intro r hr
    obtain ⟨before, moved, hbefore, hmoved, htick⟩ := Clocked.run_ok_succ hr
    obtain ⟨results, hrel, hdelivers⟩ := ih hbefore
    obtain ⟨f, _, _, hfails⟩ | ⟨outputs, moved', hcomputes, hmoved', after, hafter, hnext, hports⟩ :=
      h.cycle before.2 hrel
    · have hok : x.move (cycles n) before >>= x.tick = .ok r := by
        rw [hmoved]
        exact htick
      rw [hfails] at hok
      cases hok
    · rw [show x.move (cycles n) (before.1, before.2) = .ok moved from hmoved] at hmoved'
      cases hmoved'
      rw [htick] at hafter
      cases hafter
      rw [Line.older_inCycle] at hnext
      exact ⟨Function.update results n outputs, hnext,
        hdelivers.succ hlatency hbefore hmoved htick hcomputes hports⟩

theorem HoldsLines.hasLatency (h : HoldsLines op x latency Rel) (hlatency : ∀ o, 0 < latency o ∧ latency o ≤ op.latency)
    {s : X} (hs : Rel s fun _ => none) (env : Env P V Ctx D) : HasLatency op x latency (s, env) cycles := by
  constructor
  · intro n r hr
    obtain ⟨results, _, hdelivers⟩ := h.run hlatency hs env hr
    exact ⟨results, hdelivers⟩
  · intro n
    induction n with
    | zero =>
      intro e he
      cases he
    | succ n ih =>
      intro e he
      cases hbefore : x.run cycles (s, env) n with
      | error e' =>
        rw [Clocked.run, hbefore] at he
        cases he
        obtain ⟨t, r, f, ht, hf⟩ := ih e hbefore
        exact ⟨t, r, f, by omega, hf⟩
      | ok before =>
        obtain ⟨results, hrel, _⟩ := h.run hlatency hs env hbefore
        rw [Clocked.run_succ hbefore] at he
        obtain ⟨f, htrigger, hthrows, hfails⟩ | ⟨outputs, moved, _, hmoved, after, hafter, _⟩ :=
          h.cycle before.2 hrel
        · rw [show x.move (cycles n) before >>= x.tick = .error (.operation f) from hfails] at he
          cases he
          exact ⟨n, before, f, by omega, hbefore, htrigger, hthrows, rfl⟩
        · rw [show x.move (cycles n) before = .ok moved from hmoved] at he
          have hok : x.tick moved = .error e := he
          rw [hafter] at hok
          cases hok

end line

/-! ## The two executors -/

section executors
variable {P V Ctx D ε : Type} [DecidableEq P] {op : HWOperation P V Ctx ε}

omit [DecidableEq P] in
theorem Line.arriving_empty {line : Line op} (h : line.Empty) (latency : Fin op.numberOfOutputs → Nat) :
    line.arriving latency = fun _ => none := by
  funext o
  rw [Line.arriving, h, Option.map_none, ite_self]

/-- The results that leave the ring buffer are those whose latency is that of the operation. -/
theorem Line.arriving_last (line : Line op) (ports : P → V) :
    writeSome op.outputBinding (line.arriving fun _ => op.latency) ports =
      match line.last with
      | some outputs => writePorts op.outputBinding outputs ports
      | none => ports := by
  have hpos := op.latency_pos
  have harriving : (line.arriving fun _ => op.latency) = fun o => line.last.map (· o) := by
    funext o
    have hne : op.latency ≠ 0 := by omega
    exact if_neg hne
  rw [harriving]
  cases line.last with
  | some outputs => rfl
  | none => exact MultiLatencyState.writeSome_none _ _

/-- With nothing pending the line is empty, and to skip the advance is to do it. -/
theorem ticks_empty {X : Type} {x : Clocked X (Env P V Ctx D) (FUFault ε)} {latency : Fin op.numberOfOutputs → Nat}
    {Rel : X → Line op → Prop} {line : Line op} {s : X × Env P V Ctx D} (hs : Rel s.1 line)
    (hpending : x.hasPending s.1 = false) (hempty : line.Empty) : Ticks op x latency Rel line s := by
  refine ⟨s, if_neg (by simp [hpending]), ?_, ?_⟩
  · rw [Line.older_empty hempty]
    exact hs
  · rw [Line.arriving_empty hempty]
    exact (MultiLatencyState.writeSome_none _ _).symm

/-- The ring buffer between two cycles. -/
def SimpleState.Between (s : SimpleState op) (line : Line op) : Prop := s.Holds line ∧ line 0 = none

theorem simple_ticks {s : SimpleState op} {line : Line op} (h : s.Holds line) (env : Env P V Ctx D) :
    Ticks op (simple op) (fun _ => op.latency) SimpleState.Between line (s, env) := by
  by_cases hpending : s.hasPendingOperations = true
  · have hagree := SimpleState.advanceClock_agree h env
    unfold shiftLine at hagree
    obtain ⟨t, ht, hholds⟩ := agree_ok hagree
    refine ⟨_, (Clocked.tick_pending hpending).trans ht, ⟨hholds, Line.older_zero line⟩, ?_⟩
    rw [Line.arriving_last]
    cases line.last with
    | some outputs => rfl
    | none => rfl
  · have hflag : s.hasPendingOperations = false := by simpa using hpending
    have hempty := SimpleState.empty_of_not_pending h hflag
    have hticks : Ticks op (simple op) (fun _ => op.latency) SimpleState.Holds line (s, env) :=
      ticks_empty h hflag hempty
    obtain ⟨after, htick, hholds, hports⟩ := hticks
    exact ⟨after, htick, ⟨hholds, Line.older_zero line⟩, hports⟩

theorem simple_holdsLines (op : HWOperation P V Ctx ε) :
    HoldsLines (D := D) op (simple op) (fun _ => op.latency) SimpleState.Between where
  ready h := h.2
  idle env h := simple_ticks h.1 env
  trigger {s line} env h := by
    have hagree := SimpleState.startOperation_agreeOn h.1 h.2 env
    unfold enterLineOn at hagree
    cases hsim : op.simulateTrigger (env.ports ∘ op.inputBinding) (s.cell s.nextSlot).outputs env.context with
    | error f =>
      rw [hsim] at hagree
      refine .inl ⟨f, ⟨_, hsim⟩, ?_⟩
      rw [show (simple op).start s env = _ from agree_error hagree]
      rfl
    | ok r =>
      obtain ⟨inputs, outputs, ready, context⟩ := r
      rw [hsim] at hagree
      obtain ⟨t, ht, hholds⟩ := agree_ok hagree
      exact .inr ⟨outputs, _, ⟨_, inputs, ready, context, hsim⟩, ht, simple_ticks hholds _⟩

/-- The slots between two cycles. -/
def MultiLatencyState.Between (s : MultiLatencyState op) (line : Line op) : Prop :=
  MultiLatencyState.Holds s ⟨none, line⟩ ∧ line 0 = none

omit [DecidableEq P] in
theorem MultiLatencyState.Holds.line_zero {s : MultiLatencyState op} {a : Stages op} (h : MultiLatencyState.Holds s a) :
    a.line 0 = none := by
  cases hline : a.line 0 with
  | none => rfl
  | some outputs => exact absurd rfl (h.slot 0 outputs hline).1

theorem multiLatency_holdsLines (op : HWOperation P V Ctx ε) :
    HoldsLines (D := D) op (multiLatency op) op.resultLatency MultiLatencyState.Between where
  ready h := h.2
  idle {s line} env h := by
    by_cases hpending : s.hasPendingOperations = true
    · obtain ⟨old, hagree⟩ := MultiLatencyState.advanceClock_agreeOn h.1 env
      obtain ⟨t, ht, hholds⟩ := agree_ok hagree
      exact ⟨_, (Clocked.tick_pending hpending).trans ht, ⟨hholds, hholds.line_zero⟩, rfl⟩
    · have hflag : s.hasPendingOperations = false := by simpa using hpending
      exact ticks_empty h hflag (MultiLatencyState.empty_of_not_pending h.1 hflag).2
  trigger {s line} env h := by
    have hholds := MultiLatencyState.startOperation_holds h.1 rfl env
    obtain ⟨old, hagree⟩ := MultiLatencyState.advanceClock_agreeOn hholds env
    have hstart : (multiLatency op).start s env = .ok (s.startOperation env, env) := rfl
    have htick : (multiLatency op).tick (s.startOperation env, env) = (s.startOperation env).advanceClock env :=
      Clocked.tick_pending rfl
    unfold Stages.shiftOn Stages.simulateOn at hagree
    cases hsim : op.simulateTrigger (env.ports ∘ op.inputBinding) old env.context with
    | error f =>
      simp only [hsim] at hagree
      refine .inl ⟨f, ⟨old, hsim⟩, ?_⟩
      rw [hstart]
      exact htick.trans (agree_error hagree)
    | ok r =>
      obtain ⟨inputs, outputs, ready, context⟩ := r
      simp only [hsim] at hagree
      obtain ⟨t, ht, hholds⟩ := agree_ok hagree
      exact .inr ⟨outputs, _, ⟨old, inputs, ready, context, hsim⟩, hstart, _, htick.trans ht,
        ⟨hholds, hholds.line_zero⟩, rfl⟩

/-! ## Equal latencies -/

theorem writePorts_self {m : Nat} (binding : Fin m → P) (ports : P → V) :
    writePorts binding (ports ∘ binding) ports = ports := by
  unfold writePorts writeSome
  induction List.finRange m with
  | nil => rfl
  | cons o os ih =>
    rw [List.foldl_cons]
    change os.foldl _ (Function.update ports (binding o) (ports (binding o))) = ports
    rw [Function.update_eq_self]
    exact ih

/-- A cycle of the lines of both executors. -/
theorem step_lines (hop : op.SideEffectFree) (hlatency : ∀ o, op.resultLatency o = op.latency)
    (cycle : ClockedCycle (Env P V Ctx D)) (line : Line op) (env : Env P V Ctx D) :
    Agree (fun line a => a = ⟨none, line⟩)
      ((simpleComponent op hop.writesOutputs).step cycle (line, env))
      ((multiLatencyComponent op hop.writesOutputs).step cycle (⟨none, line⟩, env)) := by
  have harriving (line : Line op) (ports : P → V) : writeSome op.outputBinding (Stages.arriving line) ports =
      match line.last with
      | some outputs => writePorts op.outputBinding outputs ports
      | none => ports := by
    have hsame : Stages.arriving line = line.arriving fun _ => op.latency := by
      funext o
      unfold Stages.arriving Line.arriving
      rw [hlatency]
    rw [hsame]
    exact line.arriving_last ports
  have hshift (line : Line op) (e : Env P V Ctx D) : (match line.last with
      | some outputs => { e with ports := writePorts op.outputBinding outputs e.ports }
      | none => e) = { e with ports := writeSome op.outputBinding (Stages.arriving line) e.ports } := by
    rw [harriving]
    cases line.last with
    | some outputs => rfl
    | none => rfl
  unfold Component.step
  cases cycle.trigger with
  | false => exact ⟨rfl, hshift line (cycle.moves env)⟩
  | true =>
    obtain ⟨compute, hcompute⟩ := hop
    change Agree _ (enterLine op line (cycle.moves env) >>= fun s => shiftLine op s.1 s.2)
      (Stages.shift ⟨some ((cycle.moves env).ports ∘ op.inputBinding), line⟩ (cycle.moves env))
    unfold enterLine Stages.shift Stages.simulate
    dsimp only
    rw [hcompute]
    cases compute ((cycle.moves env).ports ∘ op.inputBinding) with
    | error f => rfl
    | ok r =>
      refine ⟨rfl, ?_⟩
      dsimp only
      rw [writePorts_self]
      exact hshift _ _

/-- Two results with the same environment or the same error. -/
theorem agree_snd {X A E ε : Type} {R : X → A → Prop} {r : Except ε (X × E)} {r' : Except ε (A × E)}
    (h : Agree R r r') : r.map Prod.snd = r'.map Prod.snd := by
  cases r' with
  | error e => rw [agree_error h]; rfl
  | ok p =>
    obtain ⟨x, rfl, _⟩ := agree_ok h
    rfl

/-- With all latencies equal the two executors make the same traces. -/
theorem same_traces (hop : op.SideEffectFree) (hlatency : ∀ o, op.resultLatency o = op.latency)
    (cycles : Nat → ClockedCycle (Env P V Ctx D)) (env : Env P V Ctx D) (n : Nat) :
    ((multiLatency op).run cycles (.create op, env) n).map Prod.snd =
      ((simple op).run cycles (.create op, env) n).map Prod.snd := by
  have hlines : Agree (fun line a => a = ⟨none, line⟩)
      ((simpleComponent op hop.writesOutputs).run cycles (fun _ => none, env) n)
      ((multiLatencyComponent op hop.writesOutputs).run cycles (⟨none, fun _ => none⟩, env) n) := by
    induction n with
    | zero => exact ⟨rfl, rfl⟩
    | succ n ih =>
      unfold Component.run
      apply agree_bind ih
      rintro line a e rfl _ _
      exact step_lines hop hlatency (cycles n) line e
  have hmulti := (multiLatencyComponent op hop.writesOutputs).run_agree cycles env MultiLatencyState.holds_create rfl n
  have hsimple := (simpleComponent op hop.writesOutputs).run_agree cycles env SimpleState.holds_create rfl n
  rw [agree_snd hmulti, agree_snd hsimple, agree_snd hlines]

/-! ## Latencies in simulation -/

/-- Quotient and remainder. -/
def divide (inputs : Fin 2 → Nat) : Except String ((Fin 2 → Nat) × Bool) :=
  if inputs 1 = 0 then .error "Divide by zero."
  else .ok (fun o => if o = 0 then inputs 0 / inputs 1 else inputs 0 % inputs 1, true)

/-- A division of three cycles from the ports 0 and 1 to the ports 2 and 3; the
remainder may be there before the quotient. -/
def dividing (remainderLatency : Nat) : HWOperation Nat Nat Unit String where
  name := "DIVMOD"
  numberOfInputs := 2
  numberOfOutputs := 2
  simulateTrigger inputs _ context := (divide inputs).map fun r => (inputs, r.1, r.2, context)
  latency := 3
  latency_pos := by decide
  latency_int := by decide
  resultLatency o := if o = 0 then 3 else remainderLatency
  inputBinding i := i.val
  outputBinding o := o.val + 2
  outputBinding_injective o o' h := Fin.ext (Nat.add_right_cancel h)
  inputStorage _ := 0
  outputStorage _ := 0

/-- The division of the number of the cycle by two is triggered in every other cycle. -/
def dividingCycles (n : Nat) : ClockedCycle (Env Nat Nat Unit Unit) where
  moves env := { env with ports := Function.update (Function.update env.ports 0 n) 1 2 }
  trigger := decide (n % 2 = 0)

theorem dividing_sideEffectFree (remainderLatency : Nat) : (dividing remainderLatency).SideEffectFree :=
  ⟨divide, fun _ _ _ => rfl⟩

end executors

end Tce.Simulator
