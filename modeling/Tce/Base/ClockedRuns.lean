import Tce.Base.Components

/-!
# Runs of one component

In each cycle the environment is changed, the component may be started, and
then its clock is advanced unless its flag is down. A run of the component
agrees with one of what it does, whose clock is advanced in every cycle.
-/

namespace Tce

/-- What changes the environment in a cycle, and whether the component is started. -/
structure ClockedCycle (E : Type) where
  moves : E → E
  trigger : Bool

namespace Clocked
variable {X E ε : Type}

/-- A cycle up to its clock advance. -/
def move (x : Clocked X E ε) (cycle : ClockedCycle E) (s : X × E) : Except ε (X × E) :=
  if cycle.trigger then x.start s.1 (cycle.moves s.2) else .ok (s.1, cycle.moves s.2)

/-- The clock is skipped when nothing is pending. -/
def tick (x : Clocked X E ε) (s : X × E) : Except ε (X × E) :=
  if x.hasPending s.1 then x.advance s.1 s.2 else .ok s

def run (x : Clocked X E ε) (cycles : Nat → ClockedCycle E) (s : X × E) : Nat → Except ε (X × E)
  | 0 => .ok s
  | n + 1 => x.run cycles s n >>= x.move (cycles n) >>= x.tick

theorem move_trigger {x : Clocked X E ε} {cycle : ClockedCycle E} (h : cycle.trigger = true) (s : X × E) :
    x.move cycle s = x.start s.1 (cycle.moves s.2) := if_pos h

theorem move_idle {x : Clocked X E ε} {cycle : ClockedCycle E} (h : cycle.trigger = false) (s : X × E) :
    x.move cycle s = .ok (s.1, cycle.moves s.2) := if_neg (by simp [h])

theorem tick_pending {x : Clocked X E ε} {s : X × E} (h : x.hasPending s.1 = true) : x.tick s = x.advance s.1 s.2 :=
  if_pos h

theorem run_succ {x : Clocked X E ε} {cycles : Nat → ClockedCycle E} {s s' : X × E} {n : Nat}
    (h : x.run cycles s n = .ok s') : x.run cycles s (n + 1) = x.move (cycles n) s' >>= x.tick := by
  rw [run, h]
  rfl

/-- A run that has come to its end has come to each cycle before. -/
theorem run_ok_succ {x : Clocked X E ε} {cycles : Nat → ClockedCycle E} {s s' : X × E} {n : Nat}
    (h : x.run cycles s (n + 1) = .ok s') :
    ∃ before moved, x.run cycles s n = .ok before ∧ x.move (cycles n) before = .ok moved ∧ x.tick moved = .ok s' := by
  cases hbefore : x.run cycles s n with
  | error e =>
    rw [run, hbefore] at h
    cases h
  | ok before =>
    rw [run_succ hbefore] at h
    cases hmoved : x.move (cycles n) before with
    | error e =>
      rw [hmoved] at h
      cases h
    | ok moved =>
      rw [hmoved] at h
      exact ⟨before, moved, rfl, hmoved, h⟩

end Clocked

namespace Component
variable {X A E ε : Type} {x : Clocked X E ε}

/-- What the component does in a cycle. -/
def step (C : Component x A) (cycle : ClockedCycle E) (s : A × E) : Except ε (A × E) :=
  (if cycle.trigger then C.enter s.1 (cycle.moves s.2) else .ok (s.1, cycle.moves s.2)) >>=
    fun s => C.shift s.1 s.2

def run (C : Component x A) (cycles : Nat → ClockedCycle E) (s : A × E) : Nat → Except ε (A × E)
  | 0 => .ok s
  | n + 1 => C.run cycles s n >>= C.step (cycles n)

theorem tick_agree (C : Component x A) {s : X} {a : A} {e : E} (h : C.Rel s a) :
    Agree C.Rel (x.tick (s, e)) (C.shift a e) := by
  unfold Clocked.tick
  by_cases hpending : x.hasPending s = true
  · rw [if_pos hpending]
    exact C.advance_agree h
  · rw [if_neg hpending, C.shift_idle (C.idle_of_not_pending h (by simpa using hpending))]
    exact ⟨h, rfl⟩

theorem step_agree (C : Component x A) (cycle : ClockedCycle E) {s : X} {a : A} {e : E} (h : C.Rel s a)
    (hready : C.Ready a) :
    Agree (fun s a => C.Rel s a ∧ C.Ready a) (x.move cycle (s, e) >>= x.tick) (C.step cycle (a, e)) := by
  have hmove : Agree C.Rel (x.move cycle (s, e))
      (if cycle.trigger then C.enter a (cycle.moves e) else .ok (a, cycle.moves e)) := by
    cases htrigger : cycle.trigger with
    | true =>
      rw [Clocked.move_trigger htrigger]
      exact C.start_agree h hready
    | false =>
      rw [Clocked.move_idle htrigger]
      exact ⟨h, rfl⟩
  apply agree_bind hmove
  intro t b f htb _ _
  have htick := C.tick_agree (e := f) htb
  cases hshift : C.shift b f with
  | error g =>
    rw [hshift] at htick
    rw [agree_error htick]
    rfl
  | ok r =>
    rw [hshift] at htick
    obtain ⟨u, hu, hrel⟩ := agree_ok htick
    rw [hu]
    exact ⟨⟨hrel, C.ready_shift hshift⟩, rfl⟩

/-- Runs agree, with the clock advances that are skipped. -/
theorem run_agree (C : Component x A) (cycles : Nat → ClockedCycle E) {s : X} {a : A} (e : E) (h : C.Rel s a)
    (hready : C.Ready a) (n : Nat) :
    Agree (fun s a => C.Rel s a ∧ C.Ready a) (x.run cycles (s, e) n) (C.run cycles (a, e) n) := by
  induction n with
  | zero => exact ⟨⟨h, hready⟩, rfl⟩
  | succ n ih =>
    have hassoc : x.run cycles (s, e) (n + 1) =
        x.run cycles (s, e) n >>= fun r => x.move (cycles n) r >>= x.tick := by
      rw [Clocked.run, bind_assoc]
    rw [hassoc, run]
    apply agree_bind ih
    intro t b f htb _ _
    exact C.step_agree (cycles n) htb.1 htb.2

end Component

end Tce
