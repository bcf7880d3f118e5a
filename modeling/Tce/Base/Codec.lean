/-!
# Readers of streams

A reader takes items from the front of a stream. `Reads p written v` says that
`p` takes exactly the items in `written` off a stream and gives `v`, whatever
follows them.
-/

namespace Tce

/-- A reader fails or gives a value and what is left of the stream. -/
abbrev Reader (β ε α : Type) := StateT (List β) (Except ε) α

namespace Reader
variable {β ε α γ : Type}

structure Reads (p : Reader β ε α) (written : List β) (v : α) : Prop where
  run : ∀ rest, p.run (written ++ rest) = .ok (v, rest)

theorem reads_pure (v : α) : Reads (pure v : Reader β ε α) [] v := ⟨fun _ => rfl⟩

theorem Reads.bind {p : Reader β ε α} {f : α → Reader β ε γ} {first second : List β} {v : α} {w : γ}
    (hp : Reads p first v) (hf : Reads (f v) second w) : Reads (p >>= f) (first ++ second) w := by
  constructor
  intro rest
  rw [List.append_assoc, StateT.run_bind, hp.run]
  exact hf.run rest

theorem Reads.map {p : Reader β ε α} {written : List β} {v : α} (hp : Reads p written v) (f : α → γ) :
    Reads (p >>= fun a => pure (f a)) written (f v) := by
  have h : Reads (p >>= fun a => pure (f a)) (written ++ []) (f v) := hp.bind (f := fun a => pure (f a)) (reads_pure (f v))
  simpa using h

theorem Reads.map_eq {p : Reader β ε α} {written : List β} {v : α} {f : α → γ} {w : γ} (hp : Reads p written v)
    (h : f v = w) : Reads (p >>= fun a => pure (f a)) written w := h ▸ hp.map f

/-- The values of a reader that is run `n` times. -/
def repeated (p : Reader β ε α) : Nat → Reader β ε (List α)
  | 0 => pure []
  | n + 1 => p >>= fun v => repeated p n >>= fun vs => pure (v :: vs)

theorem reads_repeated {p : Reader β ε α} {write : α → List β} (h : ∀ v, Reads p (write v) v) (vs : List α) :
    Reads (repeated p vs.length) (vs.flatMap write) vs := by
  induction vs with
  | nil => exact reads_pure []
  | cons v vs ih => exact (h v).bind (ih.map (v :: ·))

/-! ## What a reader can give -/

/-- Every value that `p` gives, on any stream, satisfies `P`. -/
structure Gives (p : Reader β ε α) (P : α → Prop) : Prop where
  of_run : ∀ s v rest, p.run s = .ok (v, rest) → P v

variable {p : Reader β ε α} {P : α → Prop} {f : α → Reader β ε γ} {Q : γ → Prop}

theorem gives_pure {v : α} (h : P v) : Gives (pure v : Reader β ε α) P := by
  constructor
  intro s w rest hrun
  cases hrun
  exact h

theorem gives_error {p : Reader β ε α} {e : ε} (h : ∀ s, p.run s = .error e) : Gives p P := by
  constructor
  intro s v rest hrun
  rw [h] at hrun
  cases hrun

theorem Gives.bind (hp : Gives p P) (hf : ∀ v, P v → Gives (f v) Q) : Gives (p >>= f) Q := by
  constructor
  intro s w rest hrun
  rw [StateT.run_bind] at hrun
  cases h : p.run s with
  | error e =>
    rw [h] at hrun
    cases hrun
  | ok r =>
    rw [h] at hrun
    exact (hf r.1 (hp.of_run s r.1 r.2 h)).of_run r.2 w rest hrun

theorem gives_any (p : Reader β ε α) : Gives p fun _ => True := ⟨fun _ _ _ _ => trivial⟩

/-- What the first reader gives may not matter. -/
theorem Gives.next (hf : ∀ v, Gives (f v) Q) : Gives (p >>= f) Q := (gives_any p).bind fun v _ => hf v

theorem gives_repeated (p : Reader β ε α) (n : Nat) : Gives (repeated p n) fun vs => vs.length = n := by
  induction n with
  | zero => exact gives_pure rfl
  | succ n ih =>
    apply Gives.next
    intro v
    apply ih.bind
    intro vs hvs
    exact gives_pure (congrArg Nat.succ hvs)

end Reader

end Tce
