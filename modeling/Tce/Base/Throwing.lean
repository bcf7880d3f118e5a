/-!
# Calls that may throw

A call returns, throws after some of its work is done, or does not end in any
defined way. What holds of the state it leaves is a matter of each part of it.
-/

namespace Tce

/-- How a call ends, and in which state. -/
inductive Throwing (σ : Type) where
  | done (s : σ)
  | threw (s : σ)
  | undefined

namespace Throwing
variable {σ τ α : Type} {P Q : σ → Prop} {r : Throwing σ} {s : σ}

/-- The state that the caller goes on from, whether or not it had to catch. -/
def state? : Throwing σ → Option σ
  | done s | threw s => some s
  | undefined => none

def andThen : Throwing σ → (σ → Throwing σ) → Throwing σ
  | done s, f => f s
  | threw s, _ => threw s
  | undefined, _ => undefined

def map (f : σ → τ) : Throwing σ → Throwing τ
  | done s => done (f s)
  | threw s => threw (f s)
  | undefined => undefined

/-- A call for each element; the first that throws is the last. -/
def forEach (f : α → σ → Throwing σ) : List α → σ → Throwing σ
  | [], s => done s
  | a :: l, s => (f a s).andThen (forEach f l)

/-- The state that a call leaves, if it leaves one, has the property. -/
def Keeps (P : σ → Prop) : Throwing σ → Prop
  | done s | threw s => P s
  | undefined => True

theorem Keeps.of_state? (h : r.Keeps P) (hs : r.state? = some s) : P s := by
  cases r with
  | done t | threw t =>
    cases hs
    exact h
  | undefined => cases hs

theorem Keeps.andThen {f : σ → Throwing σ} (h : r.Keeps P) (hf : ∀ s, P s → (f s).Keeps P) :
    (r.andThen f).Keeps P := by
  cases r with
  | done t => exact hf t h
  | threw t => exact h
  | undefined => trivial

theorem keeps_forEach {f : α → σ → Throwing σ} (hf : ∀ a s, P s → (f a s).Keeps P) (l : List α) (h : P s) :
    (forEach f l s).Keeps P := by
  induction l generalizing s with
  | nil => exact h
  | cons a l ih => exact (hf a s h).andThen fun t ht => ih ht

end Throwing

end Tce
