/-!
# Runs of point updates

A loop whose steps each change the value at one key of a table acts on every
key alone: the value it leaves there is the one that the steps of that key
make, in their order.
-/

namespace Tce.Pointwise
variable {S K V P ε : Type}

/-- What every step keeps a loop that ends keeps. -/
theorem foldlM_keeps {I : S → Prop} {step : S → P → Except ε S} (hstep : ∀ s p s', I s → step s p = .ok s' → I s')
    {ps : List P} {s s' : S} (hs : I s) (h : ps.foldlM step s = .ok s') : I s' := by
  induction ps generalizing s with
  | nil =>
    cases h
    exact hs
  | cons p ps ih =>
    rw [List.foldlM_cons] at h
    cases hp : step s p with
    | error e =>
      rw [hp] at h
      cases h
    | ok s₁ =>
      rw [hp] at h
      exact ih (hstep s p s₁ hs hp) h

/-- The step changes, of all that `get` reads, the value at the key, as `f` says. -/
structure Acts [DecidableEq K] (I : S → Prop) (get : S → K → V) (key : K) (f : V → Except ε V)
    (step : S → Except ε S) : Prop where
  ok : ∀ s v, I s → f (get s key) = .ok v →
    ∃ s', step s = .ok s' ∧ I s' ∧ ∀ k, get s' k = if k = key then v else get s k
  error : ∀ s e, I s → f (get s key) = .error e → step s = .error e

variable [DecidableEq K] {I : S → Prop} {get : S → K → V} {key : P → K} {f : P → V → Except ε V}
  {step : S → P → Except ε S}

/-- The steps of one key. -/
def atKey (key : P → K) (k : K) (ps : List P) : List P := ps.filter fun p => key p = k

theorem atKey_cons (k : K) (p : P) (ps : List P) :
    atKey key k (p :: ps) = if key p = k then p :: atKey key k ps else atKey key k ps := by
  unfold atKey
  rw [List.filter_cons]
  simp only [decide_eq_true_eq]

theorem mem_atKey {k : K} {p : P} {ps : List P} : p ∈ atKey key k ps ↔ p ∈ ps ∧ key p = k := by
  unfold atKey
  rw [List.mem_filter, decide_eq_true_eq]

/-- A loop that ends has made of every value what the steps of its key make of it. -/
theorem foldlM_ok {ps : List P} : ∀ {s s' : S}, (∀ p ∈ ps, Acts I get (key p) (f p) (step · p)) → I s →
    ps.foldlM step s = .ok s' →
    I s' ∧ ∀ k, (atKey key k ps).foldlM (fun v p => f p v) (get s k) = .ok (get s' k) := by
  induction ps with
  | nil =>
    intro s s' _ hI h
    cases h
    exact ⟨hI, fun k => rfl⟩
  | cons p ps ih =>
    intro s s' hacts hI h
    rw [List.foldlM_cons] at h
    have hp := hacts p List.mem_cons_self
    cases hf : f p (get s (key p)) with
    | error e =>
      rw [hp.error s e hI hf] at h
      cases h
    | ok v =>
      obtain ⟨t, hstep, ht, hget⟩ := hp.ok s v hI hf
      rw [hstep] at h
      obtain ⟨hI', hall⟩ := ih (fun q hq => hacts q (List.mem_cons_of_mem _ hq)) ht h
      refine ⟨hI', fun k => ?_⟩
      rw [← hall k, hget k, atKey_cons]
      by_cases hk : key p = k
      · subst hk
        rw [if_pos rfl, if_pos rfl, List.foldlM_cons, hf]
        rfl
      · rw [if_neg hk, if_neg (Ne.symm hk)]

/-- A loop ends when the steps of each key do. -/
theorem foldlM_total {ps : List P} : ∀ {s : S}, (∀ p ∈ ps, Acts I get (key p) (f p) (step · p)) → I s →
    (∀ k, ∃ v, (atKey key k ps).foldlM (fun v p => f p v) (get s k) = .ok v) → ∃ s', ps.foldlM step s = .ok s' := by
  induction ps with
  | nil => exact fun _ _ _ => ⟨_, rfl⟩
  | cons p ps ih =>
    intro s hacts hI hall
    have hp := hacts p List.mem_cons_self
    cases hf : f p (get s (key p)) with
    | error e =>
      obtain ⟨v, hv⟩ := hall (key p)
      rw [atKey_cons, if_pos rfl, List.foldlM_cons, hf] at hv
      cases hv
    | ok v =>
      obtain ⟨t, hstep, ht, hget⟩ := hp.ok s v hI hf
      have htail (k : K) : ∃ w, (atKey key k ps).foldlM (fun v p => f p v) (get t k) = .ok w := by
        obtain ⟨w, hw⟩ := hall k
        refine ⟨w, ?_⟩
        rw [atKey_cons] at hw
        rw [hget k]
        by_cases hk : key p = k
        · subst hk
          rw [if_pos rfl, List.foldlM_cons, hf] at hw
          rw [if_pos rfl]
          exact hw
        · rw [if_neg hk] at hw
          rwa [if_neg (Ne.symm hk)]
      obtain ⟨s', hs'⟩ := ih (fun q hq => hacts q (List.mem_cons_of_mem _ hq)) ht htail
      exact ⟨s', by rw [List.foldlM_cons, hstep]; exact hs'⟩

/-- A loop fails as one of its updates does. -/
theorem foldlM_error {ps : List P} : ∀ {s : S} {e : ε}, (∀ p ∈ ps, Acts I get (key p) (f p) (step · p)) → I s →
    ps.foldlM step s = .error e → ∃ p ∈ ps, ∃ v, f p v = .error e := by
  induction ps with
  | nil =>
    intro s e _ _ h
    cases h
  | cons p ps ih =>
    intro s e hacts hI h
    rw [List.foldlM_cons] at h
    have hp := hacts p List.mem_cons_self
    cases hf : f p (get s (key p)) with
    | error e' =>
      rw [hp.error s e' hI hf] at h
      cases h
      exact ⟨p, List.mem_cons_self, _, hf⟩
    | ok v =>
      obtain ⟨t, hstep, ht, -⟩ := hp.ok s v hI hf
      rw [hstep] at h
      obtain ⟨q, hq, hfail⟩ := ih (fun q hq => hacts q (List.mem_cons_of_mem _ hq)) ht h
      exact ⟨q, List.mem_cons_of_mem _ hq, hfail⟩

/-- Steps that do nothing can be left out. -/
theorem foldlM_filter {f : V → Except ε V} {used : P → Bool} {ps : List P} (v : V) :
    ps.foldlM (fun v p => if used p then f v else .ok v) v = (ps.filter used).foldlM (fun v _ => f v) v := by
  induction ps generalizing v with
  | nil => rfl
  | cons p ps ih =>
    rw [List.foldlM_cons, List.filter_cons]
    cases hused : used p with
    | true =>
      simp only [if_true, List.foldlM_cons]
      cases f v with
      | error e => rfl
      | ok w => exact ih w
    | false => exact ih v

end Tce.Pointwise
