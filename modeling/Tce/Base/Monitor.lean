import Mathlib.Data.List.Basic

/-!
# Monitors

A monitor watches requests that come at most one in a cycle and accepts or
rejects each of them. Its run ends with the first rejected request.

* `Tracks` relates two monitors step by step;
* `Tracks.answers_eq_iff`: the two give the same answers on exactly the runs
  whose requests all meet a condition;
* `pastMonitor` is the monitor that remembers every request with its age and
  rejects a request that clashes with one of them.
-/

namespace Tce

/-- `none` is a step the monitored program does not define. -/
structure Monitor (ι σ : Type) where
  issue : σ → ι → Option (Bool × σ)
  advance : σ → Option σ

namespace Monitor
variable {ι σ τ : Type}

/-- The answers to the requests of a run, up to and including the first
rejection. A cycle is a request or `none`, and is followed by an advance. -/
def answers (m : Monitor ι σ) : σ → List (Option ι) → Option (List Bool)
  | _, [] => some []
  | s, none :: cycles => (m.advance s).bind fun t => m.answers t cycles
  | s, some op :: cycles => (m.issue s op).bind fun (accepted, s') =>
    if accepted then (m.advance s').bind fun t => (m.answers t cycles).map (true :: ·)
    else some [false]

/-- The state after a run without rejection. -/
def after (m : Monitor ι σ) : σ → List (Option ι) → Option σ
  | s, [] => some s
  | s, none :: cycles => (m.advance s).bind fun t => m.after t cycles
  | s, some op :: cycles => (m.issue s op).bind fun (accepted, s') =>
    if accepted then (m.advance s').bind fun t => m.after t cycles else none

/-- Every request of the run, up to the first rejection, meets `P` in the state
it is made in. -/
def Meets (m : Monitor ι σ) (P : σ → ι → Prop) : σ → List (Option ι) → Prop
  | _, [] => True
  | s, none :: cycles => ∀ t, m.advance s = some t → m.Meets P t cycles
  | s, some op :: cycles => P s op ∧
    ∀ s' t, m.issue s op = some (true, s') → m.advance s' = some t → m.Meets P t cycles

theorem meets_true (m : Monitor ι σ) (s : σ) (run : List (Option ι)) :
    m.Meets (fun _ _ => True) s run := by
  induction run generalizing s with
  | nil => trivial
  | cons cycle cycles ih =>
    cases cycle with
    | none => exact fun t _ => ih t
    | some op => exact ⟨trivial, fun _ t _ _ => ih t⟩

/-- `m` and `n` stay related: `Ready` before the request of a cycle, `Issued`
after it. They answer alike exactly when `P` holds. -/
structure Tracks (m : Monitor ι σ) (n : Monitor ι τ) (P : σ → ι → Prop)
    (Ready Issued : σ → τ → Prop) : Prop where
  idle : ∀ s t, Ready s t → Issued s t
  issue : ∀ s t op, Ready s t → ∃ a s' b t', m.issue s op = some (a, s') ∧ n.issue t op = some (b, t') ∧
    (a = b ↔ P s op) ∧ (a = true → b = true → Issued s' t')
  advance : ∀ s t, Issued s t → ∃ s' t', m.advance s = some s' ∧ n.advance t = some t' ∧ Ready s' t'

/-- The states of a monitored program that has been used in any way: by
requests, whatever the answers, by advances, and by its other calls. -/
inductive Used (m : Monitor ι σ) (start : σ) (other : σ → σ → Prop) : σ → Prop
  | start : Used m start other start
  | issue {s s' : σ} {op : ι} {accepted : Bool} :
    Used m start other s → m.issue s op = some (accepted, s') → Used m start other s'
  | advance {s s' : σ} : Used m start other s → m.advance s = some s' → Used m start other s'
  | other {s s' : σ} : Used m start other s → other s s' → Used m start other s'

section tracks
variable {m : Monitor ι σ} {n : Monitor ι τ} {P : σ → ι → Prop} {Ready Issued : σ → τ → Prop}

theorem Tracks.answers_eq (h : Tracks m n P Ready Issued) (run : List (Option ι)) :
    ∀ s t, Ready s t → m.Meets P s run →
      ∃ as, m.answers s run = some as ∧ n.answers t run = some as := by
  induction run with
  | nil => exact fun _ _ _ _ => ⟨[], rfl, rfl⟩
  | cons cycle cycles ih =>
    intro s t hst hmeets
    cases cycle with
    | none =>
      obtain ⟨s', t', hs, ht, hready⟩ := h.advance s t (h.idle s t hst)
      obtain ⟨as, has, hbs⟩ := ih s' t' hready (hmeets s' hs)
      exact ⟨as, by simp [answers, hs, has], by simp [answers, ht, hbs]⟩
    | some op =>
      obtain ⟨a, s₁, b, t₁, hs, ht, hab, hissued⟩ := h.issue s t op hst
      obtain rfl := hab.2 hmeets.1
      cases a with
      | false => exact ⟨[false], by simp [answers, hs], by simp [answers, ht]⟩
      | true =>
        obtain ⟨s', t', hs', ht', hready⟩ := h.advance s₁ t₁ (hissued rfl rfl)
        obtain ⟨as, has, hbs⟩ := ih s' t' hready (hmeets.2 s₁ s' hs hs')
        exact ⟨true :: as, by simp [answers, hs, hs', has], by simp [answers, ht, ht', hbs]⟩

/-- A request that does not meet the condition is answered differently. -/
theorem Tracks.meets_of_eq (h : Tracks m n P Ready Issued) (run : List (Option ι)) :
    ∀ s t, Ready s t → m.answers s run = n.answers t run → m.Meets P s run := by
  induction run with
  | nil => exact fun _ _ _ _ => trivial
  | cons cycle cycles ih =>
    intro s t hst heq
    cases cycle with
    | none =>
      obtain ⟨s', t', hs, ht, hready⟩ := h.advance s t (h.idle s t hst)
      intro u hu
      obtain rfl : s' = u := Option.some.inj (hs.symm.trans hu)
      exact ih s' t' hready (by simpa [answers, hs, ht] using heq)
    | some op =>
      obtain ⟨a, s₁, b, t₁, hs, ht, hab, hissued⟩ := h.issue s t op hst
      have hne : a = b := by
        cases a <;> cases b <;> simp [answers, hs, ht] at heq ⊢
        · cases hx : n.advance t₁ with
          | none => simp [hx] at heq
          | some u => cases hy : n.answers u cycles <;> simp [hx, hy] at heq
        · cases hx : m.advance s₁ with
          | none => simp [hx] at heq
          | some u => cases hy : m.answers u cycles <;> simp [hx, hy] at heq
      subst hne
      refine ⟨hab.1 rfl, fun s₂ u hs₂ hu => ?_⟩
      obtain ⟨rfl, rfl⟩ : a = true ∧ s₁ = s₂ := by simpa using hs.symm.trans hs₂
      obtain ⟨s', t', hs', ht', hready⟩ := h.advance s₁ t₁ (hissued rfl rfl)
      obtain rfl : s' = u := Option.some.inj (hs'.symm.trans hu)
      refine ih s' t' hready ?_
      simp only [answers, hs, ht, hs', ht', Option.bind_some, if_true] at heq
      exact Option.map_injective (List.cons_injective) heq

/-- The two monitors give the same answers on exactly the runs whose requests
meet the condition. -/
theorem Tracks.answers_eq_iff (h : Tracks m n P Ready Issued) {s : σ} {t : τ} (hst : Ready s t)
    (run : List (Option ι)) : m.answers s run = n.answers t run ↔ m.Meets P s run := by
  constructor
  · exact h.meets_of_eq run s t hst
  · intro hmeets
    obtain ⟨as, has, hbs⟩ := h.answers_eq run s t hst hmeets
    exact has.trans hbs.symm

/-- After a run that meets the condition the monitors are related again, or both
have rejected a request of it. -/
theorem Tracks.after (h : Tracks m n P Ready Issued) (run : List (Option ι)) :
    ∀ s t, Ready s t → m.Meets P s run →
      (∃ s' t', m.after s run = some s' ∧ n.after t run = some t' ∧ Ready s' t') ∨
        (m.after s run = none ∧ n.after t run = none) := by
  induction run with
  | nil => exact fun s t hst _ => .inl ⟨s, t, rfl, rfl, hst⟩
  | cons cycle cycles ih =>
    intro s t hst hmeets
    cases cycle with
    | none =>
      obtain ⟨s', t', hs, ht, hready⟩ := h.advance s t (h.idle s t hst)
      simpa [Monitor.after, hs, ht] using ih s' t' hready (hmeets s' hs)
    | some op =>
      obtain ⟨a, s₁, b, t₁, hs, ht, hab, hissued⟩ := h.issue s t op hst
      obtain rfl := hab.2 hmeets.1
      cases a with
      | false => exact .inr ⟨by simp [Monitor.after, hs], by simp [Monitor.after, ht]⟩
      | true =>
        obtain ⟨s', t', hs', ht', hready⟩ := h.advance s₁ t₁ (hissued rfl rfl)
        simpa [Monitor.after, hs, ht, hs', ht'] using ih s' t' hready (hmeets.2 s₁ s' hs hs')

end tracks

/-! ## The monitor that remembers everything -/

/-- Requests made so far with the number of cycles since each of them. -/
abbrev Past (ι : Type) := List (Nat × ι)

/-- The past, one cycle later. -/
def Past.older (past : Past ι) : Past ι := past.map fun (age, i) => (age + 1, i)

theorem Past.mem_older {past : Past ι} {p : Nat × ι} :
    p ∈ past.older ↔ ∃ q ∈ past, p = (q.1 + 1, q.2) := by
  simp only [older, List.mem_map]
  constructor
  · rintro ⟨q, hq, rfl⟩; exact ⟨q, hq, rfl⟩
  · rintro ⟨q, hq, rfl⟩; exact ⟨q, hq, rfl⟩

/-- `clash i op age`: a request `op` is not allowed `age` cycles after `i`. -/
def pastMonitor (clash : ι → ι → Nat → Bool) : Monitor ι (Past ι) where
  issue past op :=
    if past.any fun (age, i) => clash i op age then some (false, past)
    else some (true, (0, op) :: past)
  advance past := some past.older

/-- Some request of the past clashes with `op`. -/
def Clashes (clash : ι → ι → Nat → Bool) (past : Past ι) (op : ι) : Prop :=
  ∃ p ∈ past, clash p.2 op p.1 = true

section past
variable {clash : ι → ι → Nat → Bool}

theorem pastMonitor_issue_reject {past : Past ι} {op : ι} (h : Clashes clash past op) :
    (pastMonitor clash).issue past op = some (false, past) := by
  obtain ⟨p, hp, hc⟩ := h
  have : past.any (fun (age, i) => clash i op age) = true := List.any_eq_true.2 ⟨p, hp, hc⟩
  simp [pastMonitor, this]

theorem pastMonitor_issue_accept {past : Past ι} {op : ι} (h : ¬Clashes clash past op) :
    (pastMonitor clash).issue past op = some (true, (0, op) :: past) := by
  have : past.any (fun (age, i) => clash i op age) = false := by
    rw [Bool.eq_false_iff, Ne, List.any_eq_true]
    exact fun ⟨p, hp, hc⟩ => h ⟨p, hp, hc⟩
  simp [pastMonitor, this]

/-- To follow the remembering monitor it is enough to answer by its clashes and
to relate to the lengthened and to the aged past. -/
theorem tracks_past (m : Monitor ι σ) (Ready Issued : σ → Past ι → Prop)
    (idle : ∀ s past, Ready s past → Issued s past)
    (reject : ∀ s past op, Ready s past → Clashes clash past op →
      ∃ s', m.issue s op = some (false, s'))
    (accept : ∀ s past op, Ready s past → ¬Clashes clash past op →
      ∃ s', m.issue s op = some (true, s') ∧ Issued s' ((0, op) :: past))
    (advance : ∀ s past, Issued s past →
      ∃ s', m.advance s = some s' ∧ Ready s' past.older) :
    Tracks m (pastMonitor clash) (fun _ _ => True) Ready Issued where
  idle := idle
  issue s past op hready := by
    by_cases hc : Clashes clash past op
    · obtain ⟨s', hs⟩ := reject s past op hready hc
      exact ⟨false, s', false, past, hs, pastMonitor_issue_reject hc, by simp, by simp⟩
    · obtain ⟨s', hs, hissued⟩ := accept s past op hready hc
      exact ⟨true, s', true, _, hs, pastMonitor_issue_accept hc, by simp, fun _ _ => hissued⟩
  advance s past hissued := by
    obtain ⟨s', hs, hready⟩ := advance s past hissued
    exact ⟨s', _, hs, rfl, hready⟩

end past
end Monitor
end Tce
