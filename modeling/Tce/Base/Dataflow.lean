import Mathlib.Data.List.Induction
import Mathlib.Data.List.Nodup

/-!
# Instructions in another order

Instructions read results of others, and some of them a context that they also
change. An order that keeps each instruction after those that it reads, and the
ones that use the context as they are, gives the same results and context.
-/

namespace Tce

structure Dataflow (I R C : Type) where
  reads : I → List I
  usesContext : I → Bool
  exec : I → (I → R) → C → R × C
  exec_reads : ∀ {i E E'}, (∀ j ∈ reads i, E j = E' j) → ∀ c, exec i E c = exec i E' c
  exec_pure : ∀ {i}, usesContext i = false → ∀ E c c', exec i E c = ((exec i E c').1, c)

namespace Dataflow
variable {I R C : Type} [DecidableEq I] (p : Dataflow I R C)

def step (s : (I → R) × C) (i : I) : (I → R) × C :=
  (Function.update s.1 i (p.exec i s.1 s.2).1, (p.exec i s.1 s.2).2)

def run (s : (I → R) × C) (order : List I) : (I → R) × C := order.foldl p.step s

/-- Each instruction comes after those that it reads. -/
def Ordered (order : List I) : Prop :=
  ∀ before i after, order = before ++ i :: after → ∀ j ∈ p.reads i, j ∈ before

/-- The context after the instructions that use it, with the given results. -/
def context (E : I → R) (c : C) (order : List I) : C :=
  (order.filter p.usesContext).foldl (fun c i => (p.exec i E c).2) c

/-- Each result is what its instruction computes from the others. -/
def Solves (c : C) (order : List I) (E : I → R) : Prop :=
  ∀ before i after, order = before ++ i :: after → E i = (p.exec i E (p.context E c before)).1

variable {p}

theorem run_append (s : (I → R) × C) (before after : List I) :
    p.run s (before ++ after) = p.run (p.run s before) after := List.foldl_append

theorem run_concat (s : (I → R) × C) (before : List I) (i : I) :
    p.run s (before ++ [i]) = p.step (p.run s before) i := run_append s before [i]

theorem run_of_not_mem {order : List I} {i : I} : ∀ {s : (I → R) × C}, i ∉ order → (p.run s order).1 i = s.1 i := by
  induction order with
  | nil => exact fun _ => rfl
  | cons j order ih =>
    intro s hi
    rw [List.mem_cons, not_or] at hi
    exact (ih (s := p.step s j) hi.2).trans (Function.update_of_ne hi.1 _ _)

omit [DecidableEq I] in
theorem Ordered.initial {before after : List I} (h : p.Ordered (before ++ after)) : p.Ordered before := by
  intro l i r heq
  apply h l i (r ++ after)
  rw [heq, List.append_assoc]
  rfl

omit [DecidableEq I] in
theorem context_concat (E : I → R) (c : C) (before : List I) (i : I) :
    p.context E c (before ++ [i]) =
      if p.usesContext i then (p.exec i E (p.context E c before)).2 else p.context E c before := by
  unfold context
  rw [List.filter_append, List.foldl_append]
  by_cases hi : p.usesContext i = true
  · rw [if_pos hi, List.filter_cons_of_pos hi]
    rfl
  · rw [if_neg hi, List.filter_cons_of_neg hi]
    rfl

omit [DecidableEq I] in
/-- One more instruction has the effect on the context that `context` says. -/
theorem exec_context (E : I → R) (c : C) (before : List I) (i : I) :
    (p.exec i E (p.context E c before)).2 = p.context E c (before ++ [i]) := by
  rw [context_concat]
  by_cases hi : p.usesContext i = true
  · rw [if_pos hi]
  · rw [if_neg hi, p.exec_pure (by simpa using hi) E _ c]

/-- A run has the results and the context that solve its order. -/
theorem run_of_solves {E : I → R} {order : List I} (s : (I → R) × C) (hE : p.Solves s.2 order E)
    (hordered : p.Ordered order) :
    (∀ i ∈ order, (p.run s order).1 i = E i) ∧ (p.run s order).2 = p.context E s.2 order := by
  induction order using List.reverseRecOn with
  | nil => exact ⟨fun i hi => (List.not_mem_nil hi).elim, rfl⟩
  | append_singleton before i ih =>
    have hbefore : p.Solves s.2 before E := by
      intro l j r heq
      apply hE l j (r ++ [i])
      rw [heq, List.append_assoc]
      rfl
    obtain ⟨hresults, hcontext⟩ := ih hbefore hordered.initial
    have hreads : ∀ j ∈ p.reads i, (p.run s before).1 j = E j :=
      fun j hj => hresults j (hordered before i [] rfl j hj)
    have hexec : p.exec i (p.run s before).1 (p.run s before).2 = p.exec i E (p.context E s.2 before) := by
      rw [hcontext]
      exact p.exec_reads hreads _
    rw [run_concat]
    unfold step
    dsimp only
    rw [hexec]
    constructor
    · intro j hj
      by_cases hji : j = i
      · rw [hji, Function.update_self]
        exact (hE before i [] rfl).symm
      · rw [Function.update_of_ne hji]
        apply hresults
        simpa [hji] using hj
    · exact exec_context E s.2 before i

/-- The results of a run solve its order. -/
theorem solves_run {order : List I} (s : (I → R) × C) (hnodup : order.Nodup) (hordered : p.Ordered order) :
    p.Solves s.2 order (p.run s order).1 := by
  induction order using List.reverseRecOn with
  | nil =>
    intro before i after heq
    simp at heq
  | append_singleton before i ih =>
    have hi : i ∉ before := fun hi => List.disjoint_of_nodup_append hnodup hi List.mem_cons_self
    have hsolves := ih hnodup.of_append_left hordered.initial
    have hrun := run_of_solves s hsolves hordered.initial
    -- the last instruction changes no result that the others read
    have hsame : ∀ j ∈ before, (p.run s (before ++ [i])).1 j = (p.run s before).1 j := by
      intro j hj
      rw [run_concat]
      exact Function.update_of_ne (ne_of_mem_of_not_mem hj hi) _ _
    have hcontext : ∀ l, (∀ j ∈ l, j ∈ before) → p.Ordered l →
        p.context (p.run s (before ++ [i])).1 s.2 l = p.context (p.run s before).1 s.2 l := by
      intro l
      induction l using List.reverseRecOn with
      | nil => exact fun _ _ => rfl
      | append_singleton l k ihl =>
        intro hl hord
        have hl' : ∀ j ∈ l, j ∈ before := fun j hj => hl j (List.mem_append_left _ hj)
        rw [context_concat, context_concat, ihl hl' hord.initial,
          p.exec_reads (fun j hj => hsame j (hl' j (hord l k [] rfl j hj)))]
    intro l j r heq
    cases r using List.reverseRecOn with
    | nil =>
      obtain ⟨rfl, hij⟩ := List.append_inj' heq rfl
      obtain rfl : i = j := by simpa using hij
      rw [hcontext before (fun _ => id) hordered.initial, p.exec_reads fun k hk => hsame k (hordered before i [] rfl k hk),
        ← hrun.2, run_concat]
      unfold step
      dsimp only
      rw [Function.update_self]
    | append_singleton r k =>
      have heq' : before ++ [i] = (l ++ j :: r) ++ [k] := by
        rw [heq, List.append_assoc]
        rfl
      obtain ⟨hbefore, -⟩ := List.append_inj' heq' rfl
      have hl : ∀ m ∈ l, m ∈ before := fun m hm => hbefore ▸ List.mem_append_left _ hm
      have hord : p.Ordered (l ++ j :: r) := hbefore ▸ hordered.initial
      have hj : j ∈ before := hbefore ▸ List.mem_append_right _ List.mem_cons_self
      rw [hsame j hj, hcontext l hl hord.initial, p.exec_reads fun m hm => hsame m (hl m (hord l j r rfl m hm))]
      exact hsolves l j r hbefore

omit [DecidableEq I] in
/-- Orders agree on what comes before an instruction that uses the context. -/
theorem filter_before {q : I → Bool} {i : I} (hi : q i = true) {l r l' r' : List I}
    (hnodup : (l ++ i :: r).Nodup) (heq : (l ++ i :: r).filter q = (l' ++ i :: r').filter q) :
    l.filter q = l'.filter q := by
  rw [List.filter_append, List.filter_append, List.filter_cons_of_pos hi, List.filter_cons_of_pos hi] at heq
  have hfilter : (l.filter q ++ i :: r.filter q).Nodup := by
    have := hnodup.filter q
    rwa [List.filter_append, List.filter_cons_of_pos hi] at this
  have hl : i ∉ l.filter q := fun h => List.disjoint_of_nodup_append hfilter h List.mem_cons_self
  have hr : i ∉ r.filter q := (List.nodup_cons.1 hfilter.of_append_right).1
  exact ((List.append_cons_inj_of_notMem hl hr).1 heq).1

/-- Orders of the same instructions that agree on those that use the context give
the same results and context. -/
theorem run_reorder {order order' : List I} (s : (I → R) × C) (hnodup : order.Nodup) (hnodup' : order'.Nodup)
    (hmem : ∀ i, i ∈ order ↔ i ∈ order') (hordered : p.Ordered order) (hordered' : p.Ordered order')
    (hcontext : order.filter p.usesContext = order'.filter p.usesContext) : p.run s order = p.run s order' := by
  have hsolves := solves_run s hnodup' hordered'
  have hsolves' : p.Solves s.2 order (p.run s order').1 := by
    intro l i r heq
    have hi : i ∈ order' := (hmem i).1 (heq ▸ List.mem_append_right _ List.mem_cons_self)
    obtain ⟨l', r', heq'⟩ := List.append_of_mem hi
    rw [hsolves l' i r' heq']
    by_cases huses : p.usesContext i = true
    · have hbefore : l.filter p.usesContext = l'.filter p.usesContext :=
        filter_before huses (heq ▸ hnodup) (by rw [← heq, ← heq', hcontext])
      unfold context
      rw [hbefore]
    · rw [p.exec_pure (by simpa using huses) _ _ (p.context (p.run s order').1 s.2 l)]
  obtain ⟨hresults, hctx⟩ := run_of_solves s hsolves' hordered
  obtain ⟨-, hctx'⟩ := run_of_solves s hsolves hordered'
  apply Prod.ext
  · funext i
    by_cases hi : i ∈ order
    · exact hresults i hi
    · rw [run_of_not_mem hi, run_of_not_mem fun h => hi ((hmem i).2 h)]
  · rw [hctx, hctx']
    unfold context
    rw [hcontext]

end Dataflow

end Tce
