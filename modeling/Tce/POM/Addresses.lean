import Tce.POM.Editing

/-!
# Contiguous addresses

Every procedure starts where the one before it ends. An edit changes the length of one
procedure, and then everything after it has to move by the difference.
-/

namespace Tce.POM

/-- The procedures are laid out one after another from the address; the extent of a procedure is
its start address and its number of instructions. -/
def Layout (extent : SnippetId → Option (InstructionAddress × Nat)) : InstructionAddress → List SnippetId → Prop
  | _, [] => True
  | a, p :: ps => ∃ n, extent p = some (a, n) ∧ Layout extent (a + BitVec.ofNat 32 n) ps

section Layouts
variable {e f : SnippetId → Option (InstructionAddress × Nat)} {a b d : InstructionAddress} {n m' : Nat}
  {c : SnippetId} {ps pre post : List SnippetId}

theorem Layout.congr (h : Layout e a ps) (heq : ∀ p ∈ ps, f p = e p) : Layout f a ps := by
  induction ps generalizing a with
  | nil => trivial
  | cons p ps ih =>
    obtain ⟨n, hp, hps⟩ := h
    exact ⟨n, (heq p (by simp)).trans hp, ih hps fun q hq => heq q (by simp [hq])⟩

theorem Layout.shift (h : Layout e a ps) (heq : ∀ p ∈ ps, f p = (e p).map fun x => (x.1 + d, x.2)) :
    Layout f (a + d) ps := by
  induction ps generalizing a with
  | nil => trivial
  | cons p ps ih =>
    obtain ⟨n, hp, hps⟩ := h
    refine ⟨n, by simp [heq p (by simp), hp], ?_⟩
    have hcomm : a + d + BitVec.ofNat 32 n = a + BitVec.ofNat 32 n + d := by bv_omega
    rw [hcomm]
    exact ih hps fun q hq => heq q (by simp [hq])

/-- One procedure becomes longer or shorter and those after it move by the difference. -/
theorem Layout.resize (h : Layout e a (pre ++ c :: post)) (hc : e c = some (b, n)) (hc' : f c = some (b, m'))
    (hd : BitVec.ofNat 32 m' = BitVec.ofNat 32 n + d) (hpre : ∀ p ∈ pre, f p = e p)
    (hpost : ∀ p ∈ post, f p = (e p).map fun x => (x.1 + d, x.2)) : Layout f a (pre ++ c :: post) := by
  induction pre generalizing a with
  | nil =>
    obtain ⟨m, hm, hps⟩ := h
    obtain ⟨rfl, rfl⟩ : b = a ∧ n = m := by simpa [hc] using hm
    refine ⟨m', hc', ?_⟩
    rw [hd, ← BitVec.add_assoc]
    exact hps.shift hpost
  | cons p pre ih =>
    obtain ⟨m, hp, hps⟩ := h
    exact ⟨m, (hpre p (by simp)).trans hp, ih hps fun q hq => hpre q (by simp [hq])⟩

/-- A procedure after the last one. -/
theorem Layout.concat {k : Nat} {q : SnippetId} (h : Layout e a (pre ++ [q])) (hq : e q = some (b, k))
    (hc : e c = some (b + BitVec.ofNat 32 k, n)) : Layout e a (pre ++ [q] ++ [c]) := by
  induction pre generalizing a with
  | nil =>
    obtain ⟨m, hm, -⟩ := h
    obtain ⟨rfl, rfl⟩ : b = a ∧ k = m := by simpa [hq] using hm
    exact ⟨k, hq, n, hc, trivial⟩
  | cons p pre ih =>
    obtain ⟨m, hp, hps⟩ := h
    exact ⟨m, hp, ih hps⟩

/-- What follows a procedure is laid out from its end. -/
theorem Layout.after (h : Layout e a (pre ++ c :: post)) (hc : e c = some (b, n)) :
    Layout e (b + BitVec.ofNat 32 n) post := by
  induction pre generalizing a with
  | nil =>
    obtain ⟨m, hm, hps⟩ := h
    obtain ⟨rfl, rfl⟩ : b = a ∧ n = m := by simpa [hc] using hm
    exact hps
  | cons p pre ih =>
    obtain ⟨m, -, hps⟩ := h
    exact ih hps

/-- Where a procedure is depends on those before it only. -/
theorem Layout.start_unique {b' : InstructionAddress} (h : Layout e a (pre ++ c :: post))
    (h' : Layout f a (pre ++ c :: post)) (hpre : ∀ p ∈ pre, f p = e p) (hc : e c = some (b, n))
    (hc' : f c = some (b', m')) : b' = b := by
  induction pre generalizing a with
  | nil =>
    obtain ⟨m, hm, -⟩ := h
    obtain ⟨k', hk', -⟩ := h'
    simp_all
  | cons p pre ih =>
    obtain ⟨m, hm, hps⟩ := h
    obtain ⟨k', hk', hps'⟩ := h'
    obtain rfl : m = k' := by simpa [hm, hpre p (by simp)] using hk'
    exact ih hps hps' fun q hq => hpre q (by simp [hq])

/-- A procedure goes and those after it move by its length. -/
theorem Layout.erase (h : Layout e a (pre ++ c :: post)) (hc : e c = some (b, n)) (hpre : ∀ p ∈ pre, f p = e p)
    (hpost : ∀ p ∈ post, f p = (e p).map fun x => (x.1 - BitVec.ofNat 32 n, x.2)) : Layout f a (pre ++ post) := by
  induction pre generalizing a with
  | nil =>
    obtain ⟨m, hm, hps⟩ := h
    obtain ⟨rfl, rfl⟩ : b = a ∧ n = m := by simpa [hc] using hm
    have hshift := hps.shift (f := f) (d := -BitVec.ofNat 32 n) (by simpa [BitVec.sub_eq_add_neg] using hpost)
    have hback : b + BitVec.ofNat 32 n + -BitVec.ofNat 32 n = b := by bv_omega
    rwa [hback] at hshift
  | cons p pre ih =>
    obtain ⟨m, hp, hps⟩ := h
    exact ⟨m, (hpre p (by simp)).trans hp, ih hps fun q hq => hpre q (by simp [hq])⟩

end Layouts

namespace World

/-- Registration and ownership, as the objects record them, agree with the lists. An instruction may
still name a snippet it is no longer in. -/
structure Valid (w : World) : Prop where
  nodup_procedures : w.procedures.Nodup
  isInProgram_iff : ∀ c s, w.snippets c = some s → (s.isInProgram = true ↔ c ∈ w.procedures)
  procedure : ∀ c ∈ w.procedures, ∃ s, w.snippets c = some s ∧ s.isProcedure = true
  nodup : ∀ c s, w.snippets c = some s → s.instructions.Nodup
  parent : ∀ c s i, w.snippets c = some s → i ∈ s.instructions →
    ∃ ins, w.instructions i = some ins ∧ ins.parent = some c
  snippet_lt : ∀ c s, w.snippets c = some s → c < w.next
  instruction_lt : ∀ i ins, w.instructions i = some ins → i < w.next

def extent (w : World) (p : SnippetId) : Option (InstructionAddress × Nat) :=
  (w.snippets p).map fun s => (s.start, s.instructions.length)

def Contiguous (w : World) : Prop := Layout w.extent w.start w.procedures

structure Good (w : World) : Prop where
  valid : w.Valid
  contiguous : w.Contiguous

theorem valid_empty (start : InstructionAddress) : (empty start).Valid where
  nodup_procedures := List.nodup_nil
  isInProgram_iff _ _ h := by cases h
  procedure _ h := by cases h
  nodup _ _ h := by cases h
  parent _ _ _ h := by cases h
  snippet_lt _ _ h := by cases h
  instruction_lt _ _ h := by cases h

section Instructions
variable {w : World} {c : SnippetId} {s : CodeSnippet} {i : InstructionId} {ins : Instruction}
  {l : List InstructionId}

/-- An instruction is changed or deleted that no snippet has in its list, or keeps its parent. -/
theorem Valid.putInstruction (h : w.Valid) {v : Option Instruction} (hlt : v.isSome → i < w.next)
    (hv : ∀ c s, w.snippets c = some s → i ∈ s.instructions → ∃ ins, v = some ins ∧ ins.parent = some c) :
    (w.putInstruction i v).Valid where
  nodup_procedures := h.nodup_procedures
  isInProgram_iff := h.isInProgram_iff
  procedure := h.procedure
  nodup := h.nodup
  parent c s j hs hj := by
    by_cases hji : j = i
    · subst hji
      simpa [World.putInstruction] using hv c s hs hj
    · simpa [World.putInstruction, Function.update_of_ne hji] using h.parent c s j hs hj
  snippet_lt := h.snippet_lt
  instruction_lt j ins hj := by
    by_cases hji : j = i
    · subst hji
      exact hlt (by simp_all [World.putInstruction])
    · exact h.instruction_lt j ins (by simpa [World.putInstruction, Function.update_of_ne hji] using hj)

/-- Another list, of instructions whose parent the snippet already is. -/
theorem Valid.setInstructions (h : w.Valid) (hs : w.snippets c = some s) (hl : l.Nodup)
    (hparent : ∀ i ∈ l, ∃ ins, w.instructions i = some ins ∧ ins.parent = some c) :
    (w.setInstructions c l).Valid := by
  have hat : ∀ d t, (w.setInstructions c l).snippets d = some t →
      (d = c ∧ t = { s with instructions := l }) ∨ (d ≠ c ∧ w.snippets d = some t) := by
    intro d t ht
    by_cases hd : d = c
    · subst hd
      exact .inl ⟨rfl, by simpa [World.setInstructions, putSnippet, hs, eq_comm] using ht⟩
    · exact .inr ⟨hd, by simpa [World.setInstructions, putSnippet, Function.update_of_ne hd] using ht⟩
  refine ⟨h.nodup_procedures, ?_, ?_, ?_, ?_, ?_, h.instruction_lt⟩
  · intro d t ht
    obtain ⟨rfl, rfl⟩ | ⟨-, ht⟩ := hat d t ht
    · exact h.isInProgram_iff _ s hs
    · exact h.isInProgram_iff d t ht
  · intro d hd
    obtain ⟨t, ht, hproc⟩ := h.procedure d hd
    by_cases hdc : d = c
    · subst hdc
      obtain rfl : s = t := by simpa [hs] using ht
      exact ⟨{ s with instructions := l }, by simp [World.setInstructions, putSnippet, hs], hproc⟩
    · exact ⟨t, by simpa [World.setInstructions, putSnippet, Function.update_of_ne hdc] using ht, hproc⟩
  · intro d t ht
    obtain ⟨rfl, rfl⟩ | ⟨-, ht⟩ := hat d t ht
    · exact hl
    · exact h.nodup d t ht
  · intro d t j ht hj
    obtain ⟨rfl, rfl⟩ | ⟨-, ht⟩ := hat d t ht
    · exact hparent j hj
    · exact h.parent d t j ht hj
  · intro d t ht
    obtain ⟨rfl, rfl⟩ | ⟨-, ht⟩ := hat d t ht
    · exact h.snippet_lt _ s hs
    · exact h.snippet_lt d t ht

end Instructions

section Moves
variable {w : World} {c : SnippetId} {s : CodeSnippet} {d : InstructionAddress}

/-- The procedures of the list by so much, at once. -/
def shiftAll (l : List SnippetId) (d : InstructionAddress) (w : World) : World :=
  { w with
    snippets := fun p => if p ∈ l then (w.snippets p).map fun s => { s with start := s.start + d } else w.snippets p }

theorem foldl_shift {l : List SnippetId} (hl : l.Nodup) (w : World) : l.foldl (shift d) w = w.shiftAll l d := by
  induction l generalizing w with
  | nil => simp [shiftAll]
  | cons p l ih =>
    obtain ⟨hp, hl⟩ := List.nodup_cons.mp hl
    have hsnippets : ((shift d w p).shiftAll l d).snippets = (w.shiftAll (p :: l) d).snippets := by
      funext q
      by_cases hq : q = p
      · subst hq
        simp [shiftAll, shift, putSnippet, hp]
      · simp [shiftAll, shift, putSnippet, hq]
    simp only [List.foldl_cons, ih hl]
    simpa [shiftAll, shift, putSnippet] using hsnippets

theorem dropWhile_ne {pre : List SnippetId} (hc : c ∉ pre) (post : List SnippetId) :
    (pre ++ post).dropWhile (· != c) = post.dropWhile (· != c) := by
  refine List.dropWhile_append_of_pos fun p hp => ?_
  have hne : p ≠ c := fun heq => hc (heq ▸ hp)
  simpa using hne

theorem following_append {pre post : List SnippetId} (hps : w.procedures = pre ++ c :: post) (hc : c ∉ pre) :
    w.following c = post := by
  simp [following, hps, dropWhile_ne hc]

theorem following_of_notMem (hc : c ∉ w.procedures) : w.following c = [] := by
  have hdrop := dropWhile_ne hc []
  rw [List.append_nil] at hdrop
  rw [following, hdrop, List.dropWhile_nil, List.tail_nil]

/-- Moving the next procedure and its successors moves all that follow. -/
theorem moveFollowing_eq (h : w.Valid) (hs : w.snippets c = some s) :
    w.moveFollowing c d = .done (w.shiftAll (w.following c) d) := by
  by_cases hc : c ∈ w.procedures
  · obtain ⟨pre, post, hps⟩ := List.append_of_mem hc
    have hnodup := h.nodup_procedures
    rw [hps] at hnodup
    obtain ⟨-, hpost, hdisjoint⟩ := List.nodup_append.mp hnodup
    have hcpre : c ∉ pre := fun hmem => hdisjoint c hmem c (by simp) rfl
    have hfollow := following_append hps hcpre
    have hin := (h.isInProgram_iff c s hs).mpr hc
    obtain ⟨t, ht, hproc⟩ := h.procedure c hc
    obtain rfl : s = t := by simpa [hs] using ht
    cases hpost' : post with
    | nil =>
      have hlast : w.lastProcedure = some c := by simp [lastProcedure, hps, hpost']
      simp [moveFollowing, withSnippet, hs, hlast, hfollow, hpost', shiftAll]
    | cons q rest =>
      subst hpost'
      have hq : q ∉ pre ++ [c] := by
        intro hmem
        have := (List.nodup_append.mp (show ((pre ++ [c]) ++ (q :: rest)).Nodup by simpa using hnodup)).2.2
        exact this q hmem q (by simp) rfl
      have hlast : w.lastProcedure ≠ some c := by
        have : c ∉ q :: rest := (List.nodup_cons.mp hpost).1
        intro heq
        have hget : (q :: rest).getLast? = some c := by
          simpa [lastProcedure, hps, List.getLast?_append, List.getLast?_cons_cons] using heq
        exact this (List.mem_of_getLast? hget)
      have hmove : w.procedures.dropWhile (· != q) = q :: rest := by
        have hps' : w.procedures = (pre ++ [c]) ++ q :: rest := by simp [hps]
        rw [hps', dropWhile_ne hq]
        simp
      have hrest : (q :: rest).Nodup := (List.nodup_cons.mp hpost).2
      simp [moveFollowing, withSnippet, hs, hin, hproc, hlast, nextProcedure, hfollow, moveProcedure, hmove,
        foldl_shift hrest, -List.foldl_cons]
  · have hin : s.isInProgram = false := by
      have := h.isInProgram_iff c s hs
      simp_all
    simp [moveFollowing, withSnippet, hs, hin, following_of_notMem hc, shiftAll]

theorem Valid.shiftAll {l : List SnippetId} (h : w.Valid) : (w.shiftAll l d).Valid := by
  have hat : ∀ p t, (w.shiftAll l d).snippets p = some t → ∃ s, w.snippets p = some s ∧
      s.isInProgram = t.isInProgram ∧ s.isProcedure = t.isProcedure ∧ s.instructions = t.instructions := by
    intro p t ht
    by_cases hp : p ∈ l
    · obtain ⟨s, hs, rfl⟩ : ∃ s, w.snippets p = some s ∧ { s with start := s.start + d } = t := by
        simpa [World.shiftAll, hp] using ht
      exact ⟨s, hs, rfl, rfl, rfl⟩
    · exact ⟨t, by simpa [World.shiftAll, hp] using ht, rfl, rfl, rfl⟩
  refine ⟨h.nodup_procedures, ?_, ?_, ?_, ?_, ?_, h.instruction_lt⟩
  · intro p t ht
    obtain ⟨s, hs, hin, -, -⟩ := hat p t ht
    exact hin ▸ h.isInProgram_iff p s hs
  · intro p hp
    obtain ⟨s, hs, hproc⟩ := h.procedure p hp
    by_cases hl : p ∈ l
    · exact ⟨{ s with start := s.start + d }, by simp [World.shiftAll, hl, hs], hproc⟩
    · exact ⟨s, by simp [World.shiftAll, hl, hs], hproc⟩
  · intro p t ht
    obtain ⟨s, hs, -, -, heq⟩ := hat p t ht
    exact heq ▸ h.nodup p s hs
  · intro p t i ht hi
    obtain ⟨s, hs, -, -, heq⟩ := hat p t ht
    exact h.parent p s i hs (heq ▸ hi)
  · intro p t ht
    obtain ⟨s, hs, -⟩ := hat p t ht
    exact h.snippet_lt p s hs

/-- The step that every edit of a procedure makes: one snippet has another length, and the
procedures that follow are moved by the difference. -/
theorem Contiguous.resize {w' : World} {b : InstructionAddress} {n n' : Nat} (h : w.Contiguous) (hv : w.Valid)
    (hps : w'.procedures = w.procedures) (hstart : w'.start = w.start) (hc : w.extent c = some (b, n))
    (hc' : w'.extent c = some (b, n')) (hother : ∀ p, p ≠ c → w'.extent p = w.extent p)
    (hd : BitVec.ofNat 32 n' = BitVec.ofNat 32 n + d) : (w'.shiftAll (w'.following c) d).Contiguous := by
  have hfollow : w'.following c = w.following c := by simp [following, hps]
  have hextent : ∀ p, (w'.shiftAll (w'.following c) d).extent p =
      if p ∈ w.following c then (w'.extent p).map fun x => (x.1 + d, x.2) else w'.extent p := by
    intro p
    rw [← hfollow]
    by_cases hp : p ∈ w'.following c <;> simp [extent, shiftAll, hp, Function.comp_def]
  show Layout _ w'.start w'.procedures
  rw [hps, hstart]
  by_cases hmem : c ∈ w.procedures
  · obtain ⟨pre, post, hsplit⟩ := List.append_of_mem hmem
    have hnodup := hv.nodup_procedures
    rw [hsplit] at hnodup
    obtain ⟨-, hpost, hdisjoint⟩ := List.nodup_append.mp hnodup
    have hcpost : c ∉ post := (List.nodup_cons.mp hpost).1
    have hcpre : c ∉ pre := fun hm => hdisjoint c hm c (by simp) rfl
    have hpostEq := following_append hsplit hcpre
    rw [hsplit]
    refine Layout.resize (hsplit ▸ h) hc (by simp [hextent, hpostEq, hcpost, hc']) hd ?_ ?_
    · intro p hp
      have hne : p ≠ c := fun heq => hcpre (heq ▸ hp)
      have hnot : p ∉ post := fun hm => hdisjoint p hp p (by simp [hm]) rfl
      simp [hextent, hpostEq, hnot, hother p hne]
    · intro p hp
      have hne : p ≠ c := fun heq => hcpost (heq ▸ hp)
      simp [hextent, hpostEq, hp, hother p hne]
  · have hnil := following_of_notMem hmem
    refine Layout.congr h fun p hp => ?_
    have hne : p ≠ c := fun heq => hmem (heq ▸ hp)
    simp [hextent, hnil, hother p hne]

end Moves

end World

end Tce.POM
