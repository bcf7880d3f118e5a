import Mathlib.Data.Set.Lattice
import Mathlib.Algebra.Order.Ring.Int
import Mathlib.Order.CompletePartialOrder
import Tce.DDG.AliasAnalysis

/-!
# What constant alias analysis shows

Tracing an address ends unless registers are copied in a circle. An answer holds
in each run in which every register that is traced is written in the run before
it is read.
-/

namespace Tce.DDG

open LastWrite Relation

/-! ## Answers of a traced computation -/

section Traced
variable {ε α β : Type}

theorem bind_eq_ok {x : ExceptT ε Option α} {f : α → ExceptT ε Option β} {b : β} (h : x >>= f = some (.ok b)) :
    ∃ a, x = some (.ok a) ∧ f a = some (.ok b) := by
  match x, h with
  | some (.ok a), h => exact ⟨a, rfl, h⟩

theorem bind_ends {x : ExceptT ε Option α} {f : α → ExceptT ε Option β} (hx : x.run.isSome)
    (hf : ∀ a, x = some (.ok a) → (f a).run.isSome) : (x >>= f).run.isSome := by
  match x, hx, hf with
  | some (.ok a), _, hf => exact hf a rfl
  | some (.error _), _, _ => rfl

theorem ends_of_bind {x : ExceptT ε Option α} {f : α → ExceptT ε Option β} (h : (x >>= f).run.isSome) : x.run.isSome := by
  match x, h with
  | some _, _ => rfl

end Traced

/-! ## Memory accesses -/

/-- The minimum addressable units of an access to `address`. -/
def touches (address : BitVec 32) (maus : Int) : Set (BitVec 32) :=
  {unit | ∃ k : Nat, (k : Int) < maus ∧ unit = address + BitVec.ofNat 32 k}

/-- The size of an access is a power of two that an `int` has. -/
def IsSize (maus : Int) (k : Nat) : Prop := k < 31 ∧ maus = 2 ^ k

theorem maskedIndex_eq {k : Nat} {a b : BitVec 32} (h : a.toNat / 2 ^ k = b.toNat / 2 ^ k) :
    maskedIndex (2 ^ k) a = maskedIndex (2 ^ k) b := by
  have hmask : BitVec.ofInt 32 ((2 : Int) ^ k - 1) = BitVec.ofNat 32 (2 ^ k - 1) := by
    have hcast : (2 : Int) ^ k - 1 = ((2 ^ k - 1 : Nat) : Int) := by
      have := Nat.one_le_two_pow (n := k)
      push_cast [this]
      rfl
    rw [hcast, BitVec.ofInt_natCast]
  refine BitVec.eq_of_getLsbD_eq fun i hi => ?_
  simp only [maskedIndex, hmask, BitVec.getLsbD_and, BitVec.getLsbD_not, BitVec.getLsbD_ofNat,
    Nat.testBit_two_pow_sub_one, hi, decide_true, Bool.true_and]
  by_cases hik : i < k
  · simp [hik]
  · -- the bits from the `k`-th on are those of the quotient
    have hbit : ∀ c : BitVec 32, c.getLsbD i = (c.toNat / 2 ^ k).testBit (i - k) := by
      intro c
      rw [Nat.testBit_div_two_pow, Nat.sub_add_cancel (Nat.le_of_not_lt hik), BitVec.testBit_toNat]
    simp [hik, hbit, h]

/-- The units of an aligned access are in the block that its address is in. -/
theorem block_of_touches {address unit : BitVec 32} {k l : Nat} (hk : k < 31) (hkl : k ≤ l)
    (haligned : address.toNat % 2 ^ k = 0) (h : unit ∈ touches address (2 ^ k)) :
    unit.toNat / 2 ^ l = address.toNat / 2 ^ l := by
  obtain ⟨i, hi, rfl⟩ := h
  have hi : i < 2 ^ k := by exact_mod_cast hi
  obtain ⟨q, hq⟩ := Nat.dvd_of_mod_eq_zero haligned
  have hpow : 2 ^ 32 = 2 ^ k * 2 ^ (32 - k) := by
    rw [← Nat.pow_add]
    congr 1
    omega
  have hfit : address.toNat + i < 2 ^ 32 := by
    have hlt : 2 ^ k * q < 2 ^ k * 2 ^ (32 - k) := by
      have := address.isLt
      omega
    have hq' : q + 1 ≤ 2 ^ (32 - k) := Nat.lt_of_mul_lt_mul_left hlt
    calc address.toNat + i < 2 ^ k * q + 2 ^ k := by omega
      _ = 2 ^ k * (q + 1) := (Nat.mul_succ ..).symm
      _ ≤ 2 ^ k * 2 ^ (32 - k) := Nat.mul_le_mul_left _ hq'
      _ = 2 ^ 32 := hpow.symm
  have hi' : i < 2 ^ 32 := by omega
  have hunit : (address + BitVec.ofNat 32 i).toNat = 2 ^ k * q + i := by
    rw [BitVec.toNat_add, BitVec.toNat_ofNat, Nat.mod_eq_of_lt hi', Nat.mod_eq_of_lt hfit, hq]
  obtain ⟨m, rfl⟩ := Nat.exists_eq_add_of_le hkl
  have hpos := Nat.two_pow_pos k
  rw [hunit, hq, Nat.pow_add, ← Nat.div_div_eq_div_mul, ← Nat.div_div_eq_div_mul, Nat.mul_add_div hpos,
    Nat.div_eq_of_lt hi, Nat.add_zero, Nat.mul_div_cancel_left _ hpos]

theorem disjoint_of_masked {a b : BitVec 32} {k l : Nat} (hk : k < 31) (hl : l < 31) (ha : a.toNat % 2 ^ k = 0)
    (hb : b.toNat % 2 ^ l = 0) (h : maskedIndex (max (2 ^ k) (2 ^ l)) a ≠ maskedIndex (max (2 ^ k) (2 ^ l)) b) :
    Disjoint (touches a (2 ^ k)) (touches b (2 ^ l)) := by
  refine Set.disjoint_left.2 fun unit hua hub => h ?_
  have hmax : max ((2 : Int) ^ k) (2 ^ l) = 2 ^ max k l := by
    rcases Nat.le_total k l with hkl | hkl
    · rw [Nat.max_eq_right hkl, max_eq_right (pow_le_pow_right₀ (by decide) hkl)]
    · rw [Nat.max_eq_left hkl, max_eq_left (pow_le_pow_right₀ (by decide) hkl)]
  rw [hmax]
  refine maskedIndex_eq ?_
  rw [← block_of_touches hk (Nat.le_max_left ..) ha hua, block_of_touches hl (Nat.le_max_right ..) hb hub]

/-! ## Traced addresses -/

theorem eq_of_onlyTail {N : Type} {source : Option N} {edges : List (Edge N)} {n : N}
    (h : MoveGraph.onlyTail source edges = some n) :
    (∀ m, source = some m → m = n) ∧
      ∀ e ∈ edges, MoveGraph.isRegisterRead e = true → e.tailPseudo = false ∧ e.tail = n := by
  induction edges generalizing source with
  | nil =>
    simp only [MoveGraph.onlyTail] at h
    simp [h]
  | cons e edges ih =>
    simp only [MoveGraph.onlyTail] at h
    split at h
    · split at h
      case isTrue hread hfirst =>
        obtain ⟨htail, hedges⟩ := ih h
        simp only [Bool.and_eq_true, Bool.not_eq_true', Option.isNone_iff_eq_none] at hfirst
        refine ⟨by simp [hfirst.2], fun d hd hdread => ?_⟩
        rcases List.mem_cons.1 hd with rfl | hd
        · exact ⟨hfirst.1, htail _ rfl⟩
        · exact hedges d hd hdread
      case isFalse => cases h
    · obtain ⟨hsource, hedges⟩ := ih h
      refine ⟨hsource, fun d hd hdread => ?_⟩
      rcases List.mem_cons.1 hd with rfl | hd
      · contradiction
      · exact hedges d hd hdread

namespace MoveGraph
variable {N : Type} [DecidableEq N] (g : MoveGraph N)

/-- From a move that copies a register to the one that is taken to write it. -/
abbrev TraceStep : Option N → Option N → Prop := WhileLoop.Step g.copiesRegister g.previousSource

/-- From a read of a register, after the events before it, to the event that wrote it last. -/
def RegisterFlow (s t : List (Event N) × Event N) : Prop :=
  ∃ m r, g.move s.2.node = some m ∧ m.source = .GPR r ∧ IsLast g.writes s.1 r t.1 t.2

/-- The registers that are traced from a move are written in the run before they are read. -/
def SourcesWritten (run : List (Event N)) (start : N) : Prop :=
  ∀ before e after m r, run = before ++ e :: after → ReflTransGen g.TraceStep (some start) (some e.node) →
    e.executed = true → g.move e.node = some m → m.source = .GPR r → ∃ d ∈ before, (g.writes d r).isSome

variable {g} {initial : String → BitVec 32} {run before after : List (Event N)} {e d : Event N} {start last : N}
  {value : BitVec 32}

omit [DecidableEq N] in
theorem source_of_copiesRegister {n : N} (h : g.copiesRegister (some n) = true) :
    ∃ m r, g.move n = some m ∧ m.source = .GPR r := by
  cases hm : g.move n with
  | none => simp [copiesRegister, hm] at h
  | some m =>
    cases hsource : m.source with
    | GPR r => exact ⟨m, r, rfl, hsource⟩
    | immediate _ | other => simp [copiesRegister, hm, hsource, MoveSource.isGPR] at h

omit [DecidableEq N] in
theorem immediate_of_immediateOf {n : N} (h : g.immediateOf (some n) = some value) :
    ∃ m, g.move n = some m ∧ m.source = .immediate value := by
  cases hm : g.move n with
  | none => simp [immediateOf, hm] at h
  | some m =>
    cases hsource : m.source with
    | immediate v =>
      simp only [immediateOf, Option.bind_some, hm, hsource, Option.ite_none_left_eq_some, Option.some.injEq] at h
      exact ⟨m, rfl, by rw [hsource, h.2]⟩
    | GPR _ | other => simp [immediateOf, hm, hsource] at h

theorem not_step_none {s : Option N} : ¬ g.TraceStep none s := fun h => absurd h.1 (by simp [copiesRegister])

/-- The move that the tracing goes to is the one that wrote the register, and no call. -/
theorem ShowsDependences.eq_of_onlyRegisterRawSource (h : g.ShowsDependences run) (hrun : run = before ++ e :: after)
    {m : Move} {r : String} (hm : g.move e.node = some m) (he : e.executed = true) (hsource : m.source = .GPR r)
    {earlier : List (Event N)} (hlast : IsLast g.writes before r earlier d) {n : N}
    (hn : g.onlyRegisterRawSource e.node = some n) : n = d.node ∧ g.isCall d.node = false := by
  obtain ⟨edge, hedge⟩ := h.source before e after m r hrun hm he hsource earlier d hlast
  have hread : isRegisterRead edge = true := by
    simp [isRegisterRead, hedge.dependenceType, hedge.reason, hedge.guardUse, hedge.headPseudo]
  obtain ⟨hpseudo, htail⟩ := (eq_of_onlyTail hn).2 edge hedge.mem hread
  exact ⟨by rw [← htail, hedge.tail], by rw [← hedge.tailPseudo, hpseudo]⟩

/-- What the only definition of a register wrote is what is read. -/
theorem IsRun.eq_of_onlyRegisterRawSource (hrun : g.IsRun initial run) (hshows : g.ShowsDependences run)
    (hsplit : run = before ++ e :: after) {m : Move} (hm : g.Executes (stateAfter g.writes initial before) e m)
    {r : String} (hsource : m.source = .GPR r) (he : e.executed = true) {earlier : List (Event N)}
    (hlast : IsLast g.writes before r earlier d) {n : N} (hn : g.onlyRegisterRawSource e.node = some n) :
    n = d.node ∧ d.executed = true ∧ d.value = e.value := by
  obtain ⟨rfl, hcall⟩ := hshows.eq_of_onlyRegisterRawSource hsplit hm.move he hsource hlast hn
  have hstate : some (stateAfter g.writes initial before r) = g.writes d r := hlast.stateAfter
  obtain ⟨later, hlater⟩ := hlast.split
  have hsplit' : run = earlier ++ d :: (later ++ e :: after) := by simp [hsplit, hlater]
  obtain ⟨md, hmd⟩ := (hsplit' ▸ hrun).executes
  obtain ⟨hexec, -, hwritten⟩ := writes_eq_some hmd.move (by simpa [isCall, hmd.move] using hcall) hlast.1
  rw [hwritten, Option.some.injEq] at hstate
  exact ⟨rfl, hexec, by rw [hm.GPR r hsource, hstate]⟩

/-- The value that is traced is that of an earlier event of the run, of the move that the tracing ends at. -/
theorem event_of_trace (hrun : g.IsRun initial run) (hshows : g.ShowsDependences run)
    (hwritten : g.SourcesWritten run start) (hlast : g.copiesRegister (some last) = false)
    (hsplit : run = before ++ e :: after) (he : e.executed = true)
    (hstart : ReflTransGen g.TraceStep (some start) (some e.node))
    (htrace : ReflTransGen g.TraceStep (some e.node) (some last)) :
    ∃ earlier d later, ReflTransGen g.RegisterFlow (before, e) (earlier, d) ∧ run = earlier ++ d :: later ∧
      d.node = last ∧ d.executed = true ∧ d.value = e.value := by
  -- the value was written by an earlier event of the run
  induction hlength : before.length using Nat.strong_induction_on generalizing before e after with
  | _ length ih =>
    subst hlength
    obtain ⟨m, hm⟩ := (hsplit ▸ hrun).executes
    cases hcopy : g.copiesRegister (some e.node) with
    | false =>
      have hnode : e.node = last := by
        rcases htrace.cases_head with heq | ⟨_, hstep, -⟩
        · exact Option.some.inj heq
        · exact absurd hstep.1 (by simp [hcopy])
      exact ⟨before, e, after, .refl, hsplit, hnode, he, rfl⟩
    | true =>
      obtain ⟨m', r, hm', hsource⟩ := source_of_copiesRegister hcopy
      obtain rfl : m = m' := Option.some.inj (hm.move.symm.trans hm')
      obtain ⟨earlier, d, hd⟩ := exists_isLast (hwritten before e after m r hsplit hstart he hm' hsource)
      -- the trace goes on, and to the writer
      obtain ⟨n, hn, hrest⟩ : ∃ n, g.onlyRegisterRawSource e.node = some n ∧
          ReflTransGen g.TraceStep (some n) (some last) := by
        rcases htrace.cases_head with heq | ⟨s, hstep, hrest⟩
        · rw [heq, hlast] at hcopy
          cases hcopy
        · obtain ⟨-, rfl⟩ := hstep
          cases hn : g.onlyRegisterRawSource e.node with
          | some n => exact ⟨n, rfl, by simpa [previousSource, hn] using hrest⟩
          | none =>
            simp only [previousSource, Option.bind_some, hn] at hrest
            rcases hrest.cases_head with heq | ⟨_, hstep, -⟩
            · cases heq
            · exact absurd hstep not_step_none
      obtain ⟨rfl, hdexec, hdvalue⟩ := hrun.eq_of_onlyRegisterRawSource hshows hsplit hm hsource he hd hn
      obtain ⟨later, hlater⟩ := hd.split
      have hsplit' : run = earlier ++ d :: (later ++ e :: after) := by simp [hsplit, hlater]
      obtain ⟨first, f, rest, hflow, hfirst, hnode, hexec, hvalue⟩ :=
        ih earlier.length (by simp [hlater]) hsplit' hdexec (hstart.tail ⟨hcopy, by simp [previousSource, hn]⟩) hrest rfl
      exact ⟨first, f, rest, .head ⟨m, r, hm', hsource, hd⟩ hflow, hfirst, hnode, hexec, hvalue.trans hdvalue⟩

/-- A move whose tracing ends at an immediate moves that, each time it is executed. -/
theorem value_of_trace (hrun : g.IsRun initial run) (hshows : g.ShowsDependences run)
    (hwritten : g.SourcesWritten run start) (hlast : g.copiesRegister (some last) = false)
    (hvalue : g.immediateOf (some last) = some value) (hsplit : run = before ++ e :: after)
    (he : e.executed = true) (hstart : ReflTransGen g.TraceStep (some start) (some e.node))
    (htrace : ReflTransGen g.TraceStep (some e.node) (some last)) : e.value = value := by
  obtain ⟨earlier, d, later, -, hsplit', hnode, -, heq⟩ :=
    event_of_trace hrun hshows hwritten hlast hsplit he hstart htrace
  obtain ⟨m, hm⟩ := (hsplit' ▸ hrun).executes
  obtain ⟨m', hm', hsource⟩ := immediate_of_immediateOf hvalue
  obtain rfl : m = m' := Option.some.inj (hm.move.symm.trans (hnode ▸ hm'))
  rw [← heq, hm.immediate _ hsource]

/-! ## Termination -/

omit [DecidableEq N] in
theorem tail_of_onlyTail {source : Option N} {edges : List (Edge N)} {n : N} (h : onlyTail source edges = some n) :
    source = some n ∨ ∃ e ∈ edges, e.tail = n := by
  induction edges generalizing source with
  | nil => exact .inl h
  | cons e edges ih =>
    simp only [onlyTail] at h
    split at h
    · split at h
      · rcases ih h with htail | ⟨d, hd, htail⟩
        · exact .inr ⟨e, by simp, Option.some.inj htail⟩
        · exact .inr ⟨d, by simp [hd], htail⟩
      · cases h
    · rcases ih h with hsource | ⟨d, hd, htail⟩
      · exact .inl hsource
      · exact .inr ⟨d, by simp [hd], htail⟩

variable (g)

/-- What tracing can come to. -/
def sources : Set (Option N) := insert none (some '' {n | n ∈ g.edges.map (·.tail)})

omit [DecidableEq N] in
theorem finite_sources : g.sources.Finite := ((List.finite_toSet _).image _).insert _

theorem previousSource_mem (rawSrc : Option N) : g.previousSource rawSrc ∈ g.sources := by
  cases h : g.previousSource rawSrc with
  | none => exact .inl rfl
  | some n =>
    obtain ⟨m, rfl, hm⟩ := Option.bind_eq_some_iff.1 h
    rcases tail_of_onlyTail hm with hnone | ⟨e, he, rfl⟩
    · cases hnone
    · exact .inr ⟨_, List.mem_map_of_mem (List.mem_filter.1 he).1, rfl⟩

/-- Tracing the address of an operation comes back to a move. -/
def CopiesInCircle (po : ProgramOperation N) : Prop :=
  ∃ start, addressOperandMove po = .ok start ∧
    ∃ s, ReflTransGen g.TraceStep start s ∧ TransGen g.TraceStep s s

def Terminates (pop1 pop2 : ProgramOperation N) : Prop :=
  (∃ fuel, (g.isAddressTraceable fuel pop1).run.isSome) ∧ (∃ fuel, (g.isAddressTraceable fuel pop2).run.isSome) ∧
    ∃ fuel, (g.analyze fuel pop1 pop2).run.isSome

variable {g} {po pop1 pop2 : ProgramOperation N} {fuel : Nat}

theorem traceAddress_ok {start : Option N} (h : addressOperandMove po = .ok start) :
    g.traceAddress fuel po = (WhileLoop.run g.copiesRegister g.previousSource fuel start).map Except.ok := by
  simp [traceAddress, h, ExceptT.lift, ExceptT.mk]

theorem traceAddress_error {fault : AliasFault} (h : addressOperandMove po = .error fault) :
    g.traceAddress fuel po = some (.error fault) := by
  simp [traceAddress, h, throw, throwThe, MonadExceptOf.throw, ExceptT.mk]

theorem traceAddress_ends_iff : (∃ fuel, (g.traceAddress fuel po).run.isSome) ↔ ¬ g.CopiesInCircle po := by
  cases hstart : addressOperandMove po with
  | error fault => simp [CopiesInCircle, hstart, traceAddress_error hstart, ExceptT.run]
  | ok start =>
    have hends : WhileLoop.Ends g.copiesRegister g.previousSource start ↔ _ :=
      WhileLoop.ends_iff g.finite_sources fun s _ => g.previousSource_mem s
    simpa [CopiesInCircle, hstart, traceAddress_ok hstart, ExceptT.run, WhileLoop.Ends] using hends

theorem traceAddress_mono {fuel' : Nat} {r : Except AliasFault (Option N)} (h : g.traceAddress fuel po = some r)
    (hle : fuel ≤ fuel') : g.traceAddress fuel' po = some r := by
  cases hstart : addressOperandMove po with
  | error fault =>
    rw [traceAddress_error hstart] at h ⊢
    exact h
  | ok start =>
    rw [traceAddress_ok hstart] at h ⊢
    obtain ⟨last, hlast, rfl⟩ := Option.map_eq_some_iff.1 h
    rw [WhileLoop.run_mono hlast hle, Option.map_some]

theorem isAddressTraceable_ends (h : (g.traceAddress fuel po).run.isSome) :
    (g.isAddressTraceable fuel po).run.isSome := bind_ends h fun _ _ => rfl

theorem isAddressTraceable_ends_iff :
    (∃ fuel, (g.isAddressTraceable fuel po).run.isSome) ↔ ¬ g.CopiesInCircle po := by
  rw [← traceAddress_ends_iff]
  exact exists_congr fun fuel => ⟨ends_of_bind, isAddressTraceable_ends⟩

theorem analyze_ends (h1 : (g.traceAddress fuel pop1).run.isSome) (h2 : (g.traceAddress fuel pop2).run.isSome) :
    (g.analyze fuel pop1 pop2).run.isSome := by
  refine bind_ends (isAddressTraceable_ends h1) fun traceable1 _ => ?_
  cases traceable1 with
  | false => rfl
  | true =>
    refine bind_ends (isAddressTraceable_ends h2) fun traceable2 _ => ?_
    cases traceable2 with
    | false => rfl
    | true =>
      refine bind_ends h1 fun rawSrc1 _ => bind_ends h2 fun rawSrc2 _ => ?_
      cases g.immediateOf rawSrc1 <;> cases g.immediateOf rawSrc2 <;> rfl

theorem terminates_iff : g.Terminates pop1 pop2 ↔ ¬ g.CopiesInCircle pop1 ∧ ¬ g.CopiesInCircle pop2 := by
  constructor
  · rintro ⟨h1, h2, -⟩
    exact ⟨isAddressTraceable_ends_iff.1 h1, isAddressTraceable_ends_iff.1 h2⟩
  · rintro ⟨h1, h2⟩
    refine ⟨isAddressTraceable_ends_iff.2 h1, isAddressTraceable_ends_iff.2 h2, ?_⟩
    obtain ⟨fuel1, h1⟩ := traceAddress_ends_iff.2 h1
    obtain ⟨fuel2, h2⟩ := traceAddress_ends_iff.2 h2
    obtain ⟨r1, h1⟩ := Option.isSome_iff_exists.1 h1
    obtain ⟨r2, h2⟩ := Option.isSome_iff_exists.1 h2
    have h1 := traceAddress_mono h1 (Nat.le_max_left fuel1 fuel2)
    have h2 := traceAddress_mono h2 (Nat.le_max_right fuel1 fuel2)
    exact ⟨_, analyze_ends (by rw [ExceptT.run, h1]; rfl) (by rw [ExceptT.run, h2]; rfl)⟩

/-! ## Answers -/

/-- An execution of the operation accesses the address that its address operand gets. -/
def IsAccess (run : List (Event N)) (po : ProgramOperation N) (address : BitVec 32) : Prop :=
  ∃ n, addressOperandMove po = .ok (some n) ∧ ∃ e ∈ run, e.node = n ∧ e.executed = true ∧ e.value = address

def NaturallyAligned (run : List (Event N)) (po : ProgramOperation N) : Prop :=
  ∀ address maus, IsAccess run po address → mausOfOperation po.operation = .ok maus → (address.toNat : Int) % maus = 0

/-- The size is a power of two, or not known. -/
def HasPowerOfTwoSize (po : ProgramOperation N) : Prop :=
  ∀ maus, mausOfOperation po.operation = .ok maus → maus = 0 ∨ ∃ k, IsSize maus k

/-- The registers that the address comes by are written in the run before they are read. -/
def AddressWritten (g : MoveGraph N) (run : List (Event N)) (po : ProgramOperation N) : Prop :=
  ∀ n, addressOperandMove po = .ok (some n) → g.SourcesWritten run n

/-- What an answer says about a run. -/
structure Holds (answer : AliasingResult) (run : List (Event N)) (pop1 pop2 : ProgramOperation N) : Prop where
  disjoint : answer = .ALIAS_FALSE → ∀ a1 a2 maus1 maus2, IsAccess run pop1 a1 → IsAccess run pop2 a2 →
    mausOfOperation pop1.operation = .ok maus1 → mausOfOperation pop2.operation = .ok maus2 →
      Disjoint (touches a1 maus1) (touches a2 maus2)
  same : answer = .ALIAS_TRUE → ∀ a1 a2 maus1 maus2, IsAccess run pop1 a1 → IsAccess run pop2 a2 →
    mausOfOperation pop1.operation = .ok maus1 → mausOfOperation pop2.operation = .ok maus2 →
      touches a1 maus1 = touches a2 maus2

/-- A traced address is the one that is accessed. -/
theorem address_eq (hrun : g.IsRun initial run) (hshows : g.ShowsDependences run) (hwritten : g.AddressWritten run po)
    {rawSrc : Option N} (htrace : g.traceAddress fuel po = some (.ok rawSrc)) (hvalue : g.immediateOf rawSrc = some value)
    {address : BitVec 32} (haccess : IsAccess run po address) : address = value := by
  obtain ⟨n, hn, e, hmem, rfl, he, rfl⟩ := haccess
  rw [traceAddress_ok hn] at htrace
  obtain ⟨last, hlast, heq⟩ := Option.map_eq_some_iff.1 htrace
  obtain rfl : last = rawSrc := by simpa using heq
  obtain ⟨hpath, hexit⟩ := WhileLoop.exit_of_run hlast
  cases last with
  | none => simp [immediateOf] at hvalue
  | some last =>
    obtain ⟨before, after, hsplit⟩ := List.append_of_mem hmem
    exact value_of_trace hrun hshows (hwritten _ hn) hexit hvalue hsplit he .refl hpath

theorem traced_of_analyze {answer : AliasingResult} (h : g.analyze fuel pop1 pop2 = some (.ok answer))
    (hanswer : answer ≠ .ALIAS_UNKNOWN) :
    ∃ rawSrc1 rawSrc2 addr1 addr2, g.traceAddress fuel pop1 = some (.ok rawSrc1) ∧
      g.traceAddress fuel pop2 = some (.ok rawSrc2) ∧ g.immediateOf rawSrc1 = some addr1 ∧
      g.immediateOf rawSrc2 = some addr2 ∧ compareIndeces addr1 addr2 pop1 pop2 = .ok answer := by
  obtain ⟨traceable1, -, h⟩ := bind_eq_ok h
  cases traceable1 with
  | false =>
    cases h
    contradiction
  | true =>
    obtain ⟨traceable2, -, h⟩ := bind_eq_ok h
    cases traceable2 with
    | false =>
      cases h
      contradiction
    | true =>
      obtain ⟨rawSrc1, h1, h⟩ := bind_eq_ok h
      obtain ⟨rawSrc2, h2, h⟩ := bind_eq_ok h
      cases hv1 : g.immediateOf rawSrc1 with
      | none =>
        rw [hv1] at h
        cases h
        contradiction
      | some addr1 =>
        cases hv2 : g.immediateOf rawSrc2 with
        | none =>
          rw [hv1, hv2] at h
          cases h
          contradiction
        | some addr2 =>
          rw [hv1, hv2] at h
          exact ⟨rawSrc1, rawSrc2, addr1, addr2, h1, h2, hv1, hv2, Option.some.inj h⟩

omit [DecidableEq N] in
theorem compareIndeces_ok {addr1 addr2 : BitVec 32} {answer : AliasingResult}
    (h : compareIndeces addr1 addr2 pop1 pop2 = .ok answer) (hanswer : answer ≠ .ALIAS_UNKNOWN) :
    ∃ maus1 maus2, mausOfOperation pop1.operation = .ok maus1 ∧ mausOfOperation pop2.operation = .ok maus2 ∧
      maus1 ≠ 0 ∧ maus2 ≠ 0 ∧ (answer = .ALIAS_TRUE → addr1 = addr2 ∧ maus1 = maus2) ∧
      (answer = .ALIAS_FALSE → maskedIndex (max maus1 maus2) addr1 ≠ maskedIndex (max maus1 maus2) addr2) := by
  cases h1 : mausOfOperation pop1.operation with
  | error fault =>
    simp only [compareIndeces, h1] at h
    cases h
  | ok maus1 =>
    cases h2 : mausOfOperation pop2.operation with
    | error fault =>
      simp only [compareIndeces, h1, h2] at h
      cases h
    | ok maus2 =>
      have h : (if maus1 = 0 ∨ maus2 = 0 then Except.ok .ALIAS_UNKNOWN
          else if addr1 = addr2 then .ok (if maus1 ≠ maus2 then .ALIAS_UNKNOWN else .ALIAS_TRUE)
          else .ok (if maskedIndex (max maus1 maus2) addr1 = maskedIndex (max maus1 maus2) addr2 then .ALIAS_UNKNOWN
            else .ALIAS_FALSE)) = (.ok answer : Except AliasFault AliasingResult) := by
        rw [← h, compareIndeces, h1, h2]
        split <;> rename_i hzero
        · simp [bind, Except.bind, hzero, pure, Except.pure]
        · split <;> simp [bind, Except.bind, hzero, pure, Except.pure]
      refine ⟨maus1, maus2, rfl, rfl, ?_⟩
      split at h <;> rename_i hzero
      · exact absurd (Except.ok.inj h).symm hanswer
      · simp only [not_or] at hzero
        refine ⟨hzero.1, hzero.2, ?_⟩
        split at h <;> rename_i heq <;> simp only [Except.ok.injEq] at h <;> split at h <;> rename_i hcase
        · exact absurd h.symm hanswer
        · subst h
          exact ⟨fun _ => ⟨heq, not_not.1 hcase⟩, by simp⟩
        · exact absurd h.symm hanswer
        · subst h
          exact ⟨by simp, fun _ => hcase⟩

/-- The analysis ends unless registers are copied in a circle; where each register that an address
comes by is written in a run before it is read, its answers hold in the run. -/
theorem analyze_sound (g : MoveGraph N) (pop1 pop2 : ProgramOperation N) :
    (g.Terminates pop1 pop2 ↔ ¬ g.CopiesInCircle pop1 ∧ ¬ g.CopiesInCircle pop2) ∧
      ∀ initial run, g.IsRun initial run → g.ShowsDependences run →
        NaturallyAligned run pop1 → NaturallyAligned run pop2 →
        HasPowerOfTwoSize pop1 → HasPowerOfTwoSize pop2 → AddressWritten g run pop1 → AddressWritten g run pop2 →
        ∀ fuel answer, g.analyze fuel pop1 pop2 = some (.ok answer) → Holds answer run pop1 pop2 := by
  refine ⟨terminates_iff, fun initial run hrun hshows halign1 halign2 hsize1 hsize2 hwritten1 hwritten2 fuel answer h => ?_⟩
  by_cases hanswer : answer = .ALIAS_UNKNOWN
  · subst hanswer
    exact ⟨by simp, by simp⟩
  obtain ⟨rawSrc1, rawSrc2, addr1, addr2, htrace1, htrace2, hvalue1, hvalue2, hcompare⟩ := traced_of_analyze h hanswer
  obtain ⟨maus1, maus2, hmaus1, hmaus2, hne1, hne2, htrue, hfalse⟩ := compareIndeces_ok hcompare hanswer
  have haddr1 : ∀ a, IsAccess run pop1 a → a = addr1 := fun a => address_eq hrun hshows hwritten1 htrace1 hvalue1
  have haddr2 : ∀ a, IsAccess run pop2 a → a = addr2 := fun a => address_eq hrun hshows hwritten2 htrace2 hvalue2
  refine ⟨fun hf a1 a2 m1 m2 ha1 ha2 hm1 hm2 => ?_, fun ht a1 a2 m1 m2 ha1 ha2 hm1 hm2 => ?_⟩
  · have hmod1 := halign1 a1 maus1 ha1 hmaus1
    have hmod2 := halign2 a2 maus2 ha2 hmaus2
    obtain rfl := Except.ok.inj (hmaus1.symm.trans hm1)
    obtain rfl := Except.ok.inj (hmaus2.symm.trans hm2)
    obtain rfl := haddr1 a1 ha1
    obtain rfl := haddr2 a2 ha2
    obtain ⟨k, hk, rfl⟩ := (hsize1 _ hmaus1).resolve_left hne1
    obtain ⟨l, hl, rfl⟩ := (hsize2 _ hmaus2).resolve_left hne2
    exact disjoint_of_masked hk hl (by exact_mod_cast hmod1) (by exact_mod_cast hmod2) (hfalse hf)
  · obtain rfl := Except.ok.inj (hmaus1.symm.trans hm1)
    obtain rfl := Except.ok.inj (hmaus2.symm.trans hm2)
    obtain ⟨haddr, hmaus⟩ := htrue ht
    rw [haddr1 a1 ha1, haddr2 a2 ha2, haddr, hmaus]

/-! ## Examples -/

/-- An operation that accesses one unit at the address that the node gives it. -/
def byteAccess (addressMove : Nat) : ProgramOperation Nat where
  operation := .mk true [⟨true, 1⟩] []
  inputMoves index := if index = 1 then some [addressMove] else none

def readEdge (writer reader loopDepth : Nat) (registerName : String) : Edge Nat :=
  ⟨⟨.EDGE_REGISTER, .DEP_RAW, registerName, false, false, false, false, loopDepth⟩, writer, reader⟩

/-- `100 -> r1; r1 -> ld.addr; 200 -> st.addr`, with a guard of the first move. -/
def addressInRegister (guard : Option MoveCondition) : MoveGraph Nat where
  move
    | 0 => some ⟨.immediate 100, some "r1", guard, false⟩
    | 1 => some ⟨.GPR "r1", none, none, false⟩
    | 2 => some ⟨.immediate 200, none, none, false⟩
    | _ => none
  edges := [readEdge 0 1 0 "r1"]

/-- The run of the moves in which the register is read with the value `address`. -/
def addressRun (executed : Bool) (address : BitVec 32) : List (Event Nat) :=
  [⟨0, executed, 100, []⟩, ⟨1, true, address, []⟩, ⟨2, true, 200, []⟩]

theorem isRun_addressRun : (addressInRegister none).IsRun (fun _ => 0) (addressRun true 100) := by
  refine ⟨⟨_, rfl, ?_, ?_, ?_, ?_⟩, ⟨_, rfl, ?_, ?_, ?_, ?_⟩, ⟨_, rfl, ?_, ?_, ?_, ?_⟩, trivial⟩ <;>
    simp [stateAfter, writes, addressInRegister]

/-- The guard does not hold, and the register has its first value. -/
theorem isRun_addressRun_conditional :
    (addressInRegister (some ⟨some "g", false⟩)).IsRun (fun r => if r = "r1" then 200 else 0) (addressRun false 200) := by
  refine ⟨⟨_, rfl, ?_, fun c r hc hr => ?_, ?_, ?_⟩, ⟨_, rfl, ?_, ?_, ?_, ?_⟩, ⟨_, rfl, ?_, ?_, ?_, ?_⟩, trivial⟩
  case refine_2 =>
    obtain rfl := Option.some.inj hc
    obtain rfl := Option.some.inj hr
    rfl
  all_goals simp [stateAfter, writes, addressInRegister]

/-- The second move reads what the first one wrote; the others read no register that is written. -/
theorem showsDependences_addressRun (guard : Option MoveCondition) (executed : Bool) (address : BitVec 32) :
    (addressInRegister guard).ShowsDependences (addressRun executed address) := by
  constructor
  · intro before e after m r hrun hm _ hsource earlier d hd
    simp only [addressRun, List.cons_eq_append_iff, List.cons.injEq] at hrun
    have hmem := hd.mem
    rcases hrun with ⟨rfl, rfl, -⟩ | ⟨_, rfl, ⟨rfl, rfl, -⟩ | ⟨_, rfl, ⟨rfl, rfl, -⟩ | ⟨_, rfl, hrun⟩⟩⟩
    · simp at hmem
    · obtain rfl : d = ⟨0, executed, 100, []⟩ := by simpa using hmem
      exact ⟨readEdge 0 1 0 "r1", by simp [inEdges, addressInRegister, readEdge], rfl, rfl, rfl, rfl, rfl, rfl⟩
    · obtain rfl := Option.some.inj hm
      cases hsource
    · simp at hrun
  · intro before e after m c r hrun hm hguard _ earlier d hd
    simp only [addressRun, List.cons_eq_append_iff, List.cons.injEq] at hrun
    have hmem := hd.mem
    rcases hrun with ⟨rfl, rfl, -⟩ | ⟨_, rfl, ⟨rfl, rfl, -⟩ | ⟨_, rfl, ⟨rfl, rfl, -⟩ | ⟨_, rfl, hrun⟩⟩⟩
    · simp at hmem
    all_goals
      first
      | (obtain rfl := Option.some.inj hm; cases hguard)
      | simp at hrun

theorem addressWritten_addressRun (address : BitVec 32) (n : Nat) :
    AddressWritten (addressInRegister none) (addressRun true address) (byteAccess n) := by
  intro _ _ before e after m r hrun _ _ hm hsource
  simp only [addressRun, List.cons_eq_append_iff, List.cons.injEq] at hrun
  rcases hrun with ⟨rfl, rfl, -⟩ | ⟨_, rfl, ⟨rfl, rfl, -⟩ | ⟨_, rfl, ⟨rfl, rfl, -⟩ | ⟨_, rfl, hrun⟩⟩⟩
  · obtain rfl := Option.some.inj hm
    cases hsource
  · obtain rfl := Option.some.inj hm
    obtain rfl := MoveSource.GPR.inj hsource
    exact ⟨⟨0, true, 100, []⟩, by simp, rfl⟩
  · obtain rfl := Option.some.inj hm
    cases hsource
  · simp at hrun

theorem naturallyAligned_byteAccess (run : List (Event Nat)) (n : Nat) : NaturallyAligned run (byteAccess n) := by
  intro address maus _ hmaus
  obtain rfl := Except.ok.inj hmaus
  exact Int.emod_one _

theorem hasPowerOfTwoSize_byteAccess (n : Nat) : HasPowerOfTwoSize (byteAccess n) := fun _ hmaus =>
  .inr ⟨0, by decide, (Except.ok.inj hmaus).symm⟩

theorem analyze_sound_addressRun : Holds .ALIAS_FALSE (addressRun true 100) (byteAccess 1) (byteAccess 2) :=
  (analyze_sound (addressInRegister none) (byteAccess 1) (byteAccess 2)).2 (fun _ => 0) (addressRun true 100)
    isRun_addressRun (showsDependences_addressRun ..) (naturallyAligned_byteAccess _ _) (naturallyAligned_byteAccess _ _)
    (hasPowerOfTwoSize_byteAccess _) (hasPowerOfTwoSize_byteAccess _) (addressWritten_addressRun _ _)
    (addressWritten_addressRun _ _) 3 .ALIAS_FALSE rfl

/-- `r1 -> r2; r2 -> ld.addr; r2 -> r1` in a loop that is a block. -/
def copiesInLoop : MoveGraph Nat where
  move
    | 0 => some ⟨.GPR "r1", some "r2", none, false⟩
    | 1 => some ⟨.GPR "r2", none, none, false⟩
    | 2 => some ⟨.GPR "r2", some "r1", none, false⟩
    | _ => none
  edges := [readEdge 0 1 0 "r2", readEdge 0 2 0 "r2", readEdge 2 0 1 "r1"]

theorem copiesInCircle_copiesInLoop : copiesInLoop.CopiesInCircle (byteAccess 1) :=
  ⟨some 1, rfl, some 0, .single ⟨rfl, rfl⟩, .tail (.single ⟨rfl, rfl⟩) ⟨rfl, rfl⟩⟩

/-- Tracing does not end where registers are copied in a circle, and what a register has at first may
be read where the only definition that is shown is not executed. -/
theorem not_analyze_sound :
    (¬ ∀ (g : MoveGraph Nat) (pop1 pop2 : ProgramOperation Nat), g.Terminates pop1 pop2) ∧
      ¬ ∀ (g : MoveGraph Nat) (pop1 pop2 : ProgramOperation Nat) initial run, g.IsRun initial run →
        g.ShowsDependences run → NaturallyAligned run pop1 → NaturallyAligned run pop2 →
        ∀ fuel answer, g.analyze fuel pop1 pop2 = some (.ok answer) → Holds answer run pop1 pop2 := by
  refine ⟨fun h => (terminates_iff.1 (h copiesInLoop (byteAccess 1) (byteAccess 1))).1 copiesInCircle_copiesInLoop,
    fun h => ?_⟩
  have hholds := h (addressInRegister (some ⟨some "g", false⟩)) (byteAccess 1) (byteAccess 2)
    (fun r => if r = "r1" then 200 else 0) (addressRun false 200) isRun_addressRun_conditional
    (showsDependences_addressRun ..) (naturallyAligned_byteAccess _ _) (naturallyAligned_byteAccess _ _) 3 .ALIAS_FALSE rfl
  have hload : IsAccess (addressRun false 200) (byteAccess 1) 200 :=
    ⟨1, rfl, ⟨1, true, 200, []⟩, by simp [addressRun], rfl, rfl, rfl⟩
  have hstore : IsAccess (addressRun false 200) (byteAccess 2) 200 :=
    ⟨2, rfl, ⟨2, true, 200, []⟩, by simp [addressRun], rfl, rfl, rfl⟩
  have hunit : (200 : BitVec 32) ∈ touches 200 1 := ⟨0, by decide, rfl⟩
  exact Set.disjoint_left.1 (hholds.disjoint rfl 200 200 1 1 hload hstore rfl rfl) hunit hunit

end MoveGraph

end Tce.DDG
