import Tce.Base.MapM
import Tce.Scheduler.RegisterCopySearch

/-!
# Counts of register copies

The count of an operation is the sum over its moves of the fewest copies over the
pairs of ports, as long as no scratch registers are asked for a transport that
they do not have.
-/

namespace Tce.RegisterCopyAdder

open ResourceManager (Port Bus TerminalImmediate)

namespace Routing

def Routable (routing : Routing) : Prop := ∃ k i, Chain routing.First routing.Step k i ∧ routing.Last i

def HasWide (routing : Routing) : Prop := ∃ i < routing.count, routing.wide i = true

noncomputable def fewest (routing : Routing) : ℕ∞ := Chain.fewest routing.First routing.Step routing.Last

theorem Routable.hasWide {routing : Routing} (h : routing.Routable) : routing.HasWide := by
  obtain ⟨k, i, hchain, -⟩ := h
  cases hchain with
  | first hfirst => exact ⟨i, hfirst.1, hfirst.2.1⟩
  | step _ hstep => exact ⟨i, hstep.1, hstep.2.1⟩

theorem fewest_eq_top {routing : Routing} (h : ∀ i < routing.count, routing.wide i = true → ¬routing.Last i) :
    routing.fewest = ⊤ := by
  apply Chain.fewest_eq_top
  intro k i hchain
  cases hchain with
  | first hfirst => exact h i hfirst.1 hfirst.2.1
  | step _ hstep => exact h i hstep.1 hstep.2.1

theorem fewest_eq_one {routing : Routing} (h : ∃ i, routing.First i ∧ routing.Last i) : routing.fewest = 1 := by
  obtain ⟨i, hfirst, hlast⟩ := h
  have hshortest : Chain.IsShortest routing.First routing.Step routing.Last 1 := by
    refine ⟨⟨i, .first hfirst, hlast⟩, ?_⟩
    rintro k ⟨j, hchain, -⟩
    exact hchain.pos
  rw [fewest, Chain.fewest_eq hshortest]
  rfl

theorem fewest_eq_two {routing : Routing} (hno : ¬∃ i, routing.First i ∧ routing.Last i)
    (h : ∃ j i, routing.First j ∧ routing.Step j i ∧ routing.Last i) : routing.fewest = 2 := by
  obtain ⟨j, i, hfirst, hstep, hlast⟩ := h
  have hshortest : Chain.IsShortest routing.First routing.Step routing.Last 2 := by
    refine ⟨⟨i, .step (.first hfirst) hstep, hlast⟩, ?_⟩
    rintro k ⟨m, hchain, hlast'⟩
    by_contra hlt
    obtain rfl : k = 1 := by
      have hpos := hchain.pos
      omega
    exact hno ⟨m, Chain.one_iff.1 hchain, hlast'⟩
  rw [fewest, Chain.fewest_eq hshortest]
  rfl

end Routing

namespace Adder
variable {adder : Adder}

/-! ## Two ports -/

/-- The fewest copies between two ports. -/
noncomputable def fewestCopies (adder : Adder) (sourcePort destinationPort : Port) : ℕ∞ :=
  if adder.machine.isConnected sourcePort destinationPort then 0
  else (adder.routing sourcePort destinationPort).fewest

theorem fewestCopies_eq_zero_iff {sourcePort destinationPort : Port} :
    adder.fewestCopies sourcePort destinationPort = 0 ↔
      adder.machine.isConnected sourcePort destinationPort = true := by
  rw [fewestCopies]
  split
  · next h => exact ⟨fun _ => h, fun _ => rfl⟩
  · next h =>
    refine ⟨fun hzero => ?_, fun h' => absurd h' h⟩
    have hone : 1 ≤ (adder.routing sourcePort destinationPort).fewest := Chain.one_le_fewest
    rw [hzero] at hone
    exact absurd hone (by decide)

theorem tempRegs_ne_nil {sourcePort destinationPort : Port}
    (h : (adder.routing sourcePort destinationPort).HasWide) : adder.tempRegs.isEmpty = false := by
  obtain ⟨i, hi, -⟩ := h
  cases htemps : adder.tempRegs with
  | nil =>
    have hlt : i < adder.tempRegs.length := hi
    rw [htemps] at hlt
    exact absurd hlt (Nat.not_lt_zero i)
  | cons => rfl

theorem countCopies_of_connected {sourcePort destinationPort : Port}
    (h : adder.machine.isConnected sourcePort destinationPort = true) :
    adder.countCopies sourcePort destinationPort = .ok 0 := if_pos h

/-- Without scratch registers the ports are connected, or no copies help. -/
theorem countCopies_of_empty {sourcePort destinationPort : Port} (h : adder.tempRegs = []) :
    adder.countCopies sourcePort destinationPort = .ok (adder.fewestCopies sourcePort destinationPort) := by
  rw [countCopies, fewestCopies]
  split
  · rfl
  · rw [if_pos (by rw [h]; rfl)]
    congr 1
    apply (Chain.fewest_eq_top _).symm
    intro k i hchain
    have hlt := Routing.lt_count_of_chain hchain
    rw [routing, h] at hlt
    exact absurd hlt (Nat.not_lt_zero i)

/-- With a register that is wide enough something is counted. -/
theorem countCopies_of_hasWide {sourcePort destinationPort : Port}
    (h : (adder.routing sourcePort destinationPort).HasWide) :
    ∃ c, adder.countCopies sourcePort destinationPort = .ok c ∧
      (c = 0 ↔ adder.machine.isConnected sourcePort destinationPort = true) := by
  rw [countCopies]
  split
  · next hconnected => exact ⟨0, rfl, fun _ => hconnected, fun _ => rfl⟩
  · next hconnected =>
    rw [if_neg (by rw [tempRegs_ne_nil h]; exact Bool.false_ne_true)]
    obtain ⟨s, level, hsearch, hresult, hfound⟩ := (adder.routing sourcePort destinationPort).search_spec
    rw [hsearch]
    dsimp only
    rw [if_neg (Nat.one_le_iff_ne_zero.1 (hfound h))]
    refine ⟨level, rfl, fun hzero => ?_, fun hyes => absurd hyes hconnected⟩
    have hpos : 0 < level := hresult.pos
    rw [Nat.cast_eq_zero] at hzero
    omega

/-- Where scratch registers lead from one port to the other the fewest are counted. -/
theorem countCopies_of_routable {sourcePort destinationPort : Port}
    (h : (adder.routing sourcePort destinationPort).Routable) :
    adder.countCopies sourcePort destinationPort = .ok (adder.fewestCopies sourcePort destinationPort) := by
  rw [countCopies, fewestCopies]
  split
  · rfl
  · rw [if_neg (by rw [tempRegs_ne_nil h.hasWide]; exact Bool.false_ne_true)]
    obtain ⟨s, level, hsearch, hresult, hfound⟩ := (adder.routing sourcePort destinationPort).search_spec
    rw [hsearch]
    dsimp only
    rw [if_neg (Nat.one_le_iff_ne_zero.1 (hfound h.hasWide))]
    obtain ⟨i, -, hshortest, -⟩ := hresult.found h
    rw [Routing.fewest, Chain.fewest_eq hshortest]

/-- Where none leads there the level at which the search stops is counted, or it throws. -/
theorem countCopies_eq_iff {sourcePort destinationPort : Port} :
    adder.countCopies sourcePort destinationPort = .ok (adder.fewestCopies sourcePort destinationPort) ↔
      adder.machine.isConnected sourcePort destinationPort = true ∨ adder.tempRegs = [] ∨
        (adder.routing sourcePort destinationPort).Routable := by
  constructor
  · intro h
    by_contra hno
    push Not at hno
    obtain ⟨hconnected, htemps, hroutable⟩ := hno
    have htop : (adder.routing sourcePort destinationPort).fewest = ⊤ :=
      Chain.fewest_eq_top fun k i hchain hlast => hroutable ⟨k, i, hchain, hlast⟩
    obtain ⟨s, level, hsearch, -, -⟩ := (adder.routing sourcePort destinationPort).search_spec
    rw [countCopies, fewestCopies, if_neg hconnected, if_neg hconnected, htop, hsearch,
      if_neg (by rw [List.isEmpty_iff]; exact htemps)] at h
    dsimp only at h
    split at h
    · cases h
    · exact ENat.natCast_ne_top level (Except.ok.inj h)
  · rintro (hconnected | hempty | hroutable)
    · rw [countCopies_of_connected hconnected, fewestCopies_eq_zero_iff.2 hconnected]
    · exact countCopies_of_empty hempty
    · exact countCopies_of_routable hroutable

/-! ## Pairs of ports -/

/-- The pairs before a connected one have scratch registers that are wide enough. -/
def Passes (adder : Adder) : List (Port × Port) → Prop
  | [] => True
  | pair :: pairs =>
    adder.machine.isConnected pair.1 pair.2 = true ∨ (adder.routing pair.1 pair.2).HasWide ∧ adder.Passes pairs

/-- Some pair is connected, or scratch registers lead from port to port in all of them. -/
def ClearPairs (adder : Adder) (pairs : List (Port × Port)) : Prop :=
  adder.tempRegs = [] ∨
    adder.Passes pairs ∧
      ((∃ pair ∈ pairs, adder.machine.isConnected pair.1 pair.2 = true) ∨
        ∀ pair ∈ pairs, (adder.routing pair.1 pair.2).Routable)

/-- The fewest copies over the pairs. -/
noncomputable def fewestOver (adder : Adder) (pairs : List (Port × Port)) : ℕ∞ :=
  ⨅ pair ∈ pairs, adder.fewestCopies pair.1 pair.2

theorem fewestOver_eq_zero_iff {pairs : List (Port × Port)} :
    adder.fewestOver pairs = 0 ↔ ∃ pair ∈ pairs, adder.machine.isConnected pair.1 pair.2 = true := by
  constructor
  · intro hzero
    by_contra hnone
    have hone : 1 ≤ adder.fewestOver pairs := le_iInf₂ fun pair hpair => by
      rw [Order.one_le_iff_ne_zero]
      exact fun h => hnone ⟨pair, hpair, fewestCopies_eq_zero_iff.1 h⟩
    rw [hzero] at hone
    exact absurd hone (by decide)
  · rintro ⟨pair, hpair, hconnected⟩
    have hle : adder.fewestOver pairs ≤ adder.fewestCopies pair.1 pair.2 := iInf₂_le pair hpair
    rw [fewestCopies_eq_zero_iff.2 hconnected] at hle
    exact le_antisymm hle zero_le

/-- The loop ends at a connected pair, or with the first pair that has the least count. -/
inductive Best (adder : Adder) (pairs : List (Port × Port)) (required : ℕ∞) (best : Option (Port × Port)) :
    ℕ∞ × Option (Port × Port) → Prop
  | connected {best' : Option (Port × Port)} :
    (∃ pair ∈ pairs, adder.machine.isConnected pair.1 pair.2 = true) → Best adder pairs required best (0, best')
  | kept :
    (∀ pair ∈ pairs, ∃ c, adder.countCopies pair.1 pair.2 = .ok c ∧ c ≠ 0 ∧ required ≤ c) →
    Best adder pairs required best (required, best)
  | found {pair : Port × Port} {count : ℕ∞} :
    pair ∈ pairs → adder.countCopies pair.1 pair.2 = .ok count → count < required →
    (∀ pair ∈ pairs, ∃ c, adder.countCopies pair.1 pair.2 = .ok c ∧ c ≠ 0 ∧ count ≤ c) →
    Best adder pairs required best (count, some pair)

/-- A pair that is tried has a count, which is 0 only if its ports are connected. -/
theorem exists_countCopies {pair : Port × Port} (h : adder.tempRegs = [] ∨ adder.Passes [pair]) :
    ∃ c, adder.countCopies pair.1 pair.2 = .ok c ∧ (c = 0 ↔ adder.machine.isConnected pair.1 pair.2 = true) := by
  rcases h with hempty | hconnected | ⟨hwide, -⟩
  · exact ⟨_, countCopies_of_empty hempty, fewestCopies_eq_zero_iff⟩
  · exact ⟨0, countCopies_of_connected hconnected, fun _ => hconnected, fun _ => rfl⟩
  · exact countCopies_of_hasWide hwide

theorem bestConnection_spec {pairs : List (Port × Port)} (h : adder.tempRegs = [] ∨ adder.Passes pairs)
    (required : ℕ∞) (best : Option (Port × Port)) :
    ∃ r, adder.bestConnection pairs required best = .ok r ∧ Best adder pairs required best r := by
  induction pairs generalizing required best with
  | nil => exact ⟨_, rfl, .kept fun pair hpair => absurd hpair List.not_mem_nil⟩
  | cons pair pairs ih =>
    have hpair : adder.tempRegs = [] ∨ adder.Passes [pair] := by
      rcases h with hempty | hconnected | ⟨hwide, -⟩
      · exact .inl hempty
      · exact .inr (.inl hconnected)
      · exact .inr (.inr ⟨hwide, trivial⟩)
    obtain ⟨c, hcount, hzero⟩ := exists_countCopies hpair
    rw [bestConnection, hcount]
    by_cases hconnected : adder.machine.isConnected pair.1 pair.2 = true
    · obtain rfl := hzero.2 hconnected
      exact ⟨(0, best), rfl, .connected ⟨pair, List.mem_cons_self, hconnected⟩⟩
    · have hc : c ≠ 0 := fun h => hconnected (hzero.1 h)
      have hpairs : adder.tempRegs = [] ∨ adder.Passes pairs := by
        rcases h with hempty | hconnected' | ⟨-, hrest⟩
        · exact .inl hempty
        · exact absurd hconnected' hconnected
        · exact .inr hrest
      have hother {count : ℕ∞} (hle : count ≤ c)
          (hall : ∀ pair ∈ pairs, ∃ c, adder.countCopies pair.1 pair.2 = .ok c ∧ c ≠ 0 ∧ count ≤ c) :
          ∀ pair' ∈ pair :: pairs, ∃ c, adder.countCopies pair'.1 pair'.2 = .ok c ∧ c ≠ 0 ∧ count ≤ c :=
        List.forall_mem_cons.2 ⟨⟨c, hcount, hc, hle⟩, hall⟩
      dsimp only [bind, Except.bind]
      rw [if_neg hc]
      by_cases hless : c < required
      · rw [if_pos hless]
        obtain ⟨r, hr, hbest⟩ := ih hpairs c (some pair)
        refine ⟨r, hr, ?_⟩
        cases hbest with
        | connected hexists =>
          obtain ⟨pair', hpair', hconnected'⟩ := hexists
          exact .connected ⟨pair', List.mem_cons_of_mem pair hpair', hconnected'⟩
        | kept hall => exact .found List.mem_cons_self hcount hless (hother (le_refl c) hall)
        | found hpair' hcount' hless' hall =>
          exact .found (List.mem_cons_of_mem pair hpair') hcount' (hless'.trans hless) (hother hless'.le hall)
      · rw [if_neg hless]
        obtain ⟨r, hr, hbest⟩ := ih hpairs required best
        refine ⟨r, hr, ?_⟩
        cases hbest with
        | connected hexists =>
          obtain ⟨pair', hpair', hconnected'⟩ := hexists
          exact .connected ⟨pair', List.mem_cons_of_mem pair hpair', hconnected'⟩
        | kept hall => exact .kept (hother (not_lt.1 hless) hall)
        | found hpair' hcount' hless' hall =>
          exact .found (List.mem_cons_of_mem pair hpair') hcount' hless'
            (hother (hless'.le.trans (not_lt.1 hless)) hall)

theorem ClearPairs.passes {pairs : List (Port × Port)} (h : adder.ClearPairs pairs) :
    adder.tempRegs = [] ∨ adder.Passes pairs := h.imp_right And.left

theorem bestConnection_clear {pairs : List (Port × Port)} (h : adder.ClearPairs pairs) :
    ∃ best, adder.bestConnection pairs ⊤ none = .ok (adder.fewestOver pairs, best) ∧
      (adder.fewestOver pairs ≠ 0 → adder.fewestOver pairs ≠ ⊤ → ∃ pair ∈ pairs, best = some pair ∧
        adder.countCopies pair.1 pair.2 = .ok (adder.fewestOver pairs)) := by
  obtain ⟨r, hr, hbest⟩ := bestConnection_spec h.passes ⊤ none
  -- the counts of all pairs are the fewest ones, if none is connected
  have hcounts (hno : ∀ pair ∈ pairs, ∃ c, adder.countCopies pair.1 pair.2 = .ok c ∧ c ≠ 0) :
      ∀ pair ∈ pairs, adder.countCopies pair.1 pair.2 = .ok (adder.fewestCopies pair.1 pair.2) := by
    intro pair hpair
    rcases h with hempty | ⟨-, ⟨pair', hpair', hconnected⟩ | hroutable⟩
    · exact countCopies_of_empty hempty
    · obtain ⟨c, hc, hne⟩ := hno pair' hpair'
      rw [countCopies_of_connected hconnected] at hc
      exact absurd (Except.ok.inj hc).symm hne
    · exact countCopies_of_routable (hroutable pair hpair)
  have hmin {count : ℕ∞} (hall : ∀ pair ∈ pairs, ∃ c, adder.countCopies pair.1 pair.2 = .ok c ∧ c ≠ 0 ∧ count ≤ c) :
      count ≤ adder.fewestOver pairs := by
    apply le_iInf₂
    intro pair hpair
    obtain ⟨c, hc, -, hle⟩ := hall pair hpair
    rw [hcounts (fun pair hpair => (hall pair hpair).imp fun c hc => ⟨hc.1, hc.2.1⟩) pair hpair] at hc
    rw [Except.ok.inj hc]
    exact hle
  cases hbest with
  | connected hexists =>
    have hzero := fewestOver_eq_zero_iff.2 hexists
    rw [hzero]
    exact ⟨_, hr, fun hne => absurd rfl hne⟩
  | kept hall =>
    have htop : adder.fewestOver pairs = ⊤ := top_le_iff.1 (hmin hall)
    rw [htop]
    exact ⟨_, hr, fun _ hne => absurd rfl hne⟩
  | @found pair count hpair hcount hless hall =>
    have hcopies := hcounts (fun pair hpair => (hall pair hpair).imp fun c hc => ⟨hc.1, hc.2.1⟩) pair hpair
    rw [hcount] at hcopies
    have hle : adder.fewestOver pairs ≤ count := by
      rw [Except.ok.inj hcopies]
      exact iInf₂_le pair hpair
    have heq := le_antisymm hle (hmin hall)
    rw [heq]
    exact ⟨_, hr, fun _ _ => ⟨pair, hpair, rfl, hcount⟩⟩

/-! ## Immediates -/

/-- An immediate goes to a scratch register from a bus or from an immediate unit. -/
def immediateRouting (adder : Adder) (immediate : TerminalImmediate) (destinationPort : Port) : Routing where
  count := adder.tempRegs.length
  wide i := !decide (adder.registerWidth i < adder.machine.requiredImmediateWidth false immediate)
  fromSource i :=
    adder.machine.canTransportImmediate immediate (adder.registerPorts i) ||
      adder.machine.immediateUnits.any fun iu => adder.machine.arePortsConnected iu.ports (adder.registerPorts i)
  between j i := adder.machine.arePortsConnected (adder.registerPorts j) (adder.registerPorts i)
  toDestination i := adder.machine.arePortsConnected (adder.registerPorts i) [destinationPort]

/-- Some register is wide enough; if one of these is connected to the destination then the
immediate comes to such a register, or without immediate units to a register before one. -/
def ClearImmediate (adder : Adder) (immediate : TerminalImmediate) (destinationPort : Port) : Prop :=
  let routing := adder.immediateRouting immediate destinationPort
  routing.HasWide ∧
    ((∀ i < routing.count, routing.wide i = true → ¬routing.Last i) ∨
      (∃ i, routing.First i ∧ routing.Last i) ∨
      adder.machine.immediateUnits = [] ∧ ∃ j i, routing.First j ∧ routing.Step j i ∧ routing.Last i)

theorem exists_index {register : Register} (h : register ∈ adder.tempRegs) :
    ∃ i < adder.tempRegs.length, adder.registerPorts i = register.file.ports ∧
      adder.registerWidth i = register.file.width := by
  obtain ⟨i, hi, heq⟩ := List.mem_iff_getElem.1 h
  have hget := List.getElem?_eq_getElem hi
  refine ⟨i, hi, ?_, ?_⟩
  · rw [registerPorts, hget, heq]
    rfl
  · rw [registerWidth, hget, heq]
    rfl

theorem exists_register {i : Nat} (h : i < adder.tempRegs.length) :
    ∃ register ∈ adder.tempRegs, adder.registerPorts i = register.file.ports ∧
      adder.registerWidth i = register.file.width := by
  have hget := List.getElem?_eq_getElem h
  refine ⟨_, List.getElem_mem h, ?_, ?_⟩
  · rw [registerPorts, hget]
    rfl
  · rw [registerWidth, hget]
    rfl

section targets
variable (immediate : TerminalImmediate) (destinationPort : Port)

def IsWideFor (adder : Adder) (register : Register) : Prop :=
  ¬register.file.width < adder.machine.requiredImmediateWidth false immediate

def Takes (adder : Adder) (register : Register) : Prop :=
  adder.machine.canTransportImmediate immediate register.file.ports = true

def Gives (adder : Adder) (register : Register) : Prop :=
  adder.machine.arePortsConnected register.file.ports [destinationPort] = true

/-- The registers found are wide enough and are what they are found for. -/
structure Targets (adder : Adder) (t : ImmediateTargets) : Prop where
  immediateTarget : ∀ register, t.immediateTarget = some register →
    register ∈ adder.tempRegs ∧ adder.IsWideFor immediate register ∧ adder.Takes immediate register
  targetConnected : ∀ register, t.targetConnected = some register →
    register ∈ adder.tempRegs ∧ adder.IsWideFor immediate register ∧ adder.Gives destinationPort register

/-- The loop has stopped at a register that is both, or has passed all registers. -/
structure Passed (adder : Adder) (registers : List Register) (s t : ImmediateTargets) : Prop where
  targets : adder.Targets immediate destinationPort t
  immediateTarget : s.immediateTarget.isSome = true → t.immediateTarget.isSome = true
  targetConnected : s.targetConnected.isSome = true → t.targetConnected.isSome = true
  found : s.correctSizeTempsFound ≤ t.correctSizeTempsFound
  wide : (∃ register ∈ registers, adder.IsWideFor immediate register) → t.correctSizeTempsFound ≠ 0
  stopped : (∃ register, t.targetConnected = some register ∧ t.immediateTarget.map (·.file) = some register.file) ∨
    ∀ register ∈ registers, adder.IsWideFor immediate register →
      (adder.Takes immediate register → t.immediateTarget.isSome = true) ∧
      (adder.Gives destinationPort register → t.targetConnected.isSome = true) ∧
      ¬(adder.Takes immediate register ∧ adder.Gives destinationPort register)

variable {immediate destinationPort}

theorem Passed.cons {register : Register} {registers : List Register} {s u t : ImmediateTargets}
    (h : adder.Passed immediate destinationPort registers u t)
    (himmediate : s.immediateTarget.isSome = true → u.immediateTarget.isSome = true)
    (hconnected : s.targetConnected.isSome = true → u.targetConnected.isSome = true)
    (hfound : u.correctSizeTempsFound = s.correctSizeTempsFound + 1)
    (htakes : adder.Takes immediate register → u.immediateTarget.isSome = true)
    (hgives : adder.Gives destinationPort register → u.targetConnected.isSome = true)
    (hboth : ¬(adder.Takes immediate register ∧ adder.Gives destinationPort register)) :
    adder.Passed immediate destinationPort (register :: registers) s t := by
  have hle := h.found
  refine ⟨h.targets, fun hs => h.immediateTarget (himmediate hs), fun hs => h.targetConnected (hconnected hs),
    by omega, fun _ => by omega, h.stopped.imp_right fun hall other hmem hwide => ?_⟩
  rcases List.mem_cons.1 hmem with rfl | hmem
  · exact ⟨fun h' => h.immediateTarget (htakes h'), fun h' => h.targetConnected (hgives h'), hboth⟩
  · exact hall other hmem hwide

theorem immediateTargets_spec {registers : List Register}
    (hregisters : ∀ register ∈ registers, register ∈ adder.tempRegs) {s : ImmediateTargets} (hs : adder.Targets immediate destinationPort s) :
    adder.Passed immediate destinationPort registers s
      (adder.immediateTargets immediate destinationPort registers s) := by
  induction registers generalizing s with
  | nil =>
    refine ⟨hs, id, id, Nat.le_refl _, ?_, .inr ?_⟩
    · rintro ⟨register, hmem, -⟩
      cases hmem
    · intro register hmem
      cases hmem
  | cons register registers ih =>
    obtain ⟨hregister, hrest⟩ := List.forall_mem_cons.1 hregisters
    rw [immediateTargets]
    by_cases hwide : adder.IsWideFor immediate register
    · rw [if_neg hwide]
      dsimp only
      -- the state after the register has been tried as a target of the immediate
      generalize hu : (if adder.machine.canTransportImmediate immediate register.file.ports = true then
        { s with correctSizeTempsFound := s.correctSizeTempsFound + 1, immediateTarget := some register }
        else { s with correctSizeTempsFound := s.correctSizeTempsFound + 1 } : ImmediateTargets) = u
      have hfound : u.correctSizeTempsFound = s.correctSizeTempsFound + 1 := by
        rw [← hu]
        split <;> rfl
      have hconnected : u.targetConnected = s.targetConnected := by
        rw [← hu]
        split <;> rfl
      have htarget : adder.Takes immediate register ∧ u.immediateTarget = some register ∨
          ¬adder.Takes immediate register ∧ u.immediateTarget = s.immediateTarget := by
        rw [← hu]
        split
        · next htakes => exact .inl ⟨htakes, rfl⟩
        · next htakes => exact .inr ⟨htakes, rfl⟩
      have himmediate (h : s.immediateTarget.isSome = true) : u.immediateTarget.isSome = true := by
        rcases htarget with ⟨-, heq⟩ | ⟨-, heq⟩
        · rw [heq]
          rfl
        · rw [heq]
          exact h
      have htakes (h : adder.Takes immediate register) : u.immediateTarget = some register := by
        rcases htarget with ⟨-, heq⟩ | ⟨hno, -⟩
        · exact heq
        · exact absurd h hno
      have hu' (other : Register) (hother : u.immediateTarget = some other) :
          other ∈ adder.tempRegs ∧ adder.IsWideFor immediate other ∧ adder.Takes immediate other := by
        rcases htarget with ⟨htakes, heq⟩ | ⟨-, heq⟩
        · obtain rfl := Option.some.inj (heq.symm.trans hother)
          exact ⟨hregister, hwide, htakes⟩
        · exact hs.immediateTarget other (heq.symm.trans hother)
      by_cases hgives : adder.machine.arePortsConnected register.file.ports [destinationPort] = true
      · rw [if_pos hgives]
        have hv : adder.Targets immediate destinationPort { u with targetConnected := some register } := by
          refine ⟨hu', fun other hother => ?_⟩
          obtain rfl := Option.some.inj hother
          exact ⟨hregister, hwide, hgives⟩
        split
        · next hfile =>
          exact ⟨hv, himmediate, fun _ => rfl, hfound ▸ Nat.le_succ _, fun _ => hfound ▸ Nat.succ_ne_zero _,
            .inl ⟨register, rfl, hfile⟩⟩
        · next hfile =>
          apply (ih hrest hv).cons himmediate (fun _ => rfl) hfound
          · intro h
            rw [htakes h]
            rfl
          · exact fun _ => rfl
          · rintro ⟨h, -⟩
            rw [htakes h] at hfile
            exact hfile rfl
      · rw [if_neg hgives]
        have hu'' : adder.Targets immediate destinationPort u := ⟨hu', hconnected ▸ hs.targetConnected⟩
        apply (ih hrest hu'').cons himmediate (fun h => hconnected ▸ h) hfound
        · intro h
          rw [htakes h]
          rfl
        · exact fun h => absurd h hgives
        · exact fun h => hgives h.2
    · rw [if_pos (not_not.1 hwide)]
      have hpassed := ih hrest hs
      refine { hpassed with wide := ?_, stopped := ?_ }
      · rintro ⟨other, hmem, hother⟩
        rcases List.mem_cons.1 hmem with rfl | hmem
        · exact absurd hother hwide
        · exact hpassed.wide ⟨other, hmem, hother⟩
      · apply hpassed.stopped.imp_right
        intro hall other hmem hother
        rcases List.mem_cons.1 hmem with rfl | hmem
        · exact absurd hother hwide
        · exact hall other hmem hother

/-- The registers of the immediate routing are the scratch registers. -/
theorem immediateRouting_wide {i : Nat} {register : Register} (h : adder.registerWidth i = register.file.width) :
    (adder.immediateRouting immediate destinationPort).wide i = true ↔ adder.IsWideFor immediate register := by
  dsimp only [immediateRouting]
  rw [h, Bool.not_eq_true', decide_eq_false_iff_not]
  rfl

theorem immediateRouting_last {i : Nat} {register : Register} (h : adder.registerPorts i = register.file.ports) :
    (adder.immediateRouting immediate destinationPort).Last i ↔ adder.Gives destinationPort register := by
  rw [Routing.Last]
  dsimp only [immediateRouting]
  rw [h]
  rfl

theorem immediateRouting_fromSource {i : Nat} {register : Register} (h : adder.registerPorts i = register.file.ports)
    (hunits : adder.machine.immediateUnits = []) :
    (adder.immediateRouting immediate destinationPort).fromSource i = true ↔ adder.Takes immediate register := by
  dsimp only [immediateRouting]
  rw [h, hunits, List.any_nil, Bool.or_false]
  rfl

theorem immediateRouting_takes {i : Nat} {register : Register} (h : adder.registerPorts i = register.file.ports)
    (htakes : adder.Takes immediate register) :
    (adder.immediateRouting immediate destinationPort).fromSource i = true := by
  dsimp only [immediateRouting]
  rw [h, Bool.or_eq_true]
  exact .inl htakes

/-- A clear immediate has the fewest registers. -/
theorem immediateChain_clear (h : adder.ClearImmediate immediate destinationPort) :
    adder.immediateChain immediate destinationPort = .ok none ∧
        (adder.immediateRouting immediate destinationPort).fewest = ⊤ ∨
      ∃ first rest, adder.immediateChain immediate destinationPort = .ok (some (some first, rest)) ∧
        (adder.immediateRouting immediate destinationPort).fewest = ((rest.length + 1 : Nat) : ℕ∞) ∧
        ∀ register ∈ first :: rest, register ∈ adder.tempRegs := by
  obtain ⟨hwide, hclear⟩ := h
  generalize hrouting : adder.immediateRouting immediate destinationPort = routing at hwide hclear ⊢
  have hcount : routing.count = adder.tempRegs.length := by rw [← hrouting]; rfl
  obtain ⟨w, hw, hwide⟩ := hwide
  obtain ⟨wideRegister, hmem, -, hwidth⟩ := exists_register (hcount ▸ hw)
  rw [← hrouting, immediateRouting_wide hwidth] at hwide
  have hempty : adder.tempRegs.isEmpty = false := by
    rw [List.isEmpty_eq_false_iff]
    exact List.ne_nil_of_mem hmem
  have hstart : adder.Targets immediate destinationPort ⟨none, none, 0⟩ :=
    ⟨fun _ h => (Option.some_ne_none _ h.symm).elim, fun _ h => (Option.some_ne_none _ h.symm).elim⟩
  have hpassed := immediateTargets_spec (fun register h => h) hstart
  rw [immediateChain, if_neg (by rw [hempty]; exact Bool.false_ne_true)]
  generalize adder.immediateTargets immediate destinationPort adder.tempRegs ⟨none, none, 0⟩ = t at hpassed ⊢
  dsimp only
  rw [if_neg (hpassed.wide ⟨wideRegister, hmem, hwide⟩)]
  cases htarget : t.targetConnected with
  | none =>
    refine .inl ⟨rfl, Routing.fewest_eq_top fun i hi hwide' hlast => ?_⟩
    obtain ⟨register, hmem, hports, hwidth⟩ := exists_register (hcount ▸ hi)
    rw [← hrouting, immediateRouting_wide hwidth] at hwide'
    rw [← hrouting, immediateRouting_last hports] at hlast
    rcases hpassed.stopped with ⟨_, hsome, -⟩ | hall
    · rw [htarget] at hsome
      cases hsome
    · have hisSome := (hall register hmem hwide').2.1 hlast
      rw [htarget] at hisSome
      cases hisSome
  | some target =>
    refine .inr ?_
    obtain ⟨htargetMem, htargetWide, hgives⟩ := hpassed.targets.targetConnected target htarget
    obtain ⟨i, hi, hports, hwidth⟩ := exists_index htargetMem
    have hiWide : routing.wide i = true := by
      rw [← hrouting]
      exact (immediateRouting_wide hwidth).2 htargetWide
    have hiLast : routing.Last i := by
      rw [← hrouting]
      exact (immediateRouting_last hports).2 hgives
    dsimp only
    by_cases hboth : ∃ i, routing.First i ∧ routing.Last i
    · -- one register is enough, and the loop has stopped at such a register
      have hone : t.immediateTarget.map (·.file) = some target.file ∨ adder.machine.immediateUnits ≠ [] := by
        by_cases hunits : adder.machine.immediateUnits = []
        · refine .inl ?_
          rcases hpassed.stopped with ⟨register, hsome, hfile⟩ | hall
          · rw [htarget] at hsome
            rw [Option.some.inj hsome]
            exact hfile
          · obtain ⟨k, ⟨hk, hkWide, hkSource⟩, hkLast⟩ := hboth
            obtain ⟨register, hmem, hports, hwidth⟩ := exists_register (hcount ▸ hk)
            rw [← hrouting, immediateRouting_wide hwidth] at hkWide
            rw [← hrouting, immediateRouting_fromSource hports hunits] at hkSource
            rw [← hrouting, immediateRouting_last hports] at hkLast
            exact absurd ⟨hkSource, hkLast⟩ (hall register hmem hkWide).2.2
        · exact .inr hunits
      rw [if_pos hone]
      refine ⟨target, [], rfl, Routing.fewest_eq_one hboth, fun register hmem => ?_⟩
      rw [List.mem_singleton.1 hmem]
      exact htargetMem
    · obtain ⟨hunits, hchain⟩ : adder.machine.immediateUnits = [] ∧
          ∃ j i, routing.First j ∧ routing.Step j i ∧ routing.Last i := by
        rcases hclear with hnone | hone | htwo
        · exact absurd hiLast (hnone i (hcount ▸ hi) hiWide)
        · exact absurd hone hboth
        · exact htwo
      have htwo := hchain
      obtain ⟨j, -, ⟨hj, hjWide, hjSource⟩, -⟩ := hchain
      obtain ⟨register, hmem, hports', hwidth'⟩ := exists_register (hcount ▸ hj)
      rw [← hrouting, immediateRouting_wide hwidth'] at hjWide
      rw [← hrouting, immediateRouting_fromSource hports' hunits] at hjSource
      -- a register of the file of the target is as good as the target
      have hfile : t.immediateTarget.map (·.file) ≠ some target.file := by
        intro hfile
        obtain ⟨other, hother, hsame⟩ := Option.map_eq_some_iff.1 hfile
        have htakes := (hpassed.targets.immediateTarget other hother).2.2
        rw [Takes, hsame] at htakes
        refine hboth ⟨i, ⟨hcount ▸ hi, hiWide, ?_⟩, hiLast⟩
        rw [← hrouting]
        exact immediateRouting_takes hports htakes
      obtain ⟨first, hfirst⟩ : ∃ first, t.immediateTarget = some first := by
        rcases hpassed.stopped with ⟨other, hsome, hsame⟩ | hall
        · rw [htarget] at hsome
          rw [← Option.some.inj hsome] at hsame
          exact absurd hsame hfile
        · exact Option.isSome_iff_exists.1 ((hall register hmem hjWide).1 hjSource)
      rw [if_neg (by rintro (h | h); exacts [hfile h, h hunits]), hfirst]
      refine ⟨first, [target], rfl, Routing.fewest_eq_two hboth htwo, fun register hmem => ?_⟩
      rcases List.mem_cons.1 hmem with rfl | hmem
      · exact (hpassed.targets.immediateTarget register hfirst).1
      · rw [List.mem_singleton.1 hmem]
        exact htargetMem

end targets

end Adder

end Tce.RegisterCopyAdder
