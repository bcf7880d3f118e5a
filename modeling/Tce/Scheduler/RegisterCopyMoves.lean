import Tce.Scheduler.RegisterCopyCounts

/-!
# Copies of moves and operations

A move whose transport is clear is counted and split with the fewest copies, and
the move that is left of it can be counted for every unit.
-/

namespace Tce.RegisterCopyAdder

open ResourceManager (Port Bus TerminalImmediate)

namespace Adder
variable {adder : Adder}

/-! ## Copies between two ports -/

theorem any_arePortsConnected (ports next : List Port) :
    (ports.any fun port => adder.machine.arePortsConnected [port] next) =
      adder.machine.arePortsConnected ports next := by
  simp [Machine.arePortsConnected]

/-- The registers of a chain that leads to the destination. -/
theorem connectedRegisters_of_leads {sourcePort destinationPort : Port} {i : Nat} {rest : List Nat}
    (h : (adder.routing sourcePort destinationPort).Leads (i :: rest)) :
    ∃ register others, adder.connectedRegisters [destinationPort] (i :: rest) = .ok (register :: others) ∧
      others.length = rest.length ∧ (∀ other ∈ register :: others, other ∈ adder.tempRegs) ∧
      adder.registerPorts i = register.file.ports := by
  have hget {i : Nat} (hi : i < (adder.routing sourcePort destinationPort).count) :
      ∃ register, adder.tempRegs[i]? = some register ∧ register ∈ adder.tempRegs ∧
        adder.registerPorts i = register.file.ports := by
    have hsome := List.getElem?_eq_getElem (show i < adder.tempRegs.length from hi)
    refine ⟨_, hsome, List.getElem_mem _, ?_⟩
    rw [registerPorts, hsome]
    rfl
  induction rest generalizing i with
  | nil =>
    obtain ⟨hi, hdestination⟩ := h
    obtain ⟨register, hsome, hmem, hports⟩ := hget hi
    refine ⟨register, [], ?_, rfl, fun other hother => ?_, hports⟩
    · rw [connectedRegisters, connectedRegisters]
      dsimp only [bind, Except.bind]
      rw [hsome]
      dsimp only
      rw [any_arePortsConnected]
      change adder.machine.arePortsConnected (adder.registerPorts i) [destinationPort] = true at hdestination
      rw [hports] at hdestination
      exact if_pos hdestination
    · rw [List.mem_singleton.1 hother]
      exact hmem
  | cons k rest ih =>
    obtain ⟨hi, hbetween, hrest⟩ := h
    obtain ⟨register, hsome, hmem, hports⟩ := hget hi
    obtain ⟨next, others, hregisters, hlength, hall, hnext⟩ := ih hrest
    refine ⟨register, next :: others, ?_, congrArg (· + 1) hlength, List.forall_mem_cons.2 ⟨hmem, hall⟩, hports⟩
    rw [connectedRegisters, hregisters]
    dsimp only [bind, Except.bind]
    rw [hsome]
    dsimp only
    rw [any_arePortsConnected]
    change adder.machine.arePortsConnected (adder.registerPorts i) (adder.registerPorts k) = true at hbetween
    rw [hports, hnext] at hbetween
    exact if_pos hbetween

/-- What is left of a move: the part at the unit, with a scratch register or the
register of a bypass in place of the other end. -/
inductive Rewritten (adder : Adder) (neededCopies : Nat) (move : Move) : Move → Prop
  | same : Rewritten adder neededCopies move move
  | source {register : Register} : register ∈ adder.tempRegs →
    Rewritten adder neededCopies move { move with source := .register register }
  | destination {register : Register} : register ∈ adder.tempRegs →
    Rewritten adder neededCopies move { move with destination := .register register }
  | bypassed {register : Register} : neededCopies = 1 → adder.rawSource move = some register →
    Rewritten adder neededCopies move { move with source := .register register }

theorem split_spec (neededCopies : Nat) (move : Move) {first last : Register} (registers : List Register)
    (hfirst : first ∈ adder.tempRegs) (hlast : last ∈ adder.tempRegs) :
    (split move first registers last).count = registers.length ∧
      adder.Rewritten neededCopies move (split move first registers last).move := by
  rw [split]
  split
  · exact ⟨rfl, .source hlast⟩
  · exact ⟨rfl, .destination hfirst⟩

theorem splitAlong_spec {sourcePort destinationPort : Port} {chain : List Nat} (neededCopies : Nat) (move : Move)
    (h : (adder.routing sourcePort destinationPort).Leads chain) :
    ∃ insertion, adder.splitAlong move destinationPort chain = .ok insertion ∧ insertion.count = chain.length ∧
      adder.Rewritten neededCopies move insertion.move := by
  cases chain with
  | nil => exact absurd h id
  | cons i rest =>
    obtain ⟨register, others, hregisters, hlength, hall, -⟩ := connectedRegisters_of_leads h
    rw [splitAlong, hregisters]
    dsimp only [bind, Except.bind]
    rw [List.head?_cons, List.getLast?_eq_some_getLast (List.cons_ne_nil _ _)]
    obtain ⟨hcount, hrewritten⟩ := split_spec neededCopies move (register :: others) (hall register List.mem_cons_self)
      (hall _ (List.getLast_mem (List.cons_ne_nil register others)))
    refine ⟨_, rfl, ?_, hrewritten⟩
    rw [hcount, List.length_cons, List.length_cons, hlength]

theorem bypassed_spec (move : Move) (destinationPort : Port) {neededCopies : Nat} (hneeded : neededCopies ≠ 0) :
    ∃ insertion, adder.bypassed move destinationPort neededCopies = .ok insertion ∧
      ∀ bypass, insertion = some bypass → bypass.count = 0 ∧ adder.Rewritten neededCopies move bypass.move := by
  have hnone : ∀ bypass, (none : Option Insertion) = some bypass →
      bypass.count = 0 ∧ adder.Rewritten neededCopies move bypass.move :=
    fun _ h => (Option.some_ne_none _ h.symm).elim
  rw [bypassed]
  split
  · rw [if_neg hneeded]
    split
    · next hone =>
      refine ⟨_, rfl, fun bypass hbypass => ?_⟩
      obtain ⟨register, hregister, hconnected⟩ := Option.bind_eq_some_iff.1 hbypass
      split at hconnected
      · obtain rfl := Option.some.inj hconnected
        exact ⟨rfl, .bypassed hone hregister⟩
      · cases hconnected
    · exact ⟨none, rfl, hnone⟩
  · exact ⟨none, rfl, hnone⟩

/-- Where scratch registers lead from one port to the other copies are added, or the move is bypassed. -/
theorem addCopies_spec {sourcePort destinationPort : Port} (move : Move) {neededCopies : Nat}
    (hneeded : neededCopies ≠ 0) (h : (adder.routing sourcePort destinationPort).Routable) :
    ∃ insertion, adder.addCopies move sourcePort destinationPort neededCopies = .ok insertion ∧
      (insertion.count : ℕ∞) ≤ adder.fewestCopies sourcePort destinationPort ∧
      adder.Rewritten neededCopies move insertion.move := by
  rw [addCopies, fewestCopies]
  split
  · exact ⟨_, rfl, le_refl _, .same⟩
  · rw [if_neg (by rw [tempRegs_ne_nil h.hasWide]; exact Bool.false_ne_true)]
    obtain ⟨s, level, hsearch, hresult, hfound⟩ := (adder.routing sourcePort destinationPort).search_spec
    obtain ⟨i, hlast, hshortest, hleads⟩ := hresult.found h
    rw [hsearch]
    dsimp only
    rw [if_neg (Nat.one_le_iff_ne_zero.1 (hfound h.hasWide)), hlast]
    dsimp only
    obtain ⟨insertion, hsplit, hcount, hrewritten⟩ := splitAlong_spec neededCopies move hleads
    have hsplitAlong : ∃ insertion',
        adder.splitAlong move destinationPort (trace s.conn (level - 1) i) = .ok insertion' ∧
        (insertion'.count : ℕ∞) ≤ (adder.routing sourcePort destinationPort).fewest ∧
        adder.Rewritten neededCopies move insertion'.move := by
      refine ⟨insertion, hsplit, ?_, hrewritten⟩
      have hpos := hresult.pos
      rw [Routing.fewest, Chain.fewest_eq hshortest, hcount, Routing.length_trace, Nat.sub_add_cancel hpos]
    obtain ⟨bypass, hbypassed, hbypass⟩ := bypassed_spec move destinationPort hneeded
    rw [hbypassed]
    cases bypass with
    | none => exact hsplitAlong
    | some bypass =>
      obtain ⟨hzero, hrewritten⟩ := hbypass bypass rfl
      refine ⟨bypass, rfl, ?_, hrewritten⟩
      rw [hzero]
      exact zero_le

/-! ## Moves -/

/-- The fewest copies for a move at a unit. -/
noncomputable def fewestMoveCopies (adder : Adder) (unit : FunctionUnit) (move : Move) : ℕ∞ :=
  match adder.transport unit move with
  | .ok (.immediate immediate destinationPort) => (adder.immediateRouting immediate destinationPort).fewest
  | .ok (.ports pairs) => adder.fewestOver pairs
  | _ => 0

/-- The ports of the move are there, and the copies between them are clear. -/
def ClearMove (adder : Adder) (unit : FunctionUnit) (move : Move) : Prop :=
  match adder.transport unit move with
  | .ok .free => True
  | .ok (.immediate immediate destinationPort) => adder.ClearImmediate immediate destinationPort
  | .ok (.ports pairs) => adder.ClearPairs pairs
  | .error _ => False

theorem countMoveCopies_clear {unit : FunctionUnit} {move : Move} (h : adder.ClearMove unit move) :
    adder.countMoveCopies unit move = .ok (adder.fewestMoveCopies unit move) := by
  rw [ClearMove] at h
  rw [countMoveCopies, fewestMoveCopies]
  cases htransport : adder.transport unit move with
  | error =>
    rw [htransport] at h
    exact absurd h id
  | ok transport =>
    rw [htransport] at h
    cases transport with
    | free => rfl
    | immediate immediate destinationPort =>
      dsimp only [bind, Except.bind]
      rw [countCopiesImmediate]
      rcases immediateChain_clear h with ⟨hchain, hfewest⟩ | ⟨first, rest, hchain, hfewest, -⟩
      · rw [hchain, hfewest]
        rfl
      · rw [hchain, hfewest]
        rfl
    | ports pairs =>
      obtain ⟨best, hbest, -⟩ := bestConnection_clear h
      dsimp only [bind, Except.bind]
      rw [hbest]
      rfl

theorem addMoveCopies_clear {unit : FunctionUnit} {move : Move} (h : adder.ClearMove unit move)
    (hfinite : adder.fewestMoveCopies unit move ≠ ⊤) {neededCopies : Nat}
    (hneeded : adder.fewestMoveCopies unit move ≠ 0 → neededCopies ≠ 0) :
    ∃ insertion, adder.addMoveCopies unit neededCopies move = .ok insertion ∧
      (insertion.count : ℕ∞) ≤ adder.fewestMoveCopies unit move ∧
      adder.Rewritten neededCopies move insertion.move := by
  rw [ClearMove] at h
  rw [addMoveCopies]
  rw [fewestMoveCopies] at hfinite hneeded ⊢
  cases htransport : adder.transport unit move with
  | error =>
    rw [htransport] at h
    exact absurd h id
  | ok transport =>
    rw [htransport] at h hfinite hneeded
    cases transport with
    | free => exact ⟨_, rfl, zero_le, .same⟩
    | immediate immediate destinationPort =>
      dsimp only [bind, Except.bind] at hfinite ⊢
      rw [addCopiesImmediate]
      rcases immediateChain_clear h with ⟨-, hfewest⟩ | ⟨first, rest, hchain, hfewest, hmem⟩
      · exact absurd hfewest hfinite
      · rw [hchain, hfewest]
        exact ⟨_, rfl, le_refl _, .source (hmem _ List.getLastD_mem_cons)⟩
    | ports pairs =>
      dsimp only [bind, Except.bind] at hfinite hneeded ⊢
      obtain ⟨best, hbest, hfound⟩ := bestConnection_clear h
      rw [hbest]
      dsimp only
      by_cases hzero : adder.fewestOver pairs = 0
      · rw [if_pos hzero]
        exact ⟨_, rfl, zero_le, .same⟩
      · rw [if_neg hzero]
        obtain ⟨pair, hpair, rfl, hcount⟩ := hfound hzero hfinite
        dsimp only
        have hroutable : (adder.routing pair.1 pair.2).Routable := by
          rcases h with hempty | ⟨-, hconnected | hroutable⟩
          · rw [countCopies_of_empty hempty] at hcount
            have heq := Except.ok.inj hcount
            rw [fewestCopies] at heq
            split at heq
            · exact absurd heq.symm hzero
            · rw [Routing.fewest_eq_top] at heq
              · exact absurd heq.symm hfinite
              · intro i hi
                rw [routing, hempty] at hi
                exact absurd hi (Nat.not_lt_zero i)
          · exact absurd (fewestOver_eq_zero_iff.2 hconnected) hzero
          · exact hroutable pair hpair
        obtain ⟨insertion, hadded, hcount', hrewritten⟩ := addCopies_spec move (hneeded hzero) hroutable
        rw [countCopies_of_routable hroutable] at hcount
        rw [Except.ok.inj hcount] at hcount'
        exact ⟨insertion, hadded, hcount', hrewritten⟩

/-! ## What is left of a move -/

/-- The move has a count, which is 0 only if it needs no copies. -/
def Counted (adder : Adder) (unit : FunctionUnit) (move : Move) : Prop :=
  ∃ c, adder.countMoveCopies unit move = .ok c ∧ (c = 0 ↔ adder.fewestMoveCopies unit move = 0)

theorem ClearMove.counted {unit : FunctionUnit} {move : Move} (h : adder.ClearMove unit move) :
    adder.Counted unit move := ⟨_, countMoveCopies_clear h, Iff.rfl⟩

theorem counted_of_ports {unit : FunctionUnit} {move : Move} {pairs : List (Port × Port)}
    (htransport : adder.transport unit move = .ok (.ports pairs)) (h : adder.tempRegs = [] ∨ adder.Passes pairs) :
    adder.Counted unit move := by
  obtain ⟨r, hr, hbest⟩ := bestConnection_spec h ⊤ none
  refine ⟨r.1, ?_, ?_⟩
  · rw [countMoveCopies, htransport]
    dsimp only [bind, Except.bind]
    rw [hr]
    rfl
  · rw [fewestMoveCopies, htransport]
    dsimp only
    rw [fewestOver_eq_zero_iff]
    have hno {count : ℕ∞} (hall : ∀ pair ∈ pairs, ∃ c, adder.countCopies pair.1 pair.2 = .ok c ∧ c ≠ 0 ∧ count ≤ c) :
        ¬∃ pair ∈ pairs, adder.machine.isConnected pair.1 pair.2 = true := by
      rintro ⟨pair, hpair, hconnected⟩
      obtain ⟨c, hc, hne, -⟩ := hall pair hpair
      rw [countCopies_of_connected hconnected] at hc
      exact hne (Except.ok.inj hc).symm
    cases hbest with
    | connected hexists => exact ⟨fun _ => hexists, fun _ => rfl⟩
    | kept hall => exact ⟨fun hzero => absurd hzero (by decide), fun hexists => absurd hexists (hno hall)⟩
    | found hpair hcount _ hall =>
      refine ⟨fun hzero => ?_, fun hexists => absurd hexists (hno hall)⟩
      obtain ⟨c, hc, hne, -⟩ := hall _ hpair
      rw [hcount] at hc
      exact absurd ((Except.ok.inj hc).symm.trans hzero) hne

theorem passes_of_hasWide {pairs : List (Port × Port)}
    (h : ∀ pair ∈ pairs, (adder.routing pair.1 pair.2).HasWide) : adder.Passes pairs := by
  induction pairs with
  | nil => trivial
  | cons pair pairs ih =>
    obtain ⟨hpair, hrest⟩ := List.forall_mem_cons.1 h
    exact .inr ⟨hpair, ih hrest⟩

/-- A scratch register is wide enough for each of its ports. -/
theorem hasWide_of_register {register : Register} (h : register ∈ adder.tempRegs) {sourcePort destinationPort : Port}
    (hport : sourcePort ∈ register.file.ports ∨ destinationPort ∈ register.file.ports) :
    (adder.routing sourcePort destinationPort).HasWide := by
  obtain ⟨i, hi, -, hwidth⟩ := exists_index h
  refine ⟨i, hi, ?_⟩
  dsimp only [routing]
  rw [Bool.not_eq_true', decide_eq_false_iff_not, hwidth, not_lt]
  rcases hport with hport | hport
  · rw [← register.file.width_eq _ hport]
    exact min_le_left _ _
  · rw [← register.file.width_eq _ hport]
    exact min_le_right _ _

/-- The ports of the destination do not depend on the source. -/
theorem destinationPorts_congr {unit : FunctionUnit} {move : Move} {dstPorts : List Port}
    (h : adder.destinationPorts unit move = .ok dstPorts) (source : Source) :
    adder.destinationPorts unit { move with source := source } = .ok dstPorts := by
  rw [destinationPorts] at h ⊢
  cases hdestination : move.destination with
  | register register =>
    rw [hdestination] at h
    exact h
  | unitPort operation index =>
    rw [hdestination] at h
    dsimp only [unitPort] at h ⊢
    cases hport : (unit.operation operation).bind (·.port index) with
    | none =>
      rw [hport] at h
      cases h
    | some port =>
      rw [hport] at h
      exact h
  | returnAddress =>
    rw [hdestination] at h
    exact h

theorem ClearMove.destinationPorts {unit : FunctionUnit} {move : Move} (h : adder.ClearMove unit move) :
    ∃ dstPorts, adder.destinationPorts unit move = .ok dstPorts := by
  rw [ClearMove, transport] at h
  cases hports : adder.destinationPorts unit move with
  | ok dstPorts => exact ⟨dstPorts, rfl⟩
  | error =>
    rw [hports] at h
    exact absurd h id

/-- A move that is read from a register. -/
theorem transport_register {unit : FunctionUnit} {move : Move} {dstPorts : List Port}
    (h : adder.destinationPorts unit move = .ok dstPorts) (register : Register) :
    adder.transport unit { move with source := .register register } =
      .ok (.ports ((register.file.ports.filter (·.outputSocket.isSome)).product dstPorts)) := by
  rw [transport, destinationPorts_congr h]
  rfl

/-- A move that writes to a register. -/
theorem ClearMove.transport_destination {unit : FunctionUnit} {move : Move} (h : adder.ClearMove unit move)
    (register : Register) :
    adder.transport unit { move with destination := .register register } = .ok .free ∨
      ∃ srcPorts : List Port, adder.transport unit { move with destination := .register register } =
        .ok (.ports (srcPorts.product (register.file.ports.filter (·.inputSocket.isSome)))) := by
  obtain ⟨dstPorts, hdstPorts⟩ := h.destinationPorts
  rw [ClearMove, transport, hdstPorts] at h
  rw [transport]
  cases hsource : move.source with
  | register => exact .inr ⟨_, rfl⟩
  | unitPort operation index =>
    rw [hsource] at h
    dsimp only [bind, Except.bind] at h
    cases hport : unitPort unit operation index .aborted with
    | error =>
      rw [hport] at h
      exact absurd h id
    | ok port =>
      refine .inr ⟨[port], ?_⟩
      dsimp only [Adder.destinationPorts, bind, Except.bind]
      rw [hport]
      rfl
  | returnAddress => exact .inr ⟨_, rfl⟩
  | immediate => exact .inl rfl

theorem Rewritten.counted {neededCopies : Nat} {move move' : Move} (h : adder.Rewritten neededCopies move move')
    {unit : FunctionUnit} (hclear : adder.ClearMove unit move)
    (hbypass : neededCopies = 1 → ∀ register, adder.rawSource move = some register → ∀ dstPorts,
      adder.destinationPorts unit move = .ok dstPorts →
      adder.Passes ((register.file.ports.filter (·.outputSocket.isSome)).product dstPorts)) :
    adder.Counted unit move' := by
  obtain ⟨dstPorts, hdstPorts⟩ := hclear.destinationPorts
  cases h with
  | same => exact hclear.counted
  | @source register hmem =>
    apply counted_of_ports (transport_register hdstPorts register)
    refine .inr (passes_of_hasWide fun pair hpair => ?_)
    obtain ⟨hsource, -⟩ := List.mem_product.1 hpair
    exact hasWide_of_register hmem (.inl (List.mem_of_mem_filter hsource))
  | @destination register hmem =>
    rcases hclear.transport_destination register with hfree | ⟨srcPorts, hports⟩
    · refine ⟨0, ?_, ?_⟩
      · rw [countMoveCopies, hfree]
        rfl
      · rw [fewestMoveCopies, hfree]
    · apply counted_of_ports hports
      refine .inr (passes_of_hasWide fun pair hpair => ?_)
      obtain ⟨-, hdestination⟩ := List.mem_product.1 hpair
      exact hasWide_of_register hmem (.inr (List.mem_of_mem_filter hdestination))
  | @bypassed register hone hregister =>
    apply counted_of_ports (transport_register hdstPorts register)
    exact .inr (hbypass hone register hregister dstPorts hdstPorts)

/-! ## Operations -/

/-- The fewest copies for the moves of an operation at a unit. -/
noncomputable def fewestUnitCopies (adder : Adder) (unit : FunctionUnit) (moves : List Move) : ℕ∞ :=
  (moves.map (adder.fewestMoveCopies unit)).sum

theorem fewestUnitCopies_cons (unit : FunctionUnit) (move : Move) (moves : List Move) :
    adder.fewestUnitCopies unit (move :: moves) =
      adder.fewestMoveCopies unit move + adder.fewestUnitCopies unit moves :=
  List.sum_cons

theorem countRegisterCopies_clear {unit : FunctionUnit} {moves : List Move}
    (h : ∀ move ∈ moves, adder.ClearMove unit move) :
    adder.countRegisterCopies unit moves = .ok (adder.fewestUnitCopies unit moves) := by
  induction moves with
  | nil => rfl
  | cons move moves ih =>
    obtain ⟨hmove, hrest⟩ := List.forall_mem_cons.1 h
    rw [countRegisterCopies, countMoveCopies_clear hmove, ih hrest, fewestUnitCopies_cons]
    dsimp only [bind, Except.bind]
    split
    · next htop =>
      rw [htop, top_add]
      rfl
    · rfl

theorem countRegisterCopies_counted {unit : FunctionUnit} {moves : List Move}
    (h : ∀ move ∈ moves, adder.Counted unit move) :
    ∃ c, adder.countRegisterCopies unit moves = .ok c ∧ (c = 0 ↔ adder.fewestUnitCopies unit moves = 0) := by
  induction moves with
  | nil => exact ⟨0, rfl, fun _ => rfl, fun _ => rfl⟩
  | cons move moves ih =>
    obtain ⟨⟨c, hc, hzero⟩, hrest⟩ := List.forall_mem_cons.1 h
    obtain ⟨c', hc', hzero'⟩ := ih hrest
    rw [countRegisterCopies, hc, hc', fewestUnitCopies_cons]
    dsimp only [bind, Except.bind]
    rw [add_eq_zero, ← hzero]
    split
    · next htop =>
      refine ⟨⊤, rfl, fun h => absurd h (by decide), fun h => ?_⟩
      rw [htop] at h
      exact absurd h.1 (by decide)
    · refine ⟨c + c', rfl, ?_⟩
      rw [add_eq_zero, hzero']

/-- Each count is for its unit. -/
theorem requiredRegisterCopies_spec {operation : ProgramOperation} {R : FunctionUnit → ℕ∞ → Prop}
    (h : ∀ unit ∈ adder.units operation, ∃ c, adder.countRegisterCopies unit operation.moves = .ok c ∧ R unit c) :
    ∃ required, adder.requiredRegisterCopiesForEachFU operation = .ok required ∧
      List.Forall₂ (fun unit entry => entry.1 = unit ∧ R unit entry.2) (adder.units operation) required := by
  apply MapM.mapM_ok
  intro unit hunit
  obtain ⟨c, hc, hR⟩ := h unit hunit
  refine ⟨(unit, c), ?_, rfl, hR⟩
  rw [hc]
  rfl

end Adder

end Tce.RegisterCopyAdder
