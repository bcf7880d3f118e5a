import Tce.Base.LastWrite
import Tce.DDG.DataDependenceGraph

/-!
# Runs of the moves of a graph

A run executes moves of a graph one after the other, over registers that have
any values at first. It may begin anywhere: what comes before is not in the graph.
-/

namespace Tce.DDG

open LastWrite

/-- What a move reads. -/
inductive MoveSource where
  | immediate (value : BitVec 32)
  | GPR (registerName : String)
  | other
  deriving DecidableEq, Repr

namespace MoveSource

def isGPR : MoveSource → Bool
  | .GPR _ => true
  | _ => false

def isImmediate : MoveSource → Bool
  | .immediate _ => true
  | _ => false

end MoveSource

/-- The guard of a move reads a register, or a port of a function unit. -/
structure MoveCondition where
  registerName : Option String
  isInverted : Bool
  deriving DecidableEq, Repr

structure Move where
  source : MoveSource
  /-- The register that is written, if it is one. -/
  destination : Option String
  /-- An unconditional move has none. -/
  guard : Option MoveCondition
  isCall : Bool
  deriving DecidableEq, Repr

/-- A node without a move is the entry node. -/
structure MoveGraph (N : Type) where
  move : N → Option Move
  edges : List (Edge N)

/-- One execution of a move. -/
structure Event (N : Type) where
  node : N
  /-- The value of the guard. -/
  executed : Bool
  /-- The value moved. -/
  value : BitVec 32
  /-- The registers that the procedure writes that is called. -/
  results : List (String × BitVec 32)
  deriving DecidableEq, Repr

namespace MoveGraph
variable {N : Type} (g : MoveGraph N)

/-- The value that an event writes to a register, if it does. -/
def writes (e : Event N) (registerName : String) : Option (BitVec 32) :=
  match e.executed, g.move e.node with
  | true, some m =>
    if m.isCall then e.results.lookup registerName
    else if m.destination = some registerName then some e.value else none
  | _, _ => none

/-- An event moves what its source has, when its guard allows that. -/
structure Executes (state : String → BitVec 32) (e : Event N) (m : Move) : Prop where
  move : g.move e.node = some m
  unconditional : m.guard = none → e.executed = true
  guard : ∀ c r, m.guard = some c → c.registerName = some r → e.executed = (state r != 0 ^^ c.isInverted)
  immediate : ∀ v, m.source = .immediate v → e.value = v
  GPR : ∀ r, m.source = .GPR r → e.value = state r

def IsRun : (state : String → BitVec 32) → List (Event N) → Prop
  | _, [] => True
  | state, e :: run => (∃ m, g.Executes state e m) ∧ IsRun (stateAfter g.writes state [e]) run

theorem IsRun.executes {g : MoveGraph N} {before after : List (Event N)} {e : Event N} {initial : String → BitVec 32}
    (h : g.IsRun initial (before ++ e :: after)) : ∃ m, g.Executes (stateAfter g.writes initial before) e m := by
  induction before generalizing initial with
  | nil => exact h.1
  | cons d before ih => exact ih h.2

theorem writes_eq_some {g : MoveGraph N} {e : Event N} {r : String} {m : Move} (hm : g.move e.node = some m)
    (hcall : m.isCall = false) (h : (g.writes e r).isSome) :
    e.executed = true ∧ m.destination = some r ∧ g.writes e r = some e.value := by
  cases he : e.executed with
  | false => simp [writes, he] at h
  | true =>
    by_cases hd : m.destination = some r
    · simp [writes, he, hm, hcall, hd]
    · simp [writes, he, hm, hcall, hd] at h

variable [DecidableEq N]

def inEdges (v : N) : List (Edge N) := g.edges.filter fun e => e.head = v

def isCall (n : N) : Bool := (g.move n).any (·.isCall)

/-- The dependence of a read on the write of the register it reads. -/
structure IsReadEdge (writer reader : N) (guardUse : Bool) (e : Edge N) : Prop where
  mem : e ∈ g.inEdges reader
  tail : e.tail = writer
  reason : e.edgeReason = .EDGE_REGISTER
  dependenceType : e.dependenceType = .DEP_RAW
  guardUse : e.guardUse = guardUse
  headPseudo : e.headPseudo = false
  tailPseudo : e.tailPseudo = g.isCall writer

/-- The graph has an edge to each move of the run that reads a register, from the
one in the run that wrote it last. -/
structure ShowsDependences (run : List (Event N)) : Prop where
  source : ∀ before e after m r, run = before ++ e :: after → g.move e.node = some m → e.executed = true →
    m.source = .GPR r → ∀ earlier d, IsLast g.writes before r earlier d →
      ∃ edge, g.IsReadEdge d.node e.node false edge
  guard : ∀ before e after m c r, run = before ++ e :: after → g.move e.node = some m → m.guard = some c →
    c.registerName = some r → ∀ earlier d, IsLast g.writes before r earlier d →
      ∃ edge, g.IsReadEdge d.node e.node true edge

end MoveGraph

end Tce.DDG
