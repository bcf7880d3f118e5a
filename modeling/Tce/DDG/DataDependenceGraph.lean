/-!
# Data dependence graphs

The moves of a program with the dependences between them. An edge over the
boundary of a loop has the number of iterations it goes over.
-/

namespace Tce.DDG

inductive DependenceType where
  | DEP_UNKNOWN
  | DEP_RAW
  | DEP_WAR
  | DEP_WAW
  | DEP_TRIGGER
  deriving DecidableEq, Repr

inductive EdgeReason where
  | EDGE_REGISTER
  | EDGE_MEMORY
  | EDGE_FUSTATE
  | EDGE_OPERATION
  | EDGE_RA
  deriving DecidableEq, Repr

/-- The data is a register, an operation or an alias; it may be empty. -/
structure DataDependenceEdge where
  edgeReason : EdgeReason
  dependenceType : DependenceType
  data : String
  guardUse : Bool
  certainAlias : Bool
  tailPseudo : Bool
  headPseudo : Bool
  loopDepth : Nat
  deriving DecidableEq, Repr

def DataDependenceEdge.isBackEdge (e : DataDependenceEdge) : Bool := decide (e.loopDepth ≠ 0)

/-- An edge of the graph with its nodes. -/
structure Edge (N : Type) extends DataDependenceEdge where
  tail : N
  head : N
  deriving DecidableEq, Repr

/-- What the latency of the guard of a move depends on. -/
inductive MoveGuard where
  | unconditional
  | register (guardLatency globalGuardLatency : Nat)
  | port
  deriving DecidableEq, Repr

inductive Fault where
  | InvalidData (message : String)
  | IllegalMachine (message : String)
  | assertion (message : String)
  | stackOverflow
  deriving DecidableEq, Repr

/-- A node of a move, or the entry node. -/
structure MoveNode (O : Type) where
  isMove : Bool
  guard : MoveGuard
  sourceOperation : Option O
  destinationOperation : Option O
  /-- The cycle of a scheduled move. -/
  cycle : Option Int

namespace MoveNode
variable {O : Type} [DecidableEq O]

def isSourceOperation (n : MoveNode O) : Bool := n.isMove && n.sourceOperation.isSome

def isDestinationOperation (n : MoveNode O) : Bool := n.isMove && n.destinationOperation.isSome

def isRegisterMove (n : MoveNode O) : Bool := !n.isSourceOperation && !n.isDestinationOperation

/-- The operations of a move: a bypassed one has two. -/
def operations (n : MoveNode O) : List O :=
  (if n.isSourceOperation then n.sourceOperation.toList else []) ++
    (if n.isDestinationOperation then n.destinationOperation.toList else [])

def inSameOperation (n other : MoveNode O) : Bool :=
  if other.isRegisterMove || n.isRegisterMove then false else n.operations.any (other.operations.contains ·)

def guardLatency (n : MoveNode O) : Except Fault Nat :=
  if n.isMove then
    match n.guard with
    | .unconditional => .ok 0
    | .register guardLatency globalGuardLatency => .ok (guardLatency + globalGuardLatency)
    | .port => .error (.IllegalMachine "Scheduling FU output port guards is not yet supported.")
  else .ok 0

end MoveNode

structure Machine where
  delaySlots : Nat
  triggerInvalidatesResults : Bool
  /-- The smallest latency of each operation, by its name. -/
  operationLatencies : String → Option Nat

/-- A graph with the moves of program operations. -/
structure DataDependenceGraph (N O : Type) where
  node : N → MoveNode O
  edges : List (Edge N)
  inputMoves : O → List N
  outputMoves : O → List N
  machine : Option Machine

namespace DataDependenceGraph
variable {N O : Type} [DecidableEq N]

def inEdges (g : DataDependenceGraph N O) (v : N) : List (Edge N) := g.edges.filter fun e => e.head = v

def outEdges (g : DataDependenceGraph N O) (v : N) : List (Edge N) := g.edges.filter fun e => e.tail = v

end DataDependenceGraph

def Machine.getOperationLatency (m : Machine) (name : String) : Nat := (m.operationLatencies name).getD 1

end Tce.DDG
