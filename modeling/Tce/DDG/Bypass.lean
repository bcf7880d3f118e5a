import Tce.Base.Search
import Tce.DDG.DataDependenceGraph

/-!
# Bypassing in the dependence graph

`mergeAndKeep` lets a move read what another one reads instead of the register
that it writes; `unMerge` undoes that.
-/

namespace Tce.DDG

open EdgeReason DependenceType

/-- What a move reads or writes. -/
inductive Terminal where
  | GPR (registerName : String)
  | other (name : String)
  deriving DecidableEq, Repr

def Terminal.isGPR : Terminal → Bool
  | .GPR _ => true
  | .other _ => false

/-- A node with what bypassing changes. -/
structure BypassNode (O : Type) where
  isMove : Bool
  source : Terminal
  destination : Terminal
  /-- Whether the guard is inverted, if there is one. -/
  guard : Option Bool
  sourceOperation : Option O
  deriving DecidableEq, Repr

namespace BypassNode
variable {O : Type}

def isSourceOperation (n : BypassNode O) : Bool := n.isMove && n.sourceOperation.isSome

def isSourceVariable (n : BypassNode O) : Bool := n.isMove && n.source.isGPR

end BypassNode

/-- A graph, and the edges of its root graph: a subgraph has some of the nodes of
its root graph, and a root graph is its own. -/
structure BypassGraph (N O : Type) where
  node : N → BypassNode O
  outputMoves : O → List N
  isRoot : Bool
  hasNode : N → Bool
  allowLoopEdges : Bool
  edges : List (Edge N)
  rootAllowsLoopEdges : Bool
  rootEdges : List (Edge N)

namespace BypassGraph
variable {N O : Type} [DecidableEq N] [DecidableEq O]

/-! ## Nodes and edges -/

def forwardSuccessors (g : BypassGraph N O) (a : N) : List N :=
  (g.edges.filter fun e => e.tail = a ∧ ¬ e.isBackEdge).map (·.head)

/-- Paths do not go over back edges. -/
def hasPath (g : BypassGraph N O) (src dest : N) : Bool :=
  src = dest || Search.search g.forwardSuccessors dest (g.edges.length + 2) [src] []

def guardRawPredecessors (edges : List (Edge N)) (a : N) : List N :=
  (edges.filter fun e => e.head = a ∧ e.guardUse ∧ e.dependenceType = DEP_RAW).map (·.tail)

def exclusingGuards (g : BypassGraph N O) (edges : List (Edge N)) (a b : N) : Bool :=
  if !(g.node a).isMove || !(g.node b).isMove then false
  else
    match (g.node a).guard, (g.node b).guard with
    | some inverted, some inverted' =>
      if inverted = inverted' then false
      else
        let incomingGuards := guardRawPredecessors edges a
        let incomingGuards' := guardRawPredecessors edges b
        !incomingGuards.isEmpty && incomingGuards.all (incomingGuards'.contains ·) &&
          incomingGuards'.all (incomingGuards.contains ·)
    | _, _ => false

def connectRoot (g : BypassGraph N O) (e : Edge N) : List (Edge N) :=
  if g.rootAllowsLoopEdges || !e.isBackEdge then g.rootEdges ++ [e] else g.rootEdges

def connectThis (g : BypassGraph N O) (e : Edge N) : List (Edge N) :=
  if g.hasNode e.tail && g.hasNode e.head && (g.allowLoopEdges || !e.isBackEdge) then g.edges ++ [e] else g.edges

/-- An edge that is added to a graph is added to the root graph and its subgraphs too. -/
def connectNodes (g : BypassGraph N O) (e : Edge N) : BypassGraph N O :=
  { g with rootEdges := g.connectRoot e, edges := g.connectThis e }

def connectRootOnly (g : BypassGraph N O) (e : Edge N) : BypassGraph N O :=
  { g with rootEdges := g.connectRoot e }

/-- An edge that is removed from the graph is removed from the root graph. -/
def removeEdges (g : BypassGraph N O) (p : Edge N → Bool) : BypassGraph N O :=
  { g with rootEdges := g.rootEdges.diff (g.edges.filter p), edges := g.edges.filter (!p ·) }

/-- An edge that is removed from the root graph is removed from its subgraphs. -/
def removeRootEdges (g : BypassGraph N O) (p : Edge N → Bool) : BypassGraph N O :=
  { g with rootEdges := g.rootEdges.filter (!p ·), edges := g.edges.filter (!p ·) }

/-! ## Bypassing -/

/-- An antidependence of the source that leads to a move before the user. -/
def hasAntidependencePath (g : BypassGraph N O) (source user : N) : Bool :=
  (g.edges.filter (·.tail = source)).any fun e =>
    e.edgeReason = EDGE_REGISTER && e.dependenceType = DEP_WAR && !e.tailPseudo &&
      !g.exclusingGuards g.edges user e.head && (e.head ≠ user && g.hasPath e.head user)

def joins (source user : N) (e : Edge N) : Bool :=
  e.tail = source && e.head = user && e.dependenceType = DEP_RAW

/-- The antidependences due to the bypassed register are no more. -/
def isBypassedAntidependence (regName : String) (e : Edge N) : Bool :=
  e.edgeReason = EDGE_REGISTER && e.data = regName && (e.dependenceType = DEP_WAW || e.dependenceType = DEP_WAR)

/-- A loop edge is put only in the root graph. -/
def copyInEdge (user : N) (g : BypassGraph N O) (e : Edge N) : BypassGraph N O :=
  if !g.isRoot && e.isBackEdge then g.connectRootOnly { e with head := user } else g.connectNodes { e with head := user }

def copyInEdges (g : BypassGraph N O) (source user : N) (regName : String) : BypassGraph N O :=
  (g.rootEdges.filter fun e => e.head = source && !isBypassedAntidependence regName e).foldl (copyInEdge user) g

/-- The antidependences that come from what the source reads. -/
def readAntidependences (g : BypassGraph N O) (source user : N) : List (Edge N) :=
  g.edges.filter fun e =>
    e.tail = source && (e.edgeReason = EDGE_REGISTER && e.dependenceType = DEP_WAR && !e.tailPseudo &&
      !g.exclusingGuards g.edges user e.head && e.head ≠ user)

def copyAntidependences (g : BypassGraph N O) (source user : N) : BypassGraph N O :=
  if (g.node source).isSourceVariable then
    (g.readAntidependences source user).foldl (fun g e => g.connectNodes { e with tail := user }) g
  else g

def isRegisterWar (user : N) (regName : String) (e : Edge N) : Bool :=
  e.tail = user && e.edgeReason = EDGE_REGISTER && e.dependenceType = DEP_WAR && e.data = regName

/-- A register that is copied to itself. -/
def sourceIsRegToItselfCopy (g : BypassGraph N O) (source : N) : Bool :=
  !(g.node source).isSourceOperation && (g.node source).source = (g.node source).destination

def removeRegisterWars (g : BypassGraph N O) (source user : N) (regName : String) : BypassGraph N O :=
  if g.sourceIsRegToItselfCopy source then g else g.removeEdges (isRegisterWar user regName)

/-- The user gets the source, and the operation of it. -/
def setSource (g : BypassGraph N O) (source user : N) : BypassGraph N O :=
  match (g.node source).isSourceOperation, (g.node source).sourceOperation with
  | true, some srcOp =>
    { g with
      node := Function.update g.node user
        { g.node user with source := (g.node source).source, sourceOperation := some srcOp }
      outputMoves := Function.update g.outputMoves srcOp (g.outputMoves srcOp ++ [user]) }
  | _, _ => { g with node := Function.update g.node user { g.node user with source := (g.node source).source } }

/-- The user reads what the source reads. -/
def bypass (g : BypassGraph N O) (source user : N) (regName : String) : BypassGraph N O :=
  let g := (g.setSource source user).removeEdges (joins source user)
  let g := (g.copyInEdges source user regName).copyAntidependences source user
  g.removeRegisterWars source user regName

def mergeAndKeep (g : BypassGraph N O) (source user : N) : Except Fault (Bool × BypassGraph N O) :=
  if g.hasAntidependencePath source user then .ok (false, g)
  else if !(g.node source).isMove then .error (.assertion "sourceNode.isMove()")
  else if !g.edges.any (fun e => e.tail = source && e.head = user) then
    .error (.InvalidData "No edge between nodes being merged")
  else if !(g.node user).isMove then .error (.InvalidData "Cannot merge entry/exit node!")
  else
    let regName := ((g.edges.filter (joins source user)).getLast?.map (·.data)).getD ""
    if regName = "" then .error (.assertion "regName != \"\"")
    else .ok (true, g.bypass source user regName)

/-! ## Undoing -/

/-- Edges that bypassing is taken to have copied: originally there was just one. -/
def isCopied (e : Edge N) : Bool :=
  e.edgeReason = EDGE_OPERATION ||
    e.edgeReason = EDGE_REGISTER && e.dependenceType = DEP_RAW && !e.headPseudo && !e.guardUse

def isCopiedWar (regName : String) (e : Edge N) : Bool :=
  e.edgeReason = EDGE_REGISTER && e.dependenceType = DEP_WAR && e.data ≠ regName && !e.tailPseudo && !e.guardUse

def registerEdge (source merged : N) (regName : String) : Edge N where
  edgeReason := EDGE_REGISTER
  dependenceType := DEP_RAW
  data := regName
  guardUse := false
  certainAlias := false
  tailPseudo := false
  headPseudo := false
  loopDepth := 0
  tail := source
  head := merged

/-- The antidependence for a dependence of the source on a later write. -/
def warOf (merged : N) (regName : String) (nodeRegToItselfCopy : Bool) (e : Edge N) : Edge N where
  edgeReason := EDGE_REGISTER
  dependenceType := DEP_WAR
  data := regName
  guardUse := false
  certainAlias := false
  tailPseudo := false
  headPseudo := e.headPseudo
  loopDepth := e.loopDepth + nodeRegToItselfCopy.toNat
  tail := merged
  head := e.head

/-- The antidependences go to all same places where the source has output dependences. -/
def restoredWars (g : BypassGraph N O) (source merged : N) (regName : String) : List (Edge N) :=
  (g.rootEdges.filter fun e =>
    e.tail = source && e.edgeReason = EDGE_REGISTER && e.dependenceType = DEP_WAW && e.data = regName &&
      !g.exclusingGuards g.rootEdges e.head merged).map
    (warOf merged regName ((g.node merged).source = (g.node merged).destination))

/-- The user has no operation any more. -/
def unsetSourceOperation (g : BypassGraph N O) (merged : N) : BypassGraph N O :=
  match (g.node merged).isSourceOperation, (g.node merged).sourceOperation with
  | true, some srcOp =>
    { g with
      node := Function.update g.node merged { g.node merged with sourceOperation := none }
      outputMoves := Function.update g.outputMoves srcOp ((g.outputMoves srcOp).erase merged) }
  | _, _ => g

def resetSource (g : BypassGraph N O) (source merged : N) : BypassGraph N O :=
  { g with node := Function.update g.node merged { g.node merged with source := (g.node source).destination } }

def removeCopiedWars (g : BypassGraph N O) (source merged : N) (regName : String) : BypassGraph N O :=
  if (g.node source).isSourceVariable then g.removeRootEdges fun e => e.tail = merged && isCopiedWar regName e else g

/-- The user reads the register again. -/
def returnSource (g : BypassGraph N O) (source merged : N) (regName : String) : BypassGraph N O :=
  let g := (g.unsetSourceOperation merged).removeRootEdges fun e => e.head = merged && isCopied e
  let g := (g.resetSource source merged).connectNodes (registerEdge source merged regName)
  g.removeCopiedWars source merged regName

/-- The loop depth of an edge has to fit in its byte. -/
def unMerge (g : BypassGraph N O) (source merged : N) : Except Fault (BypassGraph N O) :=
  match (g.node source).destination with
  | .other _ => .error (.assertion "dest.isGPR()")
  | .GPR regName =>
    let g := g.returnSource source merged regName
    if (g.restoredWars source merged regName).any (255 ≤ ·.loopDepth) then .error (.assertion "loopEdge < UCHAR_MAX")
    else .ok ((g.restoredWars source merged regName).foldl connectNodes g)

end BypassGraph

end Tce.DDG
