import TreeTiling.Flow.Graph
import TreeTiling.Flow.Network
import TreeTiling.Session

/-!
Liveness: which registers are read later, before and after each instruction.

Each node has two sets. What is live after a node is live before it unless the node writes it, and
what is live before a node is live after each of its predecessors. Seeding every node with the
registers it reads lets the network settle on the least sets with these properties.
-/

namespace TreeTiling

/-- A flow graph with the settled network of its live sets. -/
structure Liveness where
  graph : FlowGraph
  network : Network Temp

namespace Liveness

/-- The set of what is live before a node. -/
def inSet (node : Nat) : Nat :=
  2 * node

/-- The set of what is live after a node. -/
def outSet (node : Nat) : Nat :=
  2 * node + 1

/-- Adds the edges of one node: to itself from after to before, and from each successor. -/
def wireNode (graph : FlowGraph) (network : Network Temp) (node : Nat) : Network Temp :=
  (graph.successors node).foldl
    (fun network next => network.addEdge (inSet next) (outSet node) [])
    (network.addEdge (outSet node) (inSet node) (graph.defs node))

/-- The network of a graph before any register is live. -/
def wire (graph : FlowGraph) : Network Temp :=
  graph.nodes.foldl (wireNode graph) (Network.ofSize (2 * graph.size))

/-- Makes the registers that a node reads live before it. -/
def seedNode (graph : FlowGraph) (network : Network Temp) (node : Nat) : Network Temp :=
  (graph.uses node).foldl (fun network register => network.seed (inSet node) register) network

def compute (graph : FlowGraph) : Liveness where
  graph
  network := graph.nodes.foldl (seedNode graph) (wire graph)

/-- The registers that are live before a node. -/
def liveIn (liveness : Liveness) (node : Nat) : List Temp :=
  liveness.network.get (inSet node)

/-- The registers that are live after a node. -/
def liveOut (liveness : Liveness) (node : Nat) : List Temp :=
  liveness.network.get (outSet node)

/-- How often a register was passed on along an edge. -/
def propagations (liveness : Liveness) : Nat :=
  liveness.network.fired

end Liveness

namespace Session

/-- Builds the flow graph and solves liveness; the session logs both and counts propagations. -/
def analyse (session : Session) (instrs : Array Instr) : Liveness × Session :=
  let graph := FlowGraph.build instrs
  let liveness := Liveness.compute graph
  let network := liveness.network
  let session := graph.unresolved.foldl (fun session (label, instr) =>
    session.log (.unresolved label instr)) session
  let session := session.log (.flowGraph graph.size graph.edgeCount)
  let session := session.log
    (.liveness graph.size network.setCount network.edgeCount network.inserted network.fired)
  (liveness, session.count (·.recordPropagations liveness.propagations))

end Session

end TreeTiling
