import TreeTiling.Flow.Adjacency
import TreeTiling.Instr

/-!
The control-flow graph of an instruction list. Nodes are the indices of the instructions.

The successors of a node are the next node, if control can fall through to it, and the node of
every label the instruction may jump to. If a label is defined twice, the last definition counts.
A jump to a label that is not defined in the list has no node.
-/

namespace TreeTiling

/-- Instructions with the nodes that control can pass to and come from. -/
structure FlowGraph where
  instrs : Array Instr
  succ : Adjacency
  pred : Adjacency

namespace FlowGraph

/-- The last node that defines a label. -/
def labelNode? (instrs : Array Instr) (label : Label) : Option Nat :=
  (List.range instrs.size).reverse.find? fun node =>
    (instrs[node]?.bind Instr.labelName?) == some label

----------------------------------------------------------------------------------------------
-- Building
----------------------------------------------------------------------------------------------

/-- What is known after the first nodes: their successors, and how often each node is one. -/
structure Scan where
  lists : Adjacency
  counts : Array Nat

/-- Adds the node of a label to the list that begins at a position, unless the list has it. -/
def addTarget? (instrs : Array Instr) (start : Nat) (targets : Array Nat) (label : Label)
    : Option (Array Nat) :=
  match labelNode? instrs label with
  | none => some targets
  | some node => do
      let list ← Adjacency.slice? targets start targets.size
      return if list.contains node then targets else targets.push node

/-- Adds the successors of a node, fall-through first. -/
def scanNode? (instrs : Array Instr) (scan : Scan) (node : Nat) : Option Scan := do
  let instr ← instrs[node]?
  let start := scan.lists.targets.size
  let next :=
    if instr.fallsThrough && decide (node + 1 < instrs.size) then
      scan.lists.targets.push (node + 1)
    else scan.lists.targets
  let targets ← instr.jumps.foldlM (addTarget? instrs start) next
  let list ← Adjacency.slice? targets start targets.size
  let counts ← list.toList.foldlM Adjacency.increment? scan.counts
  return { lists := { offsets := scan.lists.offsets.push start, targets }, counts }

/-- The successors of all nodes, and how often each node is one. -/
def scan? (instrs : Array Instr) : Option Scan := do
  let scan ← (List.range instrs.size).foldlM (scanNode? instrs)
    { lists := {}, counts := Array.replicate instrs.size 0 }
  let offsets := scan.lists.offsets.push scan.lists.targets.size
  return { scan with lists := { scan.lists with offsets } }

/-- The successors and the predecessors of all nodes. -/
def layout? (instrs : Array Instr) : Option (Adjacency × Adjacency) := do
  let scan ← scan? instrs
  return (scan.lists, ← scan.lists.reverse? scan.counts)

def build (instrs : Array Instr) : FlowGraph :=
  let lists := (layout? instrs).getD ({}, {})
  { instrs, succ := lists.1, pred := lists.2 }

----------------------------------------------------------------------------------------------
-- Reading
----------------------------------------------------------------------------------------------

def size (graph : FlowGraph) : Nat :=
  graph.instrs.size

def nodes (graph : FlowGraph) : List Nat :=
  List.range graph.size

/-- The nodes that control can pass to; none for a node outside the graph. -/
def successors (graph : FlowGraph) (node : Nat) : List Nat :=
  (graph.succ.list? node).getD []

/-- The nodes that control can come from; none for a node outside the graph. -/
def predecessors (graph : FlowGraph) (node : Nat) : List Nat :=
  (graph.pred.list? node).getD []

/-- The registers a node writes; none for a node outside the graph. -/
def defs (graph : FlowGraph) (node : Nat) : List Temp :=
  (graph.instrs[node]?.map Instr.defs).getD []

/-- The registers a node reads; none for a node outside the graph. -/
def uses (graph : FlowGraph) (node : Nat) : List Temp :=
  (graph.instrs[node]?.map Instr.uses).getD []

def edgeCount (graph : FlowGraph) : Nat :=
  graph.succ.targets.size

/-- Every jump to a label that is not defined, with its instruction, in order. -/
def unresolved (graph : FlowGraph) : List (Label × Instr) :=
  graph.instrs.toList.flatMap fun instr =>
    (instr.jumps.filter fun label => (labelNode? graph.instrs label).isNone).map (·, instr)

end FlowGraph

end TreeTiling
