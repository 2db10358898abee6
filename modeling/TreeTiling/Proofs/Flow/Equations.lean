import Mathlib.Data.Set.Lattice
import TreeTiling.Flow.Liveness
import TreeTiling.Proofs.Flow.Closure
import TreeTiling.Proofs.Flow.Edges

/-!
The live sets are the least solution of the two equations of liveness: what is live after a node is
what is live before a successor, and what is live before a node is what it reads and what is live
after it that it does not write.

Each edge of the network is one inclusion of an equation, and the seeds are the registers that
nodes read, so the equations are what a settled network holds set by set.
-/

namespace TreeTiling

----------------------------------------------------------------------------------------------
-- Control stays inside the graph
----------------------------------------------------------------------------------------------

namespace FlowGraph

/-- Edges lead from nodes to nodes. -/
structure Closed (graph : FlowGraph) : Prop where
  source_lt : ∀ {node next : Nat}, next ∈ graph.successors node → node < graph.size
  target_lt : ∀ {node next : Nat}, next ∈ graph.successors node → next < graph.size

/-- A successor is the next node, or one that defines a label. -/
theorem successor_cases {instrs : Array Instr} {node next : Nat}
    (member : next ∈ (build instrs).successors node)
    : (next = node + 1 ∧ next < instrs.size) ∨ ∃ label, labelNode? instrs label = some next := by
  rw [successors_build (lt_of_mem_successors member), mem_successorsOf] at member
  rcases member with ⟨-, follows⟩ | ⟨label, -, defines⟩
  · exact .inl follows
  · exact .inr ⟨label, labelNode?_eq_some_iff.mpr defines⟩

theorem build_closed (instrs : Array Instr) : (build instrs).Closed := by
  refine ⟨lt_of_mem_successors, ?_⟩
  intro node next member
  rw [successors_eq] at member
  exact lt_of_mem_successorList member

/-- Where control can go on, the next node is a successor. -/
theorem next_mem_successors {instrs : Array Instr} {node : Nat} {instr : Instr}
    (found : instrs[node]? = some instr) (falls : instr.fallsThrough = true)
    (inside : node + 1 < instrs.size)
    : node + 1 ∈ (build instrs).successors node := by
  obtain ⟨nodeInside, rfl⟩ := Array.getElem?_eq_some_iff.mp found
  rw [successors_build nodeInside]
  exact mem_successorsOf.mpr (.inl ⟨falls, rfl, inside⟩)

/-- A node that reads a register is a node of the graph. -/
theorem lt_of_mem_uses {graph : FlowGraph} {node : Nat} {register : Temp}
    (member : register ∈ graph.uses node)
    : node < graph.size := by
  by_contra outside
  have missing : graph.instrs[node]? = none := Array.getElem?_eq_none (Nat.le_of_not_lt outside)
  simp [uses, missing] at member

end FlowGraph

namespace Liveness

----------------------------------------------------------------------------------------------
-- The network of a graph
----------------------------------------------------------------------------------------------

/-- The edges of one node, each with its source. -/
def nodeEdges (graph : FlowGraph) (node : Nat) : List (Nat × Edge Temp) :=
  (outSet node, ⟨inSet node, graph.defs node⟩)
    :: (graph.successors node).map fun next => (inSet next, ⟨outSet node, []⟩)

/-- The registers that one node reads, each with the set it seeds. -/
def nodeSeeds (graph : FlowGraph) (node : Nat) : List (Nat × Temp) :=
  (graph.uses node).map fun register => (inSet node, register)

theorem wire_eq (graph : FlowGraph)
    : wire graph
      = (graph.nodes.flatMap (nodeEdges graph)).foldl (fun network entry =>
          network.addEdge entry.1 entry.2.target entry.2.excluded)
          (Network.ofSize (2 * graph.size)) := by
  rw [wire, List.foldl_flatMap]
  congr 1
  funext network node
  simp [wireNode, nodeEdges, List.foldl_map]

theorem network_compute (graph : FlowGraph)
    : (compute graph).network
      = (graph.nodes.flatMap (nodeSeeds graph)).foldl (fun network entry =>
          network.seed entry.1 entry.2) (wire graph) := by
  show graph.nodes.foldl (seedNode graph) (wire graph) = _
  rw [List.foldl_flatMap]
  congr 1
  funext network node
  simp [seedNode, nodeSeeds, List.foldl_map]

/-- A table of empty lists has nothing at any place, inside or out. -/
theorem getD_empty {β : Type} (size place : Nat)
    : (Array.replicate size ([] : List β)).getD place [] = [] := by
  rw [Array.getD_eq_getD_getElem?, Array.getElem?_replicate]
  split
  · rfl
  · rfl

variable {graph : FlowGraph}

/-- Every edge of a node starts and ends at a set of the network. -/
theorem nodeEdges_inside (closed : graph.Closed) {node : Nat} (inside : node < graph.size)
    {entry : Nat × Edge Temp} (member : entry ∈ nodeEdges graph node)
    : entry.1 < 2 * graph.size ∧ entry.2.target < 2 * graph.size := by
  rcases List.mem_cons.mp member with rfl | later
  · simp only [inSet, outSet]
    omega
  · obtain ⟨next, isNext, rfl⟩ := List.mem_map.mp later
    have nextInside := closed.target_lt isNext
    simp only [inSet, outSet]
    omega

theorem nodesEdges_inside (closed : graph.Closed)
    : ∀ entry ∈ graph.nodes.flatMap (nodeEdges graph),
        entry.1 < (Network.ofSize (2 * graph.size) : Network Temp).edges.size := by
  intro entry member
  obtain ⟨node, isNode, member⟩ := List.mem_flatMap.mp member
  have bounds := nodeEdges_inside closed (List.mem_range.mp isNode) member
  simpa [Network.ofSize] using bounds.1

/-- The wired network has the edges of all nodes, and its sets are empty. -/
theorem wire_edges (closed : graph.Closed)
    : (wire graph).sets = Array.replicate (2 * graph.size) []
      ∧ ∀ {source : Nat} {edge : Edge Temp},
          (wire graph).HasEdge source edge
          ↔ ∃ node < graph.size, (source, edge) ∈ nodeEdges graph node := by
  obtain ⟨sets, hasEdge_iff⟩ := Network.addEdges (nodesEdges_inside closed)
  rw [wire_eq]
  refine ⟨sets, ?_⟩
  intro source edge
  have none : ¬ (Network.ofSize (2 * graph.size) : Network Temp).HasEdge source edge := by
    rw [Network.HasEdge, Network.ofSize, getD_empty]
    exact List.not_mem_nil
  rw [hasEdge_iff]
  simp [none, FlowGraph.nodes]

/-- Nothing is live in the wired network. -/
theorem wire_settled (closed : graph.Closed) : (wire graph).Settled (fun _ _ => False) := by
  apply Network.settled_of_empty
  intro set value
  rw [Network.Holds, Network.get, (wire_edges closed).1, getD_empty]
  exact List.not_mem_nil

theorem wire_targetsExist (closed : graph.Closed) : (wire graph).TargetsExist := by
  obtain ⟨sets, hasEdge_iff⟩ := wire_edges closed
  intro source edge hasEdge
  obtain ⟨node, inside, member⟩ := hasEdge_iff.mp hasEdge
  rw [sets, Array.size_replicate]
  exact (nodeEdges_inside closed inside member).2

/-- The computed network has the same edges and is settled with the registers that nodes read. -/
theorem compute_settled (closed : graph.Closed)
    : Network.Grows (wire graph) (compute graph).network
      ∧ (compute graph).network.Settled
          (fun set register => (set, register) ∈ graph.nodes.flatMap (nodeSeeds graph)) := by
  have inside : ∀ entry ∈ graph.nodes.flatMap (nodeSeeds graph),
      entry.1 < (wire graph).sets.size := by
    intro entry member
    obtain ⟨node, isNode, member⟩ := List.mem_flatMap.mp member
    obtain ⟨register, -, rfl⟩ := List.mem_map.mp member
    have nodeInside : node < graph.size := List.mem_range.mp isNode
    rw [(wire_edges closed).1, Array.size_replicate, inSet]
    omega
  have seeded := (wire_settled closed).seedAll (wire_targetsExist closed) inside
  rw [network_compute]
  simpa using seeded

----------------------------------------------------------------------------------------------
-- The equations
----------------------------------------------------------------------------------------------

/-- The set before a node is seeded with what the node reads. -/
theorem mem_seeds_inSet {node : Nat} {register : Temp}
    : (inSet node, register) ∈ graph.nodes.flatMap (nodeSeeds graph)
      ↔ register ∈ graph.uses node := by
  constructor
  · intro given
    obtain ⟨other, -, member⟩ := List.mem_flatMap.mp given
    obtain ⟨read, isRead, same⟩ := List.mem_map.mp member
    simp only [Prod.mk.injEq, inSet] at same
    obtain ⟨sameSet, rfl⟩ := same
    obtain rfl : other = node := by omega
    exact isRead
  · intro isRead
    have isNode : node ∈ graph.nodes := List.mem_range.mpr (FlowGraph.lt_of_mem_uses isRead)
    exact List.mem_flatMap.mpr ⟨node, isNode, List.mem_map.mpr ⟨register, isRead, rfl⟩⟩

/-- The set after a node is not seeded. -/
theorem notMem_seeds_outSet {node : Nat} {register : Temp}
    : (outSet node, register) ∉ graph.nodes.flatMap (nodeSeeds graph) := by
  intro given
  obtain ⟨other, -, member⟩ := List.mem_flatMap.mp given
  obtain ⟨read, -, same⟩ := List.mem_map.mp member
  simp only [Prod.mk.injEq, inSet, outSet] at same
  omega

/-- The one edge to the set before a node comes from the set after it. -/
theorem hasEdge_inSet (closed : graph.Closed) {node source : Nat} {edge : Edge Temp}
    (target : edge.target = inSet node)
    : (compute graph).network.HasEdge source edge
      ↔ node < graph.size ∧ source = outSet node ∧ edge.excluded = graph.defs node := by
  rw [(compute_settled closed).1.hasEdge_iff, (wire_edges closed).2]
  constructor
  · rintro ⟨other, inside, member⟩
    rcases List.mem_cons.mp member with same | later
    · obtain ⟨rfl, rfl⟩ := Prod.mk.inj same
      simp only [inSet] at target
      obtain rfl : other = node := by omega
      exact ⟨inside, rfl, rfl⟩
    · obtain ⟨next, -, same⟩ := List.mem_map.mp later
      obtain ⟨rfl, rfl⟩ := Prod.mk.inj same
      simp only [inSet, outSet] at target
      omega
  · rintro ⟨inside, rfl, excluded⟩
    obtain rfl : edge = ⟨inSet node, graph.defs node⟩ := by rw [← target, ← excluded]
    exact ⟨node, inside, List.mem_cons_self⟩

/-- The edges to the set after a node come from the sets before its successors. -/
theorem hasEdge_outSet (closed : graph.Closed) {node source : Nat} {edge : Edge Temp}
    (target : edge.target = outSet node)
    : (compute graph).network.HasEdge source edge
      ↔ ∃ next ∈ graph.successors node, source = inSet next ∧ edge.excluded = [] := by
  rw [(compute_settled closed).1.hasEdge_iff, (wire_edges closed).2]
  constructor
  · rintro ⟨other, inside, member⟩
    rcases List.mem_cons.mp member with same | later
    · obtain ⟨rfl, rfl⟩ := Prod.mk.inj same
      simp only [inSet, outSet] at target
      omega
    · obtain ⟨next, isNext, same⟩ := List.mem_map.mp later
      obtain ⟨rfl, rfl⟩ := Prod.mk.inj same
      simp only [outSet] at target
      obtain rfl : other = node := by omega
      exact ⟨next, isNext, rfl, rfl⟩
  · rintro ⟨next, isNext, rfl, excluded⟩
    obtain rfl : edge = ⟨outSet node, []⟩ := by rw [← target, ← excluded]
    have member : (inSet next, ⟨outSet node, []⟩) ∈ nodeEdges graph node :=
      List.mem_cons_of_mem _ (List.mem_map.mpr ⟨next, isNext, rfl⟩)
    exact ⟨node, closed.source_lt isNext, member⟩

/-- A register is live only at nodes of the graph. -/
theorem lt_of_mem_liveOut (closed : graph.Closed) {node : Nat} {register : Temp}
    (live : register ∈ (compute graph).liveOut node)
    : node < graph.size := by
  have size : (compute graph).network.sets.size = 2 * graph.size := by
    rw [(compute_settled closed).1.size, (wire_edges closed).1, Array.size_replicate]
  by_contra outside
  have missing : (compute graph).network.sets[outSet node]? = none := by
    apply Array.getElem?_eq_none
    rw [size, outSet]
    omega
  simp [liveOut, Network.get, Array.getD_eq_getD_getElem?, missing] at live

/-- What is live before a node is what it reads, and what is live after it that it does not write.
-/
theorem mem_liveIn_iff (closed : graph.Closed) {node : Nat} {register : Temp}
    : register ∈ (compute graph).liveIn node
      ↔ register ∈ graph.uses node
        ∨ (register ∈ (compute graph).liveOut node ∧ register ∉ graph.defs node) := by
  refine (compute_settled closed).2.holds_iff_offered.trans (or_congr mem_seeds_inSet ?_)
  constructor
  · rintro ⟨source, edge, hasEdge, target, holds, passes⟩
    obtain ⟨-, rfl, excluded⟩ := (hasEdge_inSet closed target).mp hasEdge
    rw [excluded] at passes
    exact ⟨holds, passes⟩
  · rintro ⟨holds, passes⟩
    have inside := lt_of_mem_liveOut closed holds
    exact ⟨_, ⟨inSet node, graph.defs node⟩,
      (hasEdge_inSet closed rfl).mpr ⟨inside, rfl, rfl⟩, rfl, holds, passes⟩

theorem lt_of_mem_liveIn (closed : graph.Closed) {node : Nat} {register : Temp}
    (live : register ∈ (compute graph).liveIn node)
    : node < graph.size := by
  rcases (mem_liveIn_iff closed).mp live with isRead | ⟨isLive, -⟩
  · exact FlowGraph.lt_of_mem_uses isRead
  · exact lt_of_mem_liveOut closed isLive

/-- What is live after a node is what is live before one of its successors. -/
theorem mem_liveOut_iff (closed : graph.Closed) {node : Nat} {register : Temp}
    : register ∈ (compute graph).liveOut node
      ↔ ∃ next ∈ graph.successors node, register ∈ (compute graph).liveIn next := by
  refine (compute_settled closed).2.holds_iff_offered.trans ?_
  rw [or_iff_right notMem_seeds_outSet]
  constructor
  · rintro ⟨source, edge, hasEdge, target, holds, -⟩
    obtain ⟨next, isNext, rfl, -⟩ := (hasEdge_outSet closed target).mp hasEdge
    exact ⟨next, isNext, holds⟩
  · rintro ⟨next, isNext, holds⟩
    exact ⟨_, ⟨outSet node, []⟩,
      (hasEdge_outSet closed rfl).mpr ⟨next, isNext, rfl, rfl⟩, rfl, holds, List.not_mem_nil⟩

/-- A register that is live before a node is live all along the code in front of it where control
goes on and the register is not written. By induction on the distance to the node.
-/
theorem live_along {instrs : Array Instr} {register : Temp} {start stop : Nat}
    (inside : stop < instrs.size)
    (falls
      : ∀ {node : Nat} {instr : Instr},
          start ≤ node → node < stop → instrs[node]? = some instr → instr.fallsThrough = true)
    (kept
      : ∀ {node : Nat}, start < node → node < stop → register ∉ (FlowGraph.build instrs).defs node)
    (live : register ∈ (compute (FlowGraph.build instrs)).liveIn stop)
    {node : Nat} (le : start ≤ node) (lt : node < stop)
    : register ∈ (compute (FlowGraph.build instrs)).liveOut node := by
  have closed := FlowGraph.build_closed instrs
  have passedBack : ∀ {node : Nat}, start ≤ node → node < stop
      → register ∈ (compute (FlowGraph.build instrs)).liveIn (node + 1)
      → register ∈ (compute (FlowGraph.build instrs)).liveOut node := by
    intro node le lt next
    have found := Array.getElem?_eq_getElem (show node < instrs.size by omega)
    have isNext := FlowGraph.next_mem_successors found (falls le lt found) (by omega)
    exact (mem_liveOut_iff closed).mpr ⟨node + 1, isNext, next⟩
  obtain ⟨distance, split⟩ : ∃ distance, node + 1 + distance = stop :=
    ⟨stop - (node + 1), by omega⟩
  induction distance generalizing node with
  | zero =>
      obtain rfl : node + 1 = stop := split
      exact passedBack le lt live
  | succ distance ih =>
      have after := ih (show start ≤ node + 1 by omega) (by omega) (by omega)
      have unwritten := kept (show start < node + 1 by omega) (by omega)
      exact passedBack le lt ((mem_liveIn_iff closed).mpr (.inr ⟨after, unwritten⟩))

----------------------------------------------------------------------------------------------
-- The least solution
----------------------------------------------------------------------------------------------

/-- A family of sets before nodes and a family of sets after nodes solve the equations. -/
structure Solves (graph : FlowGraph) (before after : Nat → Set Temp) : Prop where
  after_eq : ∀ node < graph.size, after node = ⋃ next ∈ graph.successors node, before next
  before_eq
    : ∀ node < graph.size,
        before node
        = {register | register ∈ graph.uses node}
          ∪ (after node \ {register | register ∈ graph.defs node})

/-- The registers that are live before a node, as a set. -/
def liveBefore (graph : FlowGraph) (node : Nat) : Set Temp :=
  {register | register ∈ (compute graph).liveIn node}

/-- The registers that are live after a node, as a set. -/
def liveAfter (graph : FlowGraph) (node : Nat) : Set Temp :=
  {register | register ∈ (compute graph).liveOut node}

theorem solves_live (closed : graph.Closed) : Solves graph (liveBefore graph) (liveAfter graph) where
  after_eq := by
    intro node _
    ext register
    simp only [Set.mem_iUnion, exists_prop]
    exact mem_liveOut_iff closed
  before_eq := by
    intro node _
    ext register
    exact mem_liveIn_iff closed

/-- A family of sets before nodes and a family of sets after nodes have at least what the equations
ask for.
-/
structure Encloses (graph : FlowGraph) (before after : Nat → Set Temp) : Prop where
  uses : ∀ node < graph.size, ∀ register ∈ graph.uses node, register ∈ before node
  passes
    : ∀ node < graph.size, ∀ register ∈ after node,
        register ∉ graph.defs node → register ∈ before node
  follows : ∀ node < graph.size, ∀ next ∈ graph.successors node, before next ⊆ after node

theorem Solves.encloses {before after : Nat → Set Temp} (solves : Solves graph before after)
    : Encloses graph before after where
  uses := by
    intro node inside register member
    rw [solves.before_eq node inside]
    exact .inl member
  passes := by
    intro node inside register member unwritten
    rw [solves.before_eq node inside]
    exact .inr ⟨member, unwritten⟩
  follows := by
    intro node inside next isNext register member
    rw [solves.after_eq node inside]
    exact Set.mem_biUnion isNext member

/-- The sets of a network that stay within two families at the nodes of a graph. -/
def Bounded (graph : FlowGraph) (before after : Nat → Set Temp) (set : Nat) (register : Temp)
    : Prop :=
  ∀ node < graph.size,
    (set = inSet node → register ∈ before node) ∧ (set = outSet node → register ∈ after node)

/-- Families that enclose the equations are closed under the edges of the network, as each edge is
part of an equation.
-/
theorem Encloses.closes (closed : graph.Closed) {before after : Nat → Set Temp}
    (encloses : Encloses graph before after)
    : (compute graph).network.Closes (Bounded graph before after) := by
  intro source edge register hasEdge bounded passes node inside
  constructor
  · intro target
    obtain ⟨-, fromAfter, excluded⟩ := (hasEdge_inSet closed target).mp hasEdge
    rw [excluded] at passes
    exact encloses.passes node inside register ((bounded node inside).2 fromAfter) passes
  · intro target
    obtain ⟨next, isNext, fromNext, -⟩ := (hasEdge_outSet closed target).mp hasEdge
    exact encloses.follows node inside next isNext
      ((bounded next (closed.target_lt isNext)).1 fromNext)

/-- Families that enclose the equations have the seeds. -/
theorem Encloses.seeded {before after : Nat → Set Temp} (encloses : Encloses graph before after)
    {set : Nat} {register : Temp} (given : (set, register) ∈ graph.nodes.flatMap (nodeSeeds graph))
    : Bounded graph before after set register := by
  intro node inside
  constructor
  · intro isBefore
    rw [isBefore] at given
    exact encloses.uses node inside register (mem_seeds_inSet.mp given)
  · intro isAfter
    rw [isAfter] at given
    exact absurd given notMem_seeds_outSet

/-- Families that enclose the equations have what is live, as the network holds only what every
closed family with the seeds has.
-/
theorem Encloses.live_le (closed : graph.Closed) {before after : Nat → Set Temp}
    (encloses : Encloses graph before after) {node : Nat} (inside : node < graph.size)
    : liveBefore graph node ⊆ before node ∧ liveAfter graph node ⊆ after node := by
  have bounded : (compute graph).network.Within (Bounded graph before after) := by
    intro set register holds
    have derived := (compute_settled closed).2.holds_iff.mp holds
    exact derived.least (encloses.closes closed) encloses.seeded
  constructor
  · intro register live
    exact (bounded _ _ live node inside).1 rfl
  · intro register live
    exact (bounded _ _ live node inside).2 rfl

/-- What is live is in every solution. -/
theorem Solves.live_le (closed : graph.Closed) {before after : Nat → Set Temp}
    (solves : Solves graph before after) {node : Nat} (inside : node < graph.size)
    : liveBefore graph node ⊆ before node ∧ liveAfter graph node ⊆ after node :=
  solves.encloses.live_le closed inside

end Liveness

end TreeTiling
