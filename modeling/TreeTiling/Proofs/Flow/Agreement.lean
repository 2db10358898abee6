import Mathlib.Algebra.GroupWithZero.Nat
import TreeTiling.Proofs.Flow.Equations

/-!
Runs depend only on what is live. Whatever the instructions mean, as long as each of them changes
only the registers it writes and looks only at the registers it reads, two runs from states that
agree on the live registers stay together.

One step keeps the agreement by the two equations of liveness: what is live before the next node is
live after this one, so either the node writes it, and the same value in both runs, or it was live
before the node.
-/

namespace TreeTiling.Liveness

universe u v

----------------------------------------------------------------------------------------------
-- Interpretations of a flow graph
----------------------------------------------------------------------------------------------

/-- The registers, and all else that an instruction may look at or change. -/
structure RunState (Value : Type u) (Rest : Type v) where
  registers : Temp → Value
  rest : Rest

/-- A meaning for the instructions at the nodes of a graph: what a node does to the state, and where
control goes from there, or that it leaves.
-/
structure Interpretation (graph : FlowGraph) (Value : Type u) (Rest : Type v) where
  step : Nat → RunState Value Rest → RunState Value Rest × Option Nat
  /-- A node changes only the registers it writes. -/
  unwritten
    : ∀ node < graph.size, ∀ state register,
        register ∉ graph.defs node
        → (step node state).1.registers register = state.registers register
  /-- What a node does depends only on the registers it reads and on the rest of the state. -/
  determined
    : ∀ node < graph.size, ∀ first second,
        first.rest = second.rest
        → (∀ register ∈ graph.uses node, first.registers register = second.registers register)
        → (step node first).1.rest = (step node second).1.rest
          ∧ (step node first).2 = (step node second).2
          ∧ ∀ register ∈ graph.defs node,
              (step node first).1.registers register = (step node second).1.registers register
  /-- Control goes to a successor. -/
  follows
    : ∀ node < graph.size, ∀ state next,
        (step node state).2 = some next → next ∈ graph.successors node

variable {graph : FlowGraph} {Value : Type u} {Rest : Type v}

/-- The node and the state after a number of steps; there is no node once control has left. -/
def Interpretation.run (meaning : Interpretation graph Value Rest)
    : Nat → Nat → RunState Value Rest → Option Nat × RunState Value Rest
  | 0, node, state => (some node, state)
  | steps + 1, node, state =>
      match meaning.step node state with
      | (after, none) => (none, after)
      | (after, some next) => meaning.run steps next after

/-- Two states are the same at a node as far as the live registers and the rest tell. -/
structure AgreeAt (graph : FlowGraph) (node : Nat) (first second : RunState Value Rest) : Prop where
  rest : first.rest = second.rest
  live
    : ∀ register ∈ (compute graph).liveIn node,
        first.registers register = second.registers register

----------------------------------------------------------------------------------------------
-- Agreeing runs
----------------------------------------------------------------------------------------------

/-- States that agree at a node go to the same node with the same rest, and agree there. -/
theorem AgreeAt.step {node : Nat} {first second : RunState Value Rest}
    (agree : AgreeAt graph node first second) (closed : graph.Closed)
    (meaning : Interpretation graph Value Rest) (inside : node < graph.size)
    : (meaning.step node first).2 = (meaning.step node second).2
      ∧ (meaning.step node first).1.rest = (meaning.step node second).1.rest
      ∧ ∀ next ∈ graph.successors node,
          AgreeAt graph next (meaning.step node first).1 (meaning.step node second).1 := by
  have read : ∀ register ∈ graph.uses node,
      first.registers register = second.registers register := by
    intro register isRead
    exact agree.live register ((mem_liveIn_iff closed).mpr (.inl isRead))
  obtain ⟨rest, goes, written⟩ := meaning.determined node inside first second agree.rest read
  refine ⟨goes, rest, ?_⟩
  intro next isNext
  refine ⟨rest, ?_⟩
  intro register live
  by_cases isWritten : register ∈ graph.defs node
  · exact written register isWritten
  · have after : register ∈ (compute graph).liveOut node :=
      (mem_liveOut_iff closed).mpr ⟨next, isNext, live⟩
    have before := agree.live register ((mem_liveIn_iff closed).mpr (.inr ⟨after, isWritten⟩))
    rw [meaning.unwritten node inside first register isWritten,
      meaning.unwritten node inside second register isWritten]
    exact before

/-- Two runs from a node cannot be told apart: after any number of steps they are at the same node
with the same rest, and agree there on what is live.
-/
def Interpretation.Together (meaning : Interpretation graph Value Rest) (node : Nat)
    (first second : RunState Value Rest) : Prop :=
  ∀ steps,
    (meaning.run steps node first).1 = (meaning.run steps node second).1
    ∧ (meaning.run steps node first).2.rest = (meaning.run steps node second).2.rest
    ∧ ∀ visited,
        (meaning.run steps node first).1 = some visited
        → AgreeAt graph visited (meaning.run steps node first).2 (meaning.run steps node second).2

/-- Runs from states that agree at a node stay together, by induction on the steps. -/
theorem AgreeAt.together {node : Nat} {first second : RunState Value Rest}
    (agree : AgreeAt graph node first second) (closed : graph.Closed)
    (meaning : Interpretation graph Value Rest) (inside : node < graph.size)
    : meaning.Together node first second := by
  intro steps
  induction steps generalizing node first second with
  | zero =>
      refine ⟨rfl, agree.rest, ?_⟩
      intro visited here
      obtain rfl := Option.some.inj here
      exact agree
  | succ steps ih =>
      obtain ⟨goes, rest, further⟩ := agree.step closed meaning inside
      have isNext := meaning.follows node inside first
      rw [Interpretation.run, Interpretation.run]
      generalize meaning.step node first = firstStep at *
      generalize meaning.step node second = secondStep at *
      obtain ⟨firstAfter, place⟩ := firstStep
      obtain ⟨secondAfter, otherPlace⟩ := secondStep
      obtain rfl : place = otherPlace := goes
      cases place with
      | none => exact ⟨rfl, rest, by simp⟩
      | some next =>
          have nextInside := closed.target_lt (isNext next rfl)
          exact ih (further next (isNext next rfl)) nextInside

/-- The state with another value in a register. -/
def RunState.overwrite (state : RunState Value Rest) (register : Temp) (value : Value)
    : RunState Value Rest :=
  { state with registers := fun other => if other = register then value else state.registers other }

/-- Overwriting a register that is not live before a node goes unnoticed there. -/
theorem agreeAt_overwrite {node : Nat} (state : RunState Value Rest) {register : Temp}
    (value : Value) (dead : register ∉ (compute graph).liveIn node)
    : AgreeAt graph node (state.overwrite register value) state where
  rest := rfl
  live := by
    intro other live
    have different : other ≠ register := fun same => dead (same ▸ live)
    exact if_neg different

/-- Whatever the instructions of a list mean, runs from states that agree on what is live before a
node cannot be told apart. In particular a register that is not live there can be overwritten.
-/
theorem runs_agree_on_live (instrs : Array Instr)
    (meaning : Interpretation (FlowGraph.build instrs) Value Rest) {node : Nat}
    (inside : node < (FlowGraph.build instrs).size)
    : (∀ first second,
        AgreeAt (FlowGraph.build instrs) node first second → meaning.Together node first second)
      ∧ ∀ state register value,
          register ∉ (compute (FlowGraph.build instrs)).liveIn node
          → meaning.Together node (state.overwrite register value) state := by
  have closed := FlowGraph.build_closed instrs
  constructor
  · intro first second agree
    exact agree.together closed meaning inside
  · intro state register value dead
    exact (agreeAt_overwrite state value dead).together closed meaning inside

/-- A meaning for any graph: a node adds up what it reads, writes the sum, and chooses a successor
by it. The rest counts the steps.
-/
def tally (graph : FlowGraph) : Interpretation graph Nat Nat where
  step node state :=
    let sum := ((graph.uses node).map state.registers).sum + state.rest
    let next := graph.successors node
    ({ registers := fun register =>
        if register ∈ graph.defs node then sum else state.registers register
       rest := state.rest + 1 },
      next[sum % next.length]?)
  unwritten := by
    intro node _ state register unwritten
    exact if_neg unwritten
  determined := by
    intro node _ first second rest read
    have sums : (graph.uses node).map first.registers = (graph.uses node).map second.registers :=
      List.map_congr_left read
    simp only [sums, rest, true_and]
    intro register written
    simp [written]
  follows := by
    intro node _ state next goes
    exact List.mem_of_getElem? goes

/-- A loop that copies its counter to test it. -/
def countDown : Array Instr :=
  #[.label "L:" ⟨"L"⟩,
    .straight "decq `d0" [.virtual 0] [.virtual 0],
    .straight "movq `s0, `d0" [.virtual 1] [.virtual 0],
    .branch "jne `j0" [.virtual 1] [⟨"L"⟩],
    .leave "ret" [.virtual 0]]

/-- The copy can be overwritten before the loop. -/
theorem countDown_copy_overwritten
    : Temp.virtual 0 ∈ (compute (FlowGraph.build countDown)).liveIn 0
      ∧ Temp.virtual 1 ∉ (compute (FlowGraph.build countDown)).liveIn 0
      ∧ Temp.virtual 1 ∈ (compute (FlowGraph.build countDown)).liveIn 3
      ∧ (tally (FlowGraph.build countDown)).Together 0
          (RunState.overwrite ⟨fun _ => 3, 0⟩ (.virtual 1) 7) ⟨fun _ => 3, 0⟩ := by
  refine ⟨by decide +kernel, by decide +kernel, by decide +kernel, ?_⟩
  exact (runs_agree_on_live countDown (tally _) (by decide)).2 _ _ _ (by decide +kernel)

end TreeTiling.Liveness
