import Mathlib.Algebra.Order.BigOperators.Group.Finset
import Mathlib.Data.Finset.Union
import TreeTiling.Proofs.Flow.Equations

/-!
Liveness solved by rounds: every node is computed anew from its successors, from the last node to
the first, until a round changes nothing.

The sets of a round stay below the live sets and below what the equations give for them. So a node
that changes gains a register, and as the live sets are finite the rounds come to an end. A round
without a change is a solution, and there is no solution below the live sets but these.
-/

namespace TreeTiling.RoundRobin

----------------------------------------------------------------------------------------------
-- Rounds
----------------------------------------------------------------------------------------------

/-- The sets of all nodes, and whether one changed in this round. -/
structure State where
  before : Nat → Finset Temp
  after : Nat → Finset Temp
  changed : Bool

def start : State where
  before _ := ∅
  after _ := ∅
  changed := false

/-- What is before a successor of a node. -/
def afterOf (graph : FlowGraph) (state : State) (node : Nat) : Finset Temp :=
  (graph.successors node).toFinset.biUnion state.before

/-- What a node reads, and what is after it that it does not write. -/
def throughOf (graph : FlowGraph) (node : Nat) (after : Finset Temp) : Finset Temp :=
  (graph.uses node).toFinset ∪ (after \ (graph.defs node).toFinset)

/-- The sets of a node are what the equations give for them. -/
def Balanced (graph : FlowGraph) (state : State) (node : Nat) : Prop :=
  afterOf graph state node = state.after node
  ∧ throughOf graph node (afterOf graph state node) = state.before node

instance (graph : FlowGraph) (state : State) (node : Nat) : Decidable (Balanced graph state node) :=
  inferInstanceAs (Decidable (_ ∧ _))

/-- Computes the sets of a node anew. -/
def visit (graph : FlowGraph) (state : State) (node : Nat) : State :=
  if Balanced graph state node then state
  else
    { before :=
        Function.update state.before node (throughOf graph node (afterOf graph state node))
      after := Function.update state.after node (afterOf graph state node)
      changed := true }

/-- Visits every node, the last first. -/
def round (graph : FlowGraph) (state : State) : State :=
  graph.nodes.reverse.foldl (visit graph) { state with changed := false }

/-- Makes rounds until one changes nothing; no result if they do not suffice. -/
def solve (graph : FlowGraph) : Nat → State → Option State
  | 0, _ => none
  | rounds + 1, state =>
      if (round graph state).changed then solve graph rounds (round graph state)
      else some (round graph state)

----------------------------------------------------------------------------------------------
-- A round rises towards the live sets
----------------------------------------------------------------------------------------------

/-- The sets are below the live sets, and below what the equations give for them. -/
structure Rising (graph : FlowGraph) (state : State) : Prop where
  before_live
    : ∀ node, ∀ register ∈ state.before node, register ∈ (Liveness.compute graph).liveIn node
  after_live
    : ∀ node, ∀ register ∈ state.after node, register ∈ (Liveness.compute graph).liveOut node
  after_le : ∀ node, state.after node ⊆ afterOf graph state node
  before_le : ∀ node, state.before node ⊆ throughOf graph node (state.after node)

variable {graph : FlowGraph} {state : State}

theorem rising_start : Rising graph start where
  before_live := by simp [start]
  after_live := by simp [start]
  after_le := by simp [start]
  before_le := by simp [start]

theorem afterOf_mono {earlier later : State} (le : ∀ node, earlier.before node ⊆ later.before node)
    (node : Nat)
    : afterOf graph earlier node ⊆ afterOf graph later node :=
  Finset.biUnion_mono fun next _ => le next

theorem throughOf_mono {node : Nat} {less more : Finset Temp} (le : less ⊆ more)
    : throughOf graph node less ⊆ throughOf graph node more :=
  Finset.union_subset_union_right (Finset.sdiff_subset_sdiff le (Finset.Subset.refl _))

theorem Rising.before_le_visited (rising : Rising graph state) (node : Nat)
    : state.before node ⊆ throughOf graph node (afterOf graph state node) :=
  (rising.before_le node).trans (throughOf_mono (rising.after_le node))

/-- Visiting a node takes nothing from any set. -/
theorem Rising.le_visit (rising : Rising graph state) (visited node : Nat)
    : state.before node ⊆ (visit graph state visited).before node
      ∧ state.after node ⊆ (visit graph state visited).after node := by
  rw [visit]
  split
  · exact ⟨Finset.Subset.refl _, Finset.Subset.refl _⟩
  · by_cases same : node = visited
    · subst node
      simp only [Function.update_self]
      exact ⟨rising.before_le_visited visited, rising.after_le visited⟩
    · simp only [Function.update_of_ne same]
      exact ⟨Finset.Subset.refl _, Finset.Subset.refl _⟩

/-- What the equations give for sets below the live sets is below the live sets. -/
theorem Rising.visited_live (rising : Rising graph state) (closed : graph.Closed) (node : Nat)
    : (∀ register ∈ afterOf graph state node, register ∈ (Liveness.compute graph).liveOut node)
      ∧ ∀ register ∈ throughOf graph node (afterOf graph state node),
          register ∈ (Liveness.compute graph).liveIn node := by
  have after : ∀ register ∈ afterOf graph state node,
      register ∈ (Liveness.compute graph).liveOut node := by
    intro register member
    obtain ⟨next, isNext, held⟩ := Finset.mem_biUnion.mp member
    rw [Liveness.mem_liveOut_iff closed]
    exact ⟨next, List.mem_toFinset.mp isNext, rising.before_live next register held⟩
  refine ⟨after, ?_⟩
  intro register member
  rw [Liveness.mem_liveIn_iff closed]
  rcases Finset.mem_union.mp member with read | passed
  · exact .inl (List.mem_toFinset.mp read)
  · obtain ⟨held, kept⟩ := Finset.mem_sdiff.mp passed
    exact .inr ⟨after register held, fun written => kept (List.mem_toFinset.mpr written)⟩

/-- Visiting a node keeps the sets between. -/
theorem Rising.after_visit (rising : Rising graph state) (closed : graph.Closed) (visited : Nat)
    : Rising graph (visit graph state visited) := by
  have further : ∀ node, afterOf graph state node ⊆ afterOf graph (visit graph state visited) node :=
    afterOf_mono fun node => (rising.le_visit visited node).1
  have live := rising.visited_live closed visited
  by_cases balanced : Balanced graph state visited
  · simpa [visit, balanced] using rising
  · simp only [visit, balanced, if_false] at further ⊢
    refine ⟨?_, ?_, ?_, ?_⟩
    · intro node
      by_cases same : node = visited
      · subst node
        simpa using live.2
      · simpa [same] using rising.before_live node
    · intro node
      by_cases same : node = visited
      · subst node
        simpa using live.1
      · simpa [same] using rising.after_live node
    · intro node
      by_cases same : node = visited
      · subst node
        simpa using further visited
      · simpa [same] using (rising.after_le node).trans (further node)
    · intro node
      by_cases same : node = visited
      · subst node
        simp
      · simpa [same] using rising.before_le node

----------------------------------------------------------------------------------------------
-- Every change adds a register
----------------------------------------------------------------------------------------------

/-- How many registers there are in all sets. -/
def total (graph : FlowGraph) (state : State) : Nat :=
  ∑ node ∈ Finset.range graph.size, ((state.before node).card + (state.after node).card)

/-- How many registers there are in all live sets. -/
def limit (graph : FlowGraph) : Nat :=
  ∑ node ∈ Finset.range graph.size,
    (((Liveness.compute graph).liveIn node).toFinset.card
      + ((Liveness.compute graph).liveOut node).toFinset.card)

theorem Rising.total_le (rising : Rising graph state) : total graph state ≤ limit graph := by
  apply Finset.sum_le_sum
  intro node _
  apply Nat.add_le_add
  · apply Finset.card_le_card
    intro register held
    exact List.mem_toFinset.mpr (rising.before_live node register held)
  · apply Finset.card_le_card
    intro register held
    exact List.mem_toFinset.mpr (rising.after_live node register held)

/-- A visit that changes a node says so, and adds a register. -/
theorem Rising.total_lt (rising : Rising graph state) {visited : Nat} (inside : visited < graph.size)
    (unbalanced : ¬ Balanced graph state visited)
    : (visit graph state visited).changed = true
      ∧ total graph state < total graph (visit graph state visited) := by
  refine ⟨by simp [visit, unbalanced], ?_⟩
  apply Finset.sum_lt_sum
  · intro node _
    obtain ⟨before, after⟩ := rising.le_visit visited node
    exact Nat.add_le_add (Finset.card_le_card before) (Finset.card_le_card after)
  · refine ⟨visited, Finset.mem_range.mpr inside, ?_⟩
    obtain ⟨before, after⟩ := rising.le_visit visited visited
    have beforeLe := Finset.card_le_card before
    have afterLe := Finset.card_le_card after
    by_contra stays
    -- neither set grew, so both are what the visit computed
    have sameBefore := Finset.eq_of_subset_of_card_le before (by omega)
    have sameAfter := Finset.eq_of_subset_of_card_le after (by omega)
    simp only [visit, unbalanced, if_false, Function.update_self]
      at sameBefore sameAfter
    exact unbalanced ⟨sameAfter.symm, sameBefore.symm⟩

/-- Visiting nodes either finds them all balanced and changes nothing, or says that there was a
change and has added a register. By induction on the nodes.
-/
theorem Rising.visits (rising : Rising graph state) (closed : graph.Closed) {nodes : List Nat}
    (inside : ∀ node ∈ nodes, node < graph.size)
    : Rising graph (nodes.foldl (visit graph) state)
      ∧ ((nodes.foldl (visit graph) state = state ∧ ∀ node ∈ nodes, Balanced graph state node)
        ∨ ((nodes.foldl (visit graph) state).changed = true
          ∧ total graph state < total graph (nodes.foldl (visit graph) state))) := by
  induction nodes generalizing state with
  | nil => exact ⟨rising, .inl ⟨rfl, by simp⟩⟩
  | cons first nodes ih =>
      have later : ∀ node ∈ nodes, node < graph.size :=
        fun node member => inside node (List.mem_cons_of_mem _ member)
      rw [List.foldl_cons]
      by_cases balanced : Balanced graph state first
      · have same : visit graph state first = state := by simp [visit, balanced]
        obtain ⟨risen, outcome⟩ := ih rising later
        rw [same]
        refine ⟨risen, ?_⟩
        rcases outcome with ⟨unchanged, rest⟩ | added
        · exact .inl ⟨unchanged, List.forall_mem_cons.mpr ⟨balanced, rest⟩⟩
        · exact .inr added
      · obtain ⟨changed, more⟩ := rising.total_lt (inside first List.mem_cons_self) balanced
        obtain ⟨risen, outcome⟩ := ih (rising.after_visit closed first) later
        refine ⟨risen, .inr ?_⟩
        rcases outcome with ⟨unchanged, -⟩ | ⟨changedLater, evenMore⟩
        · rw [unchanged]
          exact ⟨changed, more⟩
        · exact ⟨changedLater, more.trans evenMore⟩

----------------------------------------------------------------------------------------------
-- The rounds end at the live sets
----------------------------------------------------------------------------------------------

/-- A round without a change leaves every node balanced, and any other round adds a register. -/
theorem Rising.after_round (rising : Rising graph state) (closed : graph.Closed)
    : Rising graph (round graph state)
      ∧ ((round graph state).changed = false
          → ∀ node < graph.size, Balanced graph (round graph state) node)
      ∧ ((round graph state).changed = true
          → total graph state < total graph (round graph state)) := by
  have fresh : Rising graph { state with changed := false } :=
    ⟨rising.before_live, rising.after_live, rising.after_le, rising.before_le⟩
  have inside : ∀ node ∈ graph.nodes.reverse, node < graph.size := by
    intro node member
    exact List.mem_range.mp (List.mem_reverse.mp member)
  obtain ⟨risen, outcome⟩ := fresh.visits closed inside
  rw [← round] at risen outcome
  refine ⟨risen, ?_, ?_⟩
  · intro unchanged node nodeInside
    rcases outcome with ⟨same, balanced⟩ | ⟨changed, -⟩
    · rw [same]
      exact balanced node (List.mem_reverse.mpr (List.mem_range.mpr nodeInside))
    · rw [unchanged] at changed
      cases changed
  · intro changed
    rcases outcome with ⟨same, -⟩ | ⟨-, more⟩
    · rw [same] at changed
      cases changed
    · exact more

/-- When the rounds end, every node is balanced. By induction on the rounds. -/
theorem Rising.solved (rising : Rising graph state) (closed : graph.Closed) {rounds : Nat}
    {result : State} (ended : solve graph rounds state = some result)
    : Rising graph result ∧ ∀ node < graph.size, Balanced graph result node := by
  induction rounds generalizing state with
  | zero => cases ended
  | succ rounds ih =>
      obtain ⟨risen, balanced, -⟩ := rising.after_round closed
      rw [solve] at ended
      split at ended
      · exact ih risen ended
      · next unchanged =>
          obtain rfl := Option.some.inj ended
          exact ⟨risen, balanced (Bool.eq_false_iff.mpr unchanged)⟩

/-- The rounds end, as each but the last adds a register and there are only so many. By induction
on the rounds.
-/
theorem Rising.solve_ends (rising : Rising graph state) (closed : graph.Closed) {rounds : Nat}
    (enough : limit graph < total graph state + rounds)
    : ∃ result, solve graph rounds state = some result := by
  induction rounds generalizing state with
  | zero =>
      have bound := rising.total_le
      omega
  | succ rounds ih =>
      obtain ⟨risen, -, more⟩ := rising.after_round closed
      rw [solve]
      split
      · next changed =>
          have added := more changed
          exact ih risen (by omega)
      · exact ⟨_, rfl⟩

/-- Balanced sets solve the equations. -/
theorem solves_of_balanced (balanced : ∀ node < graph.size, Balanced graph state node)
    : Liveness.Solves graph (fun node => state.before node) (fun node => state.after node) where
  after_eq := by
    intro node inside
    rw [← (balanced node inside).1]
    ext register
    simp [afterOf]
  before_eq := by
    intro node inside
    rw [← (balanced node inside).2, (balanced node inside).1]
    ext register
    simp [throughOf]

/-- Balanced sets below the live sets are the live sets. -/
theorem Rising.eq_live (rising : Rising graph state) (closed : graph.Closed)
    (balanced : ∀ node < graph.size, Balanced graph state node) {node : Nat}
    (inside : node < graph.size)
    : state.before node = ((Liveness.compute graph).liveIn node).toFinset
      ∧ state.after node = ((Liveness.compute graph).liveOut node).toFinset := by
  obtain ⟨before, after⟩ := (solves_of_balanced balanced).live_le closed inside
  constructor
  · ext register
    rw [List.mem_toFinset]
    exact ⟨rising.before_live node register, fun live => before live⟩
  · ext register
    rw [List.mem_toFinset]
    exact ⟨rising.after_live node register, fun live => after live⟩

end TreeTiling.RoundRobin

namespace TreeTiling.Liveness

/-- The live sets of the flow graph of any instruction list solve the equations of liveness, every
solution has them, and they are what rounds over the equations come to, which always end.
-/
theorem live_sets_least_solution (instrs : Array Instr)
    : let graph := FlowGraph.build instrs
      Solves graph (liveBefore graph) (liveAfter graph)
      ∧ (∀ before after,
          Solves graph before after
          → ∀ node < graph.size,
              liveBefore graph node ⊆ before node ∧ liveAfter graph node ⊆ after node)
      ∧ (∃ rounds result, RoundRobin.solve graph rounds RoundRobin.start = some result)
      ∧ ∀ rounds result,
          RoundRobin.solve graph rounds RoundRobin.start = some result
          → ∀ node < graph.size,
              result.before node = ((compute graph).liveIn node).toFinset
              ∧ result.after node = ((compute graph).liveOut node).toFinset := by
  have closed := FlowGraph.build_closed instrs
  refine ⟨solves_live closed, ?_, ?_, ?_⟩
  · intro before after solves node inside
    exact solves.live_le closed inside
  · exact ⟨_, RoundRobin.rising_start.solve_ends closed (Nat.lt_add_left _ (Nat.lt_succ_self _))⟩
  · intro rounds result ended node inside
    obtain ⟨rising, balanced⟩ := RoundRobin.rising_start.solved closed ended
    exact rising.eq_live closed balanced inside

end TreeTiling.Liveness
