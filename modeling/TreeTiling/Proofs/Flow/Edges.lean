import TreeTiling.Flow.Graph
import TreeTiling.Proofs.Flow.Adjacency

/-!
The edges of a flow graph are those of its instructions.

After each node of the scan, the array of targets holds the successors of the nodes so far one after
the other, and every node is counted as often as it occurs there. So the scan ends with the lists of
all nodes, and with the counts that turning them around needs.
-/

namespace TreeTiling

----------------------------------------------------------------------------------------------
-- Lists without repetitions
----------------------------------------------------------------------------------------------

namespace FlowGraph

/-- No item is left twice. The recursion is on the length, since what is behind an item loses its
repetitions first.
-/
theorem nodup_eraseDups (items : List Nat) : items.eraseDups.Nodup := by
  cases items with
  | nil => exact List.nodup_nil
  | cons first items =>
      rw [List.eraseDups_cons]
      refine List.nodup_cons.mpr ⟨?_, nodup_eraseDups _⟩
      simp
termination_by items.length
decreasing_by exact Nat.lt_succ_of_le (List.length_filter_le _ _)

/-- One more item at the end is kept unless it was there. -/
theorem eraseDups_concat (items : List Nat) (item : Nat)
    : (items ++ [item]).eraseDups
      = if item ∈ items then items.eraseDups else items.eraseDups ++ [item] := by
  rw [List.eraseDups_append]
  by_cases member : item ∈ items <;> simp [List.removeAll, List.eraseDups_cons, member]

/-- One of the labels finds a node before any finds another. -/
def FoundBefore (find : Label → Option Nat) (labels : List Label) (earlier later : Nat) : Prop :=
  ∃ position : Nat,
    labels[position]?.bind find = some earlier
    ∧ ∀ other : Nat, labels[other]?.bind find = some later → position < other

/-- A label in front of others changes nothing if it does not find the later node. -/
theorem FoundBefore.cons {find : Label → Option Nat} {label : Label} {labels : List Label}
    {earlier later : Nat} (before : FoundBefore find labels earlier later)
    (notLater : find label ≠ some later)
    : FoundBefore find (label :: labels) earlier later := by
  obtain ⟨position, found, first⟩ := before
  refine ⟨position + 1, found, ?_⟩
  intro other otherFound
  cases other with
  | zero => exact absurd otherFound notLater
  | succ other => exact Nat.succ_lt_succ (first other otherFound)

/-- Of the nodes that labels find, any selection is listed in the order in which they are first
found, by induction on the labels.
-/
theorem eraseDups_filterMap_ordered (find : Label → Option Nat) (labels : List Label)
    (keep : Nat → Bool)
    : ((labels.filterMap find).filter keep).eraseDups.Pairwise (FoundBefore find labels) := by
  induction labels generalizing keep with
  | nil => exact List.Pairwise.nil
  | cons label labels ih =>
      -- Among the nodes of the other labels, those that the first one finds are not kept.
      have notFound {keep : Nat → Bool} (dropped : ∀ node, find label = some node → ¬ keep node)
          {node : Nat} (member : node ∈ ((labels.filterMap find).filter keep).eraseDups)
          : find label ≠ some node := by
        intro found
        rw [List.mem_eraseDups, List.mem_filter] at member
        exact dropped node found member.2
      have behind {keep : Nat → Bool} (dropped : ∀ node, find label = some node → ¬ keep node)
          : ((labels.filterMap find).filter keep).eraseDups.Pairwise
              (FoundBefore find (label :: labels)) :=
        (ih keep).imp_of_mem fun _ member before => before.cons (notFound dropped member)
      cases found : find label with
      | none =>
          rw [List.filterMap_cons_none found]
          exact behind (by simp [found])
      | some first =>
          rw [List.filterMap_cons_some found]
          by_cases kept : keep first = true
          · rw [List.filter_cons_of_pos kept, List.eraseDups_cons, List.filter_filter]
            have dropped : ∀ node,
                find label = some node → ¬ (!node == first && keep node) = true := by
              simp [found]
            refine List.pairwise_cons.mpr ⟨?_, behind dropped⟩
            intro node member
            refine ⟨0, found, ?_⟩
            intro other otherFound
            cases other with
            | zero => exact absurd otherFound (notFound dropped member)
            | succ other => exact Nat.succ_pos other
          · rw [List.filter_cons_of_neg kept]
            exact behind (by simpa [found] using kept)

----------------------------------------------------------------------------------------------
-- Labels
----------------------------------------------------------------------------------------------

/-- A node defines a label. -/
def Defines (instrs : Array Instr) (label : Label) (node : Nat) : Prop :=
  instrs[node]?.bind Instr.labelName? = some label

/-- A node is the last to define a label. -/
def LastDefines (instrs : Array Instr) (label : Label) (node : Nat) : Prop :=
  Defines instrs label node ∧ ∀ other, Defines instrs label other → other ≤ node

theorem Defines.lt {instrs : Array Instr} {label : Label} {node : Nat}
    (defines : Defines instrs label node)
    : node < instrs.size := by
  obtain ⟨instr, found, -⟩ := Option.bind_eq_some_iff.mp defines
  exact (Array.getElem?_eq_some_iff.mp found).1

/-- The last of the first numbers with a property. -/
theorem find?_reverse_range {size last : Nat} {holds : Nat → Bool}
    : (List.range size).reverse.find? holds = some last
      ↔ last < size ∧ holds last = true ∧ ∀ other < size, holds other = true → other ≤ last := by
  induction size with
  | zero => simp
  | succ size ih =>
      rw [List.range_succ, List.reverse_append, List.reverse_singleton, List.singleton_append,
        List.find?_cons]
      cases top : holds size with
      | true =>
          constructor
          · intro same
            obtain rfl := Option.some.inj same
            exact ⟨Nat.lt_succ_self _, top, fun other lt _ => Nat.le_of_lt_succ lt⟩
          · rintro ⟨lt, -, isLast⟩
            have ge := isLast size (Nat.lt_succ_self size) top
            rw [Nat.le_antisymm (Nat.le_of_lt_succ lt) ge]
      | false =>
          have below : ∀ {other : Nat}, other < size + 1 → holds other = true → other < size := by
            intro other lt otherHolds
            refine Nat.lt_of_le_of_ne (Nat.le_of_lt_succ lt) ?_
            rintro rfl
            rw [top] at otherHolds
            cases otherHolds
          refine ih.trans ⟨?_, ?_⟩
          · rintro ⟨lt, lastHolds, isLast⟩
            refine ⟨Nat.lt_succ_of_lt lt, lastHolds, ?_⟩
            exact fun other lt otherHolds => isLast other (below lt otherHolds) otherHolds
          · rintro ⟨lt, lastHolds, isLast⟩
            refine ⟨below lt lastHolds, lastHolds, ?_⟩
            exact fun other lt => isLast other (Nat.lt_succ_of_lt lt)

theorem labelNode?_eq_some_iff {instrs : Array Instr} {label : Label} {node : Nat}
    : labelNode? instrs label = some node ↔ LastDefines instrs label node := by
  rw [labelNode?, find?_reverse_range]
  simp only [beq_iff_eq]
  constructor
  · rintro ⟨-, defines, last⟩
    exact ⟨defines, fun other otherDefines => last other otherDefines.lt otherDefines⟩
  · rintro ⟨defines, last⟩
    exact ⟨defines.lt, defines, fun other _ otherDefines => last other otherDefines⟩

----------------------------------------------------------------------------------------------
-- The scan
----------------------------------------------------------------------------------------------

open Adjacency

/-- The nodes that control can pass to from an instruction at a node, fall-through first. -/
def successorsOf (instrs : Array Instr) (node : Nat) (instr : Instr) : List Nat :=
  let next := if instr.fallsThrough && decide (node + 1 < instrs.size) then [node + 1] else []
  (next ++ instr.jumps.filterMap (labelNode? instrs)).eraseDups

/-- The nodes that control can pass to from a node. -/
def successorList (instrs : Array Instr) (node : Nat) : List Nat :=
  (instrs[node]?.map (successorsOf instrs node)).getD []

theorem successorList_eq {instrs : Array Instr} {node : Nat} {instr : Instr}
    (found : instrs[node]? = some instr)
    : successorList instrs node = successorsOf instrs node instr := by
  rw [successorList, found]
  rfl

theorem nodup_successorList (instrs : Array Instr) (node : Nat)
    : (successorList instrs node).Nodup := by
  cases found : instrs[node]? with
  | none => simp [successorList, found]
  | some instr =>
      rw [successorList_eq found]
      exact nodup_eraseDups _

theorem mem_successorsOf {instrs : Array Instr} {node other : Nat} {instr : Instr}
    : other ∈ successorsOf instrs node instr
      ↔ (instr.fallsThrough = true ∧ other = node + 1 ∧ other < instrs.size)
        ∨ ∃ label ∈ instr.jumps, LastDefines instrs label other := by
  rw [successorsOf, List.mem_eraseDups, List.mem_append, List.mem_filterMap]
  simp only [labelNode?_eq_some_iff]
  refine or_congr ?_ Iff.rfl
  split
  · next both =>
      simp only [Bool.and_eq_true, decide_eq_true_eq] at both
      rw [List.mem_singleton]
      constructor
      · rintro rfl
        exact ⟨both.1, rfl, both.2⟩
      · exact fun falls => falls.2.1
  · next notBoth =>
      simp only [Bool.and_eq_true, decide_eq_true_eq, not_and] at notBoth
      refine ⟨fun impossible => absurd impossible List.not_mem_nil, ?_⟩
      rintro ⟨falls, rfl, inside⟩
      exact absurd inside (notBoth falls)

theorem lt_of_mem_successorList {instrs : Array Instr} {node target : Nat}
    (member : target ∈ successorList instrs node)
    : target < instrs.size := by
  cases found : instrs[node]? with
  | none => simp [successorList, found] at member
  | some instr =>
      rw [successorList_eq found, mem_successorsOf] at member
      rcases member with ⟨-, -, inside⟩ | ⟨label, -, defines⟩
      · exact inside
      · exact defines.1.lt

/-- Labels add their nodes to a list behind others, without repetition. By induction on the labels.
-/
theorem addTargets (instrs : Array Instr) (labels : List Label) {targets : Array Nat}
    {others seen : List Nat} (stored : targets.toList = others ++ seen.eraseDups)
    : ∃ after,
        labels.foldlM (addTarget? instrs others.length) targets = some after
        ∧ after.toList = others ++ (seen ++ labels.filterMap (labelNode? instrs)).eraseDups := by
  induction labels generalizing targets seen with
  | nil => exact ⟨targets, rfl, by simpa using stored⟩
  | cons label labels ih =>
      cases found : labelNode? instrs label with
      | none =>
          obtain ⟨after, added, afterStored⟩ := ih stored
          refine ⟨after, ?_, by rw [List.filterMap_cons_none found]; exact afterStored⟩
          rw [List.foldlM_cons, addTarget?, found]
          exact added
      | some node =>
          have step : ∃ middle,
              addTarget? instrs others.length targets label = some middle
              ∧ middle.toList = others ++ (seen ++ [node]).eraseDups := by
            simp only [addTarget?, found, slice?_end stored, eraseDups_concat]
            by_cases member : node ∈ seen
            · refine ⟨targets, ?_, by rw [if_pos member]; exact stored⟩
              simp [List.mem_eraseDups, member]
            · refine ⟨targets.push node, ?_, by simp [member, stored]⟩
              simp [List.mem_eraseDups, member]
          obtain ⟨middle, first, middleStored⟩ := step
          obtain ⟨after, added, afterStored⟩ := ih middleStored
          refine ⟨after, ?_, ?_⟩
          · rw [List.foldlM_cons, first]
            exact added
          · rw [List.filterMap_cons_some found, List.append_cons]
            exact afterStored

/-- The successors of an instruction go behind the lists of others. -/
theorem addSuccessors (instrs : Array Instr) (node : Nat) (instr : Instr) (others : Array Nat)
    : ∃ after,
        instr.jumps.foldlM (addTarget? instrs others.size)
          (if instr.fallsThrough && decide (node + 1 < instrs.size) then others.push (node + 1)
          else others)
          = some after
        ∧ after.toList = others.toList ++ successorsOf instrs node instr := by
  rw [← Array.length_toList]
  apply addTargets
  split
  · exact Array.toList_push
  · exact (List.append_nil _).symm

/-- What is known after the first nodes. -/
structure Scanned (instrs : Array Instr) (scan : Scan) (count : Nat) : Prop where
  offsets : scan.lists.offsets = table count (offset (lengths (successorList instrs)))
  packed : Packed scan.lists.targets count (successorList instrs)
  counts
    : scan.counts = table instrs.size (lengths (into (edgesFrom (successorList instrs) count)))

/-- One more node can be scanned. -/
theorem Scanned.node {instrs : Array Instr} {scan : Scan} {count : Nat}
    (scanned : Scanned instrs scan count) (inside : count < instrs.size)
    : ∃ after, scanNode? instrs scan count = some after ∧ Scanned instrs after (count + 1) := by
  have found := Array.getElem?_eq_getElem inside
  obtain ⟨targets, added, stored⟩ := addSuccessors instrs count instrs[count] scan.lists.targets
  rw [← successorList_eq found] at stored
  have list := slice?_end stored
  rw [Array.length_toList] at list
  have counted : (successorList instrs count).foldlM increment? scan.counts
      = some (table instrs.size
          (lengths (into (edgesFrom (successorList instrs) (count + 1))))) := by
    rw [scanned.counts, incrementAll_table _ fun _ member => lt_of_mem_successorList member]
    exact congrArg some (table_congr fun target _ => (lengths_into_edgesFrom_succ _ _ _).symm)
  refine ⟨⟨⟨scan.lists.offsets.push scan.lists.targets.size, targets⟩,
    table instrs.size (lengths (into (edgesFrom (successorList instrs) (count + 1))))⟩, ?_, ?_,
    scanned.packed.push stored, rfl⟩
  · simp only [scanNode?, found, added, list, counted, Option.bind_eq_bind, Option.bind_some]
    rfl
  · rw [scanned.offsets, scanned.packed.size_eq, push_table]

/-- The scan succeeds up to any node, by induction on how many are scanned. -/
theorem scanned_of_le (instrs : Array Instr) {count : Nat} (le : count ≤ instrs.size)
    : ∃ scan,
        (List.range count).foldlM (scanNode? instrs)
          { lists := {}, counts := Array.replicate instrs.size 0 } = some scan
        ∧ Scanned instrs scan count := by
  induction count with
  | zero =>
      exact ⟨_, rfl, (table_zero _).symm, packed_empty _, (table_const _ 0).symm⟩
  | succ count ih =>
      obtain ⟨scan, ran, scanned⟩ := ih (Nat.le_of_succ_le le)
      obtain ⟨after, stepped, afterScanned⟩ := scanned.node le
      refine ⟨after, ?_, afterScanned⟩
      rw [List.range_succ, List.foldlM_append, ran]
      simpa using stepped

/-- Building stays inside all arrays. It gives the successors of every node, and for every node the
nodes it is a successor of.
-/
theorem layout?_represents (instrs : Array Instr)
    : ∃ succ pred,
        layout? instrs = some (succ, pred)
        ∧ succ.Represents instrs.size (successorList instrs)
        ∧ pred.Represents instrs.size (into (edgesFrom (successorList instrs) instrs.size)) := by
  obtain ⟨scan, ran, scanned⟩ := scanned_of_le instrs (Nat.le_refl _)
  have represents : Adjacency.Represents
      ⟨scan.lists.offsets.push scan.lists.targets.size, scan.lists.targets⟩ instrs.size
      (successorList instrs) := by
    refine ⟨?_, scanned.packed⟩
    rw [scanned.offsets, scanned.packed.size_eq, push_table]
  obtain ⟨pred, reversed, predRepresents⟩ :=
    represents.reverse? fun _ _ _ member => lt_of_mem_successorList member
  refine ⟨_, pred, ?_, represents, predRepresents⟩
  simp [layout?, scan?, ran, scanned.counts, reversed]

----------------------------------------------------------------------------------------------
-- The graph
----------------------------------------------------------------------------------------------

theorem succ_represents (instrs : Array Instr)
    : (build instrs).succ.Represents instrs.size (successorList instrs) := by
  obtain ⟨succ, pred, laidOut, represents, -⟩ := layout?_represents instrs
  rw [build, laidOut]
  exact represents

theorem pred_represents (instrs : Array Instr)
    : (build instrs).pred.Represents instrs.size
        (into (edgesFrom (successorList instrs) instrs.size)) := by
  obtain ⟨succ, pred, laidOut, -, represents⟩ := layout?_represents instrs
  rw [build, laidOut]
  exact represents

/-- The successors of a node, inside the graph or not. -/
theorem successors_eq (instrs : Array Instr) (node : Nat)
    : (build instrs).successors node = successorList instrs node := by
  rcases Nat.lt_or_ge node instrs.size with inside | outside
  · rw [successors, (succ_represents instrs).list? inside]
    rfl
  · rw [successors, (succ_represents instrs).list?_eq_none outside, successorList,
      Array.getElem?_eq_none outside]
    rfl

/-- The successors of a node of a built graph. -/
theorem successors_build {instrs : Array Instr} {node : Nat} (inside : node < instrs.size)
    : (build instrs).successors node = successorsOf instrs node instrs[node] := by
  rw [successors_eq, successorList_eq (Array.getElem?_eq_getElem inside)]

theorem lt_of_mem_successors {instrs : Array Instr} {node next : Nat}
    (member : next ∈ (build instrs).successors node)
    : node < instrs.size := by
  rw [successors_eq] at member
  rcases Nat.lt_or_ge node instrs.size with inside | outside
  · exact inside
  · simp [successorList, Array.getElem?_eq_none outside] at member

theorem predecessors_eq {instrs : Array Instr} {node : Nat} (inside : node < instrs.size)
    : (build instrs).predecessors node
      = (List.range instrs.size).filter fun source =>
          decide (node ∈ (build instrs).successors source) := by
  rw [predecessors, (pred_represents instrs).list? inside, Option.getD_some,
    into_edgesFrom (nodup_successorList instrs)]
  simp only [successors_eq]

/-- A jump of an instruction, by its position, leads to a node. -/
def JumpsAt (instrs : Array Instr) (instr : Instr) (position node : Nat) : Prop :=
  ∃ label, instr.jumps[position]? = some label ∧ LastDefines instrs label node

theorem jumpsAt_iff {instrs : Array Instr} {instr : Instr} {position node : Nat}
    : JumpsAt instrs instr position node
      ↔ instr.jumps[position]?.bind (labelNode? instrs) = some node := by
  simp only [JumpsAt, Option.bind_eq_some_iff, labelNode?_eq_some_iff]

/-- What the list of an instruction's successors is: the next node, if control falls through to it,
and the nodes that jumps lead to. The next node is first, and the others follow in the order in
which a jump first leads to them.
-/
structure ListsSuccessors (instrs : Array Instr) (node : Nat) (instr : Instr) (list : List Nat)
    : Prop where
  nodup : list.Nodup
  mem_iff
    : ∀ other,
        other ∈ list
        ↔ (instr.fallsThrough = true ∧ other = node + 1 ∧ other < instrs.size)
          ∨ ∃ label ∈ instr.jumps, LastDefines instrs label other
  ordered
    : ∃ targets,
        list
          = (if instr.fallsThrough = true ∧ node + 1 < instrs.size then [node + 1] else [])
            ++ targets
        ∧ targets.Pairwise fun earlier later =>
            ∃ position,
              JumpsAt instrs instr position earlier
              ∧ ∀ other, JumpsAt instrs instr other later → position < other

theorem listsSuccessors_successorsOf (instrs : Array Instr) (node : Nat) (instr : Instr)
    : ListsSuccessors instrs node instr (successorsOf instrs node instr) where
  nodup := nodup_eraseDups _
  mem_iff := fun _ => mem_successorsOf
  ordered := by
    have ordered := eraseDups_filterMap_ordered (labelNode? instrs) instr.jumps
    simp only [jumpsAt_iff, successorsOf, Bool.and_eq_true, decide_eq_true_eq]
    split
    · exact ⟨_, List.eraseDups_cons, ordered _⟩
    · have all := ordered fun _ => true
      rw [List.filter_true] at all
      exact ⟨_, (List.nil_append _).symm, all⟩

/-- Building a graph stays inside all arrays, and so does reading the lists of its nodes. Each node
has the list of its successors. The predecessors of a node ascend, and are the nodes that have it
as a successor. The edges are as many from either end.
-/
theorem build_exact (instrs : Array Instr)
    : (∃ succ pred, layout? instrs = some (succ, pred) ∧ build instrs = { instrs, succ, pred })
      ∧ (∀ node instr,
          instrs[node]? = some instr
          → (build instrs).succ.list? node = some ((build instrs).successors node)
            ∧ ListsSuccessors instrs node instr ((build instrs).successors node))
      ∧ (∀ node < instrs.size,
          (build instrs).pred.list? node = some ((build instrs).predecessors node)
          ∧ ((build instrs).predecessors node).Pairwise (· < ·)
          ∧ ∀ source,
              source ∈ (build instrs).predecessors node
              ↔ node ∈ (build instrs).successors source)
      ∧ (build instrs).edgeCount
        = ((List.range instrs.size).map fun node => ((build instrs).successors node).length).sum
      ∧ (build instrs).edgeCount
        = ((List.range instrs.size).map fun node =>
            ((build instrs).predecessors node).length).sum := by
  refine ⟨?_, ?_, ?_, ?_, ?_⟩
  · obtain ⟨succ, pred, laidOut, -⟩ := layout?_represents instrs
    exact ⟨succ, pred, laidOut, by rw [build, laidOut]; rfl⟩
  · intro node instr found
    have inside := (Array.getElem?_eq_some_iff.mp found).1
    constructor
    · rw [successors_eq]
      exact (succ_represents instrs).list? inside
    · rw [successors_eq, successorList_eq found]
      exact listsSuccessors_successorsOf instrs node instr
  · intro node inside
    refine ⟨?_, ?_, ?_⟩
    · rw [predecessors, (pred_represents instrs).list? inside]
      rfl
    · rw [predecessors_eq inside]
      exact List.pairwise_lt_range.filter _
    · intro source
      rw [predecessors_eq inside, List.mem_filter, List.mem_range, decide_eq_true_eq]
      exact and_iff_right_of_imp lt_of_mem_successors
  · simp only [successors_eq]
    exact (succ_represents instrs).packed.size_eq
  · rw [edgeCount, (succ_represents instrs).packed.size_eq,
      ← offset_into_edgesFrom fun _ _ _ member => lt_of_mem_successorList member, offset]
    congr 1
    apply List.map_congr_left
    intro node member
    rw [predecessors, (pred_represents instrs).list? (List.mem_range.mp member)]
    rfl

end FlowGraph

end TreeTiling
