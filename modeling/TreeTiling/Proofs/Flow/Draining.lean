import TreeTiling.Proofs.Flow.Counters

/-!
The loop behind an insertion: a stack of sets that have yet to offer a value to their edges.

The stack may grow in every turn and the edges may form cycles, so nothing about either says that
the loop ends. What does is that a set joins the stack only when it gains the value. A set has the
value from then on, so it joins once at most, whatever edges there are and whenever they were added.
-/

namespace TreeTiling.Network

variable {α : Type}

----------------------------------------------------------------------------------------------
-- The loop
----------------------------------------------------------------------------------------------

/-- A network with what is pending in it: sets, each with a value that it has yet to offer. The last
entry that was added stands first.
-/
structure Workload (α : Type) where
  network : Network α := {}
  pending : List (Nat × α) := []

namespace Workload

variable [DecidableEq α]

/-- The loop takes entries off the stack, the one that stands first in each turn. A turn offers the
value to the edges of the set, and every set that gains it joins the stack.
-/
inductive Drains : Workload α → List (Nat × α) → Workload α → Prop where
  | rest (load : Workload α) : Drains load [] load
  | turn {network after : Network α} {set : Nat} {value : α} {gained : List Nat}
    {pending popped : List (Nat × α)} {last : Workload α}
    (sent : sendAll value (network.edges.getD set []) network [] = some (after, gained))
    (others : Drains ⟨after, gained.map (·, value) ++ pending⟩ popped last)
    : Drains ⟨network, (set, value) :: pending⟩ ((set, value) :: popped) last

/-- Inserts a value into a set; the answer is whether it was new. A new value is put on the stack,
and the loop runs until the stack is empty.
-/
inductive Inserts (load : Workload α) (set : Nat) (value : α)
    : Bool → List (Nat × α) → Workload α → Prop where
  | old {network : Network α} (added : load.network.add? set value = some (false, network))
    : Inserts load set value false [] ⟨network, load.pending⟩
  | new {network last : Network α} {popped : List (Nat × α)}
    (added : load.network.add? set value = some (true, network))
    (drains : Drains ⟨network, (set, value) :: load.pending⟩ popped ⟨last, []⟩)
    : Inserts load set value true popped ⟨last, []⟩

/-- What can be made by adding sets, edges between sets that exist, and values, in any order. -/
inductive Reachable : Workload α → Prop where
  | empty : Reachable {}
  | addSet {load : Workload α} (reachable : Reachable load)
    : Reachable { load with network := load.network.addSet }
  | addEdge {load : Workload α} (reachable : Reachable load) {source : Nat} {edge : Edge α}
    (sourceInside : source < load.network.setCount)
    (targetInside : edge.target < load.network.setCount)
    : Reachable { load with network := load.network.addEdge source edge.target edge.excluded }
  | insert {load after : Workload α} (reachable : Reachable load) {set : Nat} {value : α}
    {isNew : Bool} {popped : List (Nat × α)} (inserts : load.Inserts set value isNew popped after)
    : Reachable after

/-- The loop takes one course: all that a run has taken so far, a run to the end takes first; by
induction on the run to the end.
-/
theorem Drains.isPrefix {load middle : Workload α} {last : Network α}
    {popped taken : List (Nat × α)} (drains : load.Drains popped ⟨last, []⟩)
    (partly : load.Drains taken middle)
    : taken <+: popped := by
  generalize ended : (⟨last, []⟩ : Workload α) = final at drains
  induction drains generalizing taken with
  | rest =>
      subst ended
      cases partly with
      | rest => exact List.prefix_rfl
  | turn sent _ ih =>
      cases partly with
      | rest => exact List.nil_prefix
      | turn again others =>
          obtain ⟨rfl, rfl⟩ := Prod.mk.inj (Option.some.inj (sent.symm.trans again))
          exact List.cons_prefix_cons.mpr ⟨rfl, ih others ended⟩

/-- Whatever the loop has taken so far while a value is inserted, it takes first of all it takes. -/
theorem Inserts.isPrefix {load middle after : Workload α} {set : Nat} {value : α} {isNew : Bool}
    {popped taken : List (Nat × α)} {added : Network α}
    (inserts : load.Inserts set value isNew popped after)
    (isAdded : load.network.add? set value = some (true, added))
    (partly : Drains ⟨added, (set, value) :: load.pending⟩ taken middle)
    : taken <+: popped := by
  cases inserts with
  | old unchanged => cases isAdded.symm.trans unchanged
  | new again drains =>
      obtain ⟨-, rfl⟩ := Prod.mk.inj (Option.some.inj (isAdded.symm.trans again))
      exact drains.isPrefix partly

theorem Drains.grows {load last : Workload α} {popped : List (Nat × α)}
    (drains : load.Drains popped last)
    : Grows load.network last.network := by
  induction drains with
  | rest load => exact .refl load.network
  | turn sent _ ih => exact (sent_of_sendAll sent).grows.trans ih

end Workload

----------------------------------------------------------------------------------------------
-- Sets that gained the value
----------------------------------------------------------------------------------------------

/-- Some sets of a network gained a value that was new to them, and nothing else changed. -/
structure Reached (start now : Network α) (value : α) (sets : List Nat) : Prop where
  distinct : sets.Nodup
  inside : ∀ set ∈ sets, set < start.setCount
  fresh : ∀ set ∈ sets, value ∉ start.get set
  get_eq
    : ∀ set, now.get set = if set ∈ sets then value :: start.get set else start.get set
  edges : now.edges = start.edges
  setCount : now.setCount = start.setCount

namespace Reached

variable {start now after : Network α} {value : α} {sets : List Nat}

theorem refl (network : Network α) (value : α) : Reached network network value [] :=
  ⟨List.nodup_nil, by simp, by simp, by simp, rfl, rfl⟩

theorem perm (reached : Reached start now value sets) {others : List Nat} (same : sets.Perm others)
    : Reached start now value others where
  distinct := same.nodup_iff.mp reached.distinct
  inside := fun set member => reached.inside set (same.mem_iff.mpr member)
  fresh := fun set member => reached.fresh set (same.mem_iff.mpr member)
  get_eq := by
    intro set
    rw [reached.get_eq]
    simp only [same.mem_iff]
  edges := reached.edges
  setCount := reached.setCount

/-- A set that gains the value did not have it, so it is none of those that have gained it. -/
theorem gain (reached : Reached start now value sets) {set : Nat}
    (gained : Gained now set value after)
    : Reached start after value (set :: sets) := by
  have lacking := gained.fresh
  have absent : set ∉ sets := by
    intro member
    rw [reached.get_eq, if_pos member] at lacking
    exact lacking List.mem_cons_self
  rw [reached.get_eq, if_neg absent] at lacking
  refine ⟨List.nodup_cons.mpr ⟨absent, reached.distinct⟩, ?_, ?_, ?_,
    gained.edges.trans reached.edges, gained.setCount.trans reached.setCount⟩
  · have inside := gained.inside
    rw [reached.setCount] at inside
    exact List.forall_mem_cons.mpr ⟨inside, reached.inside⟩
  · exact List.forall_mem_cons.mpr ⟨lacking, reached.fresh⟩
  · intro other
    rw [gained.get_eq, reached.get_eq]
    by_cases same : other = set
    · subst other
      simp [absent]
    · simp [same]

/-- There are no more such sets than sets. -/
theorem length_le (reached : Reached start now value sets) : sets.length ≤ start.setCount := by
  have among : sets ⊆ List.range start.setCount :=
    fun set member => List.mem_range.mpr (reached.inside set member)
  simpa using reached.distinct.length_le_of_subset among

variable [DecidableEq α]

/-- Offering the value to an edge; the sets that gained it are some taken before and the queue. -/
theorem send {edge : Edge α} {taken queue rest : List Nat}
    (reached : Reached start now value (taken ++ queue))
    (offered : Network.send value edge now queue = some (after, rest))
    : Reached start after value (taken ++ rest) := by
  by_cases excluded : value ∈ edge.excluded
  · rw [Network.send, if_pos excluded] at offered
    obtain ⟨rfl, rfl⟩ := Prod.mk.inj (Option.some.inj offered)
    exact reached
  · rw [Network.send, if_neg excluded] at offered
    have counted : Reached start { now with fired := now.fired + 1 } value (taken ++ queue) :=
      { reached with }
    split at offered
    · cases offered
    · next added =>
        obtain ⟨rfl, rfl⟩ := Prod.mk.inj (Option.some.inj offered)
        exact (counted.gain (gained_of_add? added)).perm List.perm_middle.symm
    · next added =>
        obtain ⟨rfl, rfl⟩ := Prod.mk.inj (Option.some.inj offered)
        obtain rfl := eq_of_add?_old added
        exact counted

/-- Offering it to several edges, by induction on them. -/
theorem sendAll {edges : List (Edge α)} {taken queue rest : List Nat}
    (reached : Reached start now value (taken ++ queue))
    (offered : Network.sendAll value edges now queue = some (after, rest))
    : Reached start after value (taken ++ rest) := by
  induction edges generalizing now queue with
  | nil =>
      obtain ⟨rfl, rfl⟩ := Prod.mk.inj (Option.some.inj offered)
      exact reached
  | cons edge edges ih =>
      rw [Network.sendAll] at offered
      split at offered
      · cases offered
      · next first => exact ih (reached.send first) offered

end Reached

----------------------------------------------------------------------------------------------
-- From the queue to the stack
----------------------------------------------------------------------------------------------

section

variable [DecidableEq α]

/-- What is in the queue already stays behind what a value adds to it. -/
theorem send_append (value : α) (edge : Edge α) (network : Network α) (front queue : List Nat)
    : send value edge network (front ++ queue)
      = (send value edge network front).map fun sent => (sent.1, sent.2 ++ queue) := by
  unfold send
  split
  · rfl
  · split
    · rfl
    · rfl
    · rfl

theorem sendAll_append (value : α) (edges : List (Edge α)) (network : Network α)
    (front queue : List Nat)
    : sendAll value edges network (front ++ queue)
      = (sendAll value edges network front).map fun sent => (sent.1, sent.2 ++ queue) := by
  induction edges generalizing network front with
  | nil => rfl
  | cons edge edges ih =>
      rw [sendAll, sendAll, send_append]
      cases send value edge network front with
      | none => rfl
      | some sent => exact ih sent.1 sent.2

/-- What is offered to edges with sets in the queue is offered as with none, and the sets that gain
the value join the queue in front.
-/
theorem sendAll_nil {value : α} {edges : List (Edge α)} {network after : Network α}
    {queue rest : List Nat} (offered : sendAll value edges network queue = some (after, rest))
    : ∃ gained,
        sendAll value edges network [] = some (after, gained) ∧ rest = gained ++ queue := by
  have split := sendAll_append value edges network [] queue
  rw [List.nil_append, offered] at split
  obtain ⟨⟨_, gained⟩, sent, same⟩ := Option.map_eq_some_iff.mp split.symm
  obtain ⟨rfl, rfl⟩ := Prod.mk.inj same
  exact ⟨gained, sent, rfl⟩

/-- Passing a value on is a run of the loop to its end, and the sets it takes off the stack are
those that gain the value, apart from sets taken before. By induction along the queue.
-/
theorem Reached.settle {start now last : Network α} {value : α} {taken queue : List Nat}
    (reached : Reached start now value (taken ++ queue))
    (passed : Network.settle value now queue = some last)
    : ∃ popped,
        Workload.Drains ⟨now, queue.map (·, value)⟩ (popped.map (·, value)) ⟨last, []⟩
        ∧ Reached start last value (taken ++ popped) := by
  fun_induction Network.settle value now queue generalizing taken with
  | case1 network =>
      obtain rfl := Option.some.inj passed
      exact ⟨[], .rest _, reached⟩
  | case2 => cases passed
  | case3 network set queue after rest sentAll _ ih =>
      obtain ⟨gained, sent, rfl⟩ := sendAll_nil sentAll
      have moved : Reached start network value ((taken ++ [set]) ++ queue) := by
        simpa using reached
      obtain ⟨popped, drains, reachedLast⟩ := ih (moved.sendAll sentAll) passed
      rw [List.map_append] at drains
      refine ⟨set :: popped, .turn sent drains, ?_⟩
      simpa using reachedLast

end

----------------------------------------------------------------------------------------------
-- Networks that can be made
----------------------------------------------------------------------------------------------

namespace Workload

variable [DecidableEq α]

/-- Between operations nothing is pending, and every edge leads to a set that exists. -/
structure Idle (load : Workload α) : Prop where
  pending : load.pending = []
  edgeLists : load.network.edges.size = load.network.sets.size
  targets : load.network.TargetsExist

/-- An insertion is a run of the loop to its end, in which the sets that gain the value are taken
off the stack.
-/
theorem Idle.insert? {load : Workload α} {after : Network α} {set : Nat} {value : α} {isNew : Bool}
    (idle : load.Idle) (inserted : load.network.insert? set value = some (isNew, after))
    : ∃ popped,
        load.Inserts set value isNew (popped.map (·, value)) ⟨after, []⟩
        ∧ Reached load.network after value popped := by
  have unchanged := Reached.refl load.network value
  rw [Network.insert?] at inserted
  cases added : load.network.add? set value with
  | none =>
      rw [added] at inserted
      cases inserted
  | some answer =>
      obtain ⟨isNew, middle⟩ := answer
      rw [added] at inserted
      cases isNew with
      | false =>
          obtain ⟨rfl, rfl⟩ := Prod.mk.inj (Option.some.inj inserted)
          have inserts := Inserts.old added
          rw [idle.pending] at inserts
          rw [eq_of_add?_old added] at inserts ⊢
          exact ⟨[], inserts, unchanged⟩
      | true =>
          obtain ⟨last, passed, same⟩ := Option.map_eq_some_iff.mp inserted
          obtain ⟨rfl, rfl⟩ := Prod.mk.inj same
          have reached : Reached load.network middle value ([] ++ [set]) :=
            unchanged.gain (gained_of_add? added)
          obtain ⟨popped, drains, reachedLast⟩ := reached.settle passed
          refine ⟨popped, .new added ?_, reachedLast⟩
          rw [idle.pending]
          exact drains

theorem Idle.inserts {load after : Workload α} {set : Nat} {value : α} {isNew : Bool}
    {popped : List (Nat × α)} (idle : load.Idle)
    (inserts : load.Inserts set value isNew popped after)
    : after.Idle := by
  cases inserts with
  | old added =>
      obtain rfl := eq_of_add?_old added
      exact ⟨idle.pending, idle.edgeLists, idle.targets⟩
  | new added drains =>
      have grows := (add?_did added).2.1.trans drains.grows
      refine ⟨rfl, ?_, grows.targetsExist idle.targets⟩
      rw [grows.edges, grows.size]
      exact idle.edgeLists

/-- Whatever was added in whatever order; by induction on what was added. -/
theorem Reachable.idle {load : Workload α} (reachable : load.Reachable) : load.Idle := by
  induction reachable with
  | empty => exact ⟨rfl, rfl, reflects_empty.targets⟩
  | addSet _ idle =>
      refine ⟨idle.pending, by simp [Network.addSet, idle.edgeLists], ?_⟩
      intro source edge hasEdge
      have inside := idle.targets (hasEdge_addSet.mp hasEdge)
      simp only [Network.addSet, Array.size_push]
      exact Nat.lt_succ_of_lt inside
  | @addEdge load _ source edge sourceInside targetInside idle =>
      have listed : source < load.network.edges.size := idle.edgeLists ▸ sourceInside
      refine ⟨idle.pending, by simp [Network.addEdge, idle.edgeLists], ?_⟩
      intro other added hasEdge
      rcases (hasEdge_addEdge listed).mp hasEdge with before | ⟨-, same⟩
      · exact idle.targets before
      · rw [same]
        exact targetInside
  | insert _ inserts idle => exact idle.inserts inserts

end Workload

/-- Inserting a value always finishes. The loop takes each set off the stack once at most, so it
runs for no more turns than there are sets, and it leaves the stack empty. The sets it takes are
those that gain the value, and nothing else changes.
-/
theorem insert_finishes [DecidableEq α] {load : Workload α} (reachable : load.Reachable) {set : Nat}
    (inside : set < load.network.setCount) (value : α)
    : load.pending = []
      ∧ ∃ isNew after popped,
          load.Inserts set value isNew (popped.map (·, value)) ⟨after, []⟩
          ∧ load.network.insert? set value = some (isNew, after)
          ∧ (∀ added,
              load.network.add? set value = some (true, added)
              → ∀ taken middle,
                  Workload.Drains ⟨added, (set, value) :: load.pending⟩ taken middle
                  → taken <+: popped.map (·, value))
          ∧ popped.length ≤ load.network.setCount
          ∧ Reached load.network after value popped := by
  have idle := reachable.idle
  refine ⟨idle.pending, ?_⟩
  obtain ⟨isNew, after, inserted⟩ := insert?_total idle.targets inside value
  obtain ⟨popped, inserts, reached⟩ := idle.insert? inserted
  refine ⟨isNew, after, popped, inserts, inserted, ?_, reached.length_le, reached⟩
  exact fun added isAdded taken middle partly => inserts.isPrefix isAdded partly

/-- Two sets in a cycle, with an edge that is there twice and one that leads back to its source. The
edge into the cycle was added after its source had a value.
-/
def tangled : Network Nat where
  sets := #[[], [], [7]]
  edges := #[[⟨1, []⟩, ⟨1, []⟩], [⟨0, []⟩, ⟨1, []⟩], [⟨0, []⟩]]
  inserted := 1

/-- Five steps wire the cycle, one seeds the third set, and the last adds the edge out of it. -/
theorem tangled_reachable : Workload.Reachable ⟨tangled, []⟩ := by
  have sets : Workload.Reachable ⟨addSet (addSet (addSet ({} : Network Nat))), []⟩ :=
    .addSet (.addSet (.addSet .empty))
  have wire {network : Network Nat} (reachable : Workload.Reachable ⟨network, []⟩)
      {source target : Nat} (sourceInside : source < network.setCount)
      (targetInside : (Edge.mk target []).target < network.setCount)
      : Workload.Reachable ⟨network.addEdge source target [], []⟩ :=
    .addEdge reachable sourceInside targetInside
  have twice : Workload.Reachable ⟨_, []⟩ :=
    wire (wire sets (by decide : 0 < 3) (by decide : 1 < 3)) (by decide : 0 < 3) (by decide : 1 < 3)
  have cycle : Workload.Reachable ⟨_, []⟩ :=
    wire (wire twice (by decide : 1 < 3) (by decide : 0 < 3)) (by decide : 1 < 3)
      (by decide : 1 < 3)
  have seeded : Workload.Reachable ⟨_, []⟩ :=
    .insert cycle (.new (rfl : add? _ 2 7 = _) (.turn rfl (.rest _)))
  exact wire seeded (by decide : 2 < 3) (by decide : 0 < 3)

/-- A value that is inserted into the tangle goes round the cycle and stops. -/
theorem tangled_insert_finishes
    : Workload.Reachable ⟨tangled, []⟩
      ∧ 0 < tangled.setCount
      ∧ ∃ isNew after popped,
          tangled.insert? 0 5 = some (isNew, after)
          ∧ popped.length ≤ 3
          ∧ Reached tangled after 5 popped := by
  refine ⟨tangled_reachable, by decide, ?_⟩
  obtain ⟨-, isNew, after, popped, -, inserted, -, length_le, reached⟩ :=
    insert_finishes tangled_reachable (by decide : 0 < tangled.setCount) 5
  exact ⟨isNew, after, popped, inserted, length_le, reached⟩

end TreeTiling.Network
