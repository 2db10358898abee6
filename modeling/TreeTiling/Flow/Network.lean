/-!
A network of growing sets. An edge passes every value its source gains on to its target, except
the values it excludes.

Inserting a value that is new to a set queues the set, and each queued set offers the value to its
edges. A set that has the value already is not queued again, so the number of sets without the
value plus the length of the queue falls by one with every set taken from it. That is why
`settle` ends.

Sets are named by their position. An operation on a set that does not exist has no result; an edge
may name a target that does not exist, and fails once a value is sent along it.
-/

namespace TreeTiling

/-- An edge out of a set. -/
structure Edge (α : Type) where
  target : Nat
  excluded : List α

/-- Sets, the edges out of each, and counts of what happened. -/
structure Network (α : Type) where
  /-- The members of each set, without repetition. -/
  sets : Array (List α) := #[]
  edges : Array (List (Edge α)) := #[]
  /-- How often a value was new to a set. -/
  inserted : Nat := 0
  /-- How often a value was sent along an edge. -/
  fired : Nat := 0

namespace Network

variable {α : Type} [DecidableEq α]

/-- A network of empty sets without edges. -/
def ofSize (size : Nat) : Network α :=
  { sets := Array.replicate size [], edges := Array.replicate size [] }

/-- Adds an empty set, whose position is the number of sets before. -/
def addSet (network : Network α) : Network α :=
  { network with sets := network.sets.push [], edges := network.edges.push [] }

/-- Adds an edge, which carries the values that its source gains from now on. -/
def addEdge (network : Network α) (source target : Nat) (excluded : List α) : Network α :=
  { network with edges := network.edges.modify source (· ++ [{ target, excluded }]) }

/-- Adds an edge out of a set that exists. -/
def addEdge? (network : Network α) (source target : Nat) (excluded : List α)
    : Option (Network α) :=
  if source < network.edges.size then some (network.addEdge source target excluded) else none

/-- The members of a set. -/
def get? (network : Network α) (set : Nat) : Option (List α) :=
  network.sets[set]?

/-- The members of a set, none if it does not exist. -/
def get (network : Network α) (set : Nat) : List α :=
  network.sets.getD set []

def setCount (network : Network α) : Nat :=
  network.sets.size

def edgeCount (network : Network α) : Nat :=
  network.edges.toList.flatten.length

----------------------------------------------------------------------------------------------
-- Sending a value
----------------------------------------------------------------------------------------------

/-- Adds a value to a set that exists; says whether it was new. -/
def add? (network : Network α) (set : Nat) (value : α) : Option (Bool × Network α) :=
  match network.sets[set]? with
  | none => none
  | some members =>
      if value ∈ members then some (false, network)
      else some (true,
        { network with
          sets := network.sets.setIfInBounds set (value :: members)
          inserted := network.inserted + 1 })

/-- Offers a value to an edge. The target joins the queue if the value was new to it. -/
def send (value : α) (edge : Edge α) (network : Network α) (queue : List Nat)
    : Option (Network α × List Nat) :=
  if value ∈ edge.excluded then some (network, queue)
  else
    match { network with fired := network.fired + 1 }.add? edge.target value with
    | none => none
    | some (true, network) => some (network, edge.target :: queue)
    | some (false, network) => some (network, queue)

/-- Offers a value to edges in order. -/
def sendAll (value : α) : List (Edge α) → Network α → List Nat → Option (Network α × List Nat)
  | [], network, queue => some (network, queue)
  | edge :: edges, network, queue =>
      match send value edge network queue with
      | none => none
      | some (network, queue) => sendAll value edges network queue

/-- The number of sets that do not have a value. -/
def lacking (network : Network α) (value : α) : Nat :=
  network.sets.toList.countP fun members => decide (value ∉ members)

/-- Adding a value that is new to a set leaves one set fewer without it. -/
theorem lacking_of_add? {network after : Network α} {set : Nat} {value : α} {isNew : Bool}
    (added : network.add? set value = some (isNew, after))
    : after.lacking value + isNew.toNat = network.lacking value := by
  unfold add? at added
  split at added
  · simp at added
  · next members found =>
      obtain ⟨inBounds, membersEq⟩ := Array.getElem?_eq_some_iff.mp found
      split at added
      · simp only [Option.some.injEq, Prod.mk.injEq] at added
        obtain ⟨rfl, rfl⟩ := added
        rfl
      · next absent =>
          simp only [Option.some.injEq, Prod.mk.injEq] at added
          obtain ⟨rfl, rfl⟩ := added
          have lacks : decide (value ∉ network.sets.toList[set]) = true := by
            simpa [membersEq] using absent
          have some_lack : 0 < network.sets.toList.countP fun members => decide (value ∉ members) :=
            List.countP_pos_iff.mpr ⟨_, List.getElem_mem inBounds, lacks⟩
          simp only [lacking, Array.toList_setIfInBounds, Bool.toNat_true]
          rw [List.countP_set (by simpa using inBounds)]
          simp only [lacks, if_true, List.mem_cons, true_or, not_true_eq_false, decide_false]
          simp only [Bool.false_eq_true, if_false]
          omega

/-- Offering a value moves sets from those without it to the queue; witness: the cases of `send`. -/
theorem lacking_of_send {value : α} {edge : Edge α} {network after : Network α}
    {queue rest : List Nat} (sent : send value edge network queue = some (after, rest))
    : after.lacking value + rest.length = network.lacking value + queue.length := by
  unfold send at sent
  split at sent
  · simp only [Option.some.injEq, Prod.mk.injEq] at sent
    obtain ⟨rfl, rfl⟩ := sent
    rfl
  · split at sent
    · simp at sent
    · next added =>
        have moved := lacking_of_add? added
        simp only [Option.some.injEq, Prod.mk.injEq] at sent
        obtain ⟨rfl, rfl⟩ := sent
        simp only [lacking, Bool.toNat_true, List.length_cons] at moved ⊢
        omega
    · next added =>
        have moved := lacking_of_add? added
        simp only [Option.some.injEq, Prod.mk.injEq] at sent
        obtain ⟨rfl, rfl⟩ := sent
        simp only [lacking, Bool.toNat_false, Nat.add_zero] at moved ⊢
        omega

/-- The same for several edges, by induction on them. -/
theorem lacking_of_sendAll {value : α} {edges : List (Edge α)} {network after : Network α}
    {queue rest : List Nat} (sent : sendAll value edges network queue = some (after, rest))
    : after.lacking value + rest.length = network.lacking value + queue.length := by
  induction edges generalizing network queue with
  | nil =>
      simp only [sendAll, Option.some.injEq, Prod.mk.injEq] at sent
      obtain ⟨rfl, rfl⟩ := sent
      rfl
  | cons edge edges ih =>
      rw [sendAll] at sent
      split at sent
      · simp at sent
      · next first => rw [ih sent, lacking_of_send first]

/-- Offers a value to the edges of every queued set, until none is queued. -/
def settle (value : α) (network : Network α) : List Nat → Option (Network α)
  | [] => some network
  | set :: queue =>
      match sent : sendAll value (network.edges.getD set []) network queue with
      | none => none
      | some (after, rest) =>
          have : after.lacking value + rest.length = network.lacking value + queue.length :=
            lacking_of_sendAll sent
          settle value after rest
termination_by queue => network.lacking value + queue.length

/-- Inserts a value into a set and passes it on; says whether it was new to the set. -/
def insert? (network : Network α) (set : Nat) (value : α) : Option (Bool × Network α) :=
  match network.add? set value with
  | none => none
  | some (false, network) => some (false, network)
  | some (true, network) => (settle value network [set]).map (true, ·)

/-- Inserts a value where that is possible. -/
def seed (network : Network α) (set : Nat) (value : α) : Network α :=
  match network.insert? set value with
  | some (_, after) => after
  | none => network

end Network

end TreeTiling
