import Mathlib.Algebra.BigOperators.Group.Finset.Piecewise
import Mathlib.Algebra.BigOperators.Group.List.Lemmas
import Mathlib.Algebra.GroupWithZero.Nat
import TreeTiling.Proofs.Flow.Equations
import TreeTiling.Proofs.Flow.Order

/-!
What a network counts. If all edges are there before the first value, every edge fires once for each
value of its source that it does not exclude, and never again.

While a value is passed on, what has been sent and what the queued sets have yet to send is together
what the sets and edges so far call for. A set that gains the value joins the queue with all that
its edges pass, so the balance holds, and with the queue empty nothing is left to send.
-/

namespace TreeTiling.Network

variable {α : Type}

----------------------------------------------------------------------------------------------
-- Edges before values
----------------------------------------------------------------------------------------------

def Step.isInsert : Step α → Bool
  | insert _ _ => true
  | _ => false

/-- No edge is added after a value. -/
def EdgesFirst (steps : List (Step α)) : Prop :=
  steps.Pairwise fun earlier later => earlier.isInsert = true → later.edge? = none

/-- While no value was inserted every set is empty. -/
theorem Mirrors.get_eq_nil {network : Network α} {taken : List (Step α)}
    (mirrors : network.Mirrors taken) (none : ∀ step ∈ taken, step.isInsert = false) (set : Nat)
    : network.get set = [] := by
  rw [List.eq_nil_iff_forall_not_mem]
  intro value held
  have derived := mirrors.settled.holds_iff.mp held
  have closes : network.Closes fun _ _ => False := fun _ impossible _ => impossible
  apply derived.least closes
  intro other item given
  exact absurd (none _ given) (by simp [Step.isInsert])

----------------------------------------------------------------------------------------------
-- Firings
----------------------------------------------------------------------------------------------

/-- A value sent along an edge. -/
structure Firing (α : Type) where
  source : Nat
  edge : Edge α
  value : α

/-- The edges out of a set, among edges with their sources. -/
def outgoing (added : List (Nat × Edge α)) (set : Nat) : List (Edge α) :=
  (added.filter fun entry => entry.1 == set).map Prod.snd

section

variable [DecidableEq α]

/-- What a set sends when it offers a value to edges. -/
def passing (source : Nat) (edges : List (Edge α)) (value : α) : List (Firing α) :=
  (edges.filter fun edge => decide (value ∉ edge.excluded)).map fun edge => ⟨source, edge, value⟩

/-- What is sent while a value is passed on, in order. -/
def settleFirings (value : α) (network : Network α) : List Nat → List (Firing α)
  | [] => []
  | set :: queue =>
      match sent : sendAll value (network.edges.getD set []) network queue with
      | none => []
      | some (after, rest) =>
          have : after.lacking value + rest.length = network.lacking value + queue.length :=
            lacking_of_sendAll sent
          passing set (network.edges.getD set []) value ++ settleFirings value after rest
termination_by queue => network.lacking value + queue.length

/-- What is sent in a step. -/
def Step.firings (network : Network α) : Step α → List (Firing α)
  | insert set value =>
      match network.add? set value with
      | some (true, after) => settleFirings value after [set]
      | _ => []
  | _ => []

/-- What is sent in steps taken one after the other. -/
def firings : Network α → List (Step α) → List (Firing α)
  | _, [] => []
  | network, step :: steps =>
      step.firings network ++ (step.take? network).elim [] fun after => after.firings steps

/-- What the values of an edge's source call for along it. -/
def carried (network : Network α) (entry : Nat × Edge α) : List (Firing α) :=
  ((network.get entry.1).filter fun value => decide (value ∉ entry.2.excluded)).map fun value =>
    ⟨entry.1, entry.2, value⟩

/-- What the values of all sets call for along edges. -/
def due (network : Network α) (added : List (Nat × Edge α)) : List (Firing α) :=
  added.flatMap network.carried

/-- What queued sets have yet to send. -/
def waiting (added : List (Nat × Edge α)) (value : α) (queue : List Nat) : List (Firing α) :=
  queue.flatMap fun set => passing set (outgoing added set) value

theorem passing_cons (source : Nat) (edge : Edge α) (edges : List (Edge α)) (value : α)
    : passing source (edge :: edges) value
      = passing source [edge] value ++ passing source edges value := by
  rw [passing, ← List.singleton_append, List.filter_append, List.map_append]
  rfl

theorem settleFirings_cons {value : α} {network after : Network α} {set : Nat}
    {queue rest : List Nat}
    (sent : sendAll value (network.edges.getD set []) network queue = some (after, rest))
    : settleFirings value network (set :: queue)
      = passing set (network.edges.getD set []) value ++ settleFirings value after rest := by
  rw [settleFirings]
  split
  · next stuck =>
      rw [sent] at stuck
      cases stuck
  · next again =>
      rw [sent] at again
      obtain ⟨rfl, rfl⟩ := Prod.mk.inj (Option.some.inj again)
      rfl

end

----------------------------------------------------------------------------------------------
-- Gaining a value
----------------------------------------------------------------------------------------------

/-- The number of values in all sets. -/
def population (network : Network α) : Nat :=
  ∑ set ∈ Finset.range network.setCount, (network.get set).length

/-- One set gains a value that is new to it. -/
structure Gained (before : Network α) (set : Nat) (value : α) (after : Network α) : Prop where
  inside : set < before.setCount
  fresh : value ∉ before.get set
  get_eq
    : ∀ other,
        after.get other = if other = set then value :: before.get other else before.get other
  edges : after.edges = before.edges
  setCount : after.setCount = before.setCount
  inserted : after.inserted = before.inserted + 1
  fired : after.fired = before.fired

theorem Gained.population {before after : Network α} {set : Nat} {value : α}
    (gained : Gained before set value after)
    : after.population = before.population + 1 := by
  have length_eq : ∀ other,
      (after.get other).length = (before.get other).length + if other = set then 1 else 0 := by
    intro other
    rw [gained.get_eq]
    split <;> rfl
  have inside : set ∈ Finset.range before.setCount := Finset.mem_range.mpr gained.inside
  simp only [Network.population, gained.setCount, length_eq, Finset.sum_add_distrib,
    Finset.sum_ite_eq', inside, if_true]

variable [DecidableEq α]

theorem gained_of_add? {network after : Network α} {set : Nat} {value : α}
    (added : network.add? set value = some (true, after))
    : Gained network set value after := by
  have inside := lt_of_add? added
  have found : network.sets[set]? = some (network.get set) := by
    simp [get, Array.getD_eq_getD_getElem?, inside]
  simp only [add?, found] at added
  split at added
  · simp at added
  · next fresh =>
      obtain ⟨-, rfl⟩ := Prod.mk.inj (Option.some.inj added)
      refine ⟨inside, fresh, ?_, rfl, Array.size_setIfInBounds, rfl, rfl⟩
      intro other
      simp only [get, Array.getD_eq_getD_getElem?, Array.getElem?_setIfInBounds]
      by_cases same : set = other
      · subst other
        simp [inside]
      · simp [same, Ne.symm same]

/-- What an edge carries grows by the gained value, if the edge leads out of the set and passes it.
-/
theorem Gained.carried {before after : Network α} {set : Nat} {value : α}
    (gained : Gained before set value after) (entry : Nat × Edge α)
    : after.carried entry = passing set (outgoing [entry] set) value ++ before.carried entry := by
  obtain ⟨source, edge⟩ := entry
  by_cases same : source = set
  · subst source
    by_cases excluded : value ∈ edge.excluded
    · simp [Network.carried, gained.get_eq, passing, outgoing, excluded]
    · simp [Network.carried, gained.get_eq, passing, outgoing, excluded]
  · simp [Network.carried, gained.get_eq, passing, outgoing, same]

/-- What is due grows by what the set passes on of the gained value, by induction on the edges. -/
theorem Gained.due {before after : Network α} {set : Nat} {value : α}
    (gained : Gained before set value after) (added : List (Nat × Edge α))
    : (after.due added).Perm (passing set (outgoing added set) value ++ before.due added) := by
  induction added with
  | nil => exact .refl _
  | cons entry added ih =>
      have outgoing_cons : outgoing (entry :: added) set
          = outgoing [entry] set ++ outgoing added set := by
        rw [outgoing, ← List.singleton_append, List.filter_append, List.map_append]
        rfl
      have split : passing set (outgoing (entry :: added) set) value
          = passing set (outgoing [entry] set) value ++ passing set (outgoing added set) value := by
        rw [outgoing_cons, passing, List.filter_append, List.map_append]
        rfl
      rw [Network.due, List.flatMap_cons, split, gained.carried, List.append_assoc,
        List.append_assoc]
      have later := ih.append_left (before.carried entry)
      exact (later.trans (List.perm_append_comm_assoc _ _ _)).append_left _

----------------------------------------------------------------------------------------------
-- The balance of what was sent
----------------------------------------------------------------------------------------------

/-- The counters of a network with edges, where some firings were sent and others are still awaited:
the two together are what the sets call for.
-/
structure Tallied (network : Network α) (added : List (Nat × Edge α))
    (sent awaited : List (Firing α)) : Prop where
  wired : ∀ set, network.edges.getD set [] = outgoing added set
  distinct : ∀ set, (network.get set).Nodup
  inserted : network.inserted = network.population
  fired : network.fired = sent.length
  balance : (sent ++ awaited).Perm (network.due added)

namespace Tallied

variable {network after : Network α} {added : List (Nat × Edge α)}
  {sent awaited later : List (Firing α)}

/-- The order in which firings are awaited does not matter. -/
theorem perm (tallied : network.Tallied added sent awaited) (same : later.Perm awaited)
    : network.Tallied added sent later :=
  { tallied with balance := (same.append_left sent).trans tallied.balance }

/-- A set that gains a value has all that it passes on still to send. -/
theorem gain {set : Nat} {value : α} (tallied : network.Tallied added sent awaited)
    (gained : Gained network set value after)
    : after.Tallied added sent (passing set (outgoing added set) value ++ awaited) where
  wired := by
    rw [gained.edges]
    exact tallied.wired
  distinct := by
    intro other
    rw [gained.get_eq]
    split
    · next same =>
        subst other
        exact List.nodup_cons.mpr ⟨gained.fresh, tallied.distinct set⟩
    · exact tallied.distinct other
  inserted := by rw [gained.inserted, gained.population, tallied.inserted]
  fired := by rw [gained.fired, tallied.fired]
  balance := by
    have balance := tallied.balance.append_left (passing set (outgoing added set) value)
    exact (List.perm_append_comm_assoc _ _ _).trans (balance.trans (gained.due added).symm)

/-- An awaited firing is counted as it is sent. -/
theorem fire {firing : Firing α} (tallied : network.Tallied added sent (firing :: awaited))
    : { network with fired := network.fired + 1 }.Tallied added (sent ++ [firing]) awaited where
  wired := tallied.wired
  distinct := tallied.distinct
  inserted := tallied.inserted
  fired := by rw [tallied.fired, List.length_append, List.length_singleton]
  balance := by
    rw [List.append_assoc]
    exact tallied.balance

/-- Offering a value to one edge sends what the edge passes; a target that gains the value waits in
the queue.
-/
theorem send {source : Nat} {edge : Edge α} {value : α} {queue rest : List Nat}
    (tallied
      : network.Tallied added sent
          (passing source [edge] value ++ (later ++ waiting added value queue)))
    (offered : Network.send value edge network queue = some (after, rest))
    : after.Tallied added (sent ++ passing source [edge] value)
        (later ++ waiting added value rest) := by
  by_cases excluded : value ∈ edge.excluded
  · rw [Network.send, if_pos excluded] at offered
    obtain ⟨rfl, rfl⟩ := Prod.mk.inj (Option.some.inj offered)
    have none : passing source [edge] value = [] := by simp [passing, excluded]
    rw [none, List.nil_append] at tallied
    rw [none, List.append_nil]
    exact tallied
  · rw [Network.send, if_neg excluded] at offered
    have only : passing source [edge] value = [⟨source, edge, value⟩] := by
      simp [passing, excluded]
    rw [only, List.singleton_append] at tallied
    rw [only]
    have fired := tallied.fire
    split at offered
    · cases offered
    · next reached =>
        obtain ⟨rfl, rfl⟩ := Prod.mk.inj (Option.some.inj offered)
        rw [waiting, List.flatMap_cons]
        exact (fired.gain (gained_of_add? reached)).perm (List.perm_append_comm_assoc _ _ _)
    · next reached =>
        obtain ⟨rfl, rfl⟩ := Prod.mk.inj (Option.some.inj offered)
        obtain rfl := eq_of_add?_old reached
        exact fired

/-- The same for several edges, by induction on them. -/
theorem sendAll {source : Nat} {edges : List (Edge α)} {value : α} {queue rest : List Nat}
    (tallied
      : network.Tallied added sent (passing source edges value ++ waiting added value queue))
    (offered : Network.sendAll value edges network queue = some (after, rest))
    : after.Tallied added (sent ++ passing source edges value) (waiting added value rest) := by
  induction edges generalizing network sent queue with
  | nil =>
      obtain ⟨rfl, rfl⟩ := Prod.mk.inj (Option.some.inj offered)
      rw [show passing source [] value = [] from rfl, List.append_nil]
      exact tallied
  | cons edge edges ih =>
      rw [passing_cons, List.append_assoc] at tallied
      rw [Network.sendAll] at offered
      split at offered
      · cases offered
      · next first =>
          rw [passing_cons, ← List.append_assoc]
          exact ih (tallied.send first) offered

/-- Passing a value on sends all that the queued sets have to send and all that follows from it. By
induction along the queue.
-/
theorem settle {value : α} {queue : List Nat} {last : Network α}
    (tallied : network.Tallied added sent (waiting added value queue))
    (passed : Network.settle value network queue = some last)
    : last.Tallied added (sent ++ settleFirings value network queue) [] := by
  fun_induction Network.settle value network queue generalizing sent with
  | case1 network =>
      obtain rfl := Option.some.inj passed
      rw [settleFirings, List.append_nil]
      exact tallied
  | case2 => cases passed
  | case3 network set queue after rest sentAll _ ih =>
      rw [settleFirings_cons sentAll, ← List.append_assoc]
      rw [waiting, List.flatMap_cons, ← tallied.wired set] at tallied
      exact ih (tallied.sendAll sentAll) passed

/-- After a value is inserted nothing is awaited again. -/
theorem insert {set : Nat} {value : α} {isNew : Bool} (tallied : network.Tallied added sent [])
    (inserted : network.insert? set value = some (isNew, after))
    : after.Tallied added (sent ++ (Step.insert set value).firings network) [] := by
  rw [Network.insert?] at inserted
  split at inserted
  · cases inserted
  · next reached =>
      obtain ⟨-, rfl⟩ := Prod.mk.inj (Option.some.inj inserted)
      obtain rfl := eq_of_add?_old reached
      simp only [Step.firings, reached, List.append_nil]
      exact tallied
  · next middle reached =>
      obtain ⟨last, passed, same⟩ := Option.map_eq_some_iff.mp inserted
      obtain ⟨-, rfl⟩ := Prod.mk.inj same
      have gained := tallied.gain (gained_of_add? reached)
      have pending : middle.Tallied added sent (waiting added value [set]) := by
        rw [waiting, List.flatMap_singleton]
        rw [List.append_nil] at gained
        exact gained
      simp only [Step.firings, reached]
      exact pending.settle passed

/-- Seeding sends what inserting sends, or nothing. -/
theorem seed (tallied : network.Tallied added sent []) (set : Nat) (value : α)
    : ∃ more, (network.seed set value).Tallied added more [] := by
  rw [Network.seed]
  split
  · next inserted => exact ⟨_, tallied.insert inserted⟩
  · exact ⟨sent, tallied⟩

theorem seedAll (tallied : network.Tallied added sent []) (given : List (Nat × α))
    : ∃ more,
        (given.foldl (fun network entry => network.seed entry.1 entry.2) network).Tallied
          added more [] := by
  induction given generalizing network sent with
  | nil => exact ⟨sent, tallied⟩
  | cons entry given ih =>
      obtain ⟨more, seeded⟩ := tallied.seed entry.1 entry.2
      exact ih seeded

/-- A network without values or edges that has counted nothing. -/
theorem of_empty (edges : ∀ set, network.edges.getD set [] = [])
    (empty : ∀ set, network.get set = []) (inserted : network.inserted = 0)
    (fired : network.fired = 0)
    : network.Tallied [] [] [] where
  wired := edges
  distinct := by
    intro set
    rw [empty]
    exact List.nodup_nil
  inserted := by simp [inserted, population, empty]
  fired := fired
  balance := .refl _

/-- A set without values or edges changes no count. -/
theorem addSet (tallied : network.Tallied added sent awaited)
    : network.addSet.Tallied added sent awaited where
  wired := by
    intro set
    rw [Network.addSet, getD_push_nil]
    exact tallied.wired set
  distinct := by
    intro set
    rw [get_addSet]
    exact tallied.distinct set
  inserted := by
    have beyond : network.get network.setCount = [] := by
      simp [Network.get, Network.setCount, Array.getD_eq_getD_getElem?]
    have setCount : network.addSet.setCount = network.setCount + 1 := Array.size_push _
    rw [population, setCount, Finset.sum_range_succ, get_addSet, beyond]
    simp only [get_addSet]
    exact tallied.inserted
  fired := tallied.fired
  balance := by
    have same : network.addSet.carried = network.carried := by
      funext entry
      rw [Network.carried, get_addSet, Network.carried]
    rw [due, same]
    exact tallied.balance

/-- An edge out of an empty set calls for nothing. -/
theorem addEdge {source : Nat} (edge : Edge α) (tallied : network.Tallied added sent awaited)
    (listed : source < network.edges.size) (empty : network.get source = [])
    : (network.addEdge source edge.target edge.excluded).Tallied (added ++ [(source, edge)])
        sent awaited where
  wired := by
    intro set
    have wired := tallied.wired set
    simp only [Network.addEdge, Array.getD_eq_getD_getElem?, Array.getElem?_modify, outgoing,
      List.filter_append, List.map_append] at wired ⊢
    by_cases same : source = set
    · subst set
      simp [listed, ← wired]
    · simp [same, wired]
  distinct := tallied.distinct
  inserted := tallied.inserted
  fired := tallied.fired
  balance := by
    have nothing : network.carried (source, edge) = [] := by simp [Network.carried, empty]
    have same : network.due (added ++ [(source, edge)]) = network.due added := by
      rw [due, List.flatMap_append, List.flatMap_singleton, nothing, List.append_nil, due]
    exact same ▸ tallied.balance

/-- Edges added one after the other to a network without values, by induction on them. -/
theorem addEdges {given : List (Nat × Edge α)} (tallied : network.Tallied added sent awaited)
    (empty : ∀ set, network.get set = []) (inside : ∀ entry ∈ given, entry.1 < network.edges.size)
    : (given.foldl (fun network entry =>
        network.addEdge entry.1 entry.2.target entry.2.excluded) network).Tallied
          (added ++ given) sent awaited := by
  induction given generalizing network added with
  | nil =>
      rw [List.append_nil]
      exact tallied
  | cons entry given ih =>
      obtain ⟨source, edge⟩ := entry
      have counted := tallied.addEdge edge (inside _ List.mem_cons_self) (empty source)
      have still : ∀ entry ∈ given,
          entry.1 < (network.addEdge source edge.target edge.excluded).edges.size := by
        intro entry member
        have inside := inside entry (List.mem_cons_of_mem _ member)
        simpa [Network.addEdge] using inside
      rw [List.append_cons]
      exact ih counted empty still

/-- A step that was taken, and that added an edge only where the source was empty, is counted. -/
theorem take {step : Step α} (tallied : network.Tallied added sent [])
    (taken : step.take? network = some after)
    (empty : ∀ source edge, step = .addEdge source edge → network.get source = [])
    : after.Tallied (added ++ step.edge?.toList) (sent ++ step.firings network) [] := by
  cases step with
  | addSet =>
      obtain rfl := Option.some.inj taken
      simpa [Step.edge?, Step.firings] using tallied.addSet
  | addEdge source edge =>
      rw [Step.take?, addEdge?] at taken
      split at taken
      · next listed =>
          obtain rfl := Option.some.inj taken
          simpa [Step.edge?, Step.firings] using tallied.addEdge edge listed (empty source edge rfl)
      · cases taken
  | insert set value =>
      obtain ⟨⟨isNew, _⟩, inserted, rfl⟩ := Option.map_eq_some_iff.mp taken
      simpa [Step.edge?] using tallied.insert inserted

end Tallied

----------------------------------------------------------------------------------------------
-- Whole runs
----------------------------------------------------------------------------------------------

/-- Steps that were taken, with no edge after a value, are mirrored and counted. By induction on the
steps, after others that were taken before.
-/
theorem Tallied.takeAll {network last : Network α} {taken steps : List (Step α)}
    {sent : List (Firing α)} (mirrors : network.Mirrors taken)
    (tallied : network.Tallied (taken.filterMap Step.edge?) sent [])
    (edgesFirst : EdgesFirst (taken ++ steps)) (ran : network.takeAll? steps = some last)
    : last.Mirrors (taken ++ steps)
      ∧ last.Tallied ((taken ++ steps).filterMap Step.edge?) (sent ++ network.firings steps)
          [] := by
  induction steps generalizing network taken sent with
  | nil =>
      obtain rfl := Option.some.inj ran
      rw [List.append_nil, firings, List.append_nil]
      exact ⟨mirrors, tallied⟩
  | cons step steps ih =>
      obtain ⟨after, stepTaken, othersTaken⟩ := Option.bind_eq_some_iff.mp ran
      have empty : ∀ source edge, step = .addEdge source edge → network.get source = [] := by
        intro source edge isEdge
        refine mirrors.get_eq_nil ?_ source
        intro earlier member
        have across := (List.pairwise_append.mp edgesFirst).2.2
        have apart := across earlier member step List.mem_cons_self
        rw [isEdge] at apart
        cases inserts : earlier.isInsert with
        | false => rfl
        | true => cases apart inserts
      have counted := tallied.take stepTaken empty
      have edges : taken.filterMap Step.edge? ++ step.edge?.toList
          = (taken ++ [step]).filterMap Step.edge? := by
        rw [List.filterMap_append]
        cases added : step.edge? with
        | none => simp [added]
        | some entry => simp [added]
      rw [edges] at counted
      rw [List.append_cons] at edgesFirst
      have result := ih (mirrors.take stepTaken empty) counted edgesFirst othersTaken
      have firings_cons : network.firings (step :: steps)
          = step.firings network ++ after.firings steps := by
        rw [firings, stepTaken]
        rfl
      rw [List.append_cons, firings_cons, ← List.append_assoc]
      exact result

/-- The counters of a network after steps: each value of each set was inserted once, each edge that
the steps add fired once for each value of its source that it does not exclude, and inserting a
value again does nothing.
-/
structure CountsExactly (network : Network α) (steps : List (Step α)) : Prop where
  inserted
    : network.inserted = ∑ set ∈ Finset.range network.setCount, (network.get set).toFinset.card
  fired
    : network.fired
      = ((steps.filterMap Step.edge?).map fun entry =>
          {value ∈ (network.get entry.1).toFinset | value ∉ entry.2.excluded}.card).sum
  fired_eq : network.fired = (firings {} steps).length
  once : (firings {} steps).Perm (network.due (steps.filterMap Step.edge?))
  again : ∀ set, ∀ value ∈ network.get set, network.insert? set value = some (false, network)

theorem Tallied.inserted_eq {network : Network α} {added : List (Nat × Edge α)}
    {sent awaited : List (Firing α)} (tallied : network.Tallied added sent awaited)
    : network.inserted
      = ∑ set ∈ Finset.range network.setCount, (network.get set).toFinset.card := by
  rw [tallied.inserted, population]
  apply Finset.sum_congr rfl
  intro set _
  rw [List.toFinset_card_of_nodup (tallied.distinct set)]

theorem Tallied.fired_eq {network : Network α} {added : List (Nat × Edge α)}
    {sent : List (Firing α)} (tallied : network.Tallied added sent [])
    : network.fired
      = (added.map fun entry =>
          {value ∈ (network.get entry.1).toFinset | value ∉ entry.2.excluded}.card).sum := by
  have balance := tallied.balance.length_eq
  rw [List.append_nil] at balance
  rw [tallied.fired, balance, due, List.length_flatMap]
  congr 2
  funext entry
  have distinct := (tallied.distinct entry.1).filter fun value => decide (value ∉ entry.2.excluded)
  rw [carried, List.length_map, ← List.toFinset_card_of_nodup distinct, List.toFinset_filter]
  simp

theorem countsExactly_of_takeAll? {network : Network α} {steps : List (Step α)}
    (edgesFirst : EdgesFirst steps) (ran : takeAll? {} steps = some network)
    : network.Mirrors steps ∧ network.CountsExactly steps := by
  have start : ({} : Network α).Tallied [] [] [] := by
    apply Tallied.of_empty
    · simp [Array.getD_eq_getD_getElem?]
    · simp [get, Array.getD_eq_getD_getElem?]
    · rfl
    · rfl
  obtain ⟨mirrors, tallied⟩ := start.takeAll mirrors_empty edgesFirst ran
  have once := tallied.balance
  rw [List.append_nil] at once
  refine ⟨mirrors, tallied.inserted_eq, tallied.fired_eq, tallied.fired, once, ?_⟩
  intro set value held
  simp only [insert?, add?_held held]

/-- The counters are those of the sets and the edges, so steps with the same parts count alike. -/
theorem CountsExactly.congr {left right : Network α} {steps others : List (Step α)}
    (leftCounts : left.CountsExactly steps) (rightCounts : right.CountsExactly others)
    (leftMirrors : left.Mirrors steps) (rightMirrors : right.Mirrors others)
    (same : SameParts steps others)
    : right.inserted = left.inserted ∧ right.fired = left.fired := by
  have sets : ∀ set, (right.get set).toFinset = (left.get set).toFinset := by
    intro set
    ext value
    rw [List.mem_toFinset, List.mem_toFinset]
    exact (same.holds_iff leftMirrors.holdsLeast rightMirrors.holdsLeast set value).symm
  have setCount : right.setCount = left.setCount := by
    rw [leftMirrors.setCount, rightMirrors.setCount]
    exact same.sets.symm
  constructor
  · simp only [leftCounts.inserted, rightCounts.inserted, sets, setCount]
  · simp only [leftCounts.fired, rightCounts.fired, sets]
    exact (same.edges.symm.map _).sum_eq

end TreeTiling.Network

namespace TreeTiling.Liveness

----------------------------------------------------------------------------------------------
-- Propagations
----------------------------------------------------------------------------------------------

variable {graph : FlowGraph}

/-- The computed network fired once for each edge and each register that passes it. -/
theorem compute_tallied (closed : graph.Closed)
    : ∃ sent,
        (compute graph).network.Tallied (graph.nodes.flatMap (nodeEdges graph)) sent [] := by
  have start : (Network.ofSize (2 * graph.size) : Network Temp).Tallied [] [] [] := by
    apply Network.Tallied.of_empty
    · exact getD_empty _
    · exact getD_empty _
    · rfl
    · rfl
  have wired := start.addEdges (getD_empty _) (nodesEdges_inside closed)
  rw [← wire_eq, List.nil_append] at wired
  rw [network_compute]
  exact wired.seedAll _

/-- A sum over what each number below a bound lists is a sum of sums. -/
theorem sum_flatMap_range {β : Type} (size : Nat) (items : Nat → List β) (weight : β → Nat)
    : (((List.range size).flatMap items).map weight).sum
      = ∑ place ∈ Finset.range size, ((items place).map weight).sum := by
  induction size with
  | zero => rfl
  | succ size ih =>
      rw [List.range_succ, List.flatMap_append, List.map_append, List.sum_append, ih,
        List.flatMap_singleton, Finset.sum_range_succ]

/-- Registers pass from after a node to before it unless the node writes them, and from before a
node to after each node that control comes from.
-/
theorem propagations_eq (closed : graph.Closed)
    : (compute graph).propagations
      = ∑ node ∈ Finset.range graph.size,
          (((compute graph).liveOut node).toFinset \ (graph.defs node).toFinset).card
        + ∑ node ∈ Finset.range graph.size,
            ((graph.successors node).map fun next =>
              ((compute graph).liveIn next).toFinset.card).sum := by
  obtain ⟨sent, tallied⟩ := compute_tallied closed
  rw [propagations, tallied.fired_eq, FlowGraph.nodes, sum_flatMap_range,
    ← Finset.sum_add_distrib]
  apply Finset.sum_congr rfl
  intro node _
  rw [nodeEdges, List.map_cons, List.sum_cons, List.map_map]
  congr 1
  · congr 1
    ext register
    simp [liveOut]
  · congr 2
    funext next
    simp [liveIn]

/-- The session gains the propagations of the liveness it computes, and no other count. -/
theorem stats_analyse (session : Session) (instrs : Array Instr)
    : (session.analyse instrs).2.stats
      = session.stats.recordPropagations (compute (FlowGraph.build instrs)).propagations := by
  have logged : ∀ (entries : List (Label × Instr)) (event : Label × Instr → Event)
      (session : Session),
      (entries.foldl (fun session entry => session.log (event entry)) session).stats
        = session.stats := by
    intro entries event session
    induction entries generalizing session with
    | nil => rfl
    | cons entry entries ih => exact ih _
  show Stats.recordPropagations _ _ = _
  congr 1
  exact logged _ (fun entry => .unresolved entry.1 entry.2) session

end TreeTiling.Liveness

namespace TreeTiling.Network

/-- Where no edge is added after a value, the counters are exact, and they are the same for the same
parts in any other such order. The propagations of liveness are what its two kinds of edges carry,
and the session counts just these.
-/
theorem propagation_counters_exact
    : (∀ {α : Type} [DecidableEq α] {steps : List (Step α)},
        EdgesFirst steps
        → (Orderly {} steps → ∃ network, takeAll? {} steps = some network)
          ∧ ∀ network,
              takeAll? {} steps = some network
              → network.CountsExactly steps
                ∧ ∀ others other,
                    EdgesFirst others
                    → SameParts steps others
                    → takeAll? {} others = some other
                    → other.inserted = network.inserted ∧ other.fired = network.fired)
      ∧ ∀ (session : Session) (instrs : Array Instr),
          let graph := FlowGraph.build instrs
          let liveness := Liveness.compute graph
          (liveness.propagations
            = ∑ node ∈ Finset.range graph.size,
                ((liveness.liveOut node).toFinset \ (graph.defs node).toFinset).card
              + ∑ node ∈ Finset.range graph.size,
                  ((graph.successors node).map fun next =>
                    (liveness.liveIn next).toFinset.card).sum)
          ∧ (session.analyse instrs).1 = liveness
          ∧ (session.analyse instrs).2.stats
            = { session.stats with
                propagations := session.stats.propagations + liveness.propagations } := by
  constructor
  · intro α _ steps edgesFirst
    constructor
    · intro orderly
      obtain ⟨network, ran, -⟩ := reflects_empty.takeAll? orderly steps.length
      rw [List.take_length] at ran
      exact ⟨network, ran⟩
    · intro network ran
      obtain ⟨mirrors, counts⟩ := countsExactly_of_takeAll? edgesFirst ran
      refine ⟨counts, ?_⟩
      intro others other othersFirst same othersRan
      obtain ⟨othersMirrors, othersCounts⟩ := countsExactly_of_takeAll? othersFirst othersRan
      exact counts.congr othersCounts mirrors othersMirrors same
  · intro session instrs
    have closed := FlowGraph.build_closed instrs
    exact ⟨Liveness.propagations_eq closed, rfl, Liveness.stats_analyse session instrs⟩

/-- A cycle of two sets, with two equal edges one way and an edge that holds a value back the other
way. A value comes twice.
-/
def doubledCycle : List (Step Nat) :=
  [.addSet, .addSet, .addEdge 0 ⟨1, []⟩, .addEdge 0 ⟨1, []⟩, .addEdge 1 ⟨0, [5]⟩, .insert 0 7,
    .insert 1 5, .insert 1 7]

/-- The same parts in another order. -/
def doubledCycleTurned : List (Step Nat) :=
  [.addSet, .addSet, .addEdge 1 ⟨0, [5]⟩, .addEdge 0 ⟨1, []⟩, .addEdge 0 ⟨1, []⟩, .insert 1 7,
    .insert 1 5, .insert 0 7]

/-- Both orders count three values and three firings: the two equal edges pass one value each, and
so does the edge back.
-/
theorem doubledCycle_counted
    : ∃ network other,
        takeAll? {} doubledCycle = some network
        ∧ takeAll? {} doubledCycleTurned = some other
        ∧ network.CountsExactly doubledCycle
        ∧ network.inserted = 3
        ∧ network.fired = 3
        ∧ other.inserted = 3
        ∧ other.fired = 3 := by
  have edgesFirst : EdgesFirst doubledCycle := by
    unfold EdgesFirst
    decide
  have turnedFirst : EdgesFirst doubledCycleTurned := by
    unfold EdgesFirst
    decide
  have same : SameParts doubledCycle doubledCycleTurned := by
    refine ⟨by decide, ?_, ?_⟩
    · exact (List.Perm.swap _ _ []).cons _ |>.trans (List.Perm.swap _ _ _)
    · simp only [doubledCycle, doubledCycleTurned, List.mem_cons, List.not_mem_nil]
      grind
  obtain ⟨network, ran⟩ := (propagation_counters_exact.1 edgesFirst).1 (by decide +kernel)
  obtain ⟨other, turnedRan⟩ := (propagation_counters_exact.1 turnedFirst).1 (by decide +kernel)
  obtain ⟨counts, alike⟩ := (propagation_counters_exact.1 edgesFirst).2 network ran
  obtain ⟨insertedAlike, firedAlike⟩ := alike _ other turnedFirst same turnedRan
  have counted : (takeAll? {} doubledCycle).map (fun network => (network.inserted, network.fired))
      = some (3, 3) := by
    decide +kernel
  rw [ran] at counted
  obtain ⟨inserted, fired⟩ := Prod.mk.inj (Option.some.inj counted)
  rw [inserted] at insertedAlike
  rw [fired] at firedAlike
  exact ⟨network, other, ran, turnedRan, counts, inserted, fired, insertedAlike, firedAlike⟩

end TreeTiling.Network
