import TreeTiling.Proofs.Flow.Closure

/-!
Networks that are put together in any order: sets, edges and values are added as they come, and an
edge only while its source is empty.

After every step the network holds the least family that has the values inserted so far and is
closed under the edges added so far. That family is the same in whatever order the steps are taken,
so the sets are too.
-/

namespace TreeTiling.Network

variable {α : Type}

----------------------------------------------------------------------------------------------
-- Steps
----------------------------------------------------------------------------------------------

/-- A step in which a network is put together. -/
inductive Step (α : Type) where
  | addSet
  | addEdge (source : Nat) (edge : Edge α)
  | insert (set : Nat) (value : α)

namespace Step

def isAddSet : Step α → Bool
  | addSet => true
  | _ => false

/-- The edge that a step adds, with its source. -/
def edge? : Step α → Option (Nat × Edge α)
  | addEdge source edge => some (source, edge)
  | _ => none

/-- Takes a step; there is no result if it names a set that does not exist. -/
def take? [DecidableEq α] (network : Network α) : Step α → Option (Network α)
  | addSet => some network.addSet
  | addEdge source edge => network.addEdge? source edge.target edge.excluded
  | insert set value => (network.insert? set value).map Prod.snd

/-- A step names only sets that exist, and adds an edge only where the source is empty. -/
def Permitted (network : Network α) : Step α → Prop
  | addSet => True
  | addEdge source edge =>
      source < network.setCount ∧ edge.target < network.setCount ∧ network.get source = []
  | insert set _ => set < network.setCount

end Step

/-- Takes steps one after the other. -/
def takeAll? [DecidableEq α] : Network α → List (Step α) → Option (Network α)
  | network, [] => some network
  | network, step :: steps => (step.take? network).bind fun after => after.takeAll? steps

/-- Every step is permitted when its turn comes. -/
def Orderly [DecidableEq α] : Network α → List (Step α) → Prop
  | _, [] => True
  | network, step :: steps =>
      step.Permitted network ∧ ∀ after ∈ step.take? network, after.Orderly steps

instance (network : Network α) [DecidableEq α]
    : (step : Step α) → Decidable (step.Permitted network)
  | .addSet => inferInstanceAs (Decidable True)
  | .addEdge source edge =>
      inferInstanceAs (Decidable
        (source < network.setCount ∧ edge.target < network.setCount ∧ network.get source = []))
  | .insert set _ => inferInstanceAs (Decidable (set < network.setCount))

instance decidableOrderly [DecidableEq α]
    : (network : Network α) → (steps : List (Step α)) → Decidable (network.Orderly steps)
  | _, [] => inferInstanceAs (Decidable True)
  | network, step :: steps =>
      have : DecidablePred fun after : Network α => after.Orderly steps :=
        fun after => decidableOrderly after steps
      inferInstanceAs (Decidable
        (step.Permitted network ∧ ∀ after ∈ step.take? network, after.Orderly steps))

----------------------------------------------------------------------------------------------
-- The least family
----------------------------------------------------------------------------------------------

/-- A family of sets has the values that steps insert and is closed under the edges they add. -/
structure Satisfies (steps : List (Step α)) (family : Nat → α → Prop) : Prop where
  values : ∀ set value, .insert set value ∈ steps → family set value
  edges
    : ∀ source edge value,
        .addEdge source edge ∈ steps
        → family source value
        → value ∉ edge.excluded
        → family edge.target value

/-- A network holds the least family that satisfies steps. -/
structure HoldsLeast (network : Network α) (steps : List (Step α)) : Prop where
  satisfies : Satisfies steps network.Holds
  least : ∀ family, Satisfies steps family → network.Within family

/-- What a network is after steps: it has the sets and the edges they add, and is settled with the
values they insert.
-/
structure Mirrors (network : Network α) (steps : List (Step α)) : Prop where
  setCount : network.setCount = steps.countP Step.isAddSet
  edgeLists : network.edges.size = network.sets.size
  hasEdge_iff
    : ∀ {source : Nat} {edge : Edge α},
        network.HasEdge source edge ↔ .addEdge source edge ∈ steps
  settled : network.Settled fun set value => .insert set value ∈ steps

/-- What a network is after steps whose edges all lead to sets that exist. -/
structure Reflects (network : Network α) (steps : List (Step α)) : Prop
    extends Mirrors network steps where
  targets : network.TargetsExist

/-- A network that mirrors steps holds the least family that satisfies them; witness: all that it
holds follows from the values along the edges.
-/
theorem Mirrors.holdsLeast {network : Network α} {steps : List (Step α)}
    (mirrors : network.Mirrors steps)
    : network.HoldsLeast steps where
  satisfies := by
    constructor
    · intro set value given
      exact mirrors.settled.holds_iff.mpr (.seed given)
    · intro source edge value added holds passes
      exact mirrors.settled.closes (mirrors.hasEdge_iff.mpr added) holds passes
  least := by
    intro family satisfies set value holds
    have derived := mirrors.settled.holds_iff.mp holds
    refine derived.least ?_ fun given => satisfies.values _ _ given
    intro source edge value hasEdge member passes
    exact satisfies.edges source edge value (mirrors.hasEdge_iff.mp hasEdge) member passes

----------------------------------------------------------------------------------------------
-- One step
----------------------------------------------------------------------------------------------

/-- Settled networks with the same values, and with edges that add nothing to them, are settled
alike.
-/
theorem Settled.rewired {before after : Network α} {seeds : Nat → α → Prop}
    (settled : before.Settled seeds)
    (same : ∀ {set : Nat} {value : α}, after.Holds set value ↔ before.Holds set value)
    (kept
      : ∀ {source : Nat} {edge : Edge α}, before.HasEdge source edge → after.HasEdge source edge)
    (added
      : ∀ {source : Nat} {edge : Edge α} {value : α},
          after.HasEdge source edge → before.Holds source value → before.HasEdge source edge)
    : after.Settled seeds where
  holds_iff := by
    intro set value
    rw [same, settled.holds_iff]
    constructor
    · intro derived
      refine derived.least ?_ .seed
      intro source edge value hasEdge member passes
      exact .pass member (kept hasEdge) passes
    · intro derived
      refine derived.least ?_ .seed
      intro source edge value hasEdge member passes
      have held := settled.holds_iff.mpr member
      exact .pass member (added hasEdge held) passes

/-- A table reads the same with an empty list at its end. -/
theorem getD_push_nil {β : Type} (table : Array (List β)) (place : Nat)
    : (table.push []).getD place [] = table.getD place [] := by
  simp only [Array.getD_eq_getD_getElem?, Array.getElem?_push]
  split
  · next same => simp [same]
  · rfl

theorem get_addSet (network : Network α) (set : Nat) : network.addSet.get set = network.get set :=
  getD_push_nil network.sets set

theorem holds_addSet {network : Network α} {set : Nat} {value : α}
    : network.addSet.Holds set value ↔ network.Holds set value := by
  rw [Holds, get_addSet, Holds]

theorem hasEdge_addSet {network : Network α} {source : Nat} {edge : Edge α}
    : network.addSet.HasEdge source edge ↔ network.HasEdge source edge := by
  rw [HasEdge, addSet, getD_push_nil, HasEdge]

theorem Mirrors.addSet {network : Network α} {steps : List (Step α)}
    (mirrors : network.Mirrors steps)
    : network.addSet.Mirrors (steps ++ [.addSet]) where
  setCount := by
    have count := mirrors.setCount
    simp only [Network.setCount] at count
    simp [Network.setCount, Network.addSet, Step.isAddSet, count]
  edgeLists := by simp [Network.addSet, mirrors.edgeLists]
  hasEdge_iff := by
    intro source edge
    rw [hasEdge_addSet, mirrors.hasEdge_iff]
    simp
  settled := by
    have settled := mirrors.settled.rewired holds_addSet hasEdge_addSet.mpr
      fun hasEdge _ => hasEdge_addSet.mp hasEdge
    simpa using settled

/-- An edge out of an empty set brings its target nothing. -/
theorem Mirrors.addEdge {network : Network α} {steps : List (Step α)} {source : Nat}
    {edge : Edge α} (mirrors : network.Mirrors steps) (listed : source < network.edges.size)
    (empty : network.get source = [])
    : (network.addEdge source edge.target edge.excluded).Mirrors (steps ++ [.addEdge source edge])
    where
  setCount := by
    rw [List.countP_append]
    exact mirrors.setCount
  edgeLists := by simp [Network.addEdge, mirrors.edgeLists]
  hasEdge_iff := by
    intro other added
    rw [hasEdge_addEdge listed, mirrors.hasEdge_iff]
    simp
  settled := by
    have added : ∀ {other : Nat} {added : Edge α} {value : α},
        (network.addEdge source edge.target edge.excluded).HasEdge other added
        → network.Holds other value
        → network.HasEdge other added := by
      intro other added value hasEdge holds
      rcases (hasEdge_addEdge listed).mp hasEdge with before | ⟨same, -⟩
      · exact before
      · rw [Holds, same, empty] at holds
        cases holds
    have settled
        : (network.addEdge source edge.target edge.excluded).Settled
            (fun set value => .insert set value ∈ steps) :=
      mirrors.settled.rewired Iff.rfl
        (fun hasEdge => (hasEdge_addEdge listed).mpr (.inl hasEdge)) added
    simpa using settled

theorem mirrors_empty : ({} : Network α).Mirrors [] where
  setCount := rfl
  edgeLists := rfl
  hasEdge_iff := by simp [HasEdge, Array.getD_eq_getD_getElem?]
  settled := by
    have settled : ({} : Network α).Settled fun _ _ => False := by
      apply settled_of_empty
      simp [Holds, get, Array.getD_eq_getD_getElem?]
    simpa using settled

theorem reflects_empty : ({} : Network α).Reflects [] where
  toMirrors := mirrors_empty
  targets := by
    intro source edge hasEdge
    simp [HasEdge, Array.getD_eq_getD_getElem?] at hasEdge

section

variable [DecidableEq α]

theorem Mirrors.insert {network after : Network α} {steps : List (Step α)} {set : Nat} {value : α}
    {isNew : Bool} (mirrors : network.Mirrors steps)
    (inserted : network.insert? set value = some (isNew, after))
    : after.Mirrors (steps ++ [.insert set value]) := by
  obtain ⟨grows, settled⟩ := mirrors.settled.insert inserted
  refine ⟨?_, ?_, ?_, ?_⟩
  · rw [List.countP_append]
    exact grows.size.trans mirrors.setCount
  · rw [grows.edges, grows.size]
    exact mirrors.edgeLists
  · intro source edge
    rw [grows.hasEdge_iff, mirrors.hasEdge_iff]
    simp
  · have seeds : (fun other item => .insert other item ∈ steps ++ [.insert set value])
        = withSeed (fun other item => .insert other item ∈ steps) set value := by
      funext other item
      simp [withSeed]
    rw [seeds]
    exact settled

/-- A step that was taken, and that added an edge only where the source was empty, is mirrored. -/
theorem Mirrors.take {network after : Network α} {steps : List (Step α)} {step : Step α}
    (mirrors : network.Mirrors steps) (taken : step.take? network = some after)
    (empty : ∀ source edge, step = .addEdge source edge → network.get source = [])
    : after.Mirrors (steps ++ [step]) := by
  cases step with
  | addSet =>
      obtain rfl := Option.some.inj taken
      exact mirrors.addSet
  | addEdge source edge =>
      rw [Step.take?, addEdge?] at taken
      split at taken
      · next listed =>
          obtain rfl := Option.some.inj taken
          exact mirrors.addEdge listed (empty source edge rfl)
      · cases taken
  | insert set value =>
      obtain ⟨⟨isNew, _⟩, inserted, rfl⟩ := Option.map_eq_some_iff.mp taken
      exact mirrors.insert inserted

/-- A permitted step can be taken, and the network reflects it. -/
theorem Reflects.take? {network : Network α} {steps : List (Step α)} {step : Step α}
    (reflects : network.Reflects steps) (permitted : step.Permitted network)
    : ∃ after, step.take? network = some after ∧ after.Reflects (steps ++ [step]) := by
  cases step with
  | addSet =>
      refine ⟨network.addSet, rfl, reflects.addSet, ?_⟩
      intro source edge hasEdge
      have inside := reflects.targets (hasEdge_addSet.mp hasEdge)
      simp only [Network.addSet, Array.size_push]
      omega
  | addEdge source edge =>
      obtain ⟨inside, targetInside, empty⟩ := permitted
      have listed : source < network.edges.size := reflects.edgeLists ▸ inside
      refine ⟨_, by simp [Step.take?, addEdge?, listed], reflects.addEdge listed empty, ?_⟩
      intro other added hasEdge
      rcases (hasEdge_addEdge listed).mp hasEdge with before | ⟨-, same⟩
      · exact reflects.targets before
      · rw [same]
        exact targetInside
  | insert set value =>
      obtain ⟨isNew, after, inserted⟩ := insert?_total reflects.targets permitted value
      have grows := (reflects.settled.insert inserted).1
      exact ⟨after, by simp [Step.take?, inserted], reflects.insert inserted,
        grows.targetsExist reflects.targets⟩

----------------------------------------------------------------------------------------------
-- Any number of steps
----------------------------------------------------------------------------------------------

/-- Steps in order can be taken up to any of them, and the network then reflects those taken. By
induction on the steps, after others that were taken before.
-/
theorem Reflects.takeAll? {network : Network α} {taken steps : List (Step α)}
    (reflects : network.Reflects taken) (orderly : network.Orderly steps) (count : Nat)
    : ∃ after,
        network.takeAll? (steps.take count) = some after
        ∧ after.Reflects (taken ++ steps.take count) := by
  induction steps generalizing network taken count with
  | nil => exact ⟨network, by simp [Network.takeAll?], by simpa using reflects⟩
  | cons step steps ih =>
      cases count with
      | zero => exact ⟨network, rfl, by simpa using reflects⟩
      | succ count =>
          obtain ⟨middle, stepTaken, reflectsMiddle⟩ := reflects.take? orderly.1
          obtain ⟨after, othersTaken, reflectsAfter⟩ :=
            ih reflectsMiddle (orderly.2 middle stepTaken) count
          refine ⟨after, ?_, ?_⟩
          · rw [List.take_succ_cons, Network.takeAll?, stepTaken]
            exact othersTaken
          · simpa using reflectsAfter

end

----------------------------------------------------------------------------------------------
-- The order of steps
----------------------------------------------------------------------------------------------

/-- Two lists of steps add as many sets and, in any order, the same edges as often, and insert the
same values.
-/
structure SameParts (left right : List (Step α)) : Prop where
  sets : left.countP Step.isAddSet = right.countP Step.isAddSet
  edges : (left.filterMap Step.edge?).Perm (right.filterMap Step.edge?)
  values : ∀ set value, .insert set value ∈ left ↔ .insert set value ∈ right

theorem mem_edges {steps : List (Step α)} {source : Nat} {edge : Edge α}
    : (source, edge) ∈ steps.filterMap Step.edge? ↔ .addEdge source edge ∈ steps := by
  rw [List.mem_filterMap]
  constructor
  · intro found
    obtain ⟨step, member, adds⟩ := found
    cases step with
    | addEdge other added =>
        obtain ⟨rfl, rfl⟩ := Prod.mk.inj (Option.some.inj adds)
        exact member
    | addSet | insert => cases adds
  · intro member
    exact ⟨_, member, rfl⟩

/-- What satisfies steps satisfies the same parts in another order. -/
theorem SameParts.satisfies {left right : List (Step α)} (same : SameParts left right)
    {family : Nat → α → Prop} (satisfies : Satisfies left family)
    : Satisfies right family where
  values := by
    intro set value given
    exact satisfies.values set value ((same.values set value).mpr given)
  edges := by
    intro source edge value added
    have member := same.edges.mem_iff.mpr (mem_edges.mpr added)
    exact satisfies.edges source edge value (mem_edges.mp member)

theorem SameParts.symm {left right : List (Step α)} (same : SameParts left right)
    : SameParts right left :=
  ⟨same.sets.symm, same.edges.symm, fun set value => (same.values set value).symm⟩

/-- Networks that hold the least families of the same parts hold the same. -/
theorem SameParts.holds_iff {steps others : List (Step α)} (same : SameParts steps others)
    {left right : Network α} (leftLeast : left.HoldsLeast steps)
    (rightLeast : right.HoldsLeast others) (set : Nat) (value : α)
    : left.Holds set value ↔ right.Holds set value := by
  constructor
  · exact leftLeast.least _ (same.symm.satisfies rightLeast.satisfies) set value
  · exact rightLeast.least _ (same.satisfies leftLeast.satisfies) set value

/-- Steps that are permitted in their order can all be taken. After each of them the network has the
sets they added, and these are the least family that has the values inserted so far and is closed
under the edges added so far. The same parts in any other permitted order give equal sets.
-/
theorem settles_in_any_order [DecidableEq α] {steps : List (Step α)}
    (orderly : Orderly {} steps)
    : (∀ count, ∃ network,
        takeAll? {} (steps.take count) = some network
        ∧ network.setCount = (steps.take count).countP Step.isAddSet
        ∧ network.HoldsLeast (steps.take count))
      ∧ ∀ others,
          Orderly {} others
          → SameParts steps others
          → ∃ left right,
              takeAll? {} steps = some left
              ∧ takeAll? {} others = some right
              ∧ left.setCount = right.setCount
              ∧ ∀ set value, value ∈ left.get set ↔ value ∈ right.get set := by
  have after {taken : List (Step α)} (orderly : Orderly {} taken) (count : Nat) :=
    reflects_empty.takeAll? orderly count
  constructor
  · intro count
    obtain ⟨network, taken, reflects⟩ := after orderly count
    exact ⟨network, taken, reflects.setCount, reflects.holdsLeast⟩
  · intro others othersOrderly same
    obtain ⟨left, leftTaken, leftReflects⟩ := after orderly steps.length
    obtain ⟨right, rightTaken, rightReflects⟩ := after othersOrderly others.length
    rw [List.take_length] at leftTaken leftReflects rightTaken rightReflects
    refine ⟨left, right, leftTaken, rightTaken, ?_, ?_⟩
    · rw [leftReflects.setCount, rightReflects.setCount]
      exact same.sets
    · exact same.holds_iff leftReflects.holdsLeast rightReflects.holdsLeast

/-- A cycle of two sets in which one edge holds a value back. -/
def cycleSteps : List (Step Nat) :=
  [.addSet, .addSet, .addEdge 0 ⟨1, []⟩, .addEdge 1 ⟨0, [5]⟩, .insert 0 7, .insert 1 5]

/-- The same cycle, where the value that is held back comes before the other edge. -/
def cycleStepsLate : List (Step Nat) :=
  [.addSet, .addSet, .addEdge 1 ⟨0, [5]⟩, .insert 1 5, .addEdge 0 ⟨1, []⟩, .insert 0 7]

/-- Both orders can be taken, and the sets they end with are equal. -/
theorem cycleSteps_settle_alike
    : Orderly {} cycleSteps
      ∧ Orderly {} cycleStepsLate
      ∧ (∃ network, takeAll? {} cycleSteps = some network ∧ network.HoldsLeast cycleSteps)
      ∧ ∃ left right,
          takeAll? {} cycleSteps = some left
          ∧ takeAll? {} cycleStepsLate = some right
          ∧ ∀ set value, value ∈ left.get set ↔ value ∈ right.get set := by
  have orderly : Orderly {} cycleSteps := by decide +kernel
  have orderlyLate : Orderly {} cycleStepsLate := by decide +kernel
  have same : SameParts cycleSteps cycleStepsLate := by
    refine ⟨by decide, ?_, ?_⟩
    · exact List.Perm.swap _ _ _
    · simp [cycleSteps, cycleStepsLate, or_comm]
  obtain ⟨settled, alike⟩ := settles_in_any_order orderly
  obtain ⟨network, taken, -, least⟩ := settled 6
  obtain ⟨left, right, leftTaken, rightTaken, -, equal⟩ := alike cycleStepsLate orderlyLate same
  exact ⟨orderly, orderlyLate, ⟨network, taken, least⟩, left, right, leftTaken, rightTaken, equal⟩

end TreeTiling.Network
