import TreeTiling.Flow.Network

/-!
A network settles at the least closure of its seeds.

While a value is passed on, the network is closed but for the sets in the queue. Taking a set from
the queue and offering the value to its edges keeps that so, and puts the value only where an edge
leads. So once the queue is empty the network is closed, and it holds nothing that every closed
family would not hold.
-/

namespace TreeTiling.Network

variable {α : Type}

----------------------------------------------------------------------------------------------
-- Closed networks
----------------------------------------------------------------------------------------------

/-- A set of the network has a value. -/
def Holds (network : Network α) (set : Nat) (value : α) : Prop :=
  value ∈ network.get set

/-- An edge leads out of a set. -/
def HasEdge (network : Network α) (source : Nat) (edge : Edge α) : Prop :=
  edge ∈ network.edges.getD source []

/-- Every edge leads to a set that exists. -/
def TargetsExist (network : Network α) : Prop :=
  ∀ {source : Nat} {edge : Edge α}, network.HasEdge source edge → edge.target < network.sets.size

/-- A family of sets has all that a network holds. -/
def Within (network : Network α) (family : Nat → α → Prop) : Prop :=
  ∀ set value, network.Holds set value → family set value

/-- A family of sets is closed under the edges of a network. -/
def Closes (network : Network α) (family : Nat → α → Prop) : Prop :=
  ∀ {source : Nat} {edge : Edge α} {value : α},
    network.HasEdge source edge
    → family source value
    → value ∉ edge.excluded
    → family edge.target value

/-- What follows from seeds along edges. -/
inductive Derived (network : Network α) (seeds : Nat → α → Prop) : Nat → α → Prop where
  | seed {set : Nat} {value : α} (given : seeds set value) : Derived network seeds set value
  | pass {source : Nat} {edge : Edge α} {value : α} (derived : Derived network seeds source value)
    (hasEdge : network.HasEdge source edge) (passes : value ∉ edge.excluded)
    : Derived network seeds edge.target value

/-- Nothing follows but what every closed family with the seeds has. -/
theorem Derived.least {network : Network α} {seeds family : Nat → α → Prop}
    (closes : network.Closes family)
    (contains : ∀ {set : Nat} {value : α}, seeds set value → family set value)
    {set : Nat} {value : α} (derived : network.Derived seeds set value)
    : family set value := by
  induction derived with
  | seed given => exact contains given
  | pass _ hasEdge passes ih => exact closes hasEdge ih passes

/-- A network grows: its sets gain values, and its edges stay. -/
structure Grows (before after : Network α) : Prop where
  edges : after.edges = before.edges
  size : after.sets.size = before.sets.size
  holds : ∀ {set : Nat} {value : α}, before.Holds set value → after.Holds set value

namespace Grows

variable {before middle after : Network α}

theorem refl (network : Network α) : Grows network network :=
  ⟨rfl, rfl, id⟩

theorem trans (first : Grows before middle) (second : Grows middle after) : Grows before after :=
  ⟨second.edges.trans first.edges, second.size.trans first.size,
    fun held => second.holds (first.holds held)⟩

theorem hasEdge_iff (grows : Grows before after) {source : Nat} {edge : Edge α}
    : after.HasEdge source edge ↔ before.HasEdge source edge := by
  rw [HasEdge, HasEdge, grows.edges]

theorem targetsExist (grows : Grows before after) (targets : before.TargetsExist)
    : after.TargetsExist := by
  intro source edge hasEdge
  rw [grows.size]
  exact targets (grows.hasEdge_iff.mp hasEdge)

theorem closes_iff (grows : Grows before after) {family : Nat → α → Prop}
    : after.Closes family ↔ before.Closes family := by
  constructor
  · intro closes source edge value hasEdge
    exact closes (grows.hasEdge_iff.mpr hasEdge)
  · intro closes source edge value hasEdge
    exact closes (grows.hasEdge_iff.mp hasEdge)

end Grows

----------------------------------------------------------------------------------------------
-- What offering a value to edges does
----------------------------------------------------------------------------------------------

/-- What offering a value to edges does: every edge that does not exclude the value has delivered
it, only those have, and a set that gained it is queued.
-/
structure Sent (value : α) (edges : List (Edge α)) (before : Network α) (queue : List Nat)
    (after : Network α) (rest : List Nat) : Prop where
  grows : Grows before after
  delivered : ∀ edge ∈ edges, value ∉ edge.excluded → after.Holds edge.target value
  gained
    : ∀ {set : Nat} {item : α},
        after.Holds set item
        → before.Holds set item
          ∨ (item = value ∧ set ∈ rest
            ∧ ∃ edge ∈ edges, edge.target = set ∧ value ∉ edge.excluded)
  still : ∀ set ∈ queue, set ∈ rest
  queued : ∀ set ∈ rest, set ∈ queue ∨ after.Holds set value

/-- Offering a value to one edge and then to others is offering it to all of them. -/
theorem Sent.cons {value : α} {edge : Edge α} {edges : List (Edge α)}
    {before middle after : Network α} {queue between rest : List Nat}
    (first : Sent value [edge] before queue middle between)
    (others : Sent value edges middle between after rest)
    : Sent value (edge :: edges) before queue after rest where
  grows := first.grows.trans others.grows
  delivered := by
    intro sent member passes
    rcases List.mem_cons.mp member with rfl | later
    · exact others.grows.holds (first.delivered sent (List.mem_singleton_self sent) passes)
    · exact others.delivered sent later passes
  gained := by
    intro set item holds
    rcases others.gained holds with held | ⟨same, member, sent, later, target, passes⟩
    · rcases first.gained held with before | ⟨same, member, sent, only, target, passes⟩
      · exact .inl before
      · obtain rfl := List.mem_singleton.mp only
        exact .inr ⟨same, others.still set member, sent, List.mem_cons_self, target, passes⟩
    · exact .inr ⟨same, member, sent, List.mem_cons_of_mem _ later, target, passes⟩
  still := fun set member => others.still set (first.still set member)
  queued := by
    intro set member
    rcases others.queued set member with earlier | holds
    · rcases first.queued set earlier with waiting | held
      · exact .inl waiting
      · exact .inr (others.grows.holds held)
    · exact .inr holds

/-- A value is on its way: the network is closed but for what the queued sets have yet to offer. -/
structure Pending (network : Network α) (value : α) (queue : List Nat) : Prop where
  queued : ∀ set ∈ queue, network.Holds set value
  closed
    : ∀ {source : Nat} {edge : Edge α} {item : α},
        network.HasEdge source edge
        → network.Holds source item
        → item ∉ edge.excluded
        → network.Holds edge.target item ∨ (item = value ∧ source ∈ queue)

/-- Taking a set from the queue and offering the value to its edges keeps the invariant. A value
that a set just gained is excused by the set's place in the queue.
-/
theorem Pending.sent {network after : Network α} {value : α} {set : Nat} {queue rest : List Nat}
    (pending : network.Pending value (set :: queue))
    (sent : Sent value (network.edges.getD set []) network queue after rest)
    : after.Pending value rest where
  queued := by
    intro waiting member
    rcases sent.queued waiting member with earlier | holds
    · exact sent.grows.holds (pending.queued waiting (List.mem_cons_of_mem _ earlier))
    · exact holds
  closed := by
    intro source edge item hasEdge holds passes
    have edgeBefore := sent.grows.hasEdge_iff.mp hasEdge
    rcases sent.gained holds with held | ⟨rfl, member, -⟩
    · rcases pending.closed edgeBefore held passes with reached | ⟨rfl, waiting⟩
      · exact .inl (sent.grows.holds reached)
      · rcases List.mem_cons.mp waiting with rfl | later
        · exact .inl (sent.delivered edge edgeBefore passes)
        · exact .inr ⟨rfl, sent.still source later⟩
    · exact .inr ⟨rfl, member⟩

/-- Offering a value to a set's edges stays within every closed family that has the network. -/
theorem Sent.within {network after : Network α} {value : α} {set : Nat} {queue rest : List Nat}
    {family : Nat → α → Prop}
    (sent : Sent value (network.edges.getD set []) network queue after rest)
    (closes : network.Closes family) (holds : network.Holds set value)
    (within : network.Within family)
    : after.Within family := by
  intro other item afterHolds
  rcases sent.gained afterHolds with held | ⟨rfl, -, edge, hasEdge, rfl, passes⟩
  · exact within other item held
  · exact closes hasEdge (within set item holds) passes

----------------------------------------------------------------------------------------------
-- Settled networks
----------------------------------------------------------------------------------------------

/-- A network holds exactly what follows from its seeds. -/
structure Settled (network : Network α) (seeds : Nat → α → Prop) : Prop where
  holds_iff
    : ∀ {set : Nat} {value : α}, network.Holds set value ↔ network.Derived seeds set value

theorem Settled.closes {network : Network α} {seeds : Nat → α → Prop}
    (settled : network.Settled seeds)
    : network.Closes network.Holds := by
  intro source edge value hasEdge holds passes
  exact settled.holds_iff.mpr (.pass (settled.holds_iff.mp holds) hasEdge passes)

/-- What a settled network holds, set by set: a set has its seeds and what an edge brings it. -/
theorem Settled.holds_iff_offered {network : Network α} {seeds : Nat → α → Prop}
    (settled : network.Settled seeds) {set : Nat} {value : α}
    : network.Holds set value
      ↔ seeds set value
        ∨ ∃ source edge,
            network.HasEdge source edge
            ∧ edge.target = set
            ∧ network.Holds source value
            ∧ value ∉ edge.excluded := by
  constructor
  · intro holds
    cases settled.holds_iff.mp holds with
    | seed given => exact .inl given
    | pass derived hasEdge passes =>
        exact .inr ⟨_, _, hasEdge, rfl, settled.holds_iff.mpr derived, passes⟩
  · rintro (given | ⟨source, edge, hasEdge, rfl, holds, passes⟩)
    · exact settled.holds_iff.mpr (.seed given)
    · exact settled.closes hasEdge holds passes

/-- A network without values is settled without seeds. -/
theorem settled_of_empty {network : Network α}
    (empty : ∀ {set : Nat} {value : α}, ¬ network.Holds set value)
    : network.Settled fun _ _ => False where
  holds_iff := by
    intro set value
    constructor
    · exact fun holds => absurd holds empty
    · exact fun derived => (derived.least (fun _ none _ => none) id).elim

/-- Seeds and one more. -/
def withSeed (seeds : Nat → α → Prop) (set : Nat) (value : α) : Nat → α → Prop :=
  fun other item => seeds other item ∨ (other = set ∧ item = value)

/-- A network that grew to the least closed one with a further value is settled with that seed. -/
theorem Settled.grown {before after : Network α} {seeds : Nat → α → Prop} {set : Nat} {value : α}
    (settled : before.Settled seeds) (grows : Grows before after)
    (closed : after.Closes after.Holds) (holds : after.Holds set value)
    (least
      : ∀ {family : Nat → α → Prop},
          before.Closes family → before.Within family → family set value → after.Within family)
    : after.Settled (withSeed seeds set value) where
  holds_iff := by
    intro other item
    constructor
    · have closes : before.Closes (after.Derived (withSeed seeds set value)) := by
        intro source edge value hasEdge derived passes
        exact .pass derived (grows.hasEdge_iff.mpr hasEdge) passes
      have within : before.Within (after.Derived (withSeed seeds set value)) := by
        intro other item held
        exact (settled.holds_iff.mp held).least closes fun given => .seed (.inl given)
      exact least closes within (.seed (.inr ⟨rfl, rfl⟩)) other item
    · intro derived
      refine derived.least closed ?_
      rintro other item (given | ⟨rfl, rfl⟩)
      · exact grows.holds (settled.holds_iff.mpr (.seed given))
      · exact holds

----------------------------------------------------------------------------------------------
-- Adding edges
----------------------------------------------------------------------------------------------

/-- Adding an edge out of a set that exists adds that edge and no other. -/
theorem hasEdge_addEdge {network : Network α} {source : Nat} (inside : source < network.edges.size)
    {added edge : Edge α} {other : Nat}
    : (network.addEdge source added.target added.excluded).HasEdge other edge
      ↔ network.HasEdge other edge ∨ (other = source ∧ edge = added) := by
  by_cases same : source = other
  · subst other
    simp [HasEdge, addEdge, Array.getD_eq_getD_getElem?, Array.getElem_modify, inside]
  · simp [HasEdge, addEdge, Array.getD_eq_getD_getElem?, Array.getElem?_modify, same, Ne.symm same]

/-- Adding one edge after the other adds them all, by induction on them. -/
theorem addEdges {network : Network α} {added : List (Nat × Edge α)}
    (inside : ∀ entry ∈ added, entry.1 < network.edges.size)
    : let wired := added.foldl (fun network entry =>
        network.addEdge entry.1 entry.2.target entry.2.excluded) network
      wired.sets = network.sets
      ∧ ∀ {source : Nat} {edge : Edge α},
          wired.HasEdge source edge ↔ network.HasEdge source edge ∨ (source, edge) ∈ added := by
  induction added generalizing network with
  | nil => simp
  | cons entry added ih =>
      obtain ⟨set, first⟩ := entry
      have still : ∀ entry ∈ added,
          entry.1 < (network.addEdge set first.target first.excluded).edges.size := by
        intro entry member
        have inside := inside entry (List.mem_cons_of_mem _ member)
        simpa [addEdge] using inside
      obtain ⟨sets, hasEdge_iff⟩ := ih still
      refine ⟨sets, ?_⟩
      intro source edge
      rw [List.foldl_cons, hasEdge_iff, hasEdge_addEdge (inside _ List.mem_cons_self)]
      simp [or_assoc]

----------------------------------------------------------------------------------------------
-- Adding and passing on values
----------------------------------------------------------------------------------------------

variable [DecidableEq α]

/-- Adding a value to a set that exists gives the set that value and changes nothing else. The
answer is whether it was new; witness: the set's members before and after.
-/
theorem add?_eq (network : Network α) {set : Nat} (inside : set < network.sets.size) (value : α)
    : ∃ after,
        network.add? set value = some (decide (value ∉ network.get set), after)
        ∧ Grows network after
        ∧ ∀ {other : Nat} {item : α},
            after.Holds other item ↔ network.Holds other item ∨ (other = set ∧ item = value) := by
  have found : network.sets[set]? = some network.sets[set] := Array.getElem?_eq_getElem inside
  have members : network.get set = network.sets[set] := by
    simp [get, Array.getD_eq_getD_getElem?, found]
  by_cases held : value ∈ network.sets[set]
  · refine ⟨network, ?_, .refl network, ?_⟩
    · simp [add?, found, members, held]
    · intro other item
      constructor
      · exact Or.inl
      · rintro (before | ⟨rfl, rfl⟩)
        · exact before
        · rw [Holds, members]
          exact held
  · have holds : ∀ {other : Nat} {item : α},
        item ∈ (network.sets.setIfInBounds set (value :: network.sets[set])).getD other []
        ↔ network.Holds other item ∨ (other = set ∧ item = value) := by
      intro other item
      rw [Array.getD_eq_getD_getElem?, Array.getElem?_setIfInBounds]
      by_cases same : set = other
      · subst other
        simp [inside, Holds, members, or_comm]
      · simp [same, Ne.symm same, Holds, get, Array.getD_eq_getD_getElem?]
    refine ⟨{ network with
        sets := network.sets.setIfInBounds set (value :: network.sets[set])
        inserted := network.inserted + 1 }, ?_, ⟨rfl, ?_, ?_⟩, holds⟩
    · simp [add?, found, members, held]
    · exact Array.size_setIfInBounds
    · exact fun before => holds.mpr (.inl before)

theorem lt_of_add? {network after : Network α} {set : Nat} {value : α} {isNew : Bool}
    (added : network.add? set value = some (isNew, after))
    : set < network.sets.size := by
  rcases Nat.lt_or_ge set network.sets.size with inside | outside
  · exact inside
  · have missing : network.sets[set]? = none := Array.getElem?_eq_none outside
    simp [add?, missing] at added

/-- What adding a value did, wherever it has a result. -/
theorem add?_did {network after : Network α} {set : Nat} {value : α} {isNew : Bool}
    (added : network.add? set value = some (isNew, after))
    : (isNew = false ↔ network.Holds set value)
      ∧ Grows network after
      ∧ ∀ {other : Nat} {item : α},
          after.Holds other item ↔ network.Holds other item ∨ (other = set ∧ item = value) := by
  obtain ⟨_, again, grows, holds⟩ := add?_eq network (lt_of_add? added) value
  obtain ⟨rfl, rfl⟩ := Prod.mk.inj (Option.some.inj (added.symm.trans again))
  exact ⟨by simp [Holds], grows, holds⟩

/-- Adding a value to a set that has it changes nothing. -/
theorem add?_held {network : Network α} {set : Nat} {value : α} (held : network.Holds set value)
    : network.add? set value = some (false, network) := by
  cases found : network.sets[set]? with
  | none => simp [Holds, get, Array.getD_eq_getD_getElem?, found] at held
  | some members =>
      have isMember : value ∈ members := by
        simpa [Holds, get, Array.getD_eq_getD_getElem?, found] using held
      simp [add?, found, isMember]

theorem eq_of_add?_old {network after : Network α} {set : Nat} {value : α}
    (added : network.add? set value = some (false, after))
    : after = network := by
  have unchanged := add?_held ((add?_did added).1.mp rfl)
  rw [added] at unchanged
  exact (Prod.mk.inj (Option.some.inj unchanged)).2

/-- What offering a value to one edge did; witness: whether the edge excludes the value, and whether
the target had it.
-/
theorem sent_of_send {value : α} {edge : Edge α} {network after : Network α}
    {queue rest : List Nat} (offered : send value edge network queue = some (after, rest))
    : Sent value [edge] network queue after rest := by
  by_cases excluded : value ∈ edge.excluded
  · rw [send, if_pos excluded] at offered
    obtain ⟨rfl, rfl⟩ := Prod.mk.inj (Option.some.inj offered)
    refine ⟨.refl network, ?_, .inl, ?_, ?_⟩
    · simp [excluded]
    · exact fun _ member => member
    · exact fun _ member => .inl member
  · rw [send, if_neg excluded] at offered
    split at offered
    · cases offered
    · next reached =>
        obtain ⟨rfl, rfl⟩ := Prod.mk.inj (Option.some.inj offered)
        -- counting the attempt changes neither sets nor edges
        obtain ⟨-, ⟨edges, size, kept⟩, holds⟩ := add?_did reached
        refine ⟨⟨edges, size, kept⟩, ?_, ?_, ?_, ?_⟩
        · simpa using fun _ => holds.mpr (.inr ⟨rfl, rfl⟩)
        · intro set item afterHolds
          rcases holds.mp afterHolds with before | ⟨rfl, rfl⟩
          · exact .inl before
          · exact .inr ⟨rfl, List.mem_cons_self, edge, List.mem_singleton_self edge, rfl, excluded⟩
        · exact fun _ member => List.mem_cons_of_mem _ member
        · intro set member
          rcases List.mem_cons.mp member with rfl | earlier
          · exact .inr (holds.mpr (.inr ⟨rfl, rfl⟩))
          · exact .inl earlier
    · next reached =>
        obtain ⟨rfl, rfl⟩ := Prod.mk.inj (Option.some.inj offered)
        obtain ⟨isOld, ⟨edges, size, kept⟩, holds⟩ := add?_did reached
        have held : network.Holds edge.target value := isOld.mp rfl
        refine ⟨⟨edges, size, kept⟩, ?_, ?_, ?_, ?_⟩
        · simpa using fun _ => holds.mpr (.inr ⟨rfl, rfl⟩)
        · intro set item afterHolds
          rcases holds.mp afterHolds with before | ⟨rfl, rfl⟩
          · exact .inl before
          · exact .inl held
        · exact fun _ member => member
        · exact fun _ member => .inl member

/-- What offering a value to edges did, by induction on the edges. -/
theorem sent_of_sendAll {value : α} {edges : List (Edge α)} {network after : Network α}
    {queue rest : List Nat} (offered : sendAll value edges network queue = some (after, rest))
    : Sent value edges network queue after rest := by
  induction edges generalizing network queue with
  | nil =>
      obtain ⟨rfl, rfl⟩ := Prod.mk.inj (Option.some.inj offered)
      refine ⟨.refl network, ?_, .inl, ?_, ?_⟩
      · simp
      · exact fun _ member => member
      · exact fun _ member => .inl member
  | cons edge edges ih =>
      rw [sendAll] at offered
      split at offered
      · cases offered
      · next first => exact (sent_of_send first).cons (ih offered)

/-- Passing a value on leaves the network closed, within every closed family that had it before. By
induction along the queue, as `settle` takes one set after the other from it.
-/
theorem Pending.settle {network last : Network α} {value : α} {queue : List Nat}
    (pending : network.Pending value queue) (passed : settle value network queue = some last)
    : Grows network last
      ∧ last.Closes last.Holds
      ∧ ∀ {family : Nat → α → Prop},
          network.Closes family → network.Within family → last.Within family := by
  fun_induction Network.settle value network queue with
  | case1 network =>
      obtain rfl := Option.some.inj passed
      refine ⟨.refl network, ?_, fun _ within => within⟩
      intro source edge item hasEdge holds passes
      rcases pending.closed hasEdge holds passes with reached | ⟨-, waiting⟩
      · exact reached
      · simp at waiting
  | case2 => cases passed
  | case3 network set queue after rest sentAll _ ih =>
      have sent := sent_of_sendAll sentAll
      obtain ⟨grows, closed, least⟩ := ih (pending.sent sent) passed
      refine ⟨sent.grows.trans grows, closed, ?_⟩
      intro family closes within
      have holds := pending.queued set List.mem_cons_self
      exact least (sent.grows.closes_iff.mpr closes) (sent.within closes holds within)

/-- Inserting a value settles the network with that seed; witness: the set has the value already, or
it is the one set that has yet to offer it.
-/
theorem Settled.insert {network after : Network α} {seeds : Nat → α → Prop} {set : Nat} {value : α}
    {isNew : Bool} (settled : network.Settled seeds)
    (inserted : network.insert? set value = some (isNew, after))
    : Grows network after ∧ after.Settled (withSeed seeds set value) := by
  rw [Network.insert?] at inserted
  split at inserted
  · cases inserted
  · next added =>
      obtain ⟨-, rfl⟩ := Prod.mk.inj (Option.some.inj inserted)
      have held := (add?_did added).1.mp rfl
      obtain rfl := eq_of_add?_old added
      refine ⟨.refl _, settled.grown (.refl _) settled.closes held ?_⟩
      exact fun _ within _ => within
  · next middle added =>
      obtain ⟨-, grows, holds_iff⟩ := add?_did added
      have holds : middle.Holds set value := holds_iff.mpr (.inr ⟨rfl, rfl⟩)
      have pending : middle.Pending value [set] := by
        constructor
        · intro other member
          rw [List.mem_singleton.mp member]
          exact holds
        · intro source edge item hasEdge offered passes
          rcases holds_iff.mp offered with before | ⟨rfl, rfl⟩
          · have reached := settled.closes (grows.hasEdge_iff.mp hasEdge) before passes
            exact .inl (grows.holds reached)
          · exact .inr ⟨rfl, List.mem_singleton_self source⟩
      obtain ⟨last, passed, same⟩ := Option.map_eq_some_iff.mp inserted
      obtain ⟨-, rfl⟩ := Prod.mk.inj same
      obtain ⟨further, closed, least⟩ := pending.settle passed
      refine ⟨grows.trans further, ?_⟩
      refine settled.grown (grows.trans further) closed (further.holds holds) ?_
      intro family closes within member
      apply least (grows.closes_iff.mpr closes)
      intro other item held
      rcases holds_iff.mp held with before | ⟨rfl, rfl⟩
      · exact within other item before
      · exact member

----------------------------------------------------------------------------------------------
-- Where a value can be passed on
----------------------------------------------------------------------------------------------

theorem send_total (value : α) {edge : Edge α} {network : Network α}
    (inside : edge.target < network.sets.size) (queue : List Nat)
    : ∃ after rest, send value edge network queue = some (after, rest) := by
  obtain ⟨after, added, -⟩ := add?_eq { network with fired := network.fired + 1 } inside value
  unfold send
  split
  · exact ⟨_, _, rfl⟩
  · rw [added]
    split
    · next failed => cases failed
    · exact ⟨_, _, rfl⟩
    · exact ⟨_, _, rfl⟩

/-- Offering a value to edges whose targets exist succeeds, by induction on the edges. -/
theorem sendAll_total {value : α} {edges : List (Edge α)} {network : Network α}
    (inside : ∀ edge ∈ edges, edge.target < network.sets.size) (queue : List Nat)
    : ∃ after rest, sendAll value edges network queue = some (after, rest) := by
  induction edges generalizing network queue with
  | nil => exact ⟨network, queue, rfl⟩
  | cons edge edges ih =>
      obtain ⟨middle, between, first⟩ := send_total value (inside edge List.mem_cons_self) queue
      rw [sendAll, first]
      apply ih
      intro later member
      rw [(sent_of_send first).grows.size]
      exact inside later (List.mem_cons_of_mem _ member)

/-- Passing a value on succeeds where every edge leads to a set that exists, by induction along the
queue.
-/
theorem settle_total {network : Network α} (targets : network.TargetsExist) (value : α)
    (queue : List Nat)
    : ∃ after, settle value network queue = some after := by
  fun_induction Network.settle value network queue with
  | case1 network => exact ⟨network, rfl⟩
  | case2 network set queue stuck =>
      obtain ⟨after, rest, sentAll⟩ :=
        sendAll_total (fun _ hasEdge => targets hasEdge) queue
      rw [stuck] at sentAll
      cases sentAll
  | case3 network set queue after rest sentAll _ ih =>
      exact ih ((sent_of_sendAll sentAll).grows.targetsExist targets)

/-- So does inserting a value into a set that exists. -/
theorem insert?_total {network : Network α} (targets : network.TargetsExist) {set : Nat}
    (inside : set < network.sets.size) (value : α)
    : ∃ isNew after, network.insert? set value = some (isNew, after) := by
  obtain ⟨middle, added, grows, -⟩ := add?_eq network inside value
  obtain ⟨after, passed⟩ := settle_total (grows.targetsExist targets) value [set]
  rw [Network.insert?, added]
  split
  · next failed => cases failed
  · exact ⟨_, _, rfl⟩
  · next same =>
      obtain ⟨-, rfl⟩ := Prod.mk.inj (Option.some.inj same)
      exact ⟨true, after, by rw [passed]; rfl⟩

/-- Seeding a set that exists settles the network with that seed. -/
theorem Settled.seed {network : Network α} {seeds : Nat → α → Prop} {set : Nat}
    (settled : network.Settled seeds) (targets : network.TargetsExist)
    (inside : set < network.sets.size) (value : α)
    : Grows network (network.seed set value)
      ∧ (network.seed set value).Settled (withSeed seeds set value) := by
  obtain ⟨isNew, after, inserted⟩ := insert?_total targets inside value
  rw [Network.seed, inserted]
  exact settled.insert inserted

/-- Seeding one set after the other settles the network with all seeds, by induction on them. -/
theorem Settled.seedAll {network : Network α} {seeds : Nat → α → Prop} {given : List (Nat × α)}
    (settled : network.Settled seeds) (targets : network.TargetsExist)
    (inside : ∀ entry ∈ given, entry.1 < network.sets.size)
    : Grows network (given.foldl (fun network entry => network.seed entry.1 entry.2) network)
      ∧ (given.foldl (fun network entry => network.seed entry.1 entry.2) network).Settled
          (fun set value => seeds set value ∨ (set, value) ∈ given) := by
  induction given generalizing network seeds with
  | nil => exact ⟨.refl network, by simpa using settled⟩
  | cons entry given ih =>
      obtain ⟨set, value⟩ := entry
      obtain ⟨grows, seeded⟩ := settled.seed targets (inside _ List.mem_cons_self) value
      have still : ∀ entry ∈ given, entry.1 < (network.seed set value).sets.size := by
        intro entry member
        rw [grows.size]
        exact inside entry (List.mem_cons_of_mem _ member)
      obtain ⟨further, all⟩ := ih seeded (grows.targetsExist targets) still
      have seedsEq : (fun other item => seeds other item ∨ (other, item) ∈ (set, value) :: given)
          = fun other item => withSeed seeds set value other item ∨ (other, item) ∈ given := by
        funext other item
        simp [withSeed, or_assoc]
      rw [seedsEq]
      exact ⟨grows.trans further, all⟩

end TreeTiling.Network
