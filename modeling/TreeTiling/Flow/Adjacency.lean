/-!
Lists of nodes stored one after the other in one array. A second array says where each list begins,
and where the last one ends.

Every position is checked: reading, writing or cutting out of bounds has no result.
-/

namespace TreeTiling

/-- The lists of the first nodes. The list of a node stands between its offset and the next. -/
structure Adjacency where
  offsets : Array Nat := #[]
  targets : Array Nat := #[]

namespace Adjacency

/-- The entries of an array from one position up to another. -/
def slice? (table : Array Nat) (start stop : Nat) : Option (Array Nat) :=
  if start ≤ stop ∧ stop ≤ table.size then some (table.extract start stop) else none

/-- Puts a value at a position that exists. -/
def write? (table : Array Nat) (position value : Nat) : Option (Array Nat) :=
  if position < table.size then some (table.setIfInBounds position value) else none

/-- Adds one at a position that exists. -/
def increment? (table : Array Nat) (position : Nat) : Option (Array Nat) := do
  write? table position ((← table[position]?) + 1)

/-- The list of a node. -/
def list? (lists : Adjacency) (node : Nat) : Option (List Nat) := do
  let start ← lists.offsets[node]?
  let stop ← lists.offsets[node + 1]?
  return (← slice? lists.targets start stop).toList

----------------------------------------------------------------------------------------------
-- The other direction
----------------------------------------------------------------------------------------------

/-- Where lists of given lengths begin, and how long they are together. -/
def starts (lengths : Array Nat) : Array Nat × Nat :=
  lengths.foldl (fun (offsets, total) length => (offsets.push total, total + length)) (#[], 0)

/-- Lists that are being filled: for each node the next free position of its list. -/
structure Filling where
  cursor : Array Nat
  targets : Array Nat

/-- Puts a source at the end of the list of a target. -/
def place? (source : Nat) (filling : Filling) (target : Nat) : Option Filling := do
  let position ← filling.cursor[target]?
  let targets ← write? filling.targets position source
  let cursor ← increment? filling.cursor target
  return { cursor, targets }

/-- Puts a source at the end of the list of each of its targets. -/
def placeAll? (lists : Adjacency) (filling : Filling) (source : Nat) : Option Filling := do
  (← lists.list? source).foldlM (place? source) filling

/-- For each node the nodes that have it in their lists, given how many they are. -/
def reverse? (lists : Adjacency) (counts : Array Nat) : Option Adjacency := do
  let (begins, total) := starts counts
  let offsets := begins.push total
  let cursor ← slice? offsets 0 counts.size
  let filling ←
    (List.range counts.size).foldlM (placeAll? lists) { cursor, targets := Array.replicate total 0 }
  return { offsets, targets := filling.targets }

end Adjacency

end TreeTiling
