import TreeTiling.Selection.Error

/-!
What a session counts, and the text of the counts.

The mnemonics are counted in a table that is kept in the order of their names, so that two ways
of counting the same instructions give the same table.
-/

namespace TreeTiling

----------------------------------------------------------------------------------------------
-- Tallies
----------------------------------------------------------------------------------------------

/-- How often each name was counted; the names ascend. -/
abbrev Tally := List (String × Nat)

namespace Tally

/-- Counts a name once more. -/
def add (name : String) : Tally → Tally
  | [] => [(name, 1)]
  | (other, count) :: rest =>
      if name = other then (other, count + 1) :: rest
      else if name < other then (name, 1) :: (other, count) :: rest
      else (other, count) :: add name rest

/-- The sum of all counts. -/
def total (tally : Tally) : Nat :=
  tally.foldr (fun entry sum => entry.2 + sum) 0

/-- Whether an entry is listed no later than another: greater counts first, then names. -/
def ranksBefore (left right : String × Nat) : Bool :=
  decide (right.2 < left.2) || (left.2 == right.2 && decide (left.1 ≤ right.1))

/-- The entries by falling count, and by name where counts agree. -/
def ranked (tally : Tally) : List (String × Nat) :=
  tally.mergeSort ranksBefore

end Tally

----------------------------------------------------------------------------------------------
-- Statistics
----------------------------------------------------------------------------------------------

/-- What a session has counted. -/
structure Stats where
  procedures : Nat := 0
  dataFragments : Nat := 0
  instructions : Nat := 0
  mnemonics : Tally := []
  largestSize : Nat := 0
  /-- The first procedure of the largest size; empty before any has an instruction. -/
  largestName : String := ""
  statementRules : Nat := 0
  valueRules : Nat := 0
  discardRules : Nat := 0
  propagations : Nat := 0
deriving DecidableEq

namespace Stats

/-- Counts a finished procedure; only a strictly larger one takes over as the largest. -/
def recordProcedure (stats : Stats) (name : String) (size : Nat) : Stats :=
  if stats.largestSize < size then
    { stats with procedures := stats.procedures + 1, largestSize := size, largestName := name }
  else
    { stats with procedures := stats.procedures + 1 }

def recordData (stats : Stats) : Stats :=
  { stats with dataFragments := stats.dataFragments + 1 }

/-- Counts an instruction under its mnemonic. -/
def recordInstruction (stats : Stats) (mnemonic : String) : Stats :=
  { stats with
    instructions := stats.instructions + 1
    mnemonics := stats.mnemonics.add mnemonic }

def recordRule (stats : Stats) : Category → Stats
  | .statement => { stats with statementRules := stats.statementRules + 1 }
  | .value => { stats with valueRules := stats.valueRules + 1 }
  | .discard => { stats with discardRules := stats.discardRules + 1 }

def recordPropagations (stats : Stats) (count : Nat) : Stats :=
  { stats with propagations := stats.propagations + count }

/-- How many mnemonics the text lists. -/
def listed : Nat := 10

/-- The line of the largest procedure, once one has a name. -/
def largestText (stats : Stats) : String :=
  if stats.largestName = "" then ""
  else "  Largest procedure: " ++ stats.largestName ++ " (" ++ stats.largestSize.repr
    ++ " instructions)\n"

/-- The most frequent mnemonics, one to a line, under a heading. -/
def breakdownText (stats : Stats) : String :=
  if stats.mnemonics = [] then ""
  else "  Instruction breakdown:\n" ++ String.join
    ((stats.mnemonics.ranked.take listed).map fun entry =>
      "    " ++ entry.1 ++ ": " ++ entry.2.repr ++ "\n")

def text (stats : Stats) : String :=
  "Compilation Session Statistics:\n"
    ++ "  Procedures compiled: " ++ stats.procedures.repr ++ "\n"
    ++ "  Data fragments compiled: " ++ stats.dataFragments.repr ++ "\n"
    ++ "  Instructions emitted: " ++ stats.instructions.repr ++ "\n"
    ++ "  Rules fired: " ++ stats.statementRules.repr ++ " statement, "
    ++ stats.valueRules.repr ++ " value, " ++ stats.discardRules.repr ++ " discard\n"
    ++ "  Liveness propagations: " ++ stats.propagations.repr ++ "\n"
    ++ stats.largestText ++ stats.breakdownText

end Stats

end TreeTiling
