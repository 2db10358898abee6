import TreeTiling.Selection.Action
import TreeTiling.Session.Event
import TreeTiling.Text.Column

/-!
Rules and tables of rules. A table is tried from the front, and the first rule whose pattern
matches is the one that fires.
-/

namespace TreeTiling

variable {π ι α : Type}

/-- A pattern of type `π`, and what to do with its captures. -/
structure Rule (π ι α : Type) where
  pattern : π
  action : Captures → Action ι α

/-- Rules in falling priority. -/
abbrev RuleTable (π ι α : Type) := List (Rule π ι α)

namespace RuleTable

/-- A rule chosen from a table: its place in it, the rule, and the bindings of its match. -/
structure Choice (π ι α : Type) where
  index : Nat
  rule : Rule π ι α
  captures : Captures

/-- The first rule that matches, where `matching` says how a pattern fares on the tree. -/
def choose? (matching : π → Option Captures) : RuleTable π ι α → Option (Choice π ι α)
  | [] => none
  | rule :: rest =>
      match matching rule.pattern with
      | some captures => some ⟨0, rule, captures⟩
      | none => (choose? matching rest).map fun choice => { choice with index := choice.index + 1 }

/-- The place of the rule that would fire for a tree. -/
def select? (matching : π → Option Captures) (table : RuleTable π ι α) : Option Nat :=
  (table.choose? matching).map Choice.index

/-- One line for a rule: its place in the table and its pattern. -/
def linesFrom (patternText : π → String) (index : Nat) : RuleTable π ι α → String
  | [] => ""
  | rule :: rest =>
      "  " ++ Text.alignRight 3 index.repr ++ ": " ++ patternText rule.pattern ++ "\n"
        ++ linesFrom patternText (index + 1) rest

/-- A table under the heading of its category. -/
def text (category : Category) (patternText : π → String) (table : RuleTable π ι α) : String :=
  category.text ++ " rules:\n" ++ linesFrom patternText 0 table

end RuleTable

/-- The three tables of a target machine. A rule for values answers with a register. -/
structure Rules (ι : Type) where
  statement : RuleTable StmPattern ι Unit := []
  value : RuleTable ExpPattern ι Temp := []
  discard : RuleTable ExpPattern ι Unit := []

/-- All tables in the order statement, value, discard. -/
def Rules.text (rules : Rules ι) : String :=
  RuleTable.text .statement StmPattern.text rules.statement
    ++ RuleTable.text .value ExpPattern.text rules.value
    ++ RuleTable.text .discard ExpPattern.text rules.discard

end TreeTiling
