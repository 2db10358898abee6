import TreeTiling.Tree

/-! The ways in which instruction selection can fail, and what each failure says. -/

namespace TreeTiling

/-- The three things a tree can be selected for, each with rules of its own. -/
inductive Category where
  | statement
  | value
  | discard
deriving DecidableEq

def Category.text : Category → String
  | statement => "statement"
  | value => "value expression"
  | discard => "discarded expression"

/-- Why selection stopped. -/
inductive SelectionError where
  /-- No rule of the category has a pattern that matches the tree. -/
  | noRule (category : Category) (tree : Node)
  /-- A rule refuses the tree. -/
  | unsupported (what : String) (tree : Node)
  /-- A rule reads a variable that its pattern does not bind, or binds to another kind. -/
  | unboundCapture (name : String)
  /-- Rules ask for one another's results more deeply than the tree is high. -/
  | tooDeep (tree : Node)

def SelectionError.message : SelectionError → String
  | noRule category tree => "no " ++ category.text ++ " rule matches " ++ tree.text
  | unsupported what tree => "not implemented: " ++ what ++ " in " ++ tree.text
  | unboundCapture name => "rule action read capture `" ++ name ++ "` that its pattern never binds"
  | tooDeep tree => "rules do not settle on " ++ tree.text

end TreeTiling
