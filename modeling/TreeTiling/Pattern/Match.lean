import TreeTiling.Pattern.Basic
import TreeTiling.Selection.Error

/-!
Matching a pattern against a tree, and reading what its variables captured.

A match yields one binding per capture leaf, from left to right. Failing to match is no error;
reading a variable that is not bound, or is bound to another kind, is.
-/

namespace TreeTiling

----------------------------------------------------------------------------------------------
-- Captures
----------------------------------------------------------------------------------------------

/-- What one variable captured. -/
inductive Captured where
  | exp (tree : Exp)
  | exps (trees : List Exp)
  | scalar (scalar : Scalar) (value : scalar.Value)

/-- The captured value seen as one of the given kind. -/
def Captured.as? : (kind : Kind) → Captured → Option kind.Value
  | .exp, exp tree => some tree
  | .exps, exps trees => some trees
  | .scalar .int, scalar .int value => some value
  | .scalar .label, scalar .label value => some value
  | .scalar .temp, scalar .temp value => some value
  | .scalar .relop, scalar .relop value => some value
  | .scalar .binop, scalar .binop value => some value
  | _, _ => none

/-- The bindings of a match, by the number of the variable, in the order of the captures. -/
abbrev Captures := List (Nat × Captured)

namespace Captures

/-- The value of a variable in the first binding with its number. -/
def get {kind : Kind} (captures : Captures) (var : Var kind)
    : Except SelectionError kind.Value :=
  match (captures.lookup var.id).bind (Captured.as? kind) with
  | some value => .ok value
  | none => .error (.unboundCapture var.name)

end Captures

----------------------------------------------------------------------------------------------
-- Matching
----------------------------------------------------------------------------------------------

namespace Leaf

/-- The bindings a leaf pattern makes, if it accepts the value. -/
def matches? {scalar : Scalar} (leaf : Leaf scalar) (value : scalar.Value) : Option Captures :=
  match leaf with
  | any => some []
  | is literal => if literal = value then some [] else none
  | bind var => some [(var.id, .scalar scalar value)]
  | guard var condition =>
      if condition.accepts value then some [(var.id, .scalar scalar value)] else none

end Leaf

namespace ArgsPattern

/-- The bindings an argument pattern makes; it accepts every list. -/
def captures (pattern : ArgsPattern) (args : List Exp) : Captures :=
  match pattern with
  | any => []
  | bind var => [(var.id, .exps args)]

end ArgsPattern

namespace ExpPattern

/-- The bindings of an expression pattern, if the expression is an instance of it. -/
def matches? : ExpPattern → Exp → Option Captures
  | any, _ => some []
  | bind var, tree => some [(var.id, .exp tree)]
  | const leaf, .const value => leaf.matches? value
  | name leaf, .name label => leaf.matches? label
  | temp leaf, .temp register => leaf.matches? register
  | mem pattern, .mem address => pattern.matches? address
  | binop leaf leftPattern rightPattern, .binop op left right => do
      let ops ← leaf.matches? op
      let lefts ← leftPattern.matches? left
      let rights ← rightPattern.matches? right
      return ops ++ (lefts ++ rights)
  | call functionPattern argsPattern, .call function args => do
      let functions ← functionPattern.matches? function
      return functions ++ argsPattern.captures args
  | _, _ => none

end ExpPattern

namespace StmPattern

/-- The bindings of a statement pattern, if the statement is an instance of it. -/
def matches? : StmPattern → Stm → Option Captures
  | label leaf, .label name => leaf.matches? name
  | jump pattern, .jump target => pattern.matches? target
  | cjump opLeaf leftPattern rightPattern trueLeaf falseLeaf,
      .cjump op left right ifTrue ifFalse => do
      let ops ← opLeaf.matches? op
      let lefts ← leftPattern.matches? left
      let rights ← rightPattern.matches? right
      let trues ← trueLeaf.matches? ifTrue
      let falses ← falseLeaf.matches? ifFalse
      return ops ++ (lefts ++ (rights ++ (trues ++ falses)))
  | cmove opLeaf leftPattern rightPattern dstLeaf valuePattern,
      .cmove op left right dst value => do
      let ops ← opLeaf.matches? op
      let lefts ← leftPattern.matches? left
      let rights ← rightPattern.matches? right
      let dsts ← dstLeaf.matches? dst
      let values ← valuePattern.matches? value
      return ops ++ (lefts ++ (rights ++ (dsts ++ values)))
  | move dstPattern srcPattern, .move dst src => do
      let dsts ← dstPattern.matches? dst
      let srcs ← srcPattern.matches? src
      return dsts ++ srcs
  | exp pattern, .exp value => pattern.matches? value
  | _, _ => none

end StmPattern

end TreeTiling
