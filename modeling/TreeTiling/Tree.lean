import TreeTiling.Operator
import TreeTiling.Temp

/-!
Expression and statement trees, their text, and their height.

A statement tree is the body of a procedure. A sequence holds statements to be run in order; it
may hold sequences again, and `Stm.flatten` lists the statements that are not sequences.
-/

namespace TreeTiling

----------------------------------------------------------------------------------------------
-- Expressions
----------------------------------------------------------------------------------------------

/-- Expressions over words. -/
inductive Exp where
  | const (value : Word)
  | name (label : Label)
  | temp (register : Temp)
  | mem (address : Exp)
  | binop (op : BinOp) (left right : Exp)
  | call (function : Exp) (args : List Exp)

namespace Exp

mutual

/-- The text of an expression, as messages and traces show it. -/
def text : Exp → String
  | const value => "CONST(" ++ value.text ++ ")"
  | name label => "NAME(" ++ label.name ++ ")"
  | temp register => "TEMP(" ++ register.text ++ ")"
  | mem address => "MEM(" ++ address.text ++ ")"
  | binop op left right => op.name ++ "(" ++ left.text ++ ", " ++ right.text ++ ")"
  | call function args => "CALL(" ++ function.text ++ argsText args ++ ")"

/-- Call arguments, each after a comma. -/
def argsText : List Exp → String
  | [] => ""
  | arg :: rest => ", " ++ arg.text ++ argsText rest

end

mutual

/-- The number of nodes on the longest path to a leaf. -/
def height : Exp → Nat
  | const _ => 1
  | name _ => 1
  | temp _ => 1
  | mem address => address.height + 1
  | binop _ left right => max left.height right.height + 1
  | call function args => max function.height (argsHeight args) + 1

/-- The greatest height of a list of arguments, zero for none. -/
def argsHeight : List Exp → Nat
  | [] => 0
  | arg :: rest => max arg.height (argsHeight rest)

end

end Exp

----------------------------------------------------------------------------------------------
-- Statements
----------------------------------------------------------------------------------------------

/-- Statements over expressions. A conditional move assigns only if its comparison holds. -/
inductive Stm where
  | label (name : Label)
  | jump (target : Exp)
  | cjump (op : RelOp) (left right : Exp) (ifTrue ifFalse : Label)
  | cmove (op : RelOp) (left right : Exp) (dst : Temp) (value : Exp)
  | move (dst src : Exp)
  | exp (value : Exp)
  | seq (statements : List Stm)

namespace Stm

mutual

/-- The text of a statement, as messages and traces show it. -/
def text : Stm → String
  | label name => "LABEL(" ++ name.name ++ ")"
  | jump target => "JUMP(" ++ target.text ++ ")"
  | cjump op left right ifTrue ifFalse =>
      "CJUMP(" ++ op.name ++ ", " ++ left.text ++ ", " ++ right.text ++ ", " ++ ifTrue.name
        ++ ", " ++ ifFalse.name ++ ")"
  | cmove op left right dst value =>
      "CMOVE(" ++ op.name ++ ", " ++ left.text ++ ", " ++ right.text ++ ", TEMP(" ++ dst.text
        ++ "), " ++ value.text ++ ")"
  | move dst src => "MOVE(" ++ dst.text ++ ", " ++ src.text ++ ")"
  | exp value => "EXP(" ++ value.text ++ ")"
  | seq [] => "SEQ()"
  | seq (first :: rest) => "SEQ(" ++ first.text ++ restText rest ++ ")"

/-- The later statements of a sequence, each after a comma. -/
def restText : List Stm → String
  | [] => ""
  | statement :: rest => ", " ++ statement.text ++ restText rest

end

mutual

/-- The statements of a tree that are not sequences, in execution order. -/
def flatten : Stm → List Stm
  | seq statements => flattenAll statements
  | statement => [statement]

/-- The flattened statements of a list, in order. -/
def flattenAll : List Stm → List Stm
  | [] => []
  | statement :: rest => statement.flatten ++ flattenAll rest

end

mutual

/-- The number of nodes on the longest path to a leaf. -/
def height : Stm → Nat
  | label _ => 1
  | jump target => target.height + 1
  | cjump _ left right _ _ => max left.height right.height + 1
  | cmove _ left right _ value => max (max left.height right.height) value.height + 1
  | move dst src => max dst.height src.height + 1
  | exp value => value.height + 1
  | seq statements => allHeight statements + 1

/-- The greatest height of a list of statements, zero for none. -/
def allHeight : List Stm → Nat
  | [] => 0
  | statement :: rest => max statement.height (allHeight rest)

end

end Stm

----------------------------------------------------------------------------------------------
-- Nodes
----------------------------------------------------------------------------------------------

/-- A tree of either sort, as diagnostics carry it. -/
inductive Node where
  | exp (tree : Exp)
  | stm (tree : Stm)

def Node.text : Node → String
  | exp tree => tree.text
  | stm tree => tree.text

end TreeTiling
