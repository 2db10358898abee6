import TreeTiling.Tree

/-!
Tree patterns and their text.

A pattern has the shape of a tree whose leaves may be wildcards, literals, capture variables and
guarded capture variables. A capture variable has a kind, which fixes what it can hold.
-/

namespace TreeTiling

----------------------------------------------------------------------------------------------
-- Capture variables
----------------------------------------------------------------------------------------------

/-- The kinds of data at the leaves of a tree. -/
inductive Scalar where
  | int
  | label
  | temp
  | relop
  | binop
deriving DecidableEq

namespace Scalar

/-- What a leaf of each kind holds. -/
abbrev Value : Scalar → Type
  | int => Word
  | label => Label
  | temp => Temp
  | relop => RelOp
  | binop => BinOp

instance decidableEqValue : (scalar : Scalar) → DecidableEq scalar.Value
  | int => inferInstanceAs (DecidableEq Word)
  | label => inferInstanceAs (DecidableEq Label)
  | temp => inferInstanceAs (DecidableEq Temp)
  | relop => inferInstanceAs (DecidableEq RelOp)
  | binop => inferInstanceAs (DecidableEq BinOp)

/-- The text of a leaf, as patterns show it. -/
def valueText : (scalar : Scalar) → scalar.Value → String
  | int, value => Word.text value
  | label, value => value.name
  | temp, value => value.text
  | relop, value => value.name
  | binop, value => value.name

end Scalar

/-- The kinds of data a variable can capture: an expression, a call's arguments, or a leaf. -/
inductive Kind where
  | exp
  | exps
  | scalar (leaf : Scalar)
deriving DecidableEq

/-- What a variable of each kind holds. -/
abbrev Kind.Value : Kind → Type
  | .exp => Exp
  | .exps => List Exp
  | .scalar leaf => leaf.Value

/-- A capture variable. Its identity is its number; the name is for messages and displays. -/
structure Var (kind : Kind) where
  id : Nat
  name : String

/-- The variable's name together with its identity. -/
def Var.text {kind : Kind} (var : Var kind) : String :=
  var.name ++ "#" ++ var.id.repr

----------------------------------------------------------------------------------------------
-- Patterns
----------------------------------------------------------------------------------------------

/-- A condition on a captured leaf, with the words that displays use for it. -/
structure Guard (scalar : Scalar) where
  description : String
  accepts : scalar.Value → Bool

/-- A pattern for one leaf. -/
inductive Leaf (scalar : Scalar) where
  | any
  | is (literal : scalar.Value)
  | bind (var : Var (.scalar scalar))
  | guard (var : Var (.scalar scalar)) (condition : Guard scalar)

/-- A pattern for the arguments of a call, taken as a whole. -/
inductive ArgsPattern where
  | any
  | bind (var : Var .exps)

/-- A pattern for expressions. -/
inductive ExpPattern where
  | any
  | bind (var : Var .exp)
  | const (value : Leaf .int)
  | name (label : Leaf .label)
  | temp (register : Leaf .temp)
  | mem (address : ExpPattern)
  | binop (op : Leaf .binop) (left right : ExpPattern)
  | call (function : ExpPattern) (args : ArgsPattern)

/-- A pattern for statements that are not sequences. -/
inductive StmPattern where
  | label (name : Leaf .label)
  | jump (target : ExpPattern)
  | cjump (op : Leaf .relop) (left right : ExpPattern) (ifTrue ifFalse : Leaf .label)
  | cmove (op : Leaf .relop) (left right : ExpPattern) (dst : Leaf .temp) (value : ExpPattern)
  | move (dst src : ExpPattern)
  | exp (value : ExpPattern)

/-- A pattern for either sort of tree, as traces carry it. -/
inductive Pattern where
  | exp (pattern : ExpPattern)
  | stm (pattern : StmPattern)

----------------------------------------------------------------------------------------------
-- Text
----------------------------------------------------------------------------------------------

def Leaf.text {scalar : Scalar} : Leaf scalar → String
  | any => "_"
  | is literal => scalar.valueText literal
  | bind var => var.name
  | guard var condition => var.name ++ ":" ++ condition.description

def ArgsPattern.text : ArgsPattern → String
  | any => "_"
  | bind var => var.name ++ "..."

/-- The text of an expression pattern; a literal operator stands in front as in a tree. -/
def ExpPattern.text : ExpPattern → String
  | any => "_"
  | bind var => var.name
  | const value => "CONST(" ++ value.text ++ ")"
  | name label => "NAME(" ++ label.text ++ ")"
  | temp register => "TEMP(" ++ register.text ++ ")"
  | mem address => "MEM(" ++ address.text ++ ")"
  | binop (.is op) left right => op.name ++ "(" ++ left.text ++ ", " ++ right.text ++ ")"
  | binop op left right =>
      "BINOP(" ++ op.text ++ ", " ++ left.text ++ ", " ++ right.text ++ ")"
  | call function args => "CALL(" ++ function.text ++ ", " ++ args.text ++ ")"

def StmPattern.text : StmPattern → String
  | label name => "LABEL(" ++ name.text ++ ")"
  | jump target => "JUMP(" ++ target.text ++ ")"
  | cjump op left right ifTrue ifFalse =>
      "CJUMP(" ++ op.text ++ ", " ++ left.text ++ ", " ++ right.text ++ ", " ++ ifTrue.text
        ++ ", " ++ ifFalse.text ++ ")"
  | cmove op left right dst value =>
      "CMOVE(" ++ op.text ++ ", " ++ left.text ++ ", " ++ right.text ++ ", TEMP(" ++ dst.text
        ++ "), " ++ value.text ++ ")"
  | move dst src => "MOVE(" ++ dst.text ++ ", " ++ src.text ++ ")"
  | exp value => "EXP(" ++ value.text ++ ")"

def Pattern.text : Pattern → String
  | exp pattern => pattern.text
  | stm pattern => pattern.text

end TreeTiling
