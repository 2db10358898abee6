/-! What can be wrong with a program text, and the message for each fault. -/

namespace TreeTiling.Source

/-- The operands that must be single atoms. -/
inductive AtomRole where
  | label
  | relation
  | integer
  | temporary

def AtomRole.text : AtomRole → String
  | label => "a label"
  | relation => "a relational operator"
  | integer => "an integer"
  | temporary => "a temporary name"

/-- A fault in a program text. -/
inductive Fault where
  | unexpectedClose
  | unclosed
  | noKeyword
  | notForm (found : String)
  | arity (keyword : String) (expected found : Nat)
  | notAtom (role : AtomRole)
  | unknownRelation (name : String)
  | unknownRegister (name : String)
  | notTemporary
  | badInteger (numeral : String)
  | notExpression (found : String)
  | unknownExpression (keyword : String)
  | callWithoutFunction
  | unknownStatement (keyword : String)
  | fragmentWithoutName (keyword : String)
  | unknownFragment (keyword : String)
  | noStatement
  | notOneExpression

/-- A text between the marks that set it off in a message. -/
def quoted (text : String) : String :=
  "`" ++ text ++ "`"

def Fault.message : Fault → String
  | unexpectedClose => "unexpected `)`"
  | unclosed => "unclosed `(`"
  | noKeyword => "expected `(keyword ...)`"
  | notForm found => "expected a form, found " ++ quoted found
  | arity keyword expected found =>
      quoted keyword ++ " takes " ++ expected.repr ++ " operands, found " ++ found.repr
  | notAtom role => "expected " ++ role.text
  | unknownRelation name => "unknown relational operator " ++ quoted name
  | unknownRegister name => "unknown register " ++ quoted name
  | notTemporary => "expected a temporary"
  | badInteger numeral => "bad integer " ++ quoted numeral
  | notExpression found => "expected an expression, found " ++ quoted found
  | unknownExpression keyword => "unknown expression " ++ quoted keyword
  | callWithoutFunction => "`call` needs a function"
  | unknownStatement keyword => "unknown statement " ++ quoted keyword
  | fragmentWithoutName keyword => quoted keyword ++ " needs a name"
  | unknownFragment keyword => "unknown fragment " ++ quoted keyword
  | noStatement => "no statement"
  | notOneExpression => "expected exactly one expression"

/-- A fault with the line of the form it was found in, counted from one. -/
structure Error where
  line : Nat
  fault : Fault

def Error.message (error : Error) : String :=
  "line " ++ error.line.repr ++ ": " ++ error.fault.message

end TreeTiling.Source
