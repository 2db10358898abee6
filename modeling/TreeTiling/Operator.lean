import TreeTiling.Text.Spelling
import TreeTiling.Word

/-! Binary and relational operators on words, with their spellings. -/

namespace TreeTiling

----------------------------------------------------------------------------------------------
-- Binary operators
----------------------------------------------------------------------------------------------

/-- Operators that combine two words into one. -/
inductive BinOp where
  | plus
  | minus
  | mul
  | div
  | and
  | or
  | xor
deriving DecidableEq

namespace BinOp

def all : List BinOp :=
  [plus, minus, mul, div, and, or, xor]

def name : BinOp → String
  | plus => "PLUS"
  | minus => "MINUS"
  | mul => "MUL"
  | div => "DIV"
  | and => "AND"
  | or => "OR"
  | xor => "XOR"

/-- The operator of a spelling; the case of letters does not matter. -/
def ofName? (spelling : String) : Option BinOp :=
  all.find? fun op => Text.sameLetters op.name spelling

end BinOp

----------------------------------------------------------------------------------------------
-- Relational operators
----------------------------------------------------------------------------------------------

/-- Comparisons of two words; the names with `u` read them as unsigned. -/
inductive RelOp where
  | eq
  | ne
  | lt
  | le
  | gt
  | ge
  | ult
  | ule
  | ugt
  | uge
deriving DecidableEq

namespace RelOp

def all : List RelOp :=
  [eq, ne, lt, le, gt, ge, ult, ule, ugt, uge]

def name : RelOp → String
  | eq => "EQ"
  | ne => "NE"
  | lt => "LT"
  | le => "LE"
  | gt => "GT"
  | ge => "GE"
  | ult => "ULT"
  | ule => "ULE"
  | ugt => "UGT"
  | uge => "UGE"

/-- The operator of a spelling; the case of letters does not matter. -/
def ofName? (spelling : String) : Option RelOp :=
  all.find? fun op => Text.sameLetters op.name spelling

/-- The operator that holds of `b`, `a` exactly when this one holds of `a`, `b`. -/
def swapped : RelOp → RelOp
  | eq => eq
  | ne => ne
  | lt => gt
  | le => ge
  | gt => lt
  | ge => le
  | ult => ugt
  | ule => uge
  | ugt => ult
  | uge => ule

/-- The operator that holds exactly when this one does not. -/
def negated : RelOp → RelOp
  | eq => ne
  | ne => eq
  | lt => ge
  | le => gt
  | gt => le
  | ge => lt
  | ult => uge
  | ule => ugt
  | ugt => ule
  | uge => ult

/-- Whether the comparison holds of two words. -/
def holds (op : RelOp) (left right : Word) : Bool :=
  match op with
  | eq => left == right
  | ne => left != right
  | lt => left.slt right
  | le => left.sle right
  | gt => right.slt left
  | ge => right.sle left
  | ult => left.ult right
  | ule => left.ule right
  | ugt => right.ult left
  | uge => right.ule left

/-- Transposing the operands is undone by transposing the operator. -/
@[simp]
theorem swapped_holds (op : RelOp) (left right : Word)
    : op.swapped.holds right left = op.holds left right := by
  cases op <;> simp [swapped, holds, Bool.beq_comm, bne]

end RelOp

end TreeTiling
