import TreeTiling.Operator

/-! Condition codes: the mnemonic suffixes under which the machine tests a comparison. -/

namespace TreeTiling.X64

/-- The suffix that tests a relation after the operands were compared. -/
def conditionSuffix : RelOp → String
  | .eq => "e"
  | .ne => "ne"
  | .lt => "l"
  | .le => "le"
  | .gt => "g"
  | .ge => "ge"
  | .ult => "b"
  | .ule => "be"
  | .ugt => "a"
  | .uge => "ae"

/-- The relation that a suffix tests. -/
def relationOfSuffix? (suffix : String) : Option RelOp :=
  RelOp.all.find? fun op => conditionSuffix op == suffix

/-- The conditional jump on a relation. -/
def jumpMnemonic (op : RelOp) : String :=
  "j" ++ conditionSuffix op

/-- The conditional move on a relation. -/
def moveMnemonic (op : RelOp) : String :=
  "cmov" ++ conditionSuffix op

/-- Suffixes tell relations apart; witness: the ten cases. -/
theorem relationOfSuffix?_conditionSuffix (op : RelOp)
    : relationOfSuffix? (conditionSuffix op) = some op := by
  cases op <;> decide

end TreeTiling.X64
