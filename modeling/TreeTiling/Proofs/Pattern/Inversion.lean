import TreeTiling.Pattern.Match

/-! What a match says about the tree: one equivalence per form of pattern. -/

namespace TreeTiling

variable {captures : Captures}

----------------------------------------------------------------------------------------------
-- Leaves
----------------------------------------------------------------------------------------------

namespace Leaf

variable {scalar : Scalar} {value literal : scalar.Value} {var : Var (.scalar scalar)}

attribute [local simp] matches?

@[simp]
theorem matches?_any : (any : Leaf scalar).matches? value = some captures ↔ [] = captures := by
  simp

@[simp]
theorem matches?_is
    : (is literal).matches? value = some captures ↔ literal = value ∧ [] = captures := by
  by_cases same : literal = value <;> simp [same]

@[simp]
theorem matches?_bind
    : (bind var).matches? value = some captures
      ↔ [(var.id, .scalar scalar value)] = captures := by
  simp

@[simp]
theorem matches?_guard {condition : Guard scalar}
    : (guard var condition).matches? value = some captures
      ↔ condition.accepts value = true ∧ [(var.id, .scalar scalar value)] = captures := by
  by_cases accepted : condition.accepts value = true <;> simp [accepted]

end Leaf

----------------------------------------------------------------------------------------------
-- Expressions
----------------------------------------------------------------------------------------------

namespace ExpPattern

variable {tree : Exp}

attribute [local simp] matches?

@[simp]
theorem matches?_bind {var : Var .exp}
    : (bind var).matches? tree = some captures ↔ [(var.id, .exp tree)] = captures := by
  simp

@[simp]
theorem matches?_const {leaf : Leaf .int}
    : (const leaf).matches? tree = some captures
      ↔ ∃ value, tree = .const value ∧ leaf.matches? value = some captures := by
  cases tree <;> simp

@[simp]
theorem matches?_name {leaf : Leaf .label}
    : (name leaf).matches? tree = some captures
      ↔ ∃ label, tree = .name label ∧ leaf.matches? label = some captures := by
  cases tree <;> simp

@[simp]
theorem matches?_temp {leaf : Leaf .temp}
    : (temp leaf).matches? tree = some captures
      ↔ ∃ register, tree = .temp register ∧ leaf.matches? register = some captures := by
  cases tree <;> simp

@[simp]
theorem matches?_mem {pattern : ExpPattern}
    : (mem pattern).matches? tree = some captures
      ↔ ∃ address, tree = .mem address ∧ pattern.matches? address = some captures := by
  cases tree <;> simp

@[simp]
theorem matches?_binop {leaf : Leaf .binop} {leftPattern rightPattern : ExpPattern}
    : (binop leaf leftPattern rightPattern).matches? tree = some captures
      ↔ ∃ op left right ops lefts rights,
          tree = .binop op left right
          ∧ leaf.matches? op = some ops
          ∧ leftPattern.matches? left = some lefts
          ∧ rightPattern.matches? right = some rights
          ∧ ops ++ (lefts ++ rights) = captures := by
  cases tree <;> simp [Option.bind_eq_some_iff, and_assoc]

@[simp]
theorem matches?_call {pattern : ExpPattern} {argsPattern : ArgsPattern}
    : (call pattern argsPattern).matches? tree = some captures
      ↔ ∃ function args functions,
          tree = .call function args
          ∧ pattern.matches? function = some functions
          ∧ functions ++ argsPattern.captures args = captures := by
  cases tree <;> simp [Option.bind_eq_some_iff, and_assoc]

end ExpPattern

----------------------------------------------------------------------------------------------
-- Statements
----------------------------------------------------------------------------------------------

namespace StmPattern

variable {tree : Stm}

attribute [local simp] matches?

@[simp]
theorem matches?_label {leaf : Leaf .label}
    : (label leaf).matches? tree = some captures
      ↔ ∃ name, tree = .label name ∧ leaf.matches? name = some captures := by
  cases tree <;> simp

@[simp]
theorem matches?_jump {pattern : ExpPattern}
    : (jump pattern).matches? tree = some captures
      ↔ ∃ target, tree = .jump target ∧ pattern.matches? target = some captures := by
  cases tree <;> simp

@[simp]
theorem matches?_cjump {opLeaf : Leaf .relop} {leftPattern rightPattern : ExpPattern}
    {trueLeaf falseLeaf : Leaf .label}
    : (cjump opLeaf leftPattern rightPattern trueLeaf falseLeaf).matches? tree = some captures
      ↔ ∃ op left right ifTrue ifFalse ops lefts rights trues falses,
          tree = .cjump op left right ifTrue ifFalse
          ∧ opLeaf.matches? op = some ops
          ∧ leftPattern.matches? left = some lefts
          ∧ rightPattern.matches? right = some rights
          ∧ trueLeaf.matches? ifTrue = some trues
          ∧ falseLeaf.matches? ifFalse = some falses
          ∧ ops ++ (lefts ++ (rights ++ (trues ++ falses))) = captures := by
  cases tree <;> simp [Option.bind_eq_some_iff, and_assoc]

@[simp]
theorem matches?_cmove {opLeaf : Leaf .relop} {leftPattern rightPattern : ExpPattern}
    {dstLeaf : Leaf .temp} {valuePattern : ExpPattern}
    : (cmove opLeaf leftPattern rightPattern dstLeaf valuePattern).matches? tree = some captures
      ↔ ∃ op left right dst value ops lefts rights dsts values,
          tree = .cmove op left right dst value
          ∧ opLeaf.matches? op = some ops
          ∧ leftPattern.matches? left = some lefts
          ∧ rightPattern.matches? right = some rights
          ∧ dstLeaf.matches? dst = some dsts
          ∧ valuePattern.matches? value = some values
          ∧ ops ++ (lefts ++ (rights ++ (dsts ++ values))) = captures := by
  cases tree <;> simp [Option.bind_eq_some_iff, and_assoc]

@[simp]
theorem matches?_move {dstPattern srcPattern : ExpPattern}
    : (move dstPattern srcPattern).matches? tree = some captures
      ↔ ∃ dst src dsts srcs,
          tree = .move dst src
          ∧ dstPattern.matches? dst = some dsts
          ∧ srcPattern.matches? src = some srcs
          ∧ dsts ++ srcs = captures := by
  cases tree <;> simp [Option.bind_eq_some_iff, and_assoc]

@[simp]
theorem matches?_exp {pattern : ExpPattern}
    : (exp pattern).matches? tree = some captures
      ↔ ∃ value, tree = .exp value ∧ pattern.matches? value = some captures := by
  cases tree <;> simp

end StmPattern

end TreeTiling
