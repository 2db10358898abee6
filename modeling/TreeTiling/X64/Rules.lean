import TreeTiling.X64.Op

/-!
The x86-64 rule tables.

Specific patterns stand before general ones: a zero constant before any constant, an immediate
before a register operand, a displaced or scaled address before a plain one. A comparison takes an
immediate or a memory operand only on its right, so where the tree has it on the left, operands
and relation are transposed. Arithmetic copies its left operand to a fresh temporary first, so no
temporary of the tree is overwritten.
-/

namespace TreeTiling.X64

open TreeTiling.Action (carryOut effectsOf emitInstr fail freshTemp valueOf)

----------------------------------------------------------------------------------------------
-- Capture variables
----------------------------------------------------------------------------------------------

namespace Capture

def label : Var (.scalar .label) := ⟨0, "l"⟩
def target : Var .exp := ⟨1, "target"⟩
def dest : Var (.scalar .temp) := ⟨2, "d"⟩
def exp : Var .exp := ⟨3, "e"⟩
def left : Var .exp := ⟨4, "a"⟩
def right : Var .exp := ⟨5, "b"⟩
def int : Var (.scalar .int) := ⟨6, "i"⟩
def stored : Var (.scalar .int) := ⟨7, "j"⟩
def scale : Var (.scalar .int) := ⟨8, "s"⟩
def base : Var .exp := ⟨9, "base"⟩
def index : Var .exp := ⟨10, "index"⟩
def relop : Var (.scalar .relop) := ⟨11, "op"⟩
def imm : Var (.scalar .int) := ⟨12, "imm"⟩
def ifTrue : Var (.scalar .label) := ⟨13, "then"⟩
def ifFalse : Var (.scalar .label) := ⟨14, "else"⟩
def condDest : Var (.scalar .temp) := ⟨15, "dst"⟩
def condValue : Var .exp := ⟨16, "value"⟩
def function : Var (.scalar .label) := ⟨17, "f"⟩
def args : Var .exps := ⟨18, "args"⟩
def callee : Var .exp := ⟨19, "func"⟩
def register : Var (.scalar .temp) := ⟨20, "t"⟩

end Capture

----------------------------------------------------------------------------------------------
-- Patterns
----------------------------------------------------------------------------------------------

/-- Constants that an immediate field of 32 bits can hold. -/
def imm32 : Guard .int :=
  ⟨"imm32", Word.fitsImm32⟩

/-- Constants that an address can scale its index by. -/
def indexScale : Guard .int :=
  ⟨"1|2|4|8", Word.isScale⟩

/-- A variable stands for the pattern that captures any expression in it. -/
instance : Coe (Var .exp) ExpPattern where
  coe := .bind

/-- A variable stands for the leaf pattern that captures any leaf in it. -/
instance {leaf : Scalar} : Coe (Var (.scalar leaf)) (Leaf leaf) where
  coe := .bind

/-- A binary operation with a given operator. -/
def binary (op : BinOp) (left right : ExpPattern) : ExpPattern :=
  .binop (.is op) left right

/-- A given constant. -/
def literal (value : Word) : ExpPattern :=
  .const (.is value)

/-- A constant that fits an immediate. -/
def immediate (var : Var (.scalar .int)) : ExpPattern :=
  .const (.guard var imm32)

/-- A memory word at a base plus an immediate. -/
def displacedMem (base : Var .exp) : ExpPattern :=
  .mem (binary .plus base (immediate Capture.int))

/-- A memory word at a base plus a scaled index. -/
def scaledMem : ExpPattern :=
  .mem (binary .plus Capture.base
    (binary .mul Capture.index (.const (.guard Capture.scale indexScale))))

----------------------------------------------------------------------------------------------
-- Comparisons
----------------------------------------------------------------------------------------------

/-- The forms of a comparison, by where its operands come from. -/
inductive Shape where
  | immRight
  | immLeft
  | memBoth
  | memRight
  | memLeft
  | registers

namespace Shape

/-- The shapes in falling priority. -/
def all : List Shape :=
  [immRight, immLeft, memBoth, memRight, memLeft, registers]

def leftPattern : Shape → ExpPattern
  | immRight | memRight | registers => Capture.left
  | immLeft => immediate Capture.imm
  | memBoth | memLeft => .mem Capture.left

def rightPattern : Shape → ExpPattern
  | immLeft | memLeft | registers => Capture.right
  | immRight => immediate Capture.imm
  | memBoth | memRight => .mem Capture.right

/-- Emits the comparison; the answer is the relation to test afterwards. -/
def compare (shape : Shape) (captures : Captures) : Action Op RelOp := do
  let op ← captures.get Capture.relop
  match shape with
  | immRight =>
      let left ← valueOf (← captures.get Capture.left)
      emitInstr (.compareImm left (← captures.get Capture.imm))
      return op
  | immLeft =>
      let right ← valueOf (← captures.get Capture.right)
      emitInstr (.compareImm right (← captures.get Capture.imm))
      return op.swapped
  | memBoth =>
      let leftAddress ← valueOf (← captures.get Capture.left)
      let rightAddress ← valueOf (← captures.get Capture.right)
      let left ← freshTemp
      emitInstr (.load (.direct leftAddress) left)
      emitInstr (.compareMem left (.direct rightAddress))
      return op
  | memRight =>
      let left ← valueOf (← captures.get Capture.left)
      let rightAddress ← valueOf (← captures.get Capture.right)
      emitInstr (.compareMem left (.direct rightAddress))
      return op
  | memLeft =>
      let leftAddress ← valueOf (← captures.get Capture.left)
      let right ← valueOf (← captures.get Capture.right)
      emitInstr (.compareMem right (.direct leftAddress))
      return op.swapped
  | registers =>
      let left ← valueOf (← captures.get Capture.left)
      let right ← valueOf (← captures.get Capture.right)
      emitInstr (.compare left right)
      return op

/-- The rule for a conditional jump on a comparison of this shape. -/
def jumpRule (shape : Shape) : Rule StmPattern Op Unit where
  pattern :=
    .cjump Capture.relop shape.leftPattern shape.rightPattern Capture.ifTrue Capture.ifFalse
  action captures := do
    let op ← shape.compare captures
    emitInstr (.branch op (← captures.get Capture.ifTrue) (← captures.get Capture.ifFalse))

/-- The rule for a conditional move on a comparison of this shape. The value comes first, so that
nothing disturbs the flags between the comparison and the move.
-/
def moveRule (shape : Shape) : Rule StmPattern Op Unit where
  pattern :=
    .cmove Capture.relop shape.leftPattern shape.rightPattern Capture.condDest Capture.condValue
  action captures := do
    let src ← valueOf (← captures.get Capture.condValue)
    let op ← shape.compare captures
    emitInstr (.condMove op src (← captures.get Capture.condDest))

end Shape

----------------------------------------------------------------------------------------------
-- Calls
----------------------------------------------------------------------------------------------

/-- Computes an argument to the form in which it is stored. Constants and labels read no register
and stay as they are; a value in a machine register is copied, since later code may overwrite it.
-/
def stageArg : Exp → Action Op Exp
  | .const value => return .const value
  | .name label => return .name label
  | arg => do
      let register ← valueOf arg
      if register.isFixed then
        let copy ← freshTemp
        emitInstr (.copy copy register)
        return .temp copy
      else
        return .temp register

/-- Computes all arguments, stores them where the callee expects them, and calls. Both passes go
from the last argument to the first, and no argument is computed once the first is stored, so
nothing overwrites an argument in place.
-/
def emitCall (function : Label) (args : List Exp) : Action Op Unit := do
  let staged ← args.zipIdx.reverse.mapM fun (arg, index) => do
    return (index, ← stageArg arg)
  staged.forM fun (index, value) => carryOut (.move (outArg index) value)
  emitInstr (.call function args.length)

----------------------------------------------------------------------------------------------
-- Arithmetic
----------------------------------------------------------------------------------------------

/-- Copies a value to a fresh temporary and updates it in place. -/
def updateCopy (tree : Exp) (update : Temp → Op) : Action Op Temp := do
  let value ← valueOf tree
  let dst ← freshTemp
  emitInstr (.copy dst value)
  emitInstr (update dst)
  return dst

/-- Copies the left value to a fresh temporary and combines the right one into it. -/
def combine (op : Arith) (left right : Exp) : Action Op Temp := do
  let leftValue ← valueOf left
  let rightValue ← valueOf right
  let dst ← freshTemp
  emitInstr (.copy dst leftValue)
  emitInstr (.arith op rightValue dst)
  return dst

/-- Multiplies by an immediate into a fresh temporary. -/
def multiplyByImm (tree : Exp) (value : Word) : Action Op Temp := do
  let factor ← valueOf tree
  let dst ← freshTemp
  emitInstr (.multiplyImm value factor dst)
  return dst

/-- Divides through `rax` and `rdx` into a fresh temporary. -/
def divideInto (left right : Exp) : Action Op Temp := do
  let dividend ← valueOf left
  let divisor ← valueOf right
  emitInstr (.copy rax dividend)
  emitInstr .signExtend
  emitInstr (.divide divisor)
  let dst ← freshTemp
  emitInstr (.copy dst rax)
  return dst

----------------------------------------------------------------------------------------------
-- Statements
----------------------------------------------------------------------------------------------

/-- Labels and jumps. A jump goes to a label or is refused. -/
def controlRules : RuleTable StmPattern Op Unit :=
  [{ pattern := .label Capture.label
     action := fun captures => do
      emitInstr (.label (← captures.get Capture.label)) },
   { pattern := .jump (.name Capture.label)
     action := fun captures => do
      emitInstr (.jump (← captures.get Capture.label)) },
   { pattern := .jump Capture.target
     action := fun captures => do
      fail (.unsupported "indirect jump" (.stm (.jump (← captures.get Capture.target)))) }]

/-- Moves to a temporary. -/
def assignRules : RuleTable StmPattern Op Unit :=
  [{ pattern := .move (.temp Capture.dest) (literal 0)
     action := fun captures => do
      emitInstr (.clear (← captures.get Capture.dest)) },
   { pattern := .move (.temp Capture.dest) (.const Capture.int)
     action := fun captures => do
      emitInstr (.loadImm (← captures.get Capture.int) (← captures.get Capture.dest)) },
   { pattern :=
      .move (.temp Capture.dest) (binary .plus Capture.exp (immediate Capture.int))
     action := fun captures => do
      let base ← valueOf (← captures.get Capture.exp)
      let address := .displaced (← captures.get Capture.int) base
      emitInstr (.lea address (← captures.get Capture.dest)) },
   { pattern := .move (.temp Capture.dest) (binary .plus Capture.left Capture.right)
     action := fun captures => do
      let base ← valueOf (← captures.get Capture.left)
      let index ← valueOf (← captures.get Capture.right)
      emitInstr (.lea (.indexed base index) (← captures.get Capture.dest)) },
   { pattern := .move (.temp Capture.dest) scaledMem
     action := fun captures => do
      let base ← valueOf (← captures.get Capture.base)
      let index ← valueOf (← captures.get Capture.index)
      let address := .scaled base index (← captures.get Capture.scale)
      emitInstr (.load address (← captures.get Capture.dest)) },
   { pattern := .move (.temp Capture.dest) (displacedMem Capture.exp)
     action := fun captures => do
      let base ← valueOf (← captures.get Capture.exp)
      let address := .displaced (← captures.get Capture.int) base
      emitInstr (.load address (← captures.get Capture.dest)) },
   { pattern := .move (.temp Capture.dest) (.mem Capture.exp)
     action := fun captures => do
      let address ← valueOf (← captures.get Capture.exp)
      emitInstr (.load (.direct address) (← captures.get Capture.dest)) },
   { pattern := .move (.temp Capture.dest) Capture.exp
     action := fun captures => do
      let src ← valueOf (← captures.get Capture.exp)
      emitInstr (.copy (← captures.get Capture.dest) src) }]

/-- Moves to memory. -/
def storeRules : RuleTable StmPattern Op Unit :=
  [{ pattern := .move (displacedMem Capture.left) (immediate Capture.stored)
     action := fun captures => do
      let base ← valueOf (← captures.get Capture.left)
      let address := .displaced (← captures.get Capture.int) base
      emitInstr (.storeImm (← captures.get Capture.stored) address) },
   { pattern := .move (displacedMem Capture.left) Capture.right
     action := fun captures => do
      let base ← valueOf (← captures.get Capture.left)
      let src ← valueOf (← captures.get Capture.right)
      emitInstr (.store src (.displaced (← captures.get Capture.int) base)) },
   { pattern := .move (.mem Capture.left) (immediate Capture.stored)
     action := fun captures => do
      let address ← valueOf (← captures.get Capture.left)
      emitInstr (.storeImm (← captures.get Capture.stored) (.direct address)) },
   { pattern := .move (.mem Capture.left) Capture.right
     action := fun captures => do
      let address ← valueOf (← captures.get Capture.left)
      let src ← valueOf (← captures.get Capture.right)
      emitInstr (.store src (.direct address)) }]

/-- An expression as a statement runs for its effects. -/
def effectRule : Rule StmPattern Op Unit where
  pattern := .exp Capture.exp
  action captures := do
    effectsOf (← captures.get Capture.exp)

def statementRules : RuleTable StmPattern Op Unit :=
  controlRules ++ Shape.all.map Shape.jumpRule ++ Shape.all.map Shape.moveRule ++ assignRules
    ++ storeRules ++ [effectRule]

----------------------------------------------------------------------------------------------
-- Values
----------------------------------------------------------------------------------------------

/-- A call of an expression that is no label is refused. -/
def refuseCall {α : Type} (captures : Captures) : Action Op α := do
  let call := Exp.call (← captures.get Capture.callee) (← captures.get Capture.args)
  fail (.unsupported "indirect call" (.exp call))

/-- Calls, constants, labels, temporaries and memory words. -/
def operandRules : RuleTable ExpPattern Op Temp :=
  [{ pattern := .call (.name Capture.function) (.bind Capture.args)
     action := fun captures => do
      emitCall (← captures.get Capture.function) (← captures.get Capture.args)
      return returnReg },
   { pattern := .call Capture.callee (.bind Capture.args)
     action := refuseCall },
   { pattern := literal 0
     action := fun _ => do
      let dst ← freshTemp
      emitInstr (.clear dst)
      return dst },
   { pattern := .const Capture.int
     action := fun captures => do
      let dst ← freshTemp
      emitInstr (.loadImm (← captures.get Capture.int) dst)
      return dst },
   { pattern := .name Capture.label
     action := fun captures => do
      let dst ← freshTemp
      emitInstr (.leaLabel (← captures.get Capture.label) dst)
      return dst },
   { pattern := .temp Capture.register
     action := fun captures => do
      captures.get Capture.register },
   { pattern := scaledMem
     action := fun captures => do
      let base ← valueOf (← captures.get Capture.base)
      let index ← valueOf (← captures.get Capture.index)
      let address := .scaled base index (← captures.get Capture.scale)
      let dst ← freshTemp
      emitInstr (.load address dst)
      return dst },
   { pattern := displacedMem Capture.exp
     action := fun captures => do
      let base ← valueOf (← captures.get Capture.exp)
      let address := .displaced (← captures.get Capture.int) base
      let dst ← freshTemp
      emitInstr (.load address dst)
      return dst },
   { pattern := .mem Capture.exp
     action := fun captures => do
      let address ← valueOf (← captures.get Capture.exp)
      let dst ← freshTemp
      emitInstr (.load (.direct address) dst)
      return dst }]

/-- The rule for a value with a fixed update of one operand, which `pattern` captures. -/
def updateRule (pattern : ExpPattern) (update : Temp → Op) : Rule ExpPattern Op Temp where
  pattern
  action captures := do
    updateCopy (← captures.get Capture.exp) update

/-- The rule for a value combined with an immediate, both captured by `pattern`. -/
def arithImmRule (op : Arith) (pattern : ExpPattern) : Rule ExpPattern Op Temp where
  pattern
  action captures := do
    let value ← captures.get Capture.int
    updateCopy (← captures.get Capture.exp) (.arithImm op value)

/-- The rule for an operator on two registers. -/
def arithRule (tree : BinOp) (op : Arith) : Rule ExpPattern Op Temp where
  pattern := binary tree Capture.left Capture.right
  action captures := do
    combine op (← captures.get Capture.left) (← captures.get Capture.right)

/-- The rule for a product with an immediate, both captured by `pattern`. -/
def multiplyImmRule (pattern : ExpPattern) : Rule ExpPattern Op Temp where
  pattern
  action captures := do
    multiplyByImm (← captures.get Capture.exp) (← captures.get Capture.int)

/-- The rule for a sum with zero, which is its other operand. -/
def sameValueRule (pattern : ExpPattern) : Rule ExpPattern Op Temp where
  pattern
  action captures := do
    valueOf (← captures.get Capture.exp)

def sumRules : RuleTable ExpPattern Op Temp :=
  [sameValueRule (binary .plus Capture.exp (literal 0)),
   sameValueRule (binary .plus (literal 0) Capture.exp),
   updateRule (binary .plus Capture.exp (literal 1)) .increment,
   updateRule (binary .plus (literal 1) Capture.exp) .increment,
   arithImmRule .add (binary .plus Capture.exp (immediate Capture.int)),
   arithImmRule .add (binary .plus (immediate Capture.int) Capture.exp),
   arithRule .plus .add]

def differenceRules : RuleTable ExpPattern Op Temp :=
  [updateRule (binary .minus Capture.exp (literal 1)) .decrement,
   arithImmRule .sub (binary .minus Capture.exp (immediate Capture.int)),
   arithRule .minus .sub]

def productRules : RuleTable ExpPattern Op Temp :=
  [multiplyImmRule (binary .mul Capture.exp (immediate Capture.int)),
   multiplyImmRule (binary .mul (immediate Capture.int) Capture.exp),
   arithRule .mul .imul]

def quotientRule : Rule ExpPattern Op Temp where
  pattern := binary .div Capture.left Capture.right
  action captures := do
    divideInto (← captures.get Capture.left) (← captures.get Capture.right)

/-- The rules of an operator on bits, with an immediate on either side or with none. -/
def bitwiseRules (tree : BinOp) (op : Arith) : RuleTable ExpPattern Op Temp :=
  [arithImmRule op (binary tree Capture.exp (immediate Capture.int)),
   arithImmRule op (binary tree (immediate Capture.int) Capture.exp),
   arithRule tree op]

def valueRules : RuleTable ExpPattern Op Temp :=
  operandRules ++ sumRules ++ differenceRules ++ productRules ++ [quotientRule]
    ++ bitwiseRules .and .and ++ bitwiseRules .or .or ++ bitwiseRules .xor .xor

----------------------------------------------------------------------------------------------
-- Discarded values
----------------------------------------------------------------------------------------------

/-- The rule for a leaf, which has no effects. -/
def idleRule (pattern : ExpPattern) : Rule ExpPattern Op Unit where
  pattern
  action _ := return ()

def discardRules : RuleTable ExpPattern Op Unit :=
  [{ pattern := .call (.name Capture.function) (.bind Capture.args)
     action := fun captures => do
      emitCall (← captures.get Capture.function) (← captures.get Capture.args) },
   { pattern := .call Capture.callee (.bind Capture.args)
     action := refuseCall },
   idleRule (.const .any),
   idleRule (.name .any),
   idleRule (.temp .any),
   { pattern := Capture.exp
     action := fun captures => do
      let _ ← valueOf (← captures.get Capture.exp) }]

----------------------------------------------------------------------------------------------
-- The target
----------------------------------------------------------------------------------------------

/-- The rule tables of x86-64. -/
def rules : Rules Op where
  statement := statementRules
  value := valueRules
  discard := discardRules

/-- The name of the target in messages. -/
def targetName : String := "x86-64"

/-- The directive for one word of a data fragment: a constant or the address of a label. -/
def dataWord : Exp → Except SelectionError Instr
  | .const value => .ok (.straight (".quad   " ++ Word.text value) [] [])
  | .name label => .ok (.straight (".quad   " ++ label.name) [] [])
  | word => .error (.unsupported "data initializer" (.exp word))

end TreeTiling.X64
