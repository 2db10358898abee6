import TreeTiling.Proofs.Pattern.Inversion
import TreeTiling.Proofs.Selection.Outcome
import TreeTiling.X64.Rules

/-!
The tiles of x86-64: what the action chosen for a tree asks for and emits.

The rule tables have many rules but few forms of action. A relation per table lists the forms with
the trees they are for, so that a property of selection has one case per form and never looks at a
pattern. The relations leave out the priority of the rules, except where a rule refuses a tree.
-/

namespace TreeTiling.X64

open TreeTiling.Action (carryOut effectsOf emitInstr fail freshTemp valueOf)

----------------------------------------------------------------------------------------------
-- Parts of tiles
----------------------------------------------------------------------------------------------

/-- The operator that an arithmetic operation computes. -/
def Arith.binop : Arith → BinOp
  | add => .plus
  | sub => .minus
  | imul => .mul
  | and => .and
  | or => .or
  | xor => .xor

/-- A memory operand before its registers are known: the trees whose values they will hold. -/
inductive AddressForm where
  | direct (base : Exp)
  | displaced (offset : Word) (base : Exp)
  | indexed (base index : Exp)
  | scaled (base index : Exp) (scale : Word)

namespace AddressForm

/-- Selects the registers of a memory operand, the base first. -/
def select : AddressForm → Action Op Address
  | direct base => do
      return .direct (← valueOf base)
  | displaced offset base => do
      return .displaced offset (← valueOf base)
  | indexed base index => do
      let baseRegister ← valueOf base
      return .indexed baseRegister (← valueOf index)
  | scaled base index scale => do
      let baseRegister ← valueOf base
      return .scaled baseRegister (← valueOf index) scale

/-- The trees whose value is the address of a form. -/
inductive Of : AddressForm → Exp → Prop where
  | direct (tree : Exp) : Of (.direct tree) tree
  | displaced {offset : Word} (base : Exp) (fits : offset.fitsImm32 = true)
    : Of (.displaced offset base) (.binop .plus base (.const offset))
  | indexed (base index : Exp) : Of (.indexed base index) (.binop .plus base index)
  | scaled {scale : Word} (base index : Exp) (allowed : scale.isScale = true)
    : Of (.scaled base index scale) (.binop .plus base (.binop .mul index (.const scale)))

end AddressForm

/-- The leaves that one operation puts into a register. -/
inductive MadeBy : Exp → (Temp → Op) → Prop where
  | zero : MadeBy (.const 0) .clear
  | const (value : Word) : MadeBy (.const value) (.loadImm value)
  | name (label : Label) : MadeBy (.name label) (.leaLabel label)

/-- The trees whose value is that of one operand. -/
inductive SameAs : Exp → Exp → Prop where
  | zeroRight (operand : Exp) : SameAs (.binop .plus operand (.const 0)) operand
  | zeroLeft (operand : Exp) : SameAs (.binop .plus (.const 0) operand) operand

/-- The trees whose value comes from that of one operand by an update in place. -/
inductive UpdatedBy : Exp → Exp → (Temp → Op) → Prop where
  | incrementRight (operand : Exp)
    : UpdatedBy (.binop .plus operand (.const 1)) operand .increment
  | incrementLeft (operand : Exp)
    : UpdatedBy (.binop .plus (.const 1) operand) operand .increment
  | decrement (operand : Exp)
    : UpdatedBy (.binop .minus operand (.const 1)) operand .decrement
  | immRight {value : Word} (op : Arith) (operand : Exp) (fits : value.fitsImm32 = true)
    : UpdatedBy (.binop op.binop operand (.const value)) operand (.arithImm op value)
  | immLeft {value : Word} (op : Arith) (operand : Exp) (fits : value.fitsImm32 = true)
    (commutes : op ≠ .sub)
    : UpdatedBy (.binop op.binop (.const value) operand) operand (.arithImm op value)

/-- The products of a tree with an immediate. -/
inductive MultipleOf : Exp → Exp → Word → Prop where
  | right {value : Word} (factor : Exp) (fits : value.fitsImm32 = true)
    : MultipleOf (.binop .mul factor (.const value)) factor value
  | left {value : Word} (factor : Exp) (fits : value.fitsImm32 = true)
    : MultipleOf (.binop .mul (.const value) factor) factor value

/-- Makes a leaf in a fresh temporary. -/
def makeFresh (make : Temp → Op) : Action Op Temp := do
  let dst ← freshTemp
  emitInstr (make dst)
  return dst

/-- Computes the arguments, given with their indices in the order of computation. -/
def stageArgs (args : List (Exp × Nat)) : Action Op (List (Nat × Exp)) :=
  args.mapM fun (arg, index) => do
    return (index, ← stageArg arg)

/-- Stores computed arguments where the callee expects them. -/
def storeArgs (staged : List (Nat × Exp)) : Action Op Unit :=
  staged.forM fun (index, value) => carryOut (.move (outArg index) value)

/-- A call is its two passes and the transfer itself. -/
theorem emitCall_eq (function : Label) (args : List Exp)
    : emitCall function args = (do
        let staged ← stageArgs args.zipIdx.reverse
        storeArgs staged
        emitInstr (.call function args.length)) :=
  rfl

----------------------------------------------------------------------------------------------
-- Tiles
----------------------------------------------------------------------------------------------

/-- The actions for the value of a tree. -/
inductive ValueTile : Exp → Action Op Temp → Prop where
  | call (function : Label) (args : List Exp)
    : ValueTile (.call (.name function) args) (do
        emitCall function args
        return returnReg)
  | refuse (callee : Exp) (args : List Exp) (indirect : ∀ function, callee ≠ .name function)
    : ValueTile (.call callee args)
        (fail (.unsupported "indirect call" (.exp (.call callee args))))
  | make {tree : Exp} {make : Temp → Op} (made : MadeBy tree make)
    : ValueTile tree (makeFresh make)
  | temp (register : Temp) : ValueTile (.temp register) (pure register)
  | load {form : AddressForm} {tree : Exp} (of : form.Of tree)
    : ValueTile (.mem tree) (do
        let address ← form.select
        makeFresh (.load address))
  | same {tree operand : Exp} (same : SameAs tree operand) : ValueTile tree (valueOf operand)
  | update {tree operand : Exp} {update : Temp → Op} (updated : UpdatedBy tree operand update)
    : ValueTile tree (updateCopy operand update)
  | combine (op : Arith) (left right : Exp)
    : ValueTile (.binop op.binop left right) (combine op left right)
  | multiple {tree factor : Exp} {value : Word} (multiple : MultipleOf tree factor value)
    : ValueTile tree (multiplyByImm factor value)
  | quotient (left right : Exp) : ValueTile (.binop .div left right) (divideInto left right)

/-- The actions for the effects of a tree. -/
inductive DiscardTile : Exp → Action Op Unit → Prop where
  | call (function : Label) (args : List Exp)
    : DiscardTile (.call (.name function) args) (emitCall function args)
  | refuse (callee : Exp) (args : List Exp) (indirect : ∀ function, callee ≠ .name function)
    : DiscardTile (.call callee args)
        (fail (.unsupported "indirect call" (.exp (.call callee args))))
  | idle (tree : Exp) (leaf : tree.height = 1) : DiscardTile tree (pure ())
  | value (tree : Exp) : DiscardTile tree (do
      let _ ← valueOf tree)

/-- The actions for a comparison; their answer is the relation to test. -/
inductive CompareTile (op : RelOp) : Exp → Exp → Action Op RelOp → Prop where
  | immRight (left : Exp) {value : Word} (fits : value.fitsImm32 = true)
    : CompareTile op left (.const value) (do
        let register ← valueOf left
        emitInstr (.compareImm register value)
        return op)
  | immLeft {value : Word} (right : Exp) (fits : value.fitsImm32 = true)
    : CompareTile op (.const value) right (do
        let register ← valueOf right
        emitInstr (.compareImm register value)
        return op.swapped)
  | memBoth (left right : Exp)
    : CompareTile op (.mem left) (.mem right) (do
        let leftAddress ← valueOf left
        let rightAddress ← valueOf right
        let register ← freshTemp
        emitInstr (.load (.direct leftAddress) register)
        emitInstr (.compareMem register (.direct rightAddress))
        return op)
  | memRight (left right : Exp)
    : CompareTile op left (.mem right) (do
        let register ← valueOf left
        let rightAddress ← valueOf right
        emitInstr (.compareMem register (.direct rightAddress))
        return op)
  | memLeft (left right : Exp)
    : CompareTile op (.mem left) right (do
        let leftAddress ← valueOf left
        let register ← valueOf right
        emitInstr (.compareMem register (.direct leftAddress))
        return op.swapped)
  | registers (left right : Exp)
    : CompareTile op left right (do
        let leftRegister ← valueOf left
        let rightRegister ← valueOf right
        emitInstr (.compare leftRegister rightRegister)
        return op)

/-- The actions for a statement that is not a sequence. -/
inductive StatementTile : Stm → Action Op Unit → Prop where
  | label (name : Label) : StatementTile (.label name) (emitInstr (.label name))
  | jump (target : Label) : StatementTile (.jump (.name target)) (emitInstr (.jump target))
  | refuse (target : Exp) (indirect : ∀ name, target ≠ .name name)
    : StatementTile (.jump target) (fail (.unsupported "indirect jump" (.stm (.jump target))))
  | cjump {op : RelOp} {left right : Exp} {compare : Action Op RelOp} (ifTrue ifFalse : Label)
    (compares : CompareTile op left right compare)
    : StatementTile (.cjump op left right ifTrue ifFalse) (do
        let tested ← compare
        emitInstr (.branch tested ifTrue ifFalse))
  | cmove {op : RelOp} {left right : Exp} {compare : Action Op RelOp} (dst : Temp) (value : Exp)
    (compares : CompareTile op left right compare)
    : StatementTile (.cmove op left right dst value) (do
        let src ← valueOf value
        let tested ← compare
        emitInstr (.condMove tested src dst))
  | make {tree : Exp} {make : Temp → Op} (dst : Temp) (made : MadeBy tree make)
    : StatementTile (.move (.temp dst) tree) (emitInstr (make dst))
  | lea {form : AddressForm} {tree : Exp} (dst : Temp) (of : form.Of tree)
    : StatementTile (.move (.temp dst) tree) (do
        let address ← form.select
        emitInstr (.lea address dst))
  | load {form : AddressForm} {tree : Exp} (dst : Temp) (of : form.Of tree)
    : StatementTile (.move (.temp dst) (.mem tree)) (do
        let address ← form.select
        emitInstr (.load address dst))
  | copy (dst : Temp) (tree : Exp)
    : StatementTile (.move (.temp dst) tree) (do
        let src ← valueOf tree
        emitInstr (.copy dst src))
  | storeImm {form : AddressForm} {tree : Exp} {value : Word} (of : form.Of tree)
    (fits : value.fitsImm32 = true)
    : StatementTile (.move (.mem tree) (.const value)) (do
        let address ← form.select
        emitInstr (.storeImm value address))
  | store {form : AddressForm} {tree : Exp} (value : Exp) (of : form.Of tree)
    : StatementTile (.move (.mem tree) value) (do
        let address ← form.select
        let src ← valueOf value
        emitInstr (.store src address))
  | effects (tree : Exp) : StatementTile (.exp tree) (effectsOf tree)

----------------------------------------------------------------------------------------------
-- Patterns
----------------------------------------------------------------------------------------------

section

variable {tree : Exp} {captures : Captures}

theorem matches?_binary {op : BinOp} {leftPattern rightPattern : ExpPattern}
    : (binary op leftPattern rightPattern).matches? tree = some captures
      ↔ ∃ left right lefts rights,
          tree = .binop op left right
          ∧ leftPattern.matches? left = some lefts
          ∧ rightPattern.matches? right = some rights
          ∧ lefts ++ rights = captures := by
  simp only [binary, ExpPattern.matches?_binop, Leaf.matches?_is]
  constructor
  · rintro ⟨_, left, right, _, lefts, rights, rfl, ⟨rfl, rfl⟩, leftFound, rightFound, rfl⟩
    exact ⟨left, right, lefts, rights, rfl, leftFound, rightFound, rfl⟩
  · rintro ⟨left, right, lefts, rights, rfl, leftFound, rightFound, rfl⟩
    exact ⟨op, left, right, [], lefts, rights, rfl, ⟨rfl, rfl⟩, leftFound, rightFound, rfl⟩

theorem matches?_literal {value : Word}
    : (literal value).matches? tree = some captures ↔ tree = .const value ∧ [] = captures := by
  simp only [literal, ExpPattern.matches?_const, Leaf.matches?_is]
  constructor
  · rintro ⟨_, rfl, rfl, rfl⟩
    exact ⟨rfl, rfl⟩
  · rintro ⟨rfl, rfl⟩
    exact ⟨_, rfl, rfl, rfl⟩

theorem matches?_immediate {var : Var (.scalar .int)}
    : (immediate var).matches? tree = some captures
      ↔ ∃ value : Word,
          tree = .const value
          ∧ value.fitsImm32 = true
          ∧ [(var.id, .scalar .int value)] = captures := by
  simp only [immediate, ExpPattern.matches?_const, Leaf.matches?_guard, imm32]

theorem matches?_displacedMem {var : Var .exp}
    : (displacedMem var).matches? tree = some captures
      ↔ ∃ base, ∃ offset : Word,
          tree = .mem (.binop .plus base (.const offset))
          ∧ offset.fitsImm32 = true
          ∧ [(var.id, .exp base), (Capture.int.id, .scalar .int offset)] = captures := by
  simp only [displacedMem, ExpPattern.matches?_mem, matches?_binary, ExpPattern.matches?_bind,
    matches?_immediate]
  constructor
  · rintro ⟨_, rfl, base, _, _, _, rfl, rfl, ⟨offset, rfl, fits, rfl⟩, rfl⟩
    exact ⟨base, offset, rfl, fits, rfl⟩
  · rintro ⟨base, offset, rfl, fits, rfl⟩
    exact ⟨_, rfl, base, _, _, _, rfl, rfl, ⟨offset, rfl, fits, rfl⟩, rfl⟩

theorem matches?_scaledMem
    : scaledMem.matches? tree = some captures
      ↔ ∃ base index, ∃ scale : Word,
          tree = .mem (.binop .plus base (.binop .mul index (.const scale)))
          ∧ scale.isScale = true
          ∧ [(Capture.base.id, .exp base), (Capture.index.id, .exp index),
              (Capture.scale.id, .scalar .int scale)] = captures := by
  simp only [scaledMem, ExpPattern.matches?_mem, matches?_binary, ExpPattern.matches?_bind,
    ExpPattern.matches?_const, Leaf.matches?_guard, indexScale]
  constructor
  · rintro ⟨_, rfl, base, _, _, _, rfl, rfl, ⟨index, _, _, _, rfl, rfl, ⟨scale, rfl, allowed, rfl⟩,
      rfl⟩, rfl⟩
    exact ⟨base, index, scale, rfl, allowed, rfl⟩
  · rintro ⟨base, index, scale, rfl, allowed, rfl⟩
    exact ⟨_, rfl, base, _, _, _, rfl, rfl, ⟨index, _, _, _, rfl, rfl, ⟨scale, rfl, allowed, rfl⟩,
      rfl⟩, rfl⟩

----------------------------------------------------------------------------------------------
-- From rules to tiles
----------------------------------------------------------------------------------------------

/-- The rules for leaves and memory words are tiles, except the one that refuses calls. -/
theorem operandRules_tile {rule : Rule ExpPattern Op Temp} (member : rule ∈ operandRules)
    (found : rule.pattern.matches? tree = some captures)
    (direct : ∀ callee args, tree ≠ .call callee args)
    : ValueTile tree (rule.action captures) := by
  simp only [operandRules, List.mem_cons, List.not_mem_nil, or_false] at member
  rcases member with rfl | rfl | rfl | rfl | rfl | rfl | rfl | rfl | rfl
  · obtain ⟨_, _, _, rfl, _⟩ := ExpPattern.matches?_call.mp found
    exact absurd rfl (direct _ _)
  · obtain ⟨_, _, _, rfl, _⟩ := ExpPattern.matches?_call.mp found
    exact absurd rfl (direct _ _)
  · obtain ⟨rfl, rfl⟩ := matches?_literal.mp found
    exact .make .zero
  · simp only [ExpPattern.matches?_const, Leaf.matches?_bind] at found
    obtain ⟨value, rfl, rfl⟩ := found
    exact .make (.const value)
  · simp only [ExpPattern.matches?_name, Leaf.matches?_bind] at found
    obtain ⟨label, rfl, rfl⟩ := found
    exact .make (.name label)
  · simp only [ExpPattern.matches?_temp, Leaf.matches?_bind] at found
    obtain ⟨register, rfl, rfl⟩ := found
    exact .temp register
  · obtain ⟨base, index, scale, rfl, allowed, rfl⟩ := matches?_scaledMem.mp found
    exact .load (.scaled base index allowed)
  · obtain ⟨base, offset, rfl, fits, rfl⟩ := matches?_displacedMem.mp found
    exact .load (.displaced base fits)
  · simp only [ExpPattern.matches?_mem, ExpPattern.matches?_bind] at found
    obtain ⟨address, rfl, rfl⟩ := found
    exact .load (.direct address)

/-- The rule for an update with an immediate on the right is a tile. -/
theorem arithImmRight_tile (op : Arith)
    (found : (binary op.binop Capture.exp (immediate Capture.int)).matches? tree = some captures)
    : ValueTile tree
        ((arithImmRule op (binary op.binop Capture.exp (immediate Capture.int))).action
          captures) := by
  simp only [matches?_binary, ExpPattern.matches?_bind, matches?_immediate] at found
  obtain ⟨operand, _, _, _, rfl, rfl, ⟨value, rfl, fits, rfl⟩, rfl⟩ := found
  exact .update (.immRight op operand fits)

/-- The rule for an update with an immediate on the left is a tile. -/
theorem arithImmLeft_tile (op : Arith) (commutes : op ≠ .sub)
    (found : (binary op.binop (immediate Capture.int) Capture.exp).matches? tree = some captures)
    : ValueTile tree
        ((arithImmRule op (binary op.binop (immediate Capture.int) Capture.exp)).action
          captures) := by
  simp only [matches?_binary, ExpPattern.matches?_bind, matches?_immediate] at found
  obtain ⟨_, operand, _, _, rfl, ⟨value, rfl, fits, rfl⟩, rfl, rfl⟩ := found
  exact .update (.immLeft op operand fits commutes)

/-- The rule for an operator on two registers is a tile. -/
theorem arithRule_tile (op : Arith)
    (found : (arithRule op.binop op).pattern.matches? tree = some captures)
    : ValueTile tree ((arithRule op.binop op).action captures) := by
  simp only [arithRule, matches?_binary, ExpPattern.matches?_bind] at found
  obtain ⟨left, right, _, _, rfl, rfl, rfl, rfl⟩ := found
  exact .combine op left right

/-- The rules for sums are tiles. -/
theorem sumRules_tile {rule : Rule ExpPattern Op Temp} (member : rule ∈ sumRules)
    (found : rule.pattern.matches? tree = some captures)
    : ValueTile tree (rule.action captures) := by
  simp only [sumRules, List.mem_cons, List.not_mem_nil, or_false] at member
  rcases member with rfl | rfl | rfl | rfl | rfl | rfl | rfl
  · simp only [sameValueRule, matches?_binary, ExpPattern.matches?_bind, matches?_literal] at found
    obtain ⟨operand, _, _, _, rfl, rfl, ⟨rfl, rfl⟩, rfl⟩ := found
    exact .same (.zeroRight operand)
  · simp only [sameValueRule, matches?_binary, ExpPattern.matches?_bind, matches?_literal] at found
    obtain ⟨_, operand, _, _, rfl, ⟨rfl, rfl⟩, rfl, rfl⟩ := found
    exact .same (.zeroLeft operand)
  · simp only [updateRule, matches?_binary, ExpPattern.matches?_bind, matches?_literal] at found
    obtain ⟨operand, _, _, _, rfl, rfl, ⟨rfl, rfl⟩, rfl⟩ := found
    exact .update (.incrementRight operand)
  · simp only [updateRule, matches?_binary, ExpPattern.matches?_bind, matches?_literal] at found
    obtain ⟨_, operand, _, _, rfl, ⟨rfl, rfl⟩, rfl, rfl⟩ := found
    exact .update (.incrementLeft operand)
  · exact arithImmRight_tile .add found
  · exact arithImmLeft_tile .add (by decide) found
  · exact arithRule_tile .add found

/-- The rules for differences are tiles. -/
theorem differenceRules_tile {rule : Rule ExpPattern Op Temp} (member : rule ∈ differenceRules)
    (found : rule.pattern.matches? tree = some captures)
    : ValueTile tree (rule.action captures) := by
  simp only [differenceRules, List.mem_cons, List.not_mem_nil, or_false] at member
  rcases member with rfl | rfl | rfl
  · simp only [updateRule, matches?_binary, ExpPattern.matches?_bind, matches?_literal] at found
    obtain ⟨operand, _, _, _, rfl, rfl, ⟨rfl, rfl⟩, rfl⟩ := found
    exact .update (.decrement operand)
  · exact arithImmRight_tile .sub found
  · exact arithRule_tile .sub found

/-- The rules for products are tiles. -/
theorem productRules_tile {rule : Rule ExpPattern Op Temp} (member : rule ∈ productRules)
    (found : rule.pattern.matches? tree = some captures)
    : ValueTile tree (rule.action captures) := by
  simp only [productRules, List.mem_cons, List.not_mem_nil, or_false] at member
  rcases member with rfl | rfl | rfl
  · simp only [multiplyImmRule, matches?_binary, ExpPattern.matches?_bind, matches?_immediate]
      at found
    obtain ⟨factor, _, _, _, rfl, rfl, ⟨value, rfl, fits, rfl⟩, rfl⟩ := found
    exact .multiple (.right factor fits)
  · simp only [multiplyImmRule, matches?_binary, ExpPattern.matches?_bind, matches?_immediate]
      at found
    obtain ⟨_, factor, _, _, rfl, ⟨value, rfl, fits, rfl⟩, rfl, rfl⟩ := found
    exact .multiple (.left factor fits)
  · exact arithRule_tile .imul found

/-- The rule for quotients is a tile. -/
theorem quotientRule_tile (found : quotientRule.pattern.matches? tree = some captures)
    : ValueTile tree (quotientRule.action captures) := by
  simp only [quotientRule, matches?_binary, ExpPattern.matches?_bind] at found
  obtain ⟨left, right, _, _, rfl, rfl, rfl, rfl⟩ := found
  exact .quotient left right

/-- The rules of an operator on bits are tiles. -/
theorem bitwiseRules_tile {rule : Rule ExpPattern Op Temp} (op : Arith) (commutes : op ≠ .sub)
    (member : rule ∈ bitwiseRules op.binop op)
    (found : rule.pattern.matches? tree = some captures)
    : ValueTile tree (rule.action captures) := by
  simp only [bitwiseRules, List.mem_cons, List.not_mem_nil, or_false] at member
  rcases member with rfl | rfl | rfl
  · exact arithImmRight_tile op found
  · exact arithImmLeft_tile op commutes found
  · exact arithRule_tile op found

/-- The rule chosen for the value of a tree is a tile. A call goes to the first rule of the table,
which is why only a call of another expression than a label is refused.
-/
theorem valueTile_of_choose? {choice : RuleTable.Choice ExpPattern Op Temp}
    (chosen : valueRules.choose? (·.matches? tree) = some choice)
    : ValueTile tree (choice.rule.action choice.captures) := by
  by_cases isCall : ∃ callee args, tree = .call callee args
  · obtain ⟨callee, args, rfl⟩ := isCall
    cases callee with
    | name function =>
        obtain rfl := Option.some.inj chosen
        exact .call function args
    | const _ | temp _ | mem _ | binop _ _ _ | call _ _ =>
        obtain rfl := Option.some.inj chosen
        exact .refuse _ args (by simp)
  · have direct : ∀ callee args, tree ≠ .call callee args :=
      fun callee args same => isCall ⟨callee, args, same⟩
    obtain ⟨member, found⟩ := RuleTable.choose?_mem chosen
    simp only [valueRules, List.mem_append, List.mem_singleton] at member
    rcases member with ((((((operand | sum) | difference) | product) | quotient) | bits) | bits)
      | bits
    · exact operandRules_tile operand found direct
    · exact sumRules_tile sum found
    · exact differenceRules_tile difference found
    · exact productRules_tile product found
    · rw [quotient] at found ⊢
      exact quotientRule_tile found
    · exact bitwiseRules_tile .and (by decide) bits found
    · exact bitwiseRules_tile .or (by decide) bits found
    · exact bitwiseRules_tile .xor (by decide) bits found

/-- The rule chosen for the effects of a tree is a tile. -/
theorem discardTile_of_choose? {choice : RuleTable.Choice ExpPattern Op Unit}
    (chosen : discardRules.choose? (·.matches? tree) = some choice)
    : DiscardTile tree (choice.rule.action choice.captures) := by
  cases tree with
  | call callee args =>
      cases callee with
      | name function =>
          obtain rfl := Option.some.inj chosen
          exact .call function args
      | const _ | temp _ | mem _ | binop _ _ _ | call _ _ =>
          obtain rfl := Option.some.inj chosen
          exact .refuse _ args (by simp)
  | const _ | name _ | temp _ =>
      obtain rfl := Option.some.inj chosen
      exact .idle _ rfl
  | mem _ | binop _ _ _ =>
      obtain rfl := Option.some.inj chosen
      exact .value _

end

section

variable {tree : Stm} {captures : Captures}

/-- A comparison is a tile in every shape whose patterns match its operands, whatever else was
captured after them.
-/
theorem compareTile_of_shape (shape : Shape) (op : RelOp) {left right : Exp}
    {lefts rights : Captures} (rest : Captures)
    (leftFound : shape.leftPattern.matches? left = some lefts)
    (rightFound : shape.rightPattern.matches? right = some rights)
    : CompareTile op left right
        (shape.compare ((Capture.relop.id, .scalar .relop op) :: (lefts ++ (rights ++ rest)))) := by
  cases shape with
  | immRight =>
      obtain rfl := ExpPattern.matches?_bind.mp leftFound
      obtain ⟨value, rfl, fits, rfl⟩ := matches?_immediate.mp rightFound
      exact .immRight left fits
  | immLeft =>
      obtain ⟨value, rfl, fits, rfl⟩ := matches?_immediate.mp leftFound
      obtain rfl := ExpPattern.matches?_bind.mp rightFound
      exact .immLeft right fits
  | memBoth =>
      obtain ⟨leftAddress, rfl, found⟩ := ExpPattern.matches?_mem.mp leftFound
      obtain rfl := ExpPattern.matches?_bind.mp found
      obtain ⟨rightAddress, rfl, found⟩ := ExpPattern.matches?_mem.mp rightFound
      obtain rfl := ExpPattern.matches?_bind.mp found
      exact .memBoth leftAddress rightAddress
  | memRight =>
      obtain rfl := ExpPattern.matches?_bind.mp leftFound
      obtain ⟨rightAddress, rfl, found⟩ := ExpPattern.matches?_mem.mp rightFound
      obtain rfl := ExpPattern.matches?_bind.mp found
      exact .memRight left rightAddress
  | memLeft =>
      obtain ⟨leftAddress, rfl, found⟩ := ExpPattern.matches?_mem.mp leftFound
      obtain rfl := ExpPattern.matches?_bind.mp found
      obtain rfl := ExpPattern.matches?_bind.mp rightFound
      exact .memLeft leftAddress right
  | registers =>
      obtain rfl := ExpPattern.matches?_bind.mp leftFound
      obtain rfl := ExpPattern.matches?_bind.mp rightFound
      exact .registers left right

/-- The left operand of a comparison is captured in one variable, numbered before those that follow
the operands.
-/
theorem leftPattern_captures (shape : Shape) {left : Exp} {lefts : Captures}
    (found : shape.leftPattern.matches? left = some lefts)
    : ∃ id captured, id ≤ Capture.imm.id ∧ lefts = [(id, captured)] := by
  cases shape with
  | immRight | memRight | registers =>
      exact ⟨_, _, by decide, (ExpPattern.matches?_bind.mp found).symm⟩
  | immLeft =>
      obtain ⟨_, _, _, captured⟩ := matches?_immediate.mp found
      exact ⟨_, _, by decide, captured.symm⟩
  | memBoth | memLeft =>
      obtain ⟨_, _, found⟩ := ExpPattern.matches?_mem.mp found
      exact ⟨_, _, by decide, (ExpPattern.matches?_bind.mp found).symm⟩

/-- The same for the right operand. -/
theorem rightPattern_captures (shape : Shape) {right : Exp} {rights : Captures}
    (found : shape.rightPattern.matches? right = some rights)
    : ∃ id captured, id ≤ Capture.imm.id ∧ rights = [(id, captured)] := by
  cases shape with
  | immLeft | memLeft | registers =>
      exact ⟨_, _, by decide, (ExpPattern.matches?_bind.mp found).symm⟩
  | immRight =>
      obtain ⟨_, _, _, captured⟩ := matches?_immediate.mp found
      exact ⟨_, _, by decide, captured.symm⟩
  | memBoth | memRight =>
      obtain ⟨_, _, found⟩ := ExpPattern.matches?_mem.mp found
      exact ⟨_, _, by decide, (ExpPattern.matches?_bind.mp found).symm⟩

/-- What follows the operands of a comparison is read past the relation and the operands. -/
theorem get_after_operands (shape : Shape) {op : RelOp} {left right : Exp}
    {lefts rights rest : Captures} {kind : Kind} (var : Var kind) (later : Capture.imm.id < var.id)
    (leftFound : shape.leftPattern.matches? left = some lefts)
    (rightFound : shape.rightPattern.matches? right = some rights)
    : Captures.get ((Capture.relop.id, .scalar .relop op) :: (lefts ++ (rights ++ rest))) var
      = Captures.get rest var := by
  obtain ⟨leftId, leftCaptured, leftEarly, rfl⟩ := leftPattern_captures shape leftFound
  obtain ⟨rightId, rightCaptured, rightEarly, rfl⟩ := rightPattern_captures shape rightFound
  have skip {id : Nat} (captured : Captured) (others : Captures) (early : id ≤ Capture.imm.id)
      : ((id, captured) :: others).lookup var.id = others.lookup var.id := by
    have differs : (var.id == id) = false := by
      rw [beq_eq_false_iff_ne]
      omega
    rw [List.lookup_cons, differs]
  simp only [Captures.get, List.singleton_append]
  rw [skip _ _ (by decide), skip _ _ leftEarly, skip _ _ rightEarly]

/-- An action compares two operands in a shape whose patterns match them. -/
def Shape.Compares (shape : Shape) (op : RelOp) (left right : Exp) (compare : Action Op RelOp)
    : Prop :=
  ∃ lefts rights rest,
    shape.leftPattern.matches? left = some lefts
    ∧ shape.rightPattern.matches? right = some rights
    ∧ compare
      = shape.compare ((Capture.relop.id, .scalar .relop op) :: (lefts ++ (rights ++ rest)))

theorem Shape.Compares.tile {shape : Shape} {op : RelOp} {left right : Exp}
    {compare : Action Op RelOp} (compares : shape.Compares op left right compare)
    : CompareTile op left right compare := by
  obtain ⟨_, _, rest, leftFound, rightFound, rfl⟩ := compares
  exact compareTile_of_shape shape op rest leftFound rightFound

/-- A conditional jump compares in the shape of its rule. -/
theorem jumpRule_compares (shape : Shape)
    (found : shape.jumpRule.pattern.matches? tree = some captures)
    : ∃ op left right ifTrue ifFalse compare,
        tree = .cjump op left right ifTrue ifFalse
        ∧ shape.Compares op left right compare
        ∧ shape.jumpRule.action captures = (do
            let tested ← compare
            emitInstr (.branch tested ifTrue ifFalse)) := by
  simp only [Shape.jumpRule, StmPattern.matches?_cjump, Leaf.matches?_bind] at found
  obtain ⟨op, left, right, ifTrue, ifFalse, _, lefts, rights, _, _, rfl, rfl, leftFound,
    rightFound, rfl, rfl, rfl⟩ := found
  have compares : shape.Compares op left right _ :=
    ⟨lefts, rights,
      [(Capture.ifTrue.id, .scalar .label ifTrue)]
        ++ [(Capture.ifFalse.id, .scalar .label ifFalse)],
      leftFound, rightFound, rfl⟩
  refine ⟨op, left, right, ifTrue, ifFalse, _, rfl, compares, ?_⟩
  simp only [Shape.jumpRule, List.singleton_append]
  rw [get_after_operands shape Capture.ifTrue (by decide) leftFound rightFound,
    get_after_operands shape Capture.ifFalse (by decide) leftFound rightFound]
  rfl

/-- A conditional move compares in the shape of its rule, after its value. -/
theorem moveRule_compares (shape : Shape)
    (found : shape.moveRule.pattern.matches? tree = some captures)
    : ∃ op left right dst value compare,
        tree = .cmove op left right dst value
        ∧ shape.Compares op left right compare
        ∧ shape.moveRule.action captures = (do
            let src ← valueOf value
            let tested ← compare
            emitInstr (.condMove tested src dst)) := by
  simp only [Shape.moveRule, StmPattern.matches?_cmove, Leaf.matches?_bind,
    ExpPattern.matches?_bind] at found
  obtain ⟨op, left, right, dst, value, _, lefts, rights, _, _, rfl, rfl, leftFound, rightFound,
    rfl, rfl, rfl⟩ := found
  have compares : shape.Compares op left right _ :=
    ⟨lefts, rights,
      [(Capture.condDest.id, .scalar .temp dst)] ++ [(Capture.condValue.id, .exp value)],
      leftFound, rightFound, rfl⟩
  refine ⟨op, left, right, dst, value, _, rfl, compares, ?_⟩
  simp only [Shape.moveRule, List.singleton_append]
  rw [get_after_operands shape Capture.condValue (by decide) leftFound rightFound,
    get_after_operands shape Capture.condDest (by decide) leftFound rightFound]
  rfl

/-- The rule for a conditional jump is a tile in every shape. -/
theorem jumpRule_tile (shape : Shape) (found : shape.jumpRule.pattern.matches? tree = some captures)
    : StatementTile tree (shape.jumpRule.action captures) := by
  obtain ⟨_, _, _, ifTrue, ifFalse, _, rfl, compares, acts⟩ := jumpRule_compares shape found
  rw [acts]
  exact .cjump ifTrue ifFalse compares.tile

/-- The rule for a conditional move is a tile in every shape. -/
theorem moveRule_tile (shape : Shape) (found : shape.moveRule.pattern.matches? tree = some captures)
    : StatementTile tree (shape.moveRule.action captures) := by
  obtain ⟨_, _, _, dst, value, _, rfl, compares, acts⟩ := moveRule_compares shape found
  rw [acts]
  exact .cmove dst value compares.tile

/-- The rules for moves to temporaries are tiles. -/
theorem assignRules_tile {rule : Rule StmPattern Op Unit} (member : rule ∈ assignRules)
    (found : rule.pattern.matches? tree = some captures)
    : StatementTile tree (rule.action captures) := by
  simp only [assignRules, List.mem_cons, List.not_mem_nil, or_false] at member
  rcases member with rfl | rfl | rfl | rfl | rfl | rfl | rfl | rfl
  all_goals
    simp only [StmPattern.matches?_move, ExpPattern.matches?_temp, Leaf.matches?_bind,
      ExpPattern.matches?_const, ExpPattern.matches?_mem, ExpPattern.matches?_bind,
      matches?_literal, matches?_binary, matches?_immediate, matches?_scaledMem,
      matches?_displacedMem] at found
    obtain ⟨_, _, _, _, rfl, ⟨dst, rfl, rfl⟩, found, rfl⟩ := found
  · obtain ⟨rfl, rfl⟩ := found
    exact .make dst .zero
  · obtain ⟨value, rfl, rfl⟩ := found
    exact .make dst (.const value)
  · obtain ⟨base, _, _, _, rfl, rfl, ⟨offset, rfl, fits, rfl⟩, rfl⟩ := found
    exact .lea dst (.displaced base fits)
  · obtain ⟨base, index, _, _, rfl, rfl, rfl, rfl⟩ := found
    exact .lea dst (.indexed base index)
  · obtain ⟨base, index, scale, rfl, allowed, rfl⟩ := found
    exact .load dst (.scaled base index allowed)
  · obtain ⟨base, offset, rfl, fits, rfl⟩ := found
    exact .load dst (.displaced base fits)
  · obtain ⟨address, rfl, rfl⟩ := found
    exact .load dst (.direct address)
  · obtain rfl := found
    exact .copy dst _

/-- The rules for moves to memory are tiles. -/
theorem storeRules_tile {rule : Rule StmPattern Op Unit} (member : rule ∈ storeRules)
    (found : rule.pattern.matches? tree = some captures)
    : StatementTile tree (rule.action captures) := by
  simp only [storeRules, List.mem_cons, List.not_mem_nil, or_false] at member
  rcases member with rfl | rfl | rfl | rfl
  all_goals
    simp only [StmPattern.matches?_move, ExpPattern.matches?_mem, ExpPattern.matches?_bind,
      matches?_immediate, matches?_displacedMem] at found
  · obtain ⟨_, _, _, _, rfl, ⟨base, offset, rfl, fits, rfl⟩, ⟨value, rfl, small, rfl⟩, rfl⟩ := found
    exact .storeImm (.displaced base fits) small
  · obtain ⟨_, value, _, _, rfl, ⟨base, offset, rfl, fits, rfl⟩, rfl, rfl⟩ := found
    exact .store value (.displaced base fits)
  · obtain ⟨_, _, _, _, rfl, ⟨address, rfl, rfl⟩, ⟨value, rfl, small, rfl⟩, rfl⟩ := found
    exact .storeImm (.direct address) small
  · obtain ⟨_, value, _, _, rfl, ⟨address, rfl, rfl⟩, rfl, rfl⟩ := found
    exact .store value (.direct address)

/-- The rule chosen for a statement is a tile. A jump to a label goes to the rule in front of the
one that refuses jumps.
-/
theorem statementTile_of_choose? {choice : RuleTable.Choice StmPattern Op Unit}
    (chosen : statementRules.choose? (·.matches? tree) = some choice)
    : StatementTile tree (choice.rule.action choice.captures) := by
  obtain ⟨member, found⟩ := RuleTable.choose?_mem chosen
  obtain ⟨index, rule, captures⟩ := choice
  simp only [statementRules, List.mem_append, List.mem_map, List.mem_singleton] at member
  rcases member with ((((control | ⟨shape, _, rfl⟩) | ⟨shape, _, rfl⟩) | assign) | store) | rfl
  · cases tree with
    | label name =>
        obtain ⟨rfl, rfl, rfl⟩ := RuleTable.Choice.mk.inj (Option.some.inj chosen)
        exact .label name
    | jump target =>
        cases target with
        | name label =>
            obtain ⟨rfl, rfl, rfl⟩ := RuleTable.Choice.mk.inj (Option.some.inj chosen)
            exact .jump label
        | const _ | temp _ | mem _ | binop _ _ _ | call _ _ =>
            obtain ⟨rfl, rfl, rfl⟩ := RuleTable.Choice.mk.inj (Option.some.inj chosen)
            exact .refuse _ (by simp)
    | cjump _ _ _ _ _ | cmove _ _ _ _ _ | move _ _ | exp _ | seq _ =>
        simp only [controlRules, List.mem_cons, List.not_mem_nil, or_false] at control
        rcases control with rfl | rfl | rfl <;> cases found
  · exact jumpRule_tile shape found
  · exact moveRule_tile shape found
  · exact assignRules_tile assign found
  · exact storeRules_tile store found
  · simp only [effectRule, StmPattern.matches?_exp, ExpPattern.matches?_bind] at found
    obtain ⟨value, rfl, rfl⟩ := found
    exact .effects value

end

end TreeTiling.X64
