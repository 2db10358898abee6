import TreeTiling.Proofs.X64.Operands
import TreeTiling.Proofs.X64.Priorities
import TreeTiling.Proofs.X64.Writes

/-!
The stack pointer as an index register.

No memory operand can be encoded with the stack pointer as its index. Whether one is selected can be
read off the tree: some of its subtrees are selected for index registers, and a subtree that is held
in the stack pointer is used where it is. The code has the stack pointer as an index as often as
that happens.
-/

namespace TreeTiling.X64

open TreeTiling.Action (carryOut effectsOf emitInstr fail freshTemp valueOf)

----------------------------------------------------------------------------------------------
-- Index registers
----------------------------------------------------------------------------------------------

/-- The index register of a memory operand. -/
def Address.index? : Address → Option Temp
  | indexed _ index => some index
  | scaled _ index _ => some index
  | _ => none

/-- The index register in the memory operand of an operation. -/
def Op.index? : Op → Option Temp
  | load address _ | store _ address | storeImm _ address | lea address _ | compareMem _ address =>
      address.index?
  | _ => none

/-- Whether the index register is the stack pointer. -/
def Op.isStackIndexed (op : Op) : Bool :=
  op.index? == some rsp

----------------------------------------------------------------------------------------------
-- Index trees
----------------------------------------------------------------------------------------------

mutual

/-- The trees under a tree that are selected for index registers, when its value is: those that an
address of a memory word scales.
-/
@[simp]
def indexTrees : Exp → List Exp
  | .const _ => []
  | .name _ => []
  | .temp _ => []
  | .mem address => (scaledPart? address).toList ++ indexTrees address
  | .binop _ left right => indexTrees left ++ indexTrees right
  | .call function args => indexTrees function ++ argIndexTrees args

@[simp]
def argIndexTrees : List Exp → List Exp
  | [] => []
  | arg :: rest => indexTrees arg ++ argIndexTrees rest

end

/-- The tree that is added as an index, where a sum is assigned to a temporary. -/
def addedPart? : Exp → Option Exp
  | .binop .plus _ right => if isImm right then none else some right
  | _ => none

def addressPart : Exp → Exp
  | .mem address => address
  | tree => tree

/-- The trees whose values are computed for a comparison in a shape. -/
def Shape.computed : Shape → Exp → Exp → List Exp
  | immRight, left, _ => [left]
  | immLeft, _, right => [right]
  | memBoth, left, right => [addressPart left, addressPart right]
  | memRight, left, right => [left, addressPart right]
  | memLeft, left, right => [addressPart left, right]
  | registers, left, right => [left, right]

def comparisonIndexTrees (left right : Exp) : List Exp :=
  ((Shape.preferred left right).computed left right).flatMap indexTrees

/-- The trees under a statement that is no sequence that are selected for index registers. -/
def partIndexTrees : Stm → List Exp
  | .move (.temp _) src => (addedPart? src).toList ++ indexTrees src
  | .move (.mem address) src => indexTrees address ++ indexTrees src
  | .cjump _ left right _ _ => comparisonIndexTrees left right
  | .cmove _ left right _ value => indexTrees value ++ comparisonIndexTrees left right
  | .exp tree => indexTrees tree
  | _ => []

def statementIndexTrees (tree : Stm) : List Exp :=
  tree.flatten.flatMap partIndexTrees

/-- Whether the value of a tree is the stack pointer itself, used where it is. -/
def isStackHeld (tree : Exp) : Bool :=
  heldIn? tree == some rsp

/-- How many of some trees are held in the stack pointer. -/
def stackHeld (trees : List Exp) : Nat :=
  trees.countP isStackHeld

@[simp] theorem stackHeld_nil : stackHeld [] = 0 := rfl

@[simp] theorem stackHeld_append (trees others : List Exp)
    : stackHeld (trees ++ others) = stackHeld trees + stackHeld others :=
  List.countP_append

@[simp] theorem stackHeld_toList (tree? : Option Exp)
    : stackHeld tree?.toList = (tree?.any isStackHeld).toNat := by
  cases tree? with
  | none => rfl
  | some tree => cases held : isStackHeld tree <;> simp [stackHeld, held]

----------------------------------------------------------------------------------------------
-- Code with a number of such operations
----------------------------------------------------------------------------------------------

/-- Whatever a computation adds has a number of operations that the stack pointer indexes, and the
computation answers as told.
-/
def Counts {α : Type} (answers : α → Prop) (count : Nat) (computation : SelectM Op α) : Prop :=
  ∀ before result after,
    computation before = .ok result after
    → answers result
      ∧ ∃ code, before.Gains code after ∧ code.countP Op.isStackIndexed = count

/-- A register other than the stack pointer, or the stack pointer where it holds the value. -/
def Answers (tree : Exp) (register : Temp) : Prop :=
  (register == rsp) = isStackHeld tree

namespace Counts

variable {α β : Type} {answers : α → Prop} {others : β → Prop} {count more bound : Nat}

theorem of_eq {computation : SelectM Op α} (counts : Counts answers count computation)
    (same : count = more)
    : Counts answers more computation :=
  same ▸ counts

theorem imp {computation : SelectM Op α} {otherwise : α → Prop}
    (counts : Counts answers count computation)
    (implies : ∀ result, answers result → otherwise result)
    : Counts otherwise count computation := by
  intro before result after computed
  obtain ⟨answered, adds⟩ := counts before result after computed
  exact ⟨implies result answered, adds⟩

theorem pure {result : α} (answered : answers result)
    : Counts answers 0 (rules.perform bound (pure result)) := by
  intro before _ after performed
  obtain ⟨rfl, rfl⟩ := Rules.perform_pure_ok.mp performed
  exact ⟨answered, [], .refl _, rfl⟩

theorem fail {error : SelectionError} : Counts answers count (rules.perform bound (fail error)) :=
  fun _ _ _ performed => (Rules.perform_fail_ok.mp performed).elim

theorem emit (op : Op)
    : Counts (fun _ => True) op.isStackIndexed.toNat (rules.perform bound (emitInstr op)) := by
  intro before _ after performed
  obtain rfl := Rules.perform_emitInstr_ok.mp performed
  refine ⟨trivial, [op], before.gains_emit op, ?_⟩
  cases indexed : op.isStackIndexed <;> simp [indexed]

theorem emitPlain {op : Op} (plain : op.isStackIndexed = false)
    : Counts (fun _ => True) 0 (rules.perform bound (emitInstr op)) :=
  .of_eq (.emit op) (by rw [plain]; rfl)

theorem bind {action : Action Op α} {next : α → Action Op β}
    (counts : Counts answers count (rules.perform bound action))
    (nextCounts : ∀ result, answers result → Counts others more (rules.perform bound (next result)))
    : Counts others (count + more) (rules.perform bound (action >>= next)) := by
  intro before result after performed
  obtain ⟨answer, middle, first, second⟩ := Rules.perform_bind_ok.mp performed
  obtain ⟨answered, code, gains, counted⟩ := counts _ _ _ first
  obtain ⟨finished, rest, moreGains, moreCounted⟩ := nextCounts answer answered _ _ _ second
  exact ⟨finished, _, gains.trans moreGains, by rw [List.countP_append, counted, moreCounted]⟩

/-- A fresh register is not the stack pointer. -/
theorem freshThen {next : Temp → Action Op β}
    (nextCounts : ∀ number, Counts others more (rules.perform bound (next (.virtual number))))
    : Counts others more (rules.perform bound (freshTemp >>= next)) := by
  intro before result after performed
  obtain ⟨_, _, first, second⟩ := Rules.perform_bind_ok.mp performed
  obtain ⟨rfl, rfl⟩ := Rules.perform_freshTemp_ok.mp first
  exact nextCounts _ before.taken _ _ second

theorem emitThen {op : Op} {next : Unit → Action Op β} (plain : op.isStackIndexed = false)
    (nextCounts : Counts others more (rules.perform bound (next ())))
    : Counts others more (rules.perform bound (emitInstr op >>= next)) :=
  .of_eq (.bind (.emitPlain plain) fun _ _ => nextCounts) (Nat.zero_add more)

theorem getThen {captures : Captures} {kind : Kind} {var : Var kind} {captured : kind.Value}
    {next : kind.Value → Action Op β} (found : captures.get var = .ok captured)
    (nextCounts : Counts others more (rules.perform bound (next captured)))
    : Counts others more
        (rules.perform bound ((liftM (captures.get var) : Action Op kind.Value) >>= next)) := by
  rw [found]
  exact nextCounts

end Counts

/-- Everything selected within a bound has as many such operations as its index trees are held in
the stack pointer.
-/
structure CountsWithin (bound : Nat) : Prop where
  value
    : ∀ tree, Counts (Answers tree) (stackHeld (indexTrees tree)) (rules.valueWithin bound tree)
  effects
    : ∀ tree,
        Counts (fun _ => True) (stackHeld (indexTrees tree)) (rules.discardWithin bound tree)
  statement
    : ∀ tree,
        Counts (fun _ => True) (stackHeld (statementIndexTrees tree))
          (rules.statementWithin bound tree)

section

variable {bound : Nat}

theorem CountsWithin.valueOf (within : CountsWithin bound) (tree : Exp)
    : Counts (Answers tree) (stackHeld (indexTrees tree))
        (rules.perform bound (valueOf tree)) := by
  rw [Rules.perform_valueOf]
  exact within.value tree

theorem CountsWithin.effectsOf (within : CountsWithin bound) (tree : Exp)
    : Counts (fun _ => True) (stackHeld (indexTrees tree))
        (rules.perform bound (effectsOf tree)) := by
  rw [Rules.perform_effectsOf]
  exact within.effects tree

theorem CountsWithin.carryOut (within : CountsWithin bound) (tree : Stm)
    : Counts (fun _ => True) (stackHeld (statementIndexTrees tree))
        (rules.perform bound (carryOut tree)) := by
  rw [Rules.perform_carryOut]
  exact within.statement tree

----------------------------------------------------------------------------------------------
-- Memory operands
----------------------------------------------------------------------------------------------

namespace AddressForm

def index? : AddressForm → Option Exp
  | indexed _ index => some index
  | scaled _ index _ => some index
  | _ => none

/-- The operations for the registers of an operand, which has the stack pointer as its index if the
tree for the index is held there.
-/
theorem counts (form : AddressForm) (within : CountsWithin bound)
    : Counts (fun address : Address => (address.index? == some rsp) = form.index?.any isStackHeld)
        (stackHeld (form.trees.flatMap indexTrees)) (rules.perform bound form.select) := by
  cases form with
  | direct base | displaced _ base =>
      refine .of_eq (.bind (within.valueOf base) fun _ _ => .pure rfl) ?_
      simp [trees]
  | indexed base index | scaled base index _ =>
      refine .of_eq (.bind (within.valueOf base) fun _ _ =>
        .bind (within.valueOf index) fun _ answered => .pure answered) ?_
      simp [trees]

/-- One operation with the operand. -/
theorem emit_counts (form : AddressForm) (within : CountsWithin bound) {make : Address → Op}
    (uses : ∀ operand, (make operand).index? = operand.index?)
    : Counts (fun _ => True) (stackHeld (form.index?.toList ++ form.trees.flatMap indexTrees))
        (rules.perform bound (do
          let operand ← form.select
          emitInstr (make operand))) := by
  rw [stackHeld_append, stackHeld_toList, Nat.add_comm]
  refine .bind (form.counts within) fun operand indexed => .of_eq (.emit _) ?_
  rw [Op.isStackIndexed, uses, indexed]

end AddressForm

theorem LoadForm.index {form : AddressForm} {address : Exp} (of : LoadForm form address)
    : form.index? = scaledPart? address
      ∧ stackHeld (form.trees.flatMap indexTrees) = stackHeld (indexTrees address) := by
  cases of with
  | direct unscaled => exact ⟨unscaled.symm, by simp [AddressForm.trees]⟩
  | displaced base fits => exact ⟨rfl, by simp [AddressForm.trees]⟩
  | scaled base index allowed =>
      exact ⟨by simp [AddressForm.index?, scaledPart?, allowed], by simp [AddressForm.trees]⟩

theorem StoreForm.index {form : AddressForm} {address : Exp} (of : StoreForm form address)
    : form.index? = none
      ∧ stackHeld (form.trees.flatMap indexTrees) = stackHeld (indexTrees address) := by
  cases of <;> exact ⟨rfl, by simp [AddressForm.trees]⟩

theorem SumForm.index {form : AddressForm} {tree : Exp} (of : SumForm form tree)
    : form.index? = addedPart? tree
      ∧ stackHeld (form.trees.flatMap indexTrees) = stackHeld (indexTrees tree) := by
  cases of with
  | displaced base fits =>
      exact ⟨by simp [AddressForm.index?, addedPart?, isImm, fits], by simp [AddressForm.trees]⟩
  | indexed base large =>
      exact ⟨by simp [AddressForm.index?, addedPart?, large], by simp [AddressForm.trees]⟩

----------------------------------------------------------------------------------------------
-- Calls
----------------------------------------------------------------------------------------------

theorem CountsWithin.stageArg (within : CountsWithin bound) (arg : Exp)
    : Counts Staged (stackHeld (indexTrees arg)) (rules.perform bound (stageArg arg)) := by
  cases arg with
  | const value => exact .pure (.const value)
  | name label => exact .pure (.name label)
  | temp _ | mem _ | binop _ _ _ | call _ _ =>
      refine .of_eq (.bind (within.valueOf _) fun register _ => ?_) (Nat.add_zero _)
      cases register with
      | virtual number => exact .pure (.register number)
      | fixed name => exact .freshThen fun number => .emitThen rfl (.pure (.register number))

/-- Arguments are staged one by one; by induction on them. -/
theorem CountsWithin.stageArgs (within : CountsWithin bound) (args : List (Exp × Nat))
    : Counts (fun staged => ∀ entry ∈ staged, Staged entry.2)
        (stackHeld (args.flatMap fun entry => indexTrees entry.1))
        (rules.perform bound (stageArgs args)) := by
  induction args with
  | nil => exact .pure (List.forall_mem_nil _)
  | cons first rest ih =>
      simp only [X64.stageArgs, List.mapM_cons, bind_assoc, pure_bind, List.flatMap_cons,
        stackHeld_append]
      refine .bind (within.stageArg first.1) fun value isStaged =>
        .bind ih fun staged areStaged => .pure ?_
      exact List.forall_mem_cons.mpr ⟨isStaged, areStaged⟩

/-- Storing a staged argument needs no index. -/
theorem statementIndexTrees_store (index : Nat) {value : Exp} (staged : Staged value)
    : statementIndexTrees (.move (outArg index) value) = [] := by
  rcases outArg_cases index with ⟨register, -, isTemp⟩ | ⟨-, slot, isMem⟩
  · rw [isTemp]
    cases staged <;> simp [statementIndexTrees, Stm.flatten, partIndexTrees, addedPart?]
  · rw [isMem]
    cases staged <;> simp [statementIndexTrees, Stm.flatten, partIndexTrees]

theorem CountsWithin.storeArgs (within : CountsWithin bound) {staged : List (Nat × Exp)}
    (areStaged : ∀ entry ∈ staged, Staged entry.2)
    : Counts (fun _ => True) 0 (rules.perform bound (storeArgs staged)) := by
  induction staged with
  | nil => exact .pure trivial
  | cons first rest ih =>
      obtain ⟨isStaged, others⟩ := List.forall_mem_cons.mp areStaged
      simp only [X64.storeArgs, List.forM_eq_forM, List.forM_cons]
      have stored := within.carryOut (.move (outArg first.1) first.2)
      rw [statementIndexTrees_store first.1 isStaged] at stored
      exact .bind stored fun _ _ => ih others

theorem argIndexTrees_eq (args : List Exp) : argIndexTrees args = args.flatMap indexTrees := by
  induction args with
  | nil => rfl
  | cons arg rest ih => rw [argIndexTrees, List.flatMap_cons, ih]

/-- The order in which arguments are computed does not matter. -/
theorem stackHeld_reversed (args : List Exp)
    : stackHeld (args.zipIdx.reverse.flatMap fun entry => indexTrees entry.1)
      = stackHeld (argIndexTrees args) := by
  have inOrder : (args.zipIdx.flatMap fun entry => indexTrees entry.1) = argIndexTrees args := by
    rw [argIndexTrees_eq, ← List.flatMap_map Prod.fst, List.zipIdx_map_fst]
  rw [← inOrder]
  exact ((List.reverse_perm _).flatMap_right _).countP_eq _

theorem CountsWithin.emitCall (within : CountsWithin bound) (function : Label) (args : List Exp)
    : Counts (fun _ => True) (stackHeld (argIndexTrees args))
        (rules.perform bound (emitCall function args)) := by
  rw [emitCall_eq, ← stackHeld_reversed]
  exact .bind (within.stageArgs _) fun staged areStaged =>
    .bind (within.storeArgs areStaged) fun _ _ => .emitPlain rfl

----------------------------------------------------------------------------------------------
-- Values
----------------------------------------------------------------------------------------------

theorem answers_virtual {tree : Exp} (notHeld : heldIn? tree = none) (number : Nat)
    : Answers tree (.virtual number) := by
  rw [Answers, isStackHeld, notHeld]
  rfl

theorem SameAs.heldIn?_eq {tree operand : Exp} (same : SameAs tree operand)
    : X64.heldIn? tree = X64.heldIn? operand := by
  cases same with
  | zeroRight => simp [X64.heldIn?, isZero]
  | zeroLeft =>
      cases zero : isZero operand with
      | true =>
          obtain rfl := isZero_iff.mp zero
          rfl
      | false =>
          rw [X64.heldIn?, zero]
          rfl

theorem SameAs.counts {tree operand : Exp} (same : SameAs tree operand)
    (within : CountsWithin bound)
    : Counts (Answers tree) (stackHeld (indexTrees tree))
        (rules.perform bound (valueOf operand)) := by
  refine .of_eq (.imp (within.valueOf operand) fun register answered => ?_) ?_
  · rw [Answers, isStackHeld, same.heldIn?_eq]
    exact answered
  · cases same <;> simp

theorem makeFresh_counts {tree : Exp} (notHeld : heldIn? tree = none) {make : Temp → Op}
    (indexed : Bool) (makes : ∀ dst, (make dst).isStackIndexed = indexed)
    : Counts (Answers tree) indexed.toNat (rules.perform bound (makeFresh make)) := by
  refine .freshThen fun number => ?_
  rw [← makes (.virtual number)]
  exact .bind (.emit _) fun _ _ => .pure (answers_virtual notHeld number)

/-- A binary operation is answered with a fresh register, unless it is a sum with zero. -/
theorem binop_action {op : BinOp} {left right : Exp} {action : Action Op Temp}
    (acts : valueRules.action? (·.matches? (.binop op left right)) = some action)
    : heldIn? (.binop op left right) = none
      ∨ ∃ operand, SameAs (.binop op left right) operand ∧ action = valueOf operand := by
  cases op with
  | plus =>
      rcases value_sum_action acts with same | ⟨leftNonzero, rightNonzero⟩
      · exact .inr same
      · exact .inl (by simp [heldIn?, leftNonzero, rightNonzero])
  | _ => exact .inl rfl

/-- The actions that neither load nor answer with a register as it is. -/
theorem ValueTile.counts {tree : Exp} {action : Action Op Temp} (tile : ValueTile tree action)
    (within : CountsWithin bound) (notHeld : heldIn? tree = none) (notMem : isMem tree = false)
    : Counts (Answers tree) (stackHeld (indexTrees tree)) (rules.perform bound action) := by
  have fresh := answers_virtual notHeld
  cases tile with
  | call function args =>
      refine .of_eq (.bind (within.emitCall function args) fun _ _ => .pure rfl) ?_
      simp
  | refuse => exact .fail
  | make made => cases made <;> exact makeFresh_counts notHeld false fun _ => rfl
  | temp register => cases notHeld
  | load => cases notMem
  | same same => exact same.counts within
  | update updated =>
      refine .of_eq (.bind (within.valueOf _) fun _ _ => .freshThen fun number =>
        .emitThen rfl (.emitThen ?_ (.pure (fresh number)))) ?_
      · cases updated <;> rfl
      · cases updated <;> simp
  | combine op left right =>
      refine .of_eq (.bind (within.valueOf left) fun _ _ => .bind (within.valueOf right) fun _ _ =>
        .freshThen fun number => .emitThen rfl (.emitThen rfl (.pure (fresh number)))) ?_
      simp
  | multiple multiple =>
      refine .of_eq (.bind (within.valueOf _) fun _ _ =>
        makeFresh_counts notHeld false fun _ => rfl) ?_
      cases multiple <;> simp
  | quotient left right =>
      refine .of_eq (.bind (within.valueOf left) fun _ _ => .bind (within.valueOf right) fun _ _ =>
        .emitThen rfl (.emitThen rfl (.emitThen rfl
          (makeFresh_counts notHeld false fun _ => rfl)))) ?_
      simp

/-- The value of a tree, by the rule that is chosen for it. -/
theorem CountsWithin.valueAction (within : CountsWithin bound) {tree : Exp}
    {choice : RuleTable.Choice ExpPattern Op Temp}
    (chosen : valueRules.choose? (·.matches? tree) = some choice)
    : Counts (Answers tree) (stackHeld (indexTrees tree))
        (rules.perform bound (choice.rule.action choice.captures)) := by
  have acts := RuleTable.action?_of_choose? chosen
  have tile := valueTile_of_choose? chosen
  cases tree with
  | const _ | name _ | call _ _ => exact tile.counts within rfl rfl
  | temp register =>
      rw [← Option.some.inj acts]
      exact .pure rfl
  | mem address =>
      obtain ⟨form, loads, same⟩ := value_mem_action acts
      obtain ⟨isIndex, sameTrees⟩ := loads.index
      rw [same]
      refine .of_eq (.bind (form.counts within) fun operand indexed =>
        makeFresh_counts rfl _ fun _ => indexed) ?_
      simp [isIndex, sameTrees, Nat.add_comm]
  | binop op left right =>
      rcases binop_action acts with notHeld | ⟨operand, same, isOperand⟩
      · exact tile.counts within notHeld rfl
      · rw [isOperand]
        exact same.counts within

theorem indexTrees_of_leaf {tree : Exp} (leaf : tree.height = 1) : indexTrees tree = [] := by
  obtain ⟨_, rfl⟩ | ⟨_, rfl⟩ | ⟨_, rfl⟩ := Exp.leaf_cases leaf <;> simp

theorem DiscardTile.counts {tree : Exp} {action : Action Op Unit} (tile : DiscardTile tree action)
    (within : CountsWithin bound)
    : Counts (fun _ => True) (stackHeld (indexTrees tree)) (rules.perform bound action) := by
  cases tile with
  | call function args => exact .of_eq (within.emitCall function args) (by simp)
  | refuse => exact .fail
  | idle _ leaf =>
      rw [indexTrees_of_leaf leaf]
      exact .pure trivial
  | value => exact .bind (within.valueOf tree) fun _ _ => .pure trivial

----------------------------------------------------------------------------------------------
-- Statements
----------------------------------------------------------------------------------------------

theorem Shape.Compares.counts {shape : Shape} {op : RelOp} {left right : Exp}
    {compare : Action Op RelOp} (compares : shape.Compares op left right compare)
    (within : CountsWithin bound)
    : Counts (fun _ => True) (stackHeld ((shape.computed left right).flatMap indexTrees))
        (rules.perform bound compare) := by
  obtain ⟨lefts, rights, rest, leftFound, rightFound, rfl⟩ := compares
  cases shape with
  | immRight =>
      obtain rfl := ExpPattern.matches?_bind.mp leftFound
      obtain ⟨value, rfl, fits, rfl⟩ := matches?_immediate.mp rightFound
      refine .of_eq (.getThen rfl (.getThen rfl (.bind (within.valueOf left) fun _ _ =>
        .getThen rfl (.emitThen rfl (.pure trivial))))) ?_
      simp [Shape.computed]
  | immLeft =>
      obtain ⟨value, rfl, fits, rfl⟩ := matches?_immediate.mp leftFound
      obtain rfl := ExpPattern.matches?_bind.mp rightFound
      refine .of_eq (.getThen rfl (.getThen rfl (.bind (within.valueOf right) fun _ _ =>
        .getThen rfl (.emitThen rfl (.pure trivial))))) ?_
      simp [Shape.computed]
  | memBoth =>
      obtain ⟨leftAddress, rfl, found⟩ := ExpPattern.matches?_mem.mp leftFound
      obtain rfl := ExpPattern.matches?_bind.mp found
      obtain ⟨rightAddress, rfl, found⟩ := ExpPattern.matches?_mem.mp rightFound
      obtain rfl := ExpPattern.matches?_bind.mp found
      refine .of_eq (.getThen rfl (.getThen rfl (.bind (within.valueOf leftAddress) fun _ _ =>
        .getThen rfl (.bind (within.valueOf rightAddress) fun _ _ =>
        .freshThen fun _ => .emitThen rfl (.emitThen rfl (.pure trivial)))))) ?_
      simp [Shape.computed, addressPart]
  | memRight =>
      obtain rfl := ExpPattern.matches?_bind.mp leftFound
      obtain ⟨rightAddress, rfl, found⟩ := ExpPattern.matches?_mem.mp rightFound
      obtain rfl := ExpPattern.matches?_bind.mp found
      refine .of_eq (.getThen rfl (.getThen rfl (.bind (within.valueOf left) fun _ _ =>
        .getThen rfl (.bind (within.valueOf rightAddress) fun _ _ =>
        .emitThen rfl (.pure trivial))))) ?_
      simp [Shape.computed, addressPart]
  | memLeft =>
      obtain ⟨leftAddress, rfl, found⟩ := ExpPattern.matches?_mem.mp leftFound
      obtain rfl := ExpPattern.matches?_bind.mp found
      obtain rfl := ExpPattern.matches?_bind.mp rightFound
      refine .of_eq (.getThen rfl (.getThen rfl (.bind (within.valueOf leftAddress) fun _ _ =>
        .getThen rfl (.bind (within.valueOf right) fun _ _ =>
        .emitThen rfl (.pure trivial))))) ?_
      simp [Shape.computed, addressPart]
  | registers =>
      obtain rfl := ExpPattern.matches?_bind.mp leftFound
      obtain rfl := ExpPattern.matches?_bind.mp rightFound
      refine .of_eq (.getThen rfl (.getThen rfl (.bind (within.valueOf left) fun _ _ =>
        .getThen rfl (.bind (within.valueOf right) fun _ _ =>
        .emitThen rfl (.pure trivial))))) ?_
      simp [Shape.computed]

/-- Assignments of neither sums nor memory words need no index of their own. -/
theorem StatementTile.assign_counts {dst : Temp} {src : Exp} {action : Action Op Unit}
    (tile : StatementTile (.move (.temp dst) src) action) (within : CountsWithin bound)
    (notMem : isMem src = false) (notSum : ∀ left right, src ≠ .binop .plus left right)
    : Counts (fun _ => True) (stackHeld (indexTrees src)) (rules.perform bound action) := by
  cases tile with
  | make _ made => cases made <;> exact .of_eq (.emitPlain rfl) (by simp)
  | lea _ of =>
      cases of with
      | direct =>
          refine .of_eq (AddressForm.emit_counts _ within fun _ => rfl) ?_
          simp [AddressForm.index?, AddressForm.trees]
      | displaced | indexed | scaled => exact absurd rfl (notSum _ _)
  | load => cases notMem
  | copy => exact .bind (within.valueOf src) fun _ _ => .emitPlain rfl

theorem CountsWithin.assignAction (within : CountsWithin bound) {dst : Temp} {src : Exp}
    {action : Action Op Unit}
    (acts : statementRules.action? (·.matches? (.move (.temp dst) src)) = some action)
    (tile : StatementTile (.move (.temp dst) src) action)
    : Counts (fun _ => True) (stackHeld ((addedPart? src).toList ++ indexTrees src))
        (rules.perform bound action) := by
  cases src with
  | const _ | name _ | temp _ | call _ _ => exact tile.assign_counts within rfl (by simp)
  | mem address =>
      obtain ⟨form, loads, rfl⟩ := assign_mem_action acts
      obtain ⟨isIndex, sameTrees⟩ := loads.index
      refine .of_eq (form.emit_counts within fun _ => rfl) ?_
      simp [isIndex, sameTrees, addedPart?]
  | binop op left right =>
      cases op with
      | plus =>
          obtain ⟨form, sums, rfl⟩ := assign_sum_action acts
          obtain ⟨isIndex, sameTrees⟩ := sums.index
          refine .of_eq (form.emit_counts within fun _ => rfl) ?_
          rw [stackHeld_append, stackHeld_append, isIndex, sameTrees]
      | _ => exact tile.assign_counts within rfl (by simp)

theorem CountsWithin.storeAction (within : CountsWithin bound) {address src : Exp}
    {action : Action Op Unit}
    (acts : statementRules.action? (·.matches? (.move (.mem address) src)) = some action)
    : Counts (fun _ => True) (stackHeld (indexTrees address ++ indexTrees src))
        (rules.perform bound action) := by
  obtain ⟨form, stores, emits⟩ := assign_store_action acts
  obtain ⟨isIndex, sameTrees⟩ := stores.index
  rcases emits with ⟨word, rfl, rfl⟩ | rfl
  · refine .of_eq (form.emit_counts within fun _ => rfl) ?_
    simp [isIndex, sameTrees]
  · refine .of_eq (.bind (form.counts within) fun operand indexed =>
      .bind (within.valueOf src) fun _ _ => .emitPlain ?_) ?_
    · rw [isIndex] at indexed
      exact indexed
    · simp [sameTrees]

/-- A statement that is no sequence, by the rule that is chosen for it. -/
theorem CountsWithin.partAction (within : CountsWithin bound) {part : Stm}
    {choice : RuleTable.Choice StmPattern Op Unit}
    (chosen : statementRules.choose? (·.matches? part) = some choice)
    : Counts (fun _ => True) (stackHeld (partIndexTrees part))
        (rules.perform bound (choice.rule.action choice.captures)) := by
  have acts := RuleTable.action?_of_choose? chosen
  have tile := statementTile_of_choose? chosen
  generalize choice.rule.action choice.captures = action at acts tile
  cases part with
  | label _ =>
      cases tile
      exact .emitPlain rfl
  | jump _ =>
      cases tile with
      | jump => exact .emitPlain rfl
      | refuse => exact .fail
  | cjump op left right ifTrue ifFalse =>
      obtain ⟨compare, compares, rfl⟩ := cjump_action acts
      exact .bind (compares.counts within) fun _ _ => .emitPlain rfl
  | cmove op left right dst value =>
      obtain ⟨compare, compares, rfl⟩ := cmove_action acts
      refine .of_eq (.bind (within.valueOf value) fun _ _ =>
        .bind (compares.counts within) fun _ _ => .emitPlain rfl) ?_
      simp [partIndexTrees, comparisonIndexTrees]
  | move dst src =>
      cases dst with
      | temp register => exact within.assignAction acts tile
      | mem address => exact within.storeAction acts
      | const _ | name _ | binop _ _ _ | call _ _ => cases tile
  | exp tree =>
      cases tile
      exact within.effectsOf tree
  | seq _ => cases tile

/-- The parts of a statement one after the other; by induction on them. -/
theorem CountsWithin.parts (within : CountsWithin bound) (parts : List Stm)
    : Counts (fun _ => True) (stackHeld (parts.flatMap partIndexTrees))
        (parts.forM (rules.partWithin bound)) := by
  induction parts with
  | nil =>
      intro before _ after selected
      obtain ⟨_, rfl⟩ := SelectM.pure_eq_ok.mp selected
      exact ⟨trivial, [], .refl _, rfl⟩
  | cons part rest ih =>
      intro before _ after selected
      obtain ⟨_, middle, partSelected, restSelected⟩ := SelectM.bind_eq_ok.mp selected
      obtain ⟨choice, chosen, performed⟩ := Rules.partWithin_ok.mp partSelected
      obtain ⟨-, code, gains, counted⟩ := within.partAction chosen _ _ _ performed
      obtain ⟨-, others, moreGains, moreCounted⟩ := ih _ _ _ restSelected
      refine ⟨trivial, code ++ others, Selection.Gains.trans gains moreGains, ?_⟩
      rw [List.countP_append, counted, moreCounted, List.flatMap_cons, stackHeld_append]

end

/-- By induction on the bound. -/
theorem countsWithin (bound : Nat) : CountsWithin bound := by
  induction bound with
  | zero =>
      constructor
      · intro tree before register after selected
        rw [Rules.valueWithin] at selected
        cases selected
      · intro tree before _ after selected
        rw [Rules.discardWithin] at selected
        cases selected
      · intro tree before _ after selected
        rw [Rules.statementWithin] at selected
        cases selected
  | succ bound within =>
      constructor
      · intro tree before register after selected
        obtain ⟨choice, chosen, performed⟩ := Rules.valueWithin_ok.mp selected
        obtain ⟨answered, adds⟩ := within.valueAction chosen _ _ _ performed
        exact ⟨answered, adds⟩
      · intro tree before _ after selected
        obtain ⟨choice, chosen, performed⟩ := Rules.discardWithin_ok.mp selected
        obtain ⟨_, adds⟩ := (discardTile_of_choose? chosen).counts within _ _ _ performed
        exact ⟨trivial, adds⟩
      · intro tree
        rw [Rules.statementWithin_succ]
        exact within.parts tree.flatten

----------------------------------------------------------------------------------------------
-- The stack pointer as an index
----------------------------------------------------------------------------------------------

/-- In the code of a statement the stack pointer is an index as often as an index tree is held in
it, and nowhere exactly if no index tree is.
-/
theorem stack_pointer_indexes_where_held {tree : Stm} {before after : Selection Op}
    (selected : rules.selectStatement tree before = .ok () after)
    : ∃ code,
        before.Gains code after
        ∧ code.countP Op.isStackIndexed = stackHeld (statementIndexTrees tree)
        ∧ ((∀ op ∈ code, op.index? ≠ some rsp)
          ↔ ∀ index ∈ statementIndexTrees tree, heldIn? index ≠ some rsp) := by
  rw [Rules.selectStatement_eq] at selected
  obtain ⟨-, code, gains, counted⟩ := (countsWithin _).parts tree.flatten _ _ _ selected
  have noOp : (∀ op ∈ code, op.index? ≠ some rsp) ↔ code.countP Op.isStackIndexed = 0 := by
    simp [List.countP_eq_zero, Op.isStackIndexed]
  have noTree : (∀ index ∈ statementIndexTrees tree, heldIn? index ≠ some rsp)
      ↔ stackHeld (statementIndexTrees tree) = 0 := by
    simp [stackHeld, List.countP_eq_zero, isStackHeld]
  refine ⟨code, gains, counted, ?_⟩
  rw [noOp, noTree, counted]
  rfl

/-- Once as the index that an address scales, written as a sum with zero, and once as a base. -/
theorem scaledStackPointer_indexes
    : let scaled := Exp.binop .mul (.binop .plus (.const 0) (.temp rsp)) (.const 8)
      let tree := Stm.seq
        [.move (.temp (.virtual 0)) (.mem (.binop .plus (.temp (.virtual 1)) scaled)),
          .move (.temp (.virtual 1)) (.binop .plus (.temp rsp) (.temp (.virtual 0)))]
      stackHeld (statementIndexTrees tree) = 1
      ∧ ∃ after,
          rules.selectStatement tree { session := { temps := 2 } } = .ok () after
          ∧ ∃ code,
              Selection.Gains { session := { temps := 2 } } code after
              ∧ code.countP Op.isStackIndexed = stackHeld (statementIndexTrees tree)
              ∧ ((∀ op ∈ code, op.index? ≠ some rsp)
                ↔ ∀ index ∈ statementIndexTrees tree, heldIn? index ≠ some rsp) := by
  intro scaled tree
  exact ⟨by decide, _, rfl, stack_pointer_indexes_where_held rfl⟩

/-- A sum with the stack pointer on the right is computed by an address with the stack pointer as
its index.
-/
theorem added_stack_pointer_is_index
    : let sum := Exp.binop .plus (.temp (.virtual 1)) (.temp rsp)
      let sumOp := Op.lea (.indexed (.virtual 1) rsp) (.virtual 0)
      ∃ after,
        rules.selectStatement (.move (.temp (.virtual 0)) sum) { session := { temps := 2 } }
          = .ok () after
        ∧ Selection.Gains { session := { temps := 2 } } [sumOp] after
        ∧ sumOp.index? = some rsp
        ∧ sumOp.instr.text = "leaq    (t1,%rsp), t0" := by
  intro sum sumOp
  refine ⟨_, rfl, rfl, rfl, (Op.textWith_instr Temp.text sumOp (List.forall_mem_nil _)).2.trans ?_⟩
  decide

end TreeTiling.X64
