import TreeTiling.Proofs.X64.Timing

/-!
What the order of the rules decides.

Several rules may match a tree, and the first of them fires. Tiles leave the order out. Here it is
followed as far as it decides which form of memory operand is used, which operands of a comparison
stay in memory, and where a register is answered with as it is.
-/

namespace TreeTiling

----------------------------------------------------------------------------------------------
-- The first rule that matches
----------------------------------------------------------------------------------------------

namespace RuleTable

variable {π ι α : Type} {matching : π → Option Captures}

/-- The action of the first rule that matches. -/
def action? (matching : π → Option Captures) : RuleTable π ι α → Option (Action ι α)
  | [] => none
  | rule :: rest =>
      match matching rule.pattern with
      | some captures => some (rule.action captures)
      | none => action? matching rest

theorem action?_of_choose? {table : RuleTable π ι α} {choice : Choice π ι α}
    (chosen : table.choose? matching = some choice)
    : table.action? matching = some (choice.rule.action choice.captures) := by
  induction table generalizing choice with
  | nil => cases chosen
  | cons rule rest ih =>
      rw [choose?] at chosen
      rw [action?]
      cases found : matching rule.pattern with
      | some captures =>
          rw [found] at chosen
          obtain rfl := Option.some.inj chosen
          rfl
      | none =>
          rw [found] at chosen
          obtain ⟨later, laterChosen, rfl⟩ := Option.map_eq_some_iff.mp chosen
          rw [ih laterChosen]

/-- A rule fires, or it does not match and the rules behind it decide. -/
theorem action?_cons_cases {rule : Rule π ι α} {rest : RuleTable π ι α} {action : Action ι α}
    (acts : action? matching (rule :: rest) = some action)
    : (∃ captures, matching rule.pattern = some captures ∧ rule.action captures = action)
      ∨ matching rule.pattern = none ∧ rest.action? matching = some action := by
  rw [action?] at acts
  split at acts
  · next captures found => exact .inl ⟨captures, found, Option.some.inj acts⟩
  · next missed => exact .inr ⟨missed, acts⟩

/-- Rules that do not match leave it to those behind them. -/
theorem action?_behind (count : Nat) {table : RuleTable π ι α} {action : Action ι α}
    (missed : action? matching (table.take count) = none)
    (acts : table.action? matching = some action)
    : action? matching (table.drop count) = some action := by
  induction count generalizing table with
  | zero => exact acts
  | succ count ih =>
      cases table with
      | nil => cases acts
      | cons rule rest =>
          rw [List.take_succ_cons, action?] at missed
          split at missed
          · cases missed
          · next missedHere =>
              rw [action?, missedHere] at acts
              exact ih missed acts

/-- Among rules that are made alike, the first fires whose test holds. -/
theorem action?_map {β : Type} (matching : π → Option Captures) (toRule : β → Rule π ι α)
    {test : β → Bool} (tests : ∀ item, (matching (toRule item).pattern).isSome = test item)
    {items : List β} {first : β} (isFirst : items.find? test = some first)
    : ∃ captures,
        matching (toRule first).pattern = some captures
        ∧ action? matching (items.map toRule) = some ((toRule first).action captures) := by
  induction items with
  | nil => cases isFirst
  | cons item rest ih =>
      rw [List.find?_cons, ← tests] at isFirst
      rw [List.map_cons, action?]
      cases found : matching (toRule item).pattern with
      | some captures =>
          rw [found] at isFirst
          obtain rfl := Option.some.inj isFirst
          exact ⟨captures, found, rfl⟩
      | none =>
          rw [found] at isFirst
          exact ih isFirst

end RuleTable

namespace X64

open TreeTiling.Action (carryOut effectsOf emitInstr fail freshTemp valueOf)

----------------------------------------------------------------------------------------------
-- Memory operands
----------------------------------------------------------------------------------------------

/-- Whether a tree is a constant that fits an immediate. -/
def isImm : Exp → Bool
  | .const value => value.fitsImm32
  | _ => false

/-- The tree that an address scales, if it is a sum with a multiple that can be an index. -/
def scaledPart? : Exp → Option Exp
  | .binop .plus _ (.binop .mul index (.const scale)) =>
      if scale.isScale then some index else none
  | _ => none

/-- The forms of operand that memory words at an address are loaded from. -/
inductive LoadForm : AddressForm → Exp → Prop where
  | direct {tree : Exp} (unscaled : scaledPart? tree = none) : LoadForm (.direct tree) tree
  | displaced {offset : Word} (base : Exp) (fits : offset.fitsImm32 = true)
    : LoadForm (.displaced offset base) (.binop .plus base (.const offset))
  | scaled {scale : Word} (base index : Exp) (allowed : scale.isScale = true)
    : LoadForm (.scaled base index scale) (.binop .plus base (.binop .mul index (.const scale)))

/-- The forms of operand that words are stored to. -/
inductive StoreForm : AddressForm → Exp → Prop where
  | direct (tree : Exp) : StoreForm (.direct tree) tree
  | displaced {offset : Word} (base : Exp) (fits : offset.fitsImm32 = true)
    : StoreForm (.displaced offset base) (.binop .plus base (.const offset))

/-- The forms of operand that sums are computed with. -/
inductive SumForm : AddressForm → Exp → Prop where
  | displaced {offset : Word} (base : Exp) (fits : offset.fitsImm32 = true)
    : SumForm (.displaced offset base) (.binop .plus base (.const offset))
  | indexed (base : Exp) {index : Exp} (large : isImm index = false)
    : SumForm (.indexed base index) (.binop .plus base index)

theorem scaledPart?_eq_none {address : Exp} (missed : scaledMem.matches? (.mem address) = none)
    : scaledPart? address = none := by
  unfold scaledPart?
  split
  · next base index scale =>
      split
      · next allowed =>
          have found := matches?_scaledMem.mpr ⟨base, index, scale, rfl, allowed, rfl⟩
          rw [missed] at found
          cases found
      · rfl
  · rfl

theorem isSome_immediate (var : Var (.scalar .int)) (tree : Exp)
    : ((immediate var).matches? tree).isSome = isImm tree := by
  cases tree with
  | const value =>
      simp only [immediate, ExpPattern.matches?, Leaf.matches?, imm32, isImm]
      split <;> simp_all
  | _ => rfl

/-- The value of a memory word is loaded in one of the forms for it. -/
theorem value_mem_action {address : Exp} {action : Action Op Temp}
    (acts : operandRules.action? (·.matches? (.mem address)) = some action)
    : ∃ form,
        LoadForm form address
        ∧ action = (do
            let operand ← form.select
            makeFresh (.load operand)) := by
  -- the rules for calls and for leaves come first
  rcases RuleTable.action?_cons_cases (RuleTable.action?_behind 6 rfl acts) with
    ⟨captures, found, rfl⟩ | ⟨notScaled, acts⟩
  · obtain ⟨base, index, scale, same, allowed, rfl⟩ := matches?_scaledMem.mp found
    cases same
    exact ⟨_, .scaled base index allowed, rfl⟩
  · rcases RuleTable.action?_cons_cases acts with ⟨captures, found, rfl⟩ | ⟨_, acts⟩
    · obtain ⟨base, offset, same, fits, rfl⟩ := matches?_displacedMem.mp found
      cases same
      exact ⟨_, .displaced base fits, rfl⟩
    · obtain rfl := Option.some.inj acts
      exact ⟨_, .direct (scaledPart?_eq_none notScaled), rfl⟩

/-- A rule for moves to temporaries matches as its pattern for the source does. -/
theorem matches?_assign (pattern : ExpPattern) (dst : Temp) (src : Exp)
    : (StmPattern.move (.temp Capture.dest) pattern).matches? (.move (.temp dst) src)
      = (pattern.matches? src).map ((Capture.dest.id, .scalar .temp dst) :: ·) := by
  cases found : pattern.matches? src <;>
    simp [StmPattern.matches?, ExpPattern.matches?, Leaf.matches?, found]

/-- So is a memory word that is assigned to a temporary. -/
theorem assign_mem_action {dst : Temp} {address : Exp} {action : Action Op Unit}
    (acts : assignRules.action? (·.matches? (.move (.temp dst) (.mem address))) = some action)
    : ∃ form,
        LoadForm form address
        ∧ action = (do
            let operand ← form.select
            emitInstr (.load operand dst)) := by
  -- constants and sums come first
  rcases RuleTable.action?_cons_cases (RuleTable.action?_behind 4 rfl acts) with
    ⟨captures, found, rfl⟩ | ⟨notScaled, acts⟩
  · obtain ⟨_, scaled, rfl⟩ := Option.map_eq_some_iff.mp (matches?_assign .. ▸ found)
    obtain ⟨base, index, scale, same, allowed, rfl⟩ := matches?_scaledMem.mp scaled
    cases same
    exact ⟨_, .scaled base index allowed, rfl⟩
  · rcases RuleTable.action?_cons_cases acts with ⟨captures, found, rfl⟩ | ⟨_, acts⟩
    · obtain ⟨_, displaced, rfl⟩ := Option.map_eq_some_iff.mp (matches?_assign .. ▸ found)
      obtain ⟨base, offset, same, fits, rfl⟩ := matches?_displacedMem.mp displaced
      cases same
      exact ⟨_, .displaced base fits, rfl⟩
    · obtain rfl := Option.some.inj acts
      have missed := Option.map_eq_none_iff.mp (matches?_assign .. ▸ notScaled)
      exact ⟨_, .direct (scaledPart?_eq_none missed), rfl⟩

theorem matches?_sum_imm (var : Var .exp) (left right : Exp)
    : (binary .plus var (immediate Capture.int)).matches? (.binop .plus left right)
      = ((immediate Capture.int).matches? right).map ((var.id, .exp left) :: ·) := by
  cases found : (immediate Capture.int).matches? right <;>
    simp [binary, ExpPattern.matches?, Leaf.matches?, found]

/-- A sum is assigned to a temporary by computing an address. -/
theorem assign_sum_action {dst : Temp} {left right : Exp} {action : Action Op Unit}
    (acts
      : assignRules.action? (·.matches? (.move (.temp dst) (.binop .plus left right)))
        = some action)
    : ∃ form,
        SumForm form (.binop .plus left right)
        ∧ action = (do
            let operand ← form.select
            emitInstr (.lea operand dst)) := by
  rcases RuleTable.action?_cons_cases (RuleTable.action?_behind 2 rfl acts) with
    ⟨captures, found, rfl⟩ | ⟨notImm, acts⟩
  · obtain ⟨_, isSum, rfl⟩ := Option.map_eq_some_iff.mp (matches?_assign .. ▸ found)
    obtain ⟨_, isImm, rfl⟩ := Option.map_eq_some_iff.mp (matches?_sum_imm .. ▸ isSum)
    obtain ⟨offset, rfl, fits, rfl⟩ := matches?_immediate.mp isImm
    exact ⟨_, .displaced left fits, rfl⟩
  · obtain rfl := Option.some.inj acts
    have missed := Option.map_eq_none_iff.mp (matches?_assign .. ▸ notImm)
    have missedImm : (immediate Capture.int).matches? right = none :=
      Option.map_eq_none_iff.mp (matches?_sum_imm .. ▸ missed)
    have large : isImm right = false := by
      rw [← isSome_immediate Capture.int, missedImm]
      rfl
    exact ⟨_, .indexed left large, rfl⟩

/-- A memory word is assigned to at its address, or at an immediate from a base. -/
theorem assign_store_action {address value : Exp} {action : Action Op Unit}
    (acts : storeRules.action? (·.matches? (.move (.mem address) value)) = some action)
    : ∃ form,
        StoreForm form address
        ∧ ((∃ word,
              value = .const word
              ∧ action = (do
                  let operand ← form.select
                  emitInstr (.storeImm word operand)))
          ∨ action = (do
              let operand ← form.select
              let src ← valueOf value
              emitInstr (.store src operand))) := by
  rcases RuleTable.action?_cons_cases acts with ⟨captures, found, rfl⟩ | ⟨_, acts⟩
  · obtain ⟨_, _, _, _, same, isDst, isSrc, rfl⟩ := StmPattern.matches?_move.mp found
    cases same
    obtain ⟨base, offset, same, fits, rfl⟩ := matches?_displacedMem.mp isDst
    cases same
    obtain ⟨word, rfl, _, rfl⟩ := matches?_immediate.mp isSrc
    exact ⟨_, .displaced base fits, .inl ⟨word, rfl, rfl⟩⟩
  rcases RuleTable.action?_cons_cases acts with ⟨captures, found, rfl⟩ | ⟨_, acts⟩
  · obtain ⟨_, _, _, _, same, isDst, isSrc, rfl⟩ := StmPattern.matches?_move.mp found
    cases same
    obtain ⟨base, offset, same, fits, rfl⟩ := matches?_displacedMem.mp isDst
    cases same
    obtain rfl := ExpPattern.matches?_bind.mp isSrc
    exact ⟨_, .displaced base fits, .inr rfl⟩
  rcases RuleTable.action?_cons_cases acts with ⟨captures, found, rfl⟩ | ⟨_, acts⟩
  · obtain ⟨_, _, _, _, same, isDst, isSrc, rfl⟩ := StmPattern.matches?_move.mp found
    cases same
    obtain rfl := ExpPattern.matches?_bind.mp isDst
    obtain ⟨word, rfl, _, rfl⟩ := matches?_immediate.mp isSrc
    exact ⟨_, .direct address, .inl ⟨word, rfl, rfl⟩⟩
  · obtain rfl := Option.some.inj acts
    exact ⟨_, .direct address, .inr rfl⟩

----------------------------------------------------------------------------------------------
-- Sums with zero
----------------------------------------------------------------------------------------------

theorem isZero_iff {tree : Exp} : isZero tree = true ↔ tree = .const 0 := by
  cases tree <;> simp [isZero]

/-- A sum with zero is answered with the register of its other operand. -/
theorem value_sum_action {left right : Exp} {action : Action Op Temp}
    (acts : sumRules.action? (·.matches? (.binop .plus left right)) = some action)
    : (∃ operand, SameAs (.binop .plus left right) operand ∧ action = valueOf operand)
      ∨ isZero left = false ∧ isZero right = false := by
  by_cases rightZero : isZero right = true
  · rw [isZero_iff] at rightZero
    subst rightZero
    obtain rfl := Option.some.inj acts
    exact .inl ⟨left, .zeroRight left, rfl⟩
  by_cases leftZero : isZero left = true
  · rw [isZero_iff] at leftZero
    subst leftZero
    rcases RuleTable.action?_cons_cases acts with ⟨captures, found, rfl⟩ | ⟨_, acts⟩
    · obtain ⟨_, _, _, _, same, _, isRight, _⟩ := matches?_binary.mp found
      cases same
      exact absurd (isZero_iff.mpr (matches?_literal.mp isRight).1) rightZero
    · obtain rfl := Option.some.inj acts
      exact .inl ⟨right, .zeroLeft right, rfl⟩
  · exact .inr ⟨by simpa using leftZero, by simpa using rightZero⟩

----------------------------------------------------------------------------------------------
-- Comparisons
----------------------------------------------------------------------------------------------

def isMem : Exp → Bool
  | .mem _ => true
  | _ => false

namespace Shape

/-- The shape in which two operands are compared. -/
def preferred (left right : Exp) : Shape :=
  if isImm right then immRight
  else if isImm left then immLeft
  else if isMem left && isMem right then memBoth
  else if isMem right then memRight
  else if isMem left then memLeft
  else registers

/-- Whether the patterns of a shape match the operands. -/
def fits (left right : Exp) (shape : Shape) : Bool :=
  (shape.leftPattern.matches? left).isSome && (shape.rightPattern.matches? right).isSome

/-- The preferred shape is the first that fits. -/
theorem find?_fits (left right : Exp)
    : all.find? (fits left right) = some (preferred left right) := by
  have isMem_pattern (var : Var .exp) (tree : Exp)
      : ((ExpPattern.mem var).matches? tree).isSome = isMem tree := by
    cases tree <;> rfl
  simp only [all, fits, leftPattern, rightPattern, List.find?_cons, isSome_immediate,
    isMem_pattern, ExpPattern.matches?, Option.isSome_some, Bool.true_and, Bool.and_true, preferred]
  cases isImm right <;> cases isImm left <;> cases isMem left <;> cases isMem right <;> rfl

end Shape

/-- A conditional jump compares in the preferred shape. -/
theorem cjump_action {op : RelOp} {left right : Exp} {ifTrue ifFalse : Label}
    {action : Action Op Unit}
    (acts
      : RuleTable.action? (·.matches? (.cjump op left right ifTrue ifFalse))
          (Shape.all.map Shape.jumpRule)
        = some action)
    : ∃ compare,
        (Shape.preferred left right).Compares op left right compare
        ∧ action = (do
            let tested ← compare
            emitInstr (.branch tested ifTrue ifFalse)) := by
  have tests (shape : Shape)
      : (shape.jumpRule.pattern.matches? (.cjump op left right ifTrue ifFalse)).isSome
        = shape.fits left right := by
    cases leftFound : shape.leftPattern.matches? left <;>
    cases rightFound : shape.rightPattern.matches? right <;>
      simp [Shape.fits, Shape.jumpRule, StmPattern.matches?, Leaf.matches?, leftFound, rightFound]
  obtain ⟨captures, found, fires⟩ :=
    RuleTable.action?_map (·.matches? (.cjump op left right ifTrue ifFalse)) Shape.jumpRule tests
      (Shape.find?_fits left right)
  obtain rfl := Option.some.inj (fires.symm.trans acts)
  obtain ⟨_, _, _, _, _, compare, same, compares, acts⟩ := jumpRule_compares _ found
  cases same
  exact ⟨compare, compares, acts⟩

/-- So does a conditional move, after its value. -/
theorem cmove_action {op : RelOp} {left right : Exp} {dst : Temp} {value : Exp}
    {action : Action Op Unit}
    (acts
      : RuleTable.action? (·.matches? (.cmove op left right dst value))
          (Shape.all.map Shape.moveRule)
        = some action)
    : ∃ compare,
        (Shape.preferred left right).Compares op left right compare
        ∧ action = (do
            let src ← valueOf value
            let tested ← compare
            emitInstr (.condMove tested src dst)) := by
  have tests (shape : Shape)
      : (shape.moveRule.pattern.matches? (.cmove op left right dst value)).isSome
        = shape.fits left right := by
    cases leftFound : shape.leftPattern.matches? left <;>
    cases rightFound : shape.rightPattern.matches? right <;>
      simp [Shape.fits, Shape.moveRule, StmPattern.matches?, ExpPattern.matches?, Leaf.matches?,
        leftFound, rightFound]
  obtain ⟨captures, found, fires⟩ :=
    RuleTable.action?_map (·.matches? (.cmove op left right dst value)) Shape.moveRule tests
      (Shape.find?_fits left right)
  obtain rfl := Option.some.inj (fires.symm.trans acts)
  obtain ⟨_, _, _, _, _, compare, same, compares, acts⟩ := moveRule_compares _ found
  cases same
  exact ⟨compare, compares, acts⟩

end X64

end TreeTiling
