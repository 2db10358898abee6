import TreeTiling.Proofs.Tree.Nesting
import TreeTiling.Proofs.X64.Tiling

/-!
How selection can fail: on a jump or a call that does not go to a label, and on an assignment to
something other than a temporary or a memory word. Every other statement is accepted.

Each table has a rule for every tree of that kind, and a rule asks only for parts of what it
matched, apart from the stores of a call's arguments. So the bound on the nesting of rules is never
met, and nothing else can fail.
-/

namespace TreeTiling.X64

open TreeTiling.Action (carryOut effectsOf emitInstr fail freshTemp valueOf)

----------------------------------------------------------------------------------------------
-- Tables without gaps
----------------------------------------------------------------------------------------------

theorem matches?_binary_bind (op : BinOp) (left right : Exp)
    : (binary op Capture.left Capture.right).matches? (.binop op left right)
      = some [(Capture.left.id, .exp left), (Capture.right.id, .exp right)] :=
  matches?_binary.mpr ⟨left, right, _, _, rfl, rfl, rfl, rfl⟩

/-- There is a rule for the value of every expression: one per leaf, one per operator. -/
theorem value_choose? (tree : Exp)
    : ∃ choice, rules.value.choose? (·.matches? tree) = some choice := by
  apply RuleTable.choose?_of_match
  cases tree with
  | const _ | name _ | temp _ | mem _ | call _ _ =>
      simp [rules, valueRules, operandRules, ExpPattern.matches?, Leaf.matches?]
  | binop op left right =>
      have found := matches?_binary_bind op left right
      cases op with
      | plus => exact ⟨arithRule .plus .add, by simp [rules, valueRules, sumRules], _, found⟩
      | minus =>
          exact ⟨arithRule .minus .sub, by simp [rules, valueRules, differenceRules], _, found⟩
      | mul => exact ⟨arithRule .mul .imul, by simp [rules, valueRules, productRules], _, found⟩
      | div => exact ⟨quotientRule, by simp [rules, valueRules], _, found⟩
      | and => exact ⟨arithRule .and .and, by simp [rules, valueRules, bitwiseRules], _, found⟩
      | or => exact ⟨arithRule .or .or, by simp [rules, valueRules, bitwiseRules], _, found⟩
      | xor => exact ⟨arithRule .xor .xor, by simp [rules, valueRules, bitwiseRules], _, found⟩

/-- There is a rule for the effects of every expression, the last one if no other. -/
theorem discard_choose? (tree : Exp)
    : ∃ choice, rules.discard.choose? (·.matches? tree) = some choice := by
  apply RuleTable.choose?_of_match
  simp [rules, discardRules, ExpPattern.matches?]

/-- A statement that is no sequence and assigns only to temporaries and memory words. -/
structure Assignable (part : Stm) : Prop where
  notSeq : ∀ statements, part ≠ .seq statements
  destination
    : ∀ dst src,
        part = .move dst src → (∃ register, dst = .temp register) ∨ ∃ address, dst = .mem address

/-- There is a rule for every such statement. -/
theorem statement_choose? {part : Stm} (assignable : Assignable part)
    : ∃ choice, rules.statement.choose? (·.matches? part) = some choice := by
  apply RuleTable.choose?_of_match
  cases part with
  | label _ | jump _ =>
      simp [rules, statementRules, controlRules, StmPattern.matches?, Leaf.matches?,
        ExpPattern.matches?]
  | cjump op left right ifTrue ifFalse =>
      exact ⟨Shape.registers.jumpRule, by simp [rules, statementRules, Shape.all], _, rfl⟩
  | cmove op left right dst value =>
      exact ⟨Shape.registers.moveRule, by simp [rules, statementRules, Shape.all], _, rfl⟩
  | move dst src =>
      -- The last rule for each kind of destination takes every source.
      rcases assignable.destination dst src rfl with ⟨register, rfl⟩ | ⟨address, rfl⟩
      · have nonempty : assignRules ≠ [] := List.cons_ne_nil _ _
        have member := assignRules.getLast_mem nonempty
        exact ⟨assignRules.getLast nonempty, by simp [rules, statementRules, member], _, rfl⟩
      · have nonempty : storeRules ≠ [] := List.cons_ne_nil _ _
        have member := storeRules.getLast_mem nonempty
        exact ⟨storeRules.getLast nonempty, by simp [rules, statementRules, member], _, rfl⟩
  | exp value => exact ⟨effectRule, by simp [rules, statementRules], _, rfl⟩
  | seq statements => exact absurd rfl (assignable.notSeq statements)

----------------------------------------------------------------------------------------------
-- Actions that fail in known ways
----------------------------------------------------------------------------------------------

/-- A computation of the selector that fails only with errors of a kind, from every state. -/
def FailsOnly {α : Type} (refused : SelectionError → Prop) (computation : SelectM Op α) : Prop :=
  ∀ before error after, computation before = .error error after → refused error

namespace FailsOnly

variable {α β : Type} {refused : SelectionError → Prop} {bound : Nat}

theorem pure (result : α) : FailsOnly refused (rules.perform bound (pure result)) :=
  fun _ _ _ failed => nomatch failed

theorem emit (item : Op) : FailsOnly refused (rules.perform bound (emitInstr item)) :=
  fun _ _ _ failed => nomatch failed

theorem fresh : FailsOnly refused (rules.perform bound freshTemp) :=
  fun _ _ _ failed => nomatch failed

theorem fail {error : SelectionError} (isRefused : refused error)
    : FailsOnly refused (rules.perform bound (fail error : Action Op α)) := by
  intro before other after failed
  cases failed
  exact isRefused

theorem value {tree : Exp} (fails : FailsOnly refused (rules.valueWithin bound tree))
    : FailsOnly refused (rules.perform bound (valueOf tree)) := by
  rw [Rules.perform_valueOf]
  exact fails

theorem effects {tree : Exp} (fails : FailsOnly refused (rules.discardWithin bound tree))
    : FailsOnly refused (rules.perform bound (effectsOf tree)) := by
  rw [Rules.perform_effectsOf]
  exact fails

theorem statement {tree : Stm} (fails : FailsOnly refused (rules.statementWithin bound tree))
    : FailsOnly refused (rules.perform bound (carryOut tree)) := by
  rw [Rules.perform_carryOut]
  exact fails

/-- Actions in sequence fail as the first does, or as the second does for an answer of the first.
-/
theorem bind {action : Action Op α} {next : α → Action Op β}
    (fails : FailsOnly refused (rules.perform bound action))
    (failsNext
      : ∀ {result : α} {before after : Selection Op},
          rules.perform bound action before = .ok result after
          → FailsOnly refused (rules.perform bound (next result)))
    : FailsOnly refused (rules.perform bound (action >>= next)) := by
  intro before error after failed
  rw [Rules.perform_bind, SelectM.bind_eq_error] at failed
  rcases failed with failedFirst | ⟨result, middle, performed, failedNext⟩
  · exact fails _ _ _ failedFirst
  · exact failsNext performed _ _ _ failedNext

/-- A rule that was chosen fails as its action does. -/
theorem fire {π : Type} {category : Category} {tree : Node} {sort : π → Pattern}
    {choice? : Option (RuleTable.Choice π Op α)} {choice : RuleTable.Choice π Op α}
    (chosen : choice? = some choice)
    (fails : FailsOnly refused (rules.perform bound (choice.rule.action choice.captures)))
    : FailsOnly refused (RuleTable.fire category tree sort (rules.perform bound) choice?) := by
  subst chosen
  exact fun _ _ _ failed => fails _ _ _ failed

/-- Statements in order fail as one of them does; by induction on them. -/
theorem parts {parts : List Stm}
    (fails : ∀ part ∈ parts, FailsOnly refused (rules.partWithin bound part))
    : FailsOnly refused (parts.forM (rules.partWithin bound)) := by
  induction parts with
  | nil => exact fun _ _ _ failed => nomatch failed
  | cons part rest ih =>
      intro before error after failed
      rw [List.forM_eq_forM, List.forM_cons, SelectM.bind_eq_error] at failed
      rcases failed with failedHere | ⟨_, middle, -, failedLater⟩
      · exact fails part List.mem_cons_self _ _ _ failedHere
      · exact ih (fun other member => fails other (List.mem_cons_of_mem part member)) _ _ _
          failedLater

end FailsOnly

/-- The indirect calls that errors of a kind are about. -/
def RefusedCall (refused : SelectionError → Prop) (tree : Exp) : Prop :=
  refused (.unsupported "indirect call" (.exp tree))

/-- Everything that fits within a bound fails only for its indirect calls, and so do the stores of
staged arguments, for which a bound of four is enough.
-/
structure FailsOnlyWithin (refused : SelectionError → Prop) (bound : Nat) : Prop where
  value
    : ∀ {tree : Exp},
        tree.Fits (RefusedCall refused) bound → FailsOnly refused (rules.valueWithin bound tree)
  store
    : ∀ (index : Nat) {value : Exp},
        Staged value
        → 4 ≤ bound
        → FailsOnly refused (rules.statementWithin bound (.move (outArg index) value))

section

variable {refused : SelectionError → Prop} {kind : Exp → Prop} {bound : Nat}

theorem UpdatedBy.fits {tree operand : Exp} {update : Temp → Op}
    (updated : UpdatedBy tree operand update) (fits : tree.Fits kind (bound + 1))
    : operand.Fits kind bound := by
  cases updated with
  | incrementRight | decrement | immRight => exact fits.left
  | incrementLeft | immLeft => exact fits.right

theorem MultipleOf.fits {tree factor : Exp} {value : Word}
    (multiple : MultipleOf tree factor value) (fits : tree.Fits kind (bound + 1))
    : factor.Fits kind bound := by
  cases multiple with
  | right => exact fits.left
  | left => exact fits.right

/-- The registers of a memory operand, if the tree of the address fits. -/
theorem FailsOnlyWithin.address (fails : FailsOnlyWithin refused bound) {form : AddressForm}
    {tree : Exp} (of : form.Of tree) (fits : tree.Fits (RefusedCall refused) bound)
    : FailsOnly refused (rules.perform bound form.select) := by
  have grown := fits.mono (Nat.le_succ bound)
  cases of with
  | direct => exact .bind (.value (fails.value fits)) fun _ => .pure _
  | displaced base _ => exact .bind (.value (fails.value grown.left)) fun _ => .pure _
  | indexed base index =>
      exact .bind (.value (fails.value grown.left)) fun _ =>
        .bind (.value (fails.value grown.right)) fun _ => .pure _
  | scaled base index _ =>
      have indexFits := (grown.right.mono (Nat.le_succ bound)).left
      exact .bind (.value (fails.value grown.left)) fun _ =>
        .bind (.value (fails.value indexFits)) fun _ => .pure _

/-- The staging of an argument that fits. -/
theorem FailsOnlyWithin.argument (fails : FailsOnlyWithin refused bound) {arg : Exp}
    (fits : arg.Fits (RefusedCall refused) bound)
    : FailsOnly refused (rules.perform bound (stageArg arg)) := by
  cases arg with
  | const value => exact .pure _
  | name label => exact .pure _
  | temp _ | mem _ | binop _ _ _ | call _ _ =>
      refine .bind (.value (fails.value fits)) fun {register} _ _ _ => ?_
      cases register with
      | virtual number => exact .pure _
      | fixed name => exact .bind .fresh fun _ => .bind (.emit _) fun _ => .pure _

/-- The staging of arguments that fit; by induction on them. -/
theorem FailsOnlyWithin.arguments (fails : FailsOnlyWithin refused bound) {args : List (Exp × Nat)}
    (fits : ∀ entry ∈ args, entry.1.Fits (RefusedCall refused) bound)
    : FailsOnly refused (rules.perform bound (stageArgs args)) := by
  induction args with
  | nil => exact .pure _
  | cons first rest ih =>
      have failsFirst := fails.argument (fits first List.mem_cons_self)
      have failsRest := ih fun entry member => fits entry (List.mem_cons_of_mem first member)
      simp only [stageArgs, List.mapM_cons, bind_assoc, pure_bind]
      exact .bind failsFirst fun _ => .bind failsRest fun _ => .pure _

/-- The stores of staged arguments, one by one. -/
theorem FailsOnlyWithin.stores (fails : FailsOnlyWithin refused bound) {staged : List (Nat × Exp)}
    (leaves : ∀ entry ∈ staged, Staged entry.2) (roomy : 4 ≤ bound)
    : FailsOnly refused (rules.perform bound (storeArgs staged)) := by
  induction staged with
  | nil => exact .pure _
  | cons first rest ih =>
      have failsFirst := fails.store first.1 (leaves first List.mem_cons_self) roomy
      have failsRest := ih fun entry member => leaves entry (List.mem_cons_of_mem first member)
      simp only [storeArgs, List.forM_eq_forM, List.forM_cons]
      exact .bind (.statement failsFirst) fun _ => failsRest

/-- A call whose arguments fit. -/
theorem FailsOnlyWithin.call (fails : FailsOnlyWithin refused bound) {callee : Exp}
    {function : Label} {args : List Exp}
    (fits : (Exp.call callee args).Fits (RefusedCall refused) (bound + 1))
    : FailsOnly refused (rules.perform bound (emitCall function args)) := by
  have argsFit : ∀ entry ∈ args.zipIdx.reverse, entry.1.Fits (RefusedCall refused) bound := by
    intro entry member
    exact fits.arg (List.fst_mem_of_mem_zipIdx (List.mem_reverse.mp member))
  have roomy : 4 ≤ bound := by
    have callDepth := fits.depth_le
    have positive := callee.height_pos
    rw [Exp.depth_call] at callDepth
    omega
  rw [emitCall_eq]
  refine .bind (fails.arguments argsFit) fun {staged} before middle performed => ?_
  obtain ⟨_, _, tiling⟩ := (coversWithin bound).arguments performed
  exact .bind (fails.stores tiling.staged roomy) fun _ => .emit _

/-- The action for the value of a tree that fits. -/
theorem FailsOnlyWithin.valueTile (fails : FailsOnlyWithin refused bound) {tree : Exp}
    {action : Action Op Temp} (tile : ValueTile tree action)
    (fits : tree.Fits (RefusedCall refused) (bound + 1))
    : FailsOnly refused (rules.perform bound action) := by
  cases tile with
  | call function args => exact .bind (fails.call fits) fun _ => .pure _
  | refuse callee args indirect => exact .fail (fits.callee indirect)
  | make => exact .bind .fresh fun _ => .bind (.emit _) fun _ => .pure _
  | temp => exact .pure _
  | load of =>
      exact .bind (fails.address of fits.address) fun _ =>
        .bind .fresh fun _ => .bind (.emit _) fun _ => .pure _
  | same same =>
      cases same with
      | zeroRight => exact .value (fails.value fits.left)
      | zeroLeft => exact .value (fails.value fits.right)
  | update updated =>
      exact .bind (.value (fails.value (updated.fits fits))) fun _ =>
        .bind .fresh fun _ => .bind (.emit _) fun _ => .bind (.emit _) fun _ => .pure _
  | combine op left right =>
      exact .bind (.value (fails.value fits.left)) fun _ =>
        .bind (.value (fails.value fits.right)) fun _ =>
        .bind .fresh fun _ => .bind (.emit _) fun _ => .bind (.emit _) fun _ => .pure _
  | multiple multiple =>
      exact .bind (.value (fails.value (multiple.fits fits))) fun _ =>
        .bind .fresh fun _ => .bind (.emit _) fun _ => .pure _
  | quotient left right =>
      exact .bind (.value (fails.value fits.left)) fun _ =>
        .bind (.value (fails.value fits.right)) fun _ =>
        .bind (.emit _) fun _ => .bind (.emit _) fun _ => .bind (.emit _) fun _ =>
        .bind .fresh fun _ => .bind (.emit _) fun _ => .pure _

/-- A move, if what it moves and where it moves it to fit. -/
theorem FailsOnlyWithin.moveTile (fails : FailsOnlyWithin refused bound) {dst src : Exp}
    {action : Action Op Unit} (tile : StatementTile (.move dst src) action)
    (dstFits : dst.Fits (RefusedCall refused) bound)
    (srcFits : src.Fits (RefusedCall refused) bound)
    : FailsOnly refused (rules.perform bound action) := by
  have addressFits {tree : Exp} (fits : (Exp.mem tree).Fits (RefusedCall refused) bound)
      : tree.Fits (RefusedCall refused) bound :=
    (fits.mono (Nat.le_succ bound)).address
  cases tile with
  | make => exact .emit _
  | lea _ of => exact .bind (fails.address of srcFits) fun _ => .emit _
  | load _ of => exact .bind (fails.address of (addressFits srcFits)) fun _ => .emit _
  | copy => exact .bind (.value (fails.value srcFits)) fun _ => .emit _
  | storeImm of => exact .bind (fails.address of (addressFits dstFits)) fun _ => .emit _
  | store _ of =>
      exact .bind (fails.address of (addressFits dstFits)) fun _ =>
        .bind (.value (fails.value srcFits)) fun _ => .emit _

/-- A staged argument and its place fit where the bound is not too small. -/
theorem Staged.fits {value : Exp} (staged : Staged value) (roomy : 1 ≤ bound)
    : value.Fits kind bound := by
  cases staged with
  | const | name | register => exact ⟨by simp, roomy⟩

theorem outArg_fits (index : Nat) (roomy : 3 ≤ bound) : (outArg index).Fits kind bound := by
  unfold outArg
  split
  · have shallow : 1 ≤ bound := by omega
    exact ⟨by simp, shallow⟩
  · exact ⟨by simp, roomy⟩

theorem outArg_assignable (index : Nat) (value : Exp)
    : Assignable (.move (outArg index) value) := by
  refine ⟨fun _ => by simp, ?_⟩
  intro dst src same
  obtain ⟨rfl, -⟩ := Stm.move.inj same
  unfold outArg
  split
  · exact .inl ⟨_, rfl⟩
  · exact .inr ⟨_, rfl⟩

----------------------------------------------------------------------------------------------
-- Trees of any nesting
----------------------------------------------------------------------------------------------

/-- Everything that fits fails only for its indirect calls; witness: induction on the bound, where
the rule that is chosen for a tree asks for less than the tree.
-/
theorem failsOnlyWithin (refused : SelectionError → Prop) (bound : Nat)
    : FailsOnlyWithin refused bound := by
  induction bound with
  | zero =>
      constructor
      · intro tree fits
        exact absurd fits.depth_le (Nat.not_le.mpr tree.depth_pos)
      · intro index value _ roomy
        exact absurd roomy (by decide)
  | succ bound fails =>
      constructor
      · intro tree fits
        obtain ⟨choice, chosen⟩ := value_choose? tree
        rw [Rules.valueWithin]
        exact .fire chosen (fails.valueTile (valueTile_of_choose? chosen) fits)
      · intro index value staged roomy
        obtain ⟨choice, chosen⟩ := statement_choose? (outArg_assignable index value)
        simp only [Rules.statementWithin_succ, Stm.flatten]
        refine .parts (List.forall_mem_singleton.mpr (.fire chosen ?_))
        exact fails.moveTile (statementTile_of_choose? chosen)
          (outArg_fits index (Nat.le_of_succ_le_succ roomy)) (staged.fits (by omega))

/-- The effects of a tree take one level more than its value. -/
theorem discard_failsOnly {tree : Exp} (fits : tree.Fits (RefusedCall refused) bound)
    : FailsOnly refused (rules.discardWithin (bound + 1) tree) := by
  obtain ⟨choice, chosen⟩ := discard_choose? tree
  have tile := discardTile_of_choose? chosen
  rw [Rules.discardWithin]
  refine .fire chosen ?_
  generalize choice.rule.action choice.captures = action at tile
  cases tile with
  | call function args => exact (failsOnlyWithin _ bound).call (fits.mono (Nat.le_succ bound))
  | refuse callee args indirect => exact .fail (fits.callee indirect)
  | idle => exact .pure _
  | value => exact .bind (.value ((failsOnlyWithin _ bound).value fits)) fun _ => .pure _

----------------------------------------------------------------------------------------------
-- Statements and bodies
----------------------------------------------------------------------------------------------

/-- The errors with which a statement without parts is refused, each of which names what is at
fault.
-/
inductive Refusal : Stm → SelectionError → Prop where
  | jump {target : Exp} (indirect : ∀ name, target ≠ .name name)
    : Refusal (.jump target) (.unsupported "indirect jump" (.stm (.jump target)))
  | call {part : Stm} {operand callee : Exp} {args : List Exp} (member : operand ∈ part.operands)
    (occurs : .call callee args ∈ operand.subtrees) (indirect : ∀ function, callee ≠ .name function)
    : Refusal part (.unsupported "indirect call" (.exp (.call callee args)))
  | move {dst src : Exp} (notTemp : ∀ register, dst ≠ .temp register)
    (notMem : ∀ address, dst ≠ .mem address)
    : Refusal (.move dst src) (.noRule .statement (.stm (.move dst src)))

/-- A comparison whose operands fit. -/
theorem CompareTile.failsOnly {op : RelOp} {left right : Exp} {compare : Action Op RelOp}
    (tile : CompareTile op left right compare) (leftFits : left.Fits (RefusedCall refused) bound)
    (rightFits : right.Fits (RefusedCall refused) bound)
    : FailsOnly refused (rules.perform bound compare) := by
  have value {tree : Exp} (fits : tree.Fits (RefusedCall refused) bound)
      : FailsOnly refused (rules.perform bound (valueOf tree)) :=
    .value ((failsOnlyWithin refused bound).value fits)
  have address {tree : Exp} (fits : (Exp.mem tree).Fits (RefusedCall refused) bound)
      : FailsOnly refused (rules.perform bound (valueOf tree)) :=
    value (fits.mono (Nat.le_succ bound)).address
  cases tile with
  | immRight => exact .bind (value leftFits) fun _ => .bind (.emit _) fun _ => .pure _
  | immLeft => exact .bind (value rightFits) fun _ => .bind (.emit _) fun _ => .pure _
  | memBoth =>
      exact .bind (address leftFits) fun _ => .bind (address rightFits) fun _ =>
        .bind .fresh fun _ => .bind (.emit _) fun _ => .bind (.emit _) fun _ => .pure _
  | memRight =>
      exact .bind (value leftFits) fun _ => .bind (address rightFits) fun _ =>
        .bind (.emit _) fun _ => .pure _
  | memLeft =>
      exact .bind (address leftFits) fun _ => .bind (value rightFits) fun _ =>
        .bind (.emit _) fun _ => .pure _
  | registers =>
      exact .bind (value leftFits) fun _ => .bind (value rightFits) fun _ =>
        .bind (.emit _) fun _ => .pure _

/-- The action for a statement whose operands fit one level below. -/
theorem StatementTile.failsOnly {part : Stm} {action : Action Op Unit}
    (tile : StatementTile part action)
    (shallow : ∀ operand ∈ part.operands, operand.depth ≤ bound)
    : FailsOnly (Refusal part) (rules.perform (bound + 1) action) := by
  have indirect (operand : Exp) (member : operand ∈ part.operands)
      : ∀ tree ∈ operand.indirectCalls, RefusedCall (Refusal part) tree := by
    intro tree occurs
    obtain ⟨inside, isIndirect⟩ := List.mem_filter.mp occurs
    obtain ⟨callee, args, rfl, notName⟩ := Exp.eq_call_of_isIndirectCall isIndirect
    exact .call member inside notName
  have fits (operand : Exp) (member : operand ∈ part.operands)
      : operand.Fits (RefusedCall (Refusal part)) (bound + 1) :=
    ⟨indirect operand member, Nat.le_succ_of_le (shallow operand member)⟩
  cases part with
  | label name => cases tile with
    | label => exact .emit _
  | jump target => cases tile with
    | jump => exact .emit _
    | refuse _ notName => exact .fail (.jump notName)
  | cjump op left right ifTrue ifFalse => cases tile with
    | cjump _ _ compares =>
        exact .bind (compares.failsOnly (fits left (by simp [Stm.operands]))
          (fits right (by simp [Stm.operands]))) fun _ => .emit _
  | cmove op left right dst value => cases tile with
    | cmove _ _ compares =>
        have valueFits := fits value (by simp [Stm.operands])
        exact .bind (.value ((failsOnlyWithin _ _).value valueFits)) fun _ =>
          .bind (compares.failsOnly (fits left (by simp [Stm.operands]))
            (fits right (by simp [Stm.operands]))) fun _ => .emit _
  | move dst src =>
      exact (failsOnlyWithin _ _).moveTile tile (fits dst (by simp [Stm.operands]))
        (fits src (by simp [Stm.operands]))
  | exp value => cases tile with
    | effects =>
        have member : value ∈ (Stm.exp value).operands := by simp [Stm.operands]
        exact .effects (discard_failsOnly ⟨indirect value member, shallow value member⟩)
  | seq statements => cases tile

/-- A statement without parts fails only with its refusals. -/
theorem part_failsOnly {part : Stm} (notSeq : ∀ statements, part ≠ .seq statements)
    (shallow : ∀ operand ∈ part.operands, operand.depth ≤ bound)
    : FailsOnly (Refusal part) (rules.partWithin (bound + 1) part) := by
  cases chosen : rules.statement.choose? (·.matches? part) with
  | some choice => exact .fire chosen ((statementTile_of_choose? chosen).failsOnly shallow)
  | none =>
      intro before error after failed
      rw [Rules.partWithin, chosen] at failed
      cases failed
      have unassignable : ¬ Assignable part := by
        intro assignable
        obtain ⟨choice, found⟩ := statement_choose? assignable
        rw [chosen] at found
        cases found
      cases part with
      | move dst src =>
          refine .move ?_ ?_
          · intro register isTemp
            refine unassignable ⟨notSeq, fun _ _ same => .inl ⟨register, ?_⟩⟩
            rw [← (Stm.move.inj same).1, isTemp]
          · intro address isMem
            refine unassignable ⟨notSeq, fun _ _ same => .inr ⟨address, ?_⟩⟩
            rw [← (Stm.move.inj same).1, isMem]
      | label _ | jump _ | cjump _ _ _ _ _ | cmove _ _ _ _ _ | exp _ | seq _ =>
          exact absurd ⟨notSeq, fun _ _ same => nomatch same⟩ unassignable

end

/-- A body fails only with a refusal of one of its statements: the nesting that selection allows for
is enough.
-/
theorem selectStatement_failsOnly (body : Stm)
    : FailsOnly (fun error => ∃ part ∈ body.flatten, Refusal part error)
        (rules.selectStatement body) := by
  rw [Rules.selectStatement_eq]
  refine .parts fun part member => ?_
  have shallow : ∀ operand ∈ part.operands, operand.depth ≤ 2 * body.height + 2 := by
    intro operand occurs
    have partLe := Stm.height_le_of_mem_flatten member
    have operandLt := Stm.height_lt_of_mem_operands occurs
    have depthLe := operand.depth_le
    omega
  intro before error after failed
  have notSeq : ∀ statements, part ≠ .seq statements := fun _ => Stm.ne_seq_of_mem_flatten member
  exact ⟨part, member, part_failsOnly notSeq shallow _ _ _ failed⟩

/-- A statement without parts that can be selected: it assigns only to temporaries and memory
words, and its jumps and calls go to labels.
-/
structure Selectable (part : Stm) : Prop extends Assignable part where
  jumps : ∀ target, part = .jump target → ∃ name, target = .name name
  callsLabels : ∀ operand ∈ part.operands, operand.CallsLabels

theorem Selectable.not_refusal {part : Stm} (selectable : Selectable part) {error : SelectionError}
    : ¬ Refusal part error := by
  intro refusal
  cases refusal with
  | jump indirect =>
      obtain ⟨name, isName⟩ := selectable.jumps _ rfl
      exact indirect name isName
  | call member occurs indirect =>
      obtain ⟨function, isName⟩ := selectable.callsLabels _ member _ _ occurs
      exact indirect function isName
  | move notTemp notMem =>
      rcases selectable.destination _ _ rfl with ⟨register, isTemp⟩ | ⟨address, isMem⟩
      · exact notTemp register isTemp
      · exact notMem address isMem

/-- A computation of the selector that succeeds from every state. -/
def Accepts {α : Type} (computation : SelectM Op α) : Prop :=
  ∀ before, ∃ result after, computation before = .ok result after

/-- A body of statements that can be selected is accepted. -/
theorem selectStatement_accepts {body : Stm}
    (selectable : ∀ part ∈ body.flatten, Selectable part)
    : Accepts (rules.selectStatement body) := by
  intro before
  cases outcome : rules.selectStatement body before with
  | ok result after => exact ⟨result, after, rfl⟩
  | error error after =>
      obtain ⟨part, member, refusal⟩ := selectStatement_failsOnly body _ _ _ outcome
      exact absurd refusal (selectable part member).not_refusal

/-- An expression whose calls go to labels has nothing to refuse. -/
theorem fits_of_callsLabels {tree : Exp} {bound : Nat} (direct : tree.CallsLabels)
    (deepEnough : tree.depth ≤ bound)
    : tree.Fits (RefusedCall fun _ => False) bound := by
  refine ⟨?_, deepEnough⟩
  rw [Exp.callsLabels_iff.mp direct]
  exact List.forall_mem_nil _

/-- The value of an expression whose calls go to labels is accepted. -/
theorem selectValue_accepts {tree : Exp} (direct : tree.CallsLabels)
    : Accepts (rules.selectValue tree) := by
  intro before
  cases outcome : rules.selectValue tree before with
  | ok result after => exact ⟨result, after, rfl⟩
  | error error after =>
      have deepEnough : tree.depth ≤ tree.nesting := by
        have depthLe := tree.depth_le
        rw [Exp.nesting]
        omega
      have fits := fits_of_callsLabels direct deepEnough
      exact ((failsOnlyWithin _ _).value fits _ _ _ outcome).elim

/-- So are its effects. -/
theorem selectDiscard_accepts {tree : Exp} (direct : tree.CallsLabels)
    : Accepts (rules.selectDiscard tree) := by
  intro before
  cases outcome : rules.selectDiscard tree before with
  | ok result after => exact ⟨result, after, rfl⟩
  | error error after =>
      have deepEnough : tree.depth ≤ 2 * tree.height + 3 := by
        have depthLe := tree.depth_le
        omega
      have fits := fits_of_callsLabels direct deepEnough
      exact (discard_failsOnly fits _ _ _ outcome).elim

end TreeTiling.X64
