import TreeTiling.Proofs.Selection.Recursion
import TreeTiling.Proofs.X64.Acceptance

/-!
Selection with the rules of x86-64 ends on every tree, however many arguments its calls have.

The recursion is not on subtrees: a tree whose effects are wanted is passed on whole to the rules
for values, and a call has its arguments stored by moves that occur in no tree. A number falls all
the same. The moves are made of leaves and of outgoing slots, so their depth is at most four, and
the depth of a call leaves room for that.
-/

namespace TreeTiling

----------------------------------------------------------------------------------------------
-- Depths of statements and jobs
----------------------------------------------------------------------------------------------

namespace Exp

theorem depth_lt_mem (address : Exp) : address.depth < (mem address).depth := by
  rw [depth_mem]
  exact Nat.lt_succ_self _

end Exp

namespace Stm

mutual

/-- How deeply rules nest on a statement, at most. -/
def depth : Stm → Nat
  | label _ => 1
  | jump target => target.depth + 1
  | cjump _ left right _ _ => max left.depth right.depth + 1
  | cmove _ left right _ value => max (max left.depth right.depth) value.depth + 1
  | move dst src => max dst.depth src.depth + 1
  | exp value => value.depth + 2
  | seq statements => allDepth statements + 1

/-- The greatest depth of a list of statements, zero for none. -/
def allDepth : List Stm → Nat
  | [] => 0
  | statement :: rest => max statement.depth (allDepth rest)

end

/-- An operand is less deep than its statement. -/
theorem depth_lt_of_mem_operands {tree : Stm} {operand : Exp} (member : operand ∈ tree.operands)
    : operand.depth < tree.depth := by
  cases tree with
  | label _ | seq _ => exact absurd member List.not_mem_nil
  | jump _ | cjump _ _ _ _ _ | cmove _ _ _ _ _ | move _ _ | exp _ =>
      simp only [operands, List.mem_cons, List.not_mem_nil, or_false] at member
      rw [depth]
      grind

theorem depth_le_allDepth {statement : Stm} {statements : List Stm}
    (member : statement ∈ statements)
    : statement.depth ≤ allDepth statements := by
  induction statements with
  | nil => exact absurd member List.not_mem_nil
  | cons first rest ih =>
      rw [allDepth]
      rcases List.mem_cons.mp member with rfl | later
      · exact Nat.le_max_left _ _
      · exact Nat.le_trans (ih later) (Nat.le_max_right _ _)

mutual

/-- A statement is at most four levels deeper than it is high. -/
theorem depth_le : ∀ tree : Stm, tree.depth ≤ tree.height + 4
  | label _ => by
      rw [depth]
      omega
  | jump target => by
      have targetLe := target.depth_le
      rw [depth, height]
      omega
  | cjump _ left right _ _ => by
      have leftLe := left.depth_le
      have rightLe := right.depth_le
      rw [depth, height]
      omega
  | cmove _ left right _ value => by
      have leftLe := left.depth_le
      have rightLe := right.depth_le
      have valueLe := value.depth_le
      rw [depth, height]
      omega
  | move dst src => by
      have dstLe := dst.depth_le
      have srcLe := src.depth_le
      rw [depth, height]
      omega
  | exp value => by
      have valueLe := value.depth_le
      rw [depth, height]
      omega
  | seq statements => by
      have allLe := allDepth_le statements
      rw [depth, height]
      omega

theorem allDepth_le : ∀ statements : List Stm, allDepth statements ≤ allHeight statements + 4
  | [] => by
      rw [allDepth]
      exact Nat.zero_le _
  | statement :: rest => by
      have firstLe := statement.depth_le
      have restLe := allDepth_le rest
      rw [allDepth, allHeight]
      omega

end

end Stm

/-- How deeply rules nest on a job, at most. Effects take one level more than a value. -/
def Job.depth : Job → Nat
  | value tree => tree.depth
  | discard tree => tree.depth + 1
  | statement tree => tree.depth

/-- The bound on nesting has room for every job. -/
theorem Job.depth_lt_nesting (job : Job) : job.depth < job.nesting := by
  cases job with
  | value tree | discard tree =>
      have treeLe := tree.depth_le
      have positive := tree.height_pos
      simp only [depth, nesting, Exp.nesting]
      omega
  | statement tree =>
      have treeLe := tree.depth_le
      have positive : 0 < tree.height := by
        cases tree with
        | label _ | jump _ | cjump _ _ _ _ _ | cmove _ _ _ _ _ | move _ _ | exp _ | seq _ =>
            rw [Stm.height]
            omega
      simp only [depth, nesting, Stm.nesting]
      omega

end TreeTiling

namespace TreeTiling.X64

open TreeTiling.Action (carryOut effectsOf emitInstr fail freshTemp valueOf)

----------------------------------------------------------------------------------------------
-- What tiles ask for
----------------------------------------------------------------------------------------------

/-- A job that is less deep than a limit. -/
def Below (limit : Nat) (job : Job) : Prop :=
  job.depth < limit

/-- An action that asks only for jobs below a limit. -/
abbrev AsksBelow {α : Type} (limit : Nat) (action : Action Op α) : Prop :=
  action.Confined (Below limit) fun _ => True

variable {limit : Nat}

/-- The registers of a memory operand, if the tree of the address is below the limit. -/
theorem AddressForm.Of.asksBelow {form : AddressForm} {tree : Exp} (of : form.Of tree)
    (below : tree.depth < limit)
    : AsksBelow limit form.select := by
  cases of with
  | direct => exact .bind (.value below) fun _ _ => .pure trivial
  | displaced base _ =>
      exact .bind (.value ((Exp.depth_left _ _ _).trans below)) fun _ _ => .pure trivial
  | indexed base index =>
      exact .bind (.value ((Exp.depth_left _ _ _).trans below)) fun _ _ =>
        .bind (.value ((Exp.depth_right _ _ _).trans below)) fun _ _ => .pure trivial
  | scaled base index _ =>
      have productBelow := (Exp.depth_right _ _ _).trans below
      exact .bind (.value ((Exp.depth_left _ _ _).trans below)) fun _ _ =>
        .bind (.value ((Exp.depth_left _ _ _).trans productBelow)) fun _ _ => .pure trivial

/-- An argument is staged as a leaf. -/
theorem stageArg_confined {arg : Exp} (below : arg.depth < limit)
    : (stageArg arg).Confined (Below limit) fun value => value.height = 1 := by
  cases arg with
  | const value => exact .pure (by rw [Exp.height])
  | name label => exact .pure (by rw [Exp.height])
  | temp _ | mem _ | binop _ _ _ | call _ _ =>
      refine .bind (.value below) fun register _ => ?_
      cases register with
      | virtual number => exact .pure (by rw [Exp.height])
      | fixed name =>
          exact .bind .fresh fun _ _ => .bind (.emit _) fun _ _ => .pure (by rw [Exp.height])

/-- So are all arguments; by induction on them. -/
theorem stageArgs_confined {args : List (Exp × Nat)}
    (below : ∀ entry ∈ args, entry.1.depth < limit)
    : (stageArgs args).Confined (Below limit) fun staged =>
        ∀ entry ∈ staged, entry.2.height = 1 := by
  induction args with
  | nil => exact .pure (List.forall_mem_nil _)
  | cons first rest ih =>
      have firstConfined := stageArg_confined (below first List.mem_cons_self)
      have restConfined := ih fun entry member => below entry (List.mem_cons_of_mem first member)
      simp only [stageArgs, List.mapM_cons, bind_assoc, pure_bind]
      exact .bind firstConfined fun value leaf =>
        .bind restConfined fun staged leaves => .pure (List.forall_mem_cons.mpr ⟨leaf, leaves⟩)

/-- The store of a leaf in an outgoing slot takes four levels. Where the slot is too far from the
stack pointer for an immediate, its address is computed like any other sum.
-/
theorem depth_store_le (index : Nat) {value : Exp} (leaf : value.height = 1)
    : (Stm.move (outArg index) value).depth ≤ 4 := by
  have slotLe : (outArg index).depth ≤ 3 := by
    unfold outArg
    split
    · exact (by decide : 1 ≤ 3)
    · exact Nat.le_refl 3
  have valueLe : value.depth ≤ 3 := by
    obtain ⟨_, rfl⟩ | ⟨_, rfl⟩ | ⟨_, rfl⟩ := Exp.leaf_cases leaf <;> exact (by decide : 1 ≤ 3)
  rw [Stm.depth]
  omega

theorem storeArgs_asksBelow {staged : List (Nat × Exp)}
    (leaves : ∀ entry ∈ staged, entry.2.height = 1) (roomy : 4 < limit)
    : AsksBelow limit (storeArgs staged) := by
  induction staged with
  | nil => exact .pure trivial
  | cons first rest ih =>
      have storeLe := depth_store_le first.1 (leaves first List.mem_cons_self)
      have restBelow := ih fun entry member => leaves entry (List.mem_cons_of_mem first member)
      simp only [storeArgs, List.forM_eq_forM, List.forM_cons]
      exact .bind (.statement (Nat.lt_of_le_of_lt storeLe roomy)) fun _ _ => restBelow

/-- A call asks for its arguments and their stores, all of which are less deep than the call. -/
theorem emitCall_asksBelow (function : Label) (args : List Exp)
    : AsksBelow (Exp.call (.name function) args).depth (emitCall function args) := by
  have callDepth := Exp.depth_call (.name function) args
  have positive := (Exp.name function).height_pos
  have argsBelow : ∀ entry ∈ args.zipIdx.reverse,
      entry.1.depth < (Exp.call (.name function) args).depth := by
    intro entry member
    have occurs := List.fst_mem_of_mem_zipIdx (List.mem_reverse.mp member)
    have argLe := entry.1.depth_le
    have heightLe := Exp.height_le_argsHeight occurs
    omega
  rw [emitCall_eq]
  refine .bind (stageArgs_confined argsBelow) fun staged leaves => ?_
  exact .bind (storeArgs_asksBelow leaves (by omega)) fun _ _ => .emit _

theorem UpdatedBy.depth_lt {tree operand : Exp} {update : Temp → Op}
    (updated : UpdatedBy tree operand update)
    : operand.depth < tree.depth := by
  cases updated with
  | incrementRight | decrement | immRight => exact Exp.depth_left _ _ _
  | incrementLeft | immLeft => exact Exp.depth_right _ _ _

theorem MultipleOf.depth_lt {tree factor : Exp} {value : Word}
    (multiple : MultipleOf tree factor value)
    : factor.depth < tree.depth := by
  cases multiple with
  | right => exact Exp.depth_left _ _ _
  | left => exact Exp.depth_right _ _ _

/-- The action for a value asks for less. -/
theorem ValueTile.asksBelow {tree : Exp} {action : Action Op Temp} (tile : ValueTile tree action)
    : AsksBelow tree.depth action := by
  cases tile with
  | call function args => exact .bind (emitCall_asksBelow function args) fun _ _ => .pure trivial
  | refuse => trivial
  | make => exact .bind .fresh fun _ _ => .bind (.emit _) fun _ _ => .pure trivial
  | temp => exact .pure trivial
  | load of =>
      exact .bind (of.asksBelow (Exp.depth_lt_mem _)) fun _ _ =>
        .bind .fresh fun _ _ => .bind (.emit _) fun _ _ => .pure trivial
  | same same =>
      cases same with
      | zeroRight => exact .value (Exp.depth_left _ _ _)
      | zeroLeft => exact .value (Exp.depth_right _ _ _)
  | update updated =>
      exact .bind (.value updated.depth_lt) fun _ _ => .bind .fresh fun _ _ =>
        .bind (.emit _) fun _ _ => .bind (.emit _) fun _ _ => .pure trivial
  | combine op left right =>
      exact .bind (.value (Exp.depth_left _ _ _)) fun _ _ =>
        .bind (.value (Exp.depth_right _ _ _)) fun _ _ => .bind .fresh fun _ _ =>
        .bind (.emit _) fun _ _ => .bind (.emit _) fun _ _ => .pure trivial
  | multiple multiple =>
      exact .bind (.value multiple.depth_lt) fun _ _ => .bind .fresh fun _ _ =>
        .bind (.emit _) fun _ _ => .pure trivial
  | quotient left right =>
      exact .bind (.value (Exp.depth_left _ _ _)) fun _ _ =>
        .bind (.value (Exp.depth_right _ _ _)) fun _ _ =>
        .bind (.emit _) fun _ _ => .bind (.emit _) fun _ _ => .bind (.emit _) fun _ _ =>
        .bind .fresh fun _ _ => .bind (.emit _) fun _ _ => .pure trivial

/-- The action for effects asks for less, or for the value of the same tree. -/
theorem DiscardTile.asksBelow {tree : Exp} {action : Action Op Unit}
    (tile : DiscardTile tree action)
    : AsksBelow (tree.depth + 1) action := by
  cases tile with
  | call function args =>
      exact (emitCall_asksBelow function args).mono fun _ below => Nat.lt_succ_of_lt below
  | refuse => trivial
  | idle => exact .pure trivial
  | value => exact .bind (.value (Nat.lt_succ_self _)) fun _ _ => .pure trivial

/-- A comparison asks for less than a statement above both of its operands. -/
theorem CompareTile.asksBelow {op : RelOp} {left right : Exp} {compare : Action Op RelOp}
    (tile : CompareTile op left right compare) (leftBelow : left.depth < limit)
    (rightBelow : right.depth < limit)
    : AsksBelow limit compare := by
  cases tile with
  | immRight => exact .bind (.value leftBelow) fun _ _ => .bind (.emit _) fun _ _ => .pure trivial
  | immLeft => exact .bind (.value rightBelow) fun _ _ => .bind (.emit _) fun _ _ => .pure trivial
  | memBoth =>
      exact .bind (.value ((Exp.depth_lt_mem _).trans leftBelow)) fun _ _ =>
        .bind (.value ((Exp.depth_lt_mem _).trans rightBelow)) fun _ _ => .bind .fresh fun _ _ =>
        .bind (.emit _) fun _ _ => .bind (.emit _) fun _ _ => .pure trivial
  | memRight =>
      exact .bind (.value leftBelow) fun _ _ =>
        .bind (.value ((Exp.depth_lt_mem _).trans rightBelow)) fun _ _ =>
        .bind (.emit _) fun _ _ => .pure trivial
  | memLeft =>
      exact .bind (.value ((Exp.depth_lt_mem _).trans leftBelow)) fun _ _ =>
        .bind (.value rightBelow) fun _ _ => .bind (.emit _) fun _ _ => .pure trivial
  | registers =>
      exact .bind (.value leftBelow) fun _ _ => .bind (.value rightBelow) fun _ _ =>
        .bind (.emit _) fun _ _ => .pure trivial

/-- The action for a statement asks for less. -/
theorem StatementTile.asksBelow {part : Stm} {action : Action Op Unit}
    (tile : StatementTile part action)
    : AsksBelow part.depth action := by
  have below {operand : Exp} (member : operand ∈ part.operands) : operand.depth < part.depth :=
    Stm.depth_lt_of_mem_operands member
  cases tile with
  | label => exact .emit _
  | jump => exact .emit _
  | refuse => trivial
  | cjump _ _ compares =>
      have compareBelow := compares.asksBelow (below (by simp [Stm.operands]))
        (below (by simp [Stm.operands]))
      exact .bind compareBelow fun _ _ => .emit _
  | cmove dst value compares =>
      have compareBelow := compares.asksBelow (below (by simp [Stm.operands]))
        (below (by simp [Stm.operands]))
      have valueBelow := below (show value ∈ _ by simp [Stm.operands])
      exact .bind (.value valueBelow) fun _ _ => .bind compareBelow fun _ _ => .emit _
  | make => exact .emit _
  | lea dst of => exact .bind (of.asksBelow (below (by simp [Stm.operands]))) fun _ _ => .emit _
  | @load form tree dst of =>
      have addressBelow := below (show Exp.mem tree ∈ _ by simp [Stm.operands])
      exact .bind (of.asksBelow ((Exp.depth_lt_mem _).trans addressBelow)) fun _ _ => .emit _
  | copy dst tree => exact .bind (.value (below (by simp [Stm.operands]))) fun _ _ => .emit _
  | storeImm of =>
      have addressBelow := below (List.mem_cons_self : Exp.mem _ ∈ _)
      exact .bind (of.asksBelow ((Exp.depth_lt_mem _).trans addressBelow)) fun _ _ => .emit _
  | store value of =>
      have addressBelow := below (List.mem_cons_self : Exp.mem _ ∈ _)
      exact .bind (of.asksBelow ((Exp.depth_lt_mem _).trans addressBelow)) fun _ _ =>
        .bind (.value (below (by simp [Stm.operands]))) fun _ _ => .emit _
  | effects tree =>
      have effectsBelow : tree.depth + 1 < (Stm.exp tree).depth := by
        rw [Stm.depth]
        exact Nat.lt_succ_self _
      exact .effects effectsBelow

----------------------------------------------------------------------------------------------
-- The whole recursion
----------------------------------------------------------------------------------------------

/-- Every job turns only to jobs that are less deep, by the tile of the rule that is chosen. -/
theorem rules_descend : rules.Descends Job.depth := by
  intro job next calls
  cases calls with
  | value chosen asks => exact (valueTile_of_choose? chosen).asksBelow.of_asks asks
  | discard chosen asks => exact (discardTile_of_choose? chosen).asksBelow.of_asks asks
  | statement _ chosen asks => exact (statementTile_of_choose? chosen).asksBelow.of_asks asks
  | part member =>
      have partLe := Stm.depth_le_allDepth member
      simp only [Job.depth]
      rw [Stm.depth]
      exact Nat.lt_succ_of_le partLe

/-- A call turns to the stores of its arguments, which are no parts of it. -/
example (function : Label) (value : Word)
    : rules.Calls (.value (.call (.name function) [.const value]))
        (.statement (.move (outArg 0) (.const value))) :=
  .value rfl (.statement _ _)

/-- A computation of the selector that never ends for want of a deeper nesting of rules. -/
def Settles {α : Type} (computation : SelectM Op α) : Prop :=
  FailsOnly (fun error => ∀ tree, error ≠ .tooDeep tree) computation

theorem selectValue_settles (tree : Exp) : Settles (rules.selectValue tree) := by
  have deepEnough : tree.depth ≤ tree.nesting := Nat.le_of_lt (Job.value tree).depth_lt_nesting
  exact (failsOnlyWithin _ _).value ⟨fun _ _ => nofun, deepEnough⟩

theorem selectDiscard_settles (tree : Exp) : Settles (rules.selectDiscard tree) := by
  have deepEnough : tree.depth ≤ 2 * tree.height + 3 :=
    Nat.le_of_lt_succ (Job.value tree).depth_lt_nesting
  exact discard_failsOnly ⟨fun _ _ => nofun, deepEnough⟩

theorem selectStatement_settles (tree : Stm) : Settles (rules.selectStatement tree) := by
  intro before error after failed
  obtain ⟨part, -, refusal⟩ := selectStatement_failsOnly tree _ _ _ failed
  cases refusal <;> nofun

/-- Selection ends on every tree, for its value, its effects or as a statement. No job leads back to
itself, however jobs are nested, and no more are nested than the bound allows for: selection obeys
the equations of the recursion without a bound, and it never fails because the bound was met.
-/
theorem selection_terminates
    : (WellFounded fun next job => rules.Calls job next)
      ∧ (∀ job nested,
          List.IsChain rules.Calls (job :: nested) → nested.length < job.nesting)
      ∧ rules.Unfolds
      ∧ (∀ tree, Settles (rules.selectValue tree))
      ∧ (∀ tree, Settles (rules.selectDiscard tree))
      ∧ ∀ tree, Settles (rules.selectStatement tree) := by
  refine ⟨rules_descend.wellFounded, ?_, rules_descend.unfolds Job.depth_lt_nesting,
    selectValue_settles, selectDiscard_settles, selectStatement_settles⟩
  intro job nested chain
  exact Nat.lt_of_le_of_lt (rules_descend.length_le chain) job.depth_lt_nesting

end TreeTiling.X64
