import TreeTiling.Proofs.Selection.Scope
import TreeTiling.Proofs.X64.Reads
import TreeTiling.X64.Generate

/-!
The actions of the x86-64 rules name only machine registers, registers of the tree they are for, and
registers that they took or were answered. So does the code that is generated for fragments.
-/

namespace TreeTiling

/-- The registers that the instructions of a section name. -/
def Section.registers (part : Section) : List Temp :=
  part.instrs.toList.flatMap Instr.registers

namespace X64

open TreeTiling.Action (carryOut emitInstr valueOf)

variable {known : List Temp}

/-- Arguments are stored to machine registers and to where the stack pointer points. -/
theorem covered_outArg (index : Nat) : Covered known (outArg index).temps := by
  rcases outArg_cases index with ⟨register, found, isTemp⟩ | ⟨-, slot, isMem⟩
  · have allFixed : ∀ register ∈ argRegs, register.isFixed = true := by decide
    rw [isTemp, Exp.temps_temp]
    exact List.forall_mem_singleton.mpr (.inl (allFixed register (List.mem_of_getElem? found)))
  · rw [isMem, Exp.temps_mem, Exp.temps_binop, Exp.temps_temp, Exp.temps_const]
    exact List.forall_mem_singleton.mpr (.inl rfl)

/-- A call names machine registers only. -/
theorem covered_call (function : Label) (arguments : Nat)
    : Covered known (Op.call function arguments).instr.registers := by
  have allFixed : ∀ register ∈ callerSaves ++ (specials ++ argRegs), register.isFixed = true := by
    decide
  intro register member
  refine .inl (allFixed register ?_)
  rcases List.mem_append.mp member with written | read
  · exact List.mem_append_left _ written
  · rcases List.mem_append.mp read with isSpecial | isPassed
    · exact List.mem_append_right _ (List.mem_append_left _ isSpecial)
    · exact List.mem_append_right _ (List.mem_append_right _ (List.mem_of_mem_take isPassed))

section

attribute [local simp] Covered Emittable.instr Op.instr Instr.registers Instr.defs Instr.uses
  Instr.straight Instr.branch Instr.jump Temp.isFixed rax rdx

theorem AddressForm.inScope {form : AddressForm} (covered : Covered known form.temps)
    : form.select.Scoped Address.registers known := by
  cases form with
  | direct base => exact .bind (.value covered) fun _ => .pure (by simp [Address.registers])
  | displaced offset base =>
      exact .bind (.value covered) fun _ => .pure (by simp [Address.registers])
  | indexed base index | scaled base index _ =>
      obtain ⟨baseCovered, indexCovered⟩ := List.forall_mem_append.mp covered
      exact .bind (.value baseCovered) fun _ =>
        .bind (.value (Covered.right indexCovered)) fun _ =>
          .pure (by simp [Address.registers])

theorem MadeBy.covered {tree : Exp} {make : Temp → Op} (made : MadeBy tree make) {dst : Temp}
    (covered : Covered known [dst])
    : Covered known (make dst).instr.registers := by
  cases made <;> exact covered

theorem UpdatedBy.covered {tree operand : Exp} {update : Temp → Op}
    (updated : UpdatedBy tree operand update) {dst : Temp} (covered : Covered known [dst])
    : Covered known (update dst).instr.registers := by
  cases updated <;> exact covered.append covered

/-- Making a register from what is known. -/
theorem makeFresh_inScope {make : Temp → Op}
    (covered : ∀ dst, Covered (dst :: known) (make dst).instr.registers)
    : (makeFresh make).Scoped (fun register => [register]) known :=
  .bind .fresh fun dst => .bind (.emit (covered dst)) fun _ => .pure (by simp)

/-- An argument that is staged is a literal, or a register that was answered or taken. -/
theorem stageArg_inScope {arg : Exp} (covered : Covered known arg.temps)
    : (stageArg arg).Scoped Exp.temps known := by
  cases arg with
  | const value => exact .pure covered
  | name label => exact .pure covered
  | temp _ | mem _ | binop _ _ _ | call _ _ =>
      refine .bind (.value covered) fun register => ?_
      cases register with
      | virtual number => exact .pure (by simp)
      | fixed name =>
          exact .bind .fresh fun _ => .bind (.emit (by simp)) fun _ => .pure (by simp)

/-- The registers of staged arguments. -/
def stagedTemps (staged : List (Nat × Exp)) : List Temp :=
  staged.flatMap fun entry => entry.2.temps

theorem stageArgs_inScope {args : List (Exp × Nat)}
    (covered : ∀ entry ∈ args, Covered known entry.1.temps)
    : (stageArgs args).Scoped stagedTemps known := by
  induction args generalizing known with
  | nil => exact .pure .nil
  | cons first rest ih =>
      obtain ⟨firstCovered, restCovered⟩ := List.forall_mem_cons.mp covered
      simp only [stageArgs, List.mapM_cons, bind_assoc, pure_bind]
      refine .bind (stageArg_inScope firstCovered) fun value => .bind (ih ?_) fun staged => .pure ?_
      · exact fun entry member => (restCovered entry member).right
      · exact .append (.right .left) .left

theorem storeArgs_inScope {staged : List (Nat × Exp)} (covered : Covered known (stagedTemps staged))
    : (storeArgs staged).Scoped (fun _ => []) known := by
  induction staged with
  | nil => exact .pure .nil
  | cons first rest ih =>
      obtain ⟨firstCovered, restCovered⟩ := List.forall_mem_append.mp covered
      simp only [storeArgs, List.forM_eq_forM, List.forM_cons]
      refine .bind (.statement ?_) fun _ => ih restCovered
      rw [Stm.temps_move]
      exact (covered_outArg first.1).append firstCovered

theorem emitCall_inScope {function : Label} {args : List Exp}
    (covered : Covered known (args.flatMap Exp.temps))
    : (emitCall function args).Scoped (fun _ => []) known := by
  have argsCovered : ∀ entry ∈ args.zipIdx.reverse, Covered known entry.1.temps := by
    intro entry member register occurs
    exact covered register (temps_reversed_subset args (List.mem_flatMap_of_mem member occurs))
  rw [emitCall_eq]
  exact .bind (stageArgs_inScope argsCovered) fun staged =>
    .bind (storeArgs_inScope .left) fun _ =>
      .emit (covered_call function args.length)

----------------------------------------------------------------------------------------------
-- Tiles
----------------------------------------------------------------------------------------------

theorem covered_left (op : BinOp) (left right : Exp)
    : Covered (Exp.binop op left right).temps left.temps := by
  rw [Exp.temps_binop]
  exact .left

theorem covered_right (op : BinOp) (left right : Exp)
    : Covered (Exp.binop op left right).temps right.temps := by
  rw [Exp.temps_binop]
  exact .of_subset (List.subset_append_right _ _)

/-- The action for the value of a tree names what the tree names. -/
theorem ValueTile.inScope {tree : Exp} {action : Action Op Temp} (tile : ValueTile tree action)
    : action.Scoped (fun register => [register]) tree.temps := by
  cases tile with
  | call function args =>
      refine .bind (emitCall_inScope (.of_subset (Exp.temps_args_subset _ _))) fun _ => .pure ?_
      exact List.forall_mem_singleton.mpr (.inl rfl)
  | refuse => trivial
  | make made => exact makeFresh_inScope fun dst => made.covered (by simp)
  | temp register => exact .pure (by simp)
  | load of =>
      have covered : Covered (Exp.temps (.mem _)) _ :=
        .of_subset (by simpa using of.temps_subset)
      refine .bind (AddressForm.inScope covered) fun address => makeFresh_inScope fun dst => ?_
      exact .cons .left dst
  | same same => exact .value (.of_subset (Exp.temps_subset same.subtrees_subset))
  | update updated =>
      refine .bind (.value (.of_subset (Exp.temps_subset updated.subtrees_subset))) fun value => ?_
      exact .bind .fresh fun dst => .bind (.emit (by simp)) fun _ =>
        .bind (.emit (updated.covered (by simp))) fun _ => .pure (by simp)
  | combine op left right =>
      exact .bind (.value (covered_left op.binop left right)) fun _ =>
        .bind (.value (covered_right op.binop left right).right) fun _ =>
        .bind .fresh fun _ => .bind (.emit (by simp)) fun _ => .bind (.emit (by simp)) fun _ =>
        .pure (by simp)
  | multiple multiple =>
      have covered := Covered.of_subset (Exp.temps_subset multiple.subtrees_subset)
      exact .bind (.value covered) fun factor => makeFresh_inScope (by simp)
  | quotient left right =>
      exact .bind (.value (covered_left .div left right)) fun _ =>
        .bind (.value (covered_right .div left right).right) fun _ =>
        .bind (.emit (by simp)) fun _ => .bind (.emit (by simp)) fun _ =>
        .bind (.emit (by simp)) fun _ => makeFresh_inScope (by simp)

theorem DiscardTile.inScope {tree : Exp} {action : Action Op Unit} (tile : DiscardTile tree action)
    : action.Scoped (fun _ => []) tree.temps := by
  cases tile with
  | call function args => exact emitCall_inScope (.of_subset (Exp.temps_args_subset _ _))
  | refuse => trivial
  | idle => exact .pure .nil
  | value => exact .bind (.value (.of_subset (List.Subset.refl _))) fun _ => .pure (by simp)

/-- The action of a comparison names what its operands name. -/
theorem CompareTile.inScope {op : RelOp} {left right : Exp} {compare : Action Op RelOp}
    (tile : CompareTile op left right compare) (leftCovered : Covered known left.temps)
    (rightCovered : Covered known right.temps)
    : compare.Scoped (fun _ => []) known := by
  cases tile with
  | immRight =>
      exact .bind (.value leftCovered) fun _ => .bind (.emit (by simp)) fun _ => .pure (by simp)
  | immLeft =>
      exact .bind (.value rightCovered) fun _ => .bind (.emit (by simp)) fun _ => .pure (by simp)
  | memBoth =>
      rw [Exp.temps_mem] at leftCovered rightCovered
      exact .bind (.value leftCovered) fun _ => .bind (.value rightCovered.right) fun _ =>
        .bind .fresh fun _ => .bind (.emit (by simp [Address.registers])) fun _ =>
        .bind (.emit (by simp [Address.registers])) fun _ => .pure (by simp)
  | memRight =>
      rw [Exp.temps_mem] at rightCovered
      exact .bind (.value leftCovered) fun _ => .bind (.value rightCovered.right) fun _ =>
        .bind (.emit (by simp [Address.registers])) fun _ => .pure (by simp)
  | memLeft =>
      rw [Exp.temps_mem] at leftCovered
      exact .bind (.value leftCovered) fun _ => .bind (.value rightCovered.right) fun _ =>
        .bind (.emit (by simp [Address.registers])) fun _ => .pure (by simp)
  | registers =>
      exact .bind (.value leftCovered) fun _ => .bind (.value rightCovered.right) fun _ =>
        .bind (.emit (by simp)) fun _ => .pure (by simp)

/-- The action for a statement names what the statement names. -/
theorem StatementTile.inScope {part : Stm} {action : Action Op Unit}
    (tile : StatementTile part action)
    : action.Scoped (fun _ => []) part.ownTemps := by
  have operand (tree : Exp) (member : tree ∈ part.operands) : Covered part.ownTemps tree.temps :=
    .of_subset fun register occurs =>
      List.mem_append_left _ (List.mem_flatMap_of_mem member occurs)
  have addressed {form : AddressForm} {tree : Exp} (of : form.Of tree)
      (member : .mem tree ∈ part.operands)
      : Covered part.ownTemps form.temps := by
    have covered := operand (.mem tree) member
    rw [Exp.temps_mem] at covered
    exact covered.trans (.of_subset of.temps_subset)
  cases tile with
  | label => exact .emit .nil
  | jump => exact .emit .nil
  | refuse => trivial
  | cjump _ _ compares =>
      exact .bind (compares.inScope (operand _ (by simp [Stm.operands]))
        (operand _ (by simp [Stm.operands]))) fun _ => .emit .nil
  | cmove dst value compares =>
      refine .bind (.value (operand _ (by simp [Stm.operands]))) fun src =>
        .bind (compares.inScope (operand _ (by simp [Stm.operands])).right
          (operand _ (by simp [Stm.operands])).right) fun _ => .emit ?_
      simp [Stm.ownTemps]
  | make dst made => exact .emit (made.covered (by simp [Stm.ownTemps, Stm.operands]))
  | lea dst of =>
      have covered := (operand _ (by simp [Stm.operands])).trans (.of_subset of.temps_subset)
      refine .bind (AddressForm.inScope covered) fun address => .emit ?_
      exact Covered.append (by simp [Stm.ownTemps, Stm.operands]) .left
  | load dst of =>
      refine .bind (AddressForm.inScope (addressed of (by simp [Stm.operands]))) fun address =>
        .emit ?_
      exact Covered.append (by simp [Stm.ownTemps, Stm.operands]) .left
  | copy dst tree =>
      exact .bind (.value (operand _ (by simp [Stm.operands]))) fun _ =>
        .emit (by simp [Stm.ownTemps, Stm.operands])
  | storeImm of =>
      exact .bind (AddressForm.inScope (addressed of (by simp [Stm.operands]))) fun address =>
        .emit .left
  | store value of =>
      refine .bind (AddressForm.inScope (addressed of (by simp [Stm.operands]))) fun address =>
        .bind (.value (operand _ (by simp [Stm.operands])).right) fun src => .emit ?_
      exact Covered.append .nil (Covered.append (.right .left) (by simp))
  | effects tree => exact .effects (operand _ (by simp [Stm.operands]))

/-- The rules name only what trees name and what they are answered. -/
theorem rules_inScope : rules.Scoped where
  value chosen := (valueTile_of_choose? chosen).inScope
  discard chosen := (discardTile_of_choose? chosen).inScope
  statement chosen := (statementTile_of_choose? chosen).inScope

end

----------------------------------------------------------------------------------------------
-- Code generation
----------------------------------------------------------------------------------------------

section

variable {given : List Temp} {started : Session}

/-- Changing a session without taking registers or emitting instructions keeps its accounts. -/
theorem keeps_modify {change : Session → Session}
    (temps : ∀ session, (change session).temps = session.temps)
    (events
      : ∀ (session : Session) (position : Nat) (instr : Instr),
          (change session).events[position]? = some (.emitted instr)
          → session.events[position]? = some (.emitted instr))
    : (Session.ledger given started).Keeps known (fun _ => [])
        (modify change : GenerateM Unit) := by
  intro before accounted _
  have same := temps before
  refine ⟨⟨same ▸ accounted.temps_le, ?_⟩, Nat.le_of_eq same.symm, .nil⟩
  intro position instr since found
  rw [same]
  exact accounted.emitted position instr since (events before position instr found)

theorem selectProcedure_keeps (name : Label) (body : Stm)
    : (Session.ledger given started).Keeps body.temps
        (fun code => code.toList.flatMap fun op => op.instr.registers)
        (selectProcedure name body) := by
  intro before accounted known
  have entered : Session.Accounted given started (before.enter name.name) :=
    ⟨accounted.temps_le, accounted.emitted⟩
  unfold selectProcedure
  rcases selected : rules.selectBody body (before.enter name.name) with ⟨answer, after⟩
  obtain ⟨kept, le, covered⟩ := rules_inScope.selectBody entered known selected
  have left : Session.Accounted given started after.leave := ⟨kept.temps_le, kept.emitted⟩
  cases answer with
  | ok code =>
      refine ⟨left, le, ?_⟩
      intro register member
      obtain ⟨op, isOp, occurs⟩ := List.mem_flatMap.mp member
      exact covered code rfl op (Array.mem_toList_iff.mp isOp) register occurs
  | error error => exact ⟨left, le⟩

theorem generateProcedure_keeps (name : Label) (body : Stm)
    : (Session.ledger given started).Keeps body.temps Section.registers
        (generateProcedure name body) := by
  refine .bind (selectProcedure_keeps name body) fun code =>
    .bind (keeps_modify (fun _ => rfl) ?_) fun _ => .pure ?_
  · intro session position instr found
    rcases event_push_cases found with earlier | same
    · exact earlier
    · cases same
  · simpa [Section.registers, List.flatMap_map] using Covered.left

/-- Data names no registers. -/
theorem generateData_keeps (name : Label) (words : List Exp)
    : (Session.ledger given started).Keeps known Section.registers (generateData name words) := by
  refine .bind
    (.mapM fun word _ => show (Session.ledger given started).Keeps known Instr.registers _ from ?_)
    fun directives => .bind (keeps_modify (fun _ => rfl) fun _ _ _ => id) fun _ => .pure ?_
  · cases word with
    | const value | name label => exact .pure .nil
    | temp _ | mem _ | binop _ _ _ | call _ _ => exact .throw _
  · have noRegisters : (Op.label name).instr.registers = [] := rfl
    simpa [Section.registers, noRegisters] using Covered.left

theorem generate_keeps (fragment : Fragment)
    : (Session.ledger given started).Keeps fragment.temps Section.registers
        (generate fragment) := by
  cases fragment with
  | procedure name body => exact generateProcedure_keeps name body
  | data name words => exact generateData_keeps name words

theorem assemble_keeps (fragments : List Fragment)
    : (Session.ledger given started).Keeps (fragments.flatMap Fragment.temps)
        (fun assembly => assembly.flatMap Section.registers)
        (assemble fragments) :=
  .mapM fun fragment member => (generate_keeps fragment).of_covered
    (.of_subset fun _ occurs => List.mem_flatMap_of_mem member occurs)

end

end X64

end TreeTiling
