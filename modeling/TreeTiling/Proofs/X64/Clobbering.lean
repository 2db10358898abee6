import TreeTiling.Proofs.X64.EntryLiveness
import TreeTiling.Proofs.X64.Timing

/-!
What selected code may overwrite: the temporaries that it took, the destination that its statement
names, and registers that a callee may overwrite, but of these only what its divisions and calls
need. A temporary that it took is written before it is read.
-/

namespace TreeTiling.X64

/-- The register is a temporary that was taken between two states of a selection. -/
def Taken (before after : Selection Op) (register : Temp) : Prop :=
  ∃ number,
    register = .virtual number
    ∧ before.session.temps ≤ number
    ∧ number < after.session.temps

/-- The register is one that a callee may overwrite, and the code of some trees has to: `rax` or
`rdx` if one of them divides, any if one of them calls.
-/
structure Clobbered (trees : List Exp) (register : Temp) : Prop where
  saved : register ∈ callerSaves
  cause
    : ((∃ tree ∈ trees, tree.hasDivision = true) ∧ register ∈ [rax, rdx])
      ∨ ∃ tree ∈ trees, tree.isCallFree = false

/-- Code that is selected for some trees and assigns to some registers writes nothing else that was
there before, and reads no temporary that was taken before it writes it.
-/
structure Disciplined (before after : Selection Op) (trees : List Exp) (assigned : Temp → Prop)
    (code : List Op) : Prop where
  writes
    : ∀ op ∈ code, ∀ register ∈ op.instr.defs,
        Taken before after register ∨ Clobbered trees register ∨ assigned register
  reads
    : ∀ position op,
        code[position]? = some op
        → ∀ register ∈ op.instr.uses,
            Taken before after register
            → ∃ earlier ∈ code.take position, register ∈ earlier.instr.defs

/-- What a task may write is taken, clobbered or a destination of the task. -/
theorem Task.MayWrite.clobbered {task : Task} {before after : Selection Op} {register : Temp}
    (written : task.MayWrite before.session.temps after.session.temps register)
    : Taken before after register
      ∨ Clobbered task.trees register
      ∨ register ∈ task.destinations := by
  have saved : ∀ register ∈ [rax, rdx], register ∈ callerSaves := by decide
  cases written with
  | fresh le lt => exact .inl ⟨_, rfl, le, lt⟩
  | division divides member =>
      obtain ⟨part, occurs, isDivision⟩ := divides
      obtain ⟨tree, isTree, inside⟩ := List.mem_flatMap.mp occurs
      have hasDivision := List.any_eq_true.mpr ⟨part, inside, isDivision⟩
      exact .inr (.inl ⟨saved register member, .inl ⟨⟨tree, isTree, hasDivision⟩, member⟩⟩)
  | call calls member =>
      obtain ⟨part, occurs, isCall⟩ := calls
      obtain ⟨tree, isTree, inside⟩ := List.mem_flatMap.mp occurs
      have hasCall : tree.isCallFree = false :=
        List.all_eq_false.mpr ⟨part, inside, by simp [isCall]⟩
      exact .inr (.inl ⟨member, .inr ⟨tree, isTree, hasCall⟩⟩)
  | destination member => exact .inr (.inr member)

/-- The code of a task keeps to what its trees and its destinations allow, if the temporaries that
it reads were there before.
-/
theorem Tiling.disciplined {task : Task} {before after : Selection Op} {code : List Op}
    (tiling : Tiling task before.session.temps code after.session.temps)
    (earlier : ∀ number, Temp.virtual number ∈ task.reads → number < before.session.temps)
    : Disciplined before after task.trees (· ∈ task.destinations) code := by
  constructor
  · intro op member register written
    exact (tiling.writesOnly op member register written).clobbered
  · rintro position op found register read ⟨number, rfl, le, -⟩
    rcases tiling.uses_at found read with isRead | isSpecial | written
    · exact absurd (earlier number isRead) (Nat.not_lt.mpr le)
    · have fixed : ∀ register ∈ specials, register.isFixed = true := by decide
      exact absurd (fixed _ isSpecial) Bool.false_ne_true
    · exact written

/-- Selection writes only registers that it may. For the value of an expression these are the
temporaries it takes and, if the expression divides or calls, registers that a callee may overwrite;
the value is left in a temporary that was taken, in one of the expression, or in `rax`. For a
statement other than a sequence the destination of an assignment or of a conditional move comes in
addition. No temporary that was taken is read before it is written.
-/
theorem selection_writes_only_allowed
    : (∀ (tree : Exp) (before : Selection Op) (register : Temp) (after : Selection Op),
        (∀ number, Temp.virtual number ∈ tree.temps → number < before.session.temps)
        → rules.selectValue tree before = .ok register after
        → ∃ code,
            before.Gains code after
            ∧ Disciplined before after [tree] (fun _ => False) code
            ∧ (Taken before after register ∨ register ∈ tree.temps ∨ register = rax))
      ∧ ∀ (tree : Stm) (before after : Selection Op),
          (∀ statements, tree ≠ .seq statements)
          → (∀ number, Temp.virtual number ∈ tree.temps → number < before.session.temps)
          → rules.selectStatement tree before = .ok () after
          → ∃ code,
              before.Gains code after
              ∧ Disciplined before after tree.operands
                  (fun register =>
                    (∃ src, tree = .move (.temp register) src)
                    ∨ ∃ op left right value, tree = .cmove op left right register value)
                  code := by
  constructor
  · intro tree before register after earlier selected
    obtain ⟨code, gains, tiling⟩ := (coversWithin _).value selected
    obtain ⟨writes, reads⟩ := tiling.disciplined earlier
    refine ⟨code, gains, ⟨?_, reads⟩, ?_⟩
    · intro op member register written
      exact (writes op member register written).imp_right (.imp_right (absurd · List.not_mem_nil))
    · rcases tiling.register_cases with taken | held | ⟨isReturn, -⟩
      · exact .inl taken
      · exact .inr (.inl (mem_temps_of_heldIn? held))
      · exact .inr (.inr isReturn)
  · intro tree before after flat earlier selected
    have single := Stm.flatten_of_ne_seq flat
    obtain ⟨code, gains, tiling⟩ := selectStatement_covers single selected
    have named : (Task.statement tree).reads ⊆ tree.temps := by
      rw [Stm.temps, single, List.flatMap_singleton]
      exact Task.reads_statement_subset tree
    obtain ⟨writes, reads⟩ := tiling.disciplined fun number occurs => earlier number (named occurs)
    refine ⟨code, gains, ?_, reads⟩
    intro op member register written
    exact (writes op member register written).imp_right (.imp_right Task.assigned_of_destination)

/-- A call, an increment and a division by a machine register. -/
def quotientOfCall : Exp :=
  .binop .div (.binop .plus (.call (.name ⟨"f"⟩) [.temp (.virtual 0)]) (.const 1)) (.temp rbx)

/-- A conditional move of a quotient. -/
def conditionalQuotient : Stm :=
  .cmove .lt (.temp (.virtual 0)) (.const 0) (.virtual 1) (.binop .div (.const 8) (.temp rbx))

/-- Neither the call nor the division writes `rbx`, and the conditional move writes its destination
but not the temporary that it compares.
-/
theorem quotients_write_only_allowed
    : let before : Selection Op := { session := { temps := 2 } }
      (∃ after code,
        rules.selectValue quotientOfCall before = .ok (.virtual 3) after
        ∧ before.Gains code after
        ∧ Disciplined before after [quotientOfCall] (fun _ => False) code
        ∧ ∀ op ∈ code, rbx ∉ op.instr.defs)
      ∧ ∃ after code,
          rules.selectStatement conditionalQuotient before = .ok () after
          ∧ before.Gains code after
          ∧ ∀ op ∈ code, Temp.virtual 0 ∉ op.instr.defs := by
  intro before
  obtain ⟨values, statements⟩ := selection_writes_only_allowed
  constructor
  · obtain ⟨after, selected⟩ : ∃ after,
        rules.selectValue quotientOfCall before = .ok (.virtual 3) after := ⟨_, rfl⟩
    have earlier : ∀ number, Temp.virtual number ∈ quotientOfCall.temps → number < 2 := by
      intro number occurs
      simp [quotientOfCall, rbx] at occurs
      omega
    obtain ⟨code, gains, disciplined, -⟩ :=
      values quotientOfCall before (.virtual 3) after earlier selected
    refine ⟨after, code, selected, gains, disciplined, fun op member written => ?_⟩
    rcases disciplined.writes op member rbx written with ⟨_, isVirtual, -⟩ | clobbered | assigned
    · cases isVirtual
    · exact absurd clobbered.saved (by decide)
    · exact assigned
  · obtain ⟨after, selected⟩ : ∃ after,
        rules.selectStatement conditionalQuotient before = .ok () after := ⟨_, rfl⟩
    have earlier : ∀ number, Temp.virtual number ∈ conditionalQuotient.temps → number < 2 := by
      intro number occurs
      simp [conditionalQuotient, rbx] at occurs
      omega
    obtain ⟨code, gains, disciplined⟩ :=
      statements conditionalQuotient before after (fun _ isSeq => by cases isSeq) earlier selected
    refine ⟨after, code, selected, gains, fun op member written => ?_⟩
    rcases disciplined.writes op member _ written with ⟨_, isVirtual, le, -⟩ | clobbered | assigned
    · cases isVirtual
      exact absurd le (by decide)
    · exact absurd clobbered.saved (by decide)
    · rcases assigned with ⟨_, isMove⟩ | ⟨_, _, _, _, isCmove⟩
      · cases isMove
      · cases isCmove

end TreeTiling.X64
