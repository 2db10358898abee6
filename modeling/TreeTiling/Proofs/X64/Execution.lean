import TreeTiling.Proofs.X64.Arithmetic
import TreeTiling.Proofs.X64.Frame
import TreeTiling.Proofs.X64.Tiles

/-!
Runs of straight code, and what the operations of the tiles do: each leaves the value that its
tile stands for, and keeps what is stable.
-/

namespace TreeTiling.X64

----------------------------------------------------------------------------------------------
-- Runs of straight code
----------------------------------------------------------------------------------------------

/-- Code runs to its end from a state and establishes a property there. -/
def Runs (symbols : Label → Word) (code : List Op) (before : Machine) (holds : Machine → Prop)
    : Prop :=
  ∃ after, execAll? symbols code before = some after ∧ holds after

namespace Runs

variable {symbols : Label → Word} {code rest : List Op} {before : Machine}
  {holds later : Machine → Prop}

theorem nil (holdsNow : holds before) : Runs symbols [] before holds :=
  ⟨before, rfl, holdsNow⟩

theorem cons {op : Op} {middle : Machine} (executed : op.exec? symbols before = some middle)
    (run : Runs symbols rest middle holds)
    : Runs symbols (op :: rest) before holds := by
  obtain ⟨after, ran, holdsAfter⟩ := run
  exact ⟨after, by rw [execAll?, executed, Option.bind_some, ran], holdsAfter⟩

/-- Code runs after code where the property that the first part establishes lets it; by induction
on the first part.
-/
theorem append (run : Runs symbols code before holds)
    (runNext : ∀ middle, holds middle → Runs symbols rest middle later)
    : Runs symbols (code ++ rest) before later := by
  obtain ⟨middle, ran, holdsMiddle⟩ := run
  induction code generalizing before with
  | nil =>
      obtain rfl := Option.some.inj ran
      exact runNext before holdsMiddle
  | cons op code ih =>
      obtain ⟨next, executed, ranRest⟩ := Option.bind_eq_some_iff.mp ran
      exact .cons executed (ih ranRest)

theorem weaken (run : Runs symbols code before holds)
    (implies : ∀ after, holds after → later after)
    : Runs symbols code before later := by
  obtain ⟨after, ran, holdsAfter⟩ := run
  exact ⟨after, ran, implies after holdsAfter⟩

end Runs

----------------------------------------------------------------------------------------------
-- Single operations
----------------------------------------------------------------------------------------------

section

variable {symbols : Label → Word} {divides : Bool} {first next : Nat} {before machine : Machine}

/-- An operation whose result goes to a register that is not stable. -/
theorem Runs.put {op : Op} {dst : Temp} {value : Word} {after : Machine}
    (unstable : ¬ Stable first divides dst)
    (agrees : Agrees first divides before.toStore machine.toStore)
    (executed : op.exec? symbols machine = some after)
    (stored : after.toStore = machine.toStore.assign dst value)
    : Runs symbols [op] machine fun after =>
        Agrees first divides before.toStore after.toStore ∧ after.register dst = value := by
  refine .cons executed (.nil ⟨?_, ?_⟩)
  · rw [stored]
    exact agrees.assign_right unstable value
  · rw [stored, Store.register_assign_self]

/-- A comparison of two words tells every relation that means the same of them. -/
theorem Runs.compared {op : Op} {relation tested : RelOp} {left right leftValue rightValue : Word}
    (agrees : Agrees first divides before.toStore machine.toStore)
    (executed : op.exec? symbols machine = some (machine.compare left right))
    (means : tested.holds left right = relation.holds leftValue rightValue)
    : Runs symbols [op] machine fun after =>
        Agrees first divides before.toStore after.toStore
        ∧ ∃ flags, after.flags = some flags
            ∧ flags.test tested = relation.holds leftValue rightValue :=
  .cons executed (.nil ⟨agrees, _, rfl, (Flags.test_ofComparison tested left right).trans means⟩)

/-- A leaf always has a value, and the operation that makes it puts that into the register. -/
theorem MadeBy.exec {tree : Exp} {make : Temp → Op} (made : MadeBy tree make) (machine : Machine)
    (dst : Temp)
    : ∃ value after,
        tree.eval? symbols machine.toStore = some value
        ∧ (make dst).exec? symbols machine = some after
        ∧ after.toStore = machine.toStore.assign dst value := by
  cases made with
  | zero => exact ⟨0, _, rfl, rfl, rfl⟩
  | const value => exact ⟨value, _, rfl, rfl, rfl⟩
  | name label => exact ⟨symbols label, _, rfl, rfl, rfl⟩

/-- A tree that stands for one operand has its value. -/
theorem SameAs.eval? {tree operand : Exp} (same : SameAs tree operand) {store : Store}
    {value : Word} (defined : tree.eval? symbols store = some value)
    : operand.eval? symbols store = some value := by
  cases same with
  | zeroRight =>
      obtain ⟨left, _, leftDefined, rightDefined, applied⟩ := Exp.eval?_binop_eq_some.mp defined
      obtain rfl := Option.some.inj rightDefined
      rw [leftDefined, ← applied]
      exact congrArg some (BitVec.add_zero left).symm
  | zeroLeft =>
      obtain ⟨_, right, leftDefined, rightDefined, applied⟩ := Exp.eval?_binop_eq_some.mp defined
      obtain rfl := Option.some.inj leftDefined
      rw [rightDefined, ← applied]
      exact congrArg some (BitVec.zero_add right).symm

theorem Arith.apply?_binop (op : Arith) (left right : Word)
    : op.binop.apply? left right = some (op.apply left right) := by
  cases op <;> rfl

/-- All arithmetic but subtraction commutes. -/
theorem Arith.apply_comm {op : Arith} (commutes : op ≠ .sub) (left right : Word)
    : op.apply left right = op.apply right left := by
  cases op with
  | add => exact BitVec.add_comm left right
  | sub => exact absurd rfl commutes
  | imul => exact BitVec.mul_comm left right
  | and => exact BitVec.and_comm left right
  | or => exact BitVec.or_comm left right
  | xor => exact BitVec.xor_comm left right

/-- An update in place turns the value of the operand into that of the tree. -/
theorem UpdatedBy.exec {tree operand : Exp} {update : Temp → Op}
    (updated : UpdatedBy tree operand update) {store : Store} {value : Word}
    (defined : tree.eval? symbols store = some value)
    : ∃ operandValue,
        operand.eval? symbols store = some operandValue
        ∧ ∀ (machine : Machine) (dst : Temp),
            machine.register dst = operandValue
            → ∃ after,
                (update dst).exec? symbols machine = some after
                ∧ after.toStore = machine.toStore.assign dst value := by
  cases updated with
  | incrementRight | decrement =>
      obtain ⟨left, _, leftDefined, rightDefined, applied⟩ := Exp.eval?_binop_eq_some.mp defined
      obtain rfl := Option.some.inj rightDefined
      obtain rfl := Option.some.inj applied
      exact ⟨left, leftDefined, fun machine dst held => ⟨_, rfl, by rw [held]; rfl⟩⟩
  | incrementLeft =>
      obtain ⟨_, right, leftDefined, rightDefined, applied⟩ := Exp.eval?_binop_eq_some.mp defined
      obtain rfl := Option.some.inj leftDefined
      obtain rfl := Option.some.inj applied
      refine ⟨right, rightDefined, fun machine dst held => ⟨_, rfl, ?_⟩⟩
      rw [held, BitVec.add_comm]
      rfl
  | immRight op _ fits =>
      obtain ⟨left, _, leftDefined, rightDefined, applied⟩ := Exp.eval?_binop_eq_some.mp defined
      obtain rfl := Option.some.inj rightDefined
      rw [Arith.apply?_binop] at applied
      obtain rfl := Option.some.inj applied
      refine ⟨left, leftDefined, fun machine dst held => ⟨_, rfl, ?_⟩⟩
      rw [held, extendImm32_of_fits fits]
      rfl
  | immLeft op _ fits commutes =>
      obtain ⟨_, right, leftDefined, rightDefined, applied⟩ := Exp.eval?_binop_eq_some.mp defined
      obtain rfl := Option.some.inj leftDefined
      rw [Arith.apply?_binop] at applied
      obtain rfl := Option.some.inj applied
      refine ⟨right, rightDefined, fun machine dst held => ⟨_, rfl, ?_⟩⟩
      rw [held, extendImm32_of_fits fits, Arith.apply_comm commutes]
      rfl

/-- A product with an immediate is the factor multiplied by the field's word. -/
theorem MultipleOf.eval? {tree factor : Exp} {value : Word}
    (multiple : MultipleOf tree factor value) {store : Store} {product : Word}
    (defined : tree.eval? symbols store = some product)
    : ∃ factorValue,
        factor.eval? symbols store = some factorValue
        ∧ factorValue * extendImm32 value = product := by
  cases multiple with
  | right _ fits =>
      obtain ⟨left, _, leftDefined, rightDefined, applied⟩ := Exp.eval?_binop_eq_some.mp defined
      obtain rfl := Option.some.inj rightDefined
      refine ⟨left, leftDefined, ?_⟩
      rw [extendImm32_of_fits fits]
      exact Option.some.inj applied
  | left _ fits =>
      obtain ⟨_, right, leftDefined, rightDefined, applied⟩ := Exp.eval?_binop_eq_some.mp defined
      obtain rfl := Option.some.inj leftDefined
      refine ⟨right, rightDefined, ?_⟩
      rw [extendImm32_of_fits fits, BitVec.mul_comm]
      exact Option.some.inj applied

/-- A conditional move moves exactly if the tested relation is met. -/
theorem exec?_condMove {machine : Machine} {tested : RelOp} {src dst : Temp} {flags : Flags}
    {outcome : Bool} (flagsSet : machine.flags = some flags)
    (means : flags.test tested = outcome)
    : (Op.condMove tested src dst).exec? symbols machine
      = some (if outcome then machine.move dst (machine.register src) else machine) := by
  rw [← means]
  simp only [Op.exec?, flagsSet]
  rfl

theorem rax_ne_rdx : rax ≠ rdx := by
  decide

/-- Dividing an extended word succeeds where the quotient is defined. -/
theorem exec?_divide (symbols : Label → Word) (machine : Machine) {divisor : Temp}
    {leftValue rightValue : Word} (low : machine.register rax = leftValue)
    (high : machine.register rdx = if leftValue.msb then BitVec.allOnes 64 else 0)
    (divisorHeld : machine.register divisor = rightValue)
    (divisible : leftValue.divisible rightValue = true)
    : ∃ remainder,
        (Op.divide divisor).exec? symbols machine
        = some ((machine.compute rax (leftValue.sdiv rightValue)).compute rdx remainder) := by
  obtain ⟨remainder, divided⟩ := quotient?_signExtended divisible
  refine ⟨remainder, ?_⟩
  simp only [Op.exec?, low, high, divisorHeld, divided]
  rfl

/-- The operations of a division leave the quotient in `rax`, if the divisor is stable and so
neither there nor in `rdx`.
-/
theorem Runs.divided {before machine : Machine} {dividend divisor : Temp}
    {leftValue rightValue : Word} (agrees : Agrees first true before.toStore machine.toStore)
    (dividendHeld : machine.register dividend = leftValue)
    (divisorHeld : machine.register divisor = rightValue) (stable : Stable next true divisor)
    (divisible : leftValue.divisible rightValue = true)
    : Runs symbols [.copy rax dividend, .signExtend, .divide divisor] machine fun after =>
        Agrees first true before.toStore after.toStore
        ∧ after.register rax = leftValue.sdiv rightValue := by
  have notRax : divisor ≠ rax := by
    rintro rfl
    exact not_stable_rax stable
  have notRdx : divisor ≠ rdx := by
    rintro rfl
    exact not_stable_rdx stable
  have low : (machine.move rax leftValue).register rax = leftValue :=
    machine.register_move_self rax leftValue
  refine .cons rfl (.cons rfl ?_)
  rw [dividendHeld, low]
  generalize extension : (if leftValue.msb then BitVec.allOnes 64 else 0) = high
  have extended :=
    (agrees.assign_right not_stable_rax leftValue).assign_right not_stable_rdx high
  obtain ⟨remainder, executed⟩ :=
    exec?_divide symbols ((machine.move rax leftValue).move rdx high)
      ((Machine.register_move_of_ne _ _ rax_ne_rdx).trans low)
      ((Machine.register_move_self ..).trans extension.symm)
      (((Machine.register_move_of_ne _ _ notRdx).trans (Machine.register_move_of_ne _ _ notRax)).trans
        divisorHeld)
      divisible
  refine .cons executed
    (.nil ⟨(extended.assign_right not_stable_rax _).assign_right not_stable_rdx _, ?_⟩)
  exact (Machine.register_compute_of_ne _ _ rax_ne_rdx).trans (Machine.register_compute_self ..)

end

end TreeTiling.X64
