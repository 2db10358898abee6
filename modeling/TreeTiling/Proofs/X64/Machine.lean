import Mathlib.Algebra.Group.Int.Defs
import TreeTiling.Flow.Graph
import TreeTiling.Proofs.Tree.Evaluation
import TreeTiling.X64.Op

/-!
A machine that runs x86-64 operations: 64-bit registers, a memory of words, and the flags of the
last comparison.

The machine stops where the real one would fault or where its result is not fixed: at a division
without a quotient, and at a test of flags that other arithmetic has overwritten. It also stops in
front of a call, whose effect is up to the callee.
-/

namespace TreeTiling.X64

----------------------------------------------------------------------------------------------
-- Flags
----------------------------------------------------------------------------------------------

/-- The flags that a comparison sets. -/
structure Flags where
  zero : Bool
  sign : Bool
  overflow : Bool
  carry : Bool

namespace Flags

/-- The flags of the difference of two words. -/
def ofComparison (left right : Word) : Flags where
  zero := left - right == 0
  sign := (left - right).msb
  overflow := BitVec.ssubOverflow left right
  carry := BitVec.usubOverflow left right

/-- Whether the condition code of a relation is met. -/
def test (flags : Flags) : RelOp → Bool
  | .eq => flags.zero
  | .ne => !flags.zero
  | .lt => flags.sign != flags.overflow
  | .le => flags.zero || flags.sign != flags.overflow
  | .gt => !flags.zero && flags.sign == flags.overflow
  | .ge => flags.sign == flags.overflow
  | .ult => flags.carry
  | .ule => flags.carry || flags.zero
  | .ugt => !flags.carry && !flags.zero
  | .uge => !flags.carry

end Flags

----------------------------------------------------------------------------------------------
-- Operands
----------------------------------------------------------------------------------------------

/-- The word that an immediate field of 32 bits gives: its low half with the sign extended. -/
def extendImm32 (value : Word) : Word :=
  (value.setWidth 32).signExtend 64

/-- The address that a memory operand stands for. -/
def Address.locate (store : Store) : Address → Word
  | direct base => store.register base
  | displaced offset base => store.register base + extendImm32 offset
  | indexed base index => store.register base + store.register index
  | scaled base index scale => store.register base + store.register index * scale

/-- The result of arithmetic on the destination and another operand. -/
def Arith.apply : Arith → Word → Word → Word
  | add, dst, src => dst + src
  | sub, dst, src => dst - src
  | imul, dst, src => dst * src
  | and, dst, src => dst &&& src
  | or, dst, src => dst ||| src
  | xor, dst, src => dst ^^^ src

/-- The quotient and the remainder of a double word, where the quotient fits a word. -/
def quotient? (high low divisor : Word) : Option (Word × Word) :=
  let dividend := (high ++ low).toInt
  let quotient := dividend.tdiv divisor.toInt
  if divisor != 0 && decide (-2 ^ 63 ≤ quotient) && decide (quotient < 2 ^ 63) then
    some (BitVec.ofInt 64 quotient, BitVec.ofInt 64 (dividend.tmod divisor.toInt))
  else
    none

----------------------------------------------------------------------------------------------
-- Operations
----------------------------------------------------------------------------------------------

/-- The state of the machine. Without flags, no comparison is in force. -/
structure Machine extends Store where
  flags : Option Flags

namespace Machine

/-- Moves a value to a register, which keeps the flags. -/
def move (machine : Machine) (dst : Temp) (value : Word) : Machine :=
  { machine with toStore := machine.toStore.assign dst value }

/-- Puts the result of arithmetic into a register, which overwrites the flags. -/
def compute (machine : Machine) (dst : Temp) (value : Word) : Machine :=
  { toStore := machine.toStore.assign dst value, flags := none }

@[simp]
theorem register_move_self (machine : Machine) (dst : Temp) (value : Word)
    : (machine.move dst value).register dst = value :=
  machine.toStore.register_assign_self dst value

@[simp]
theorem register_move_of_ne (machine : Machine) {dst register : Temp} (value : Word)
    (other : register ≠ dst)
    : (machine.move dst value).register register = machine.register register :=
  machine.toStore.register_assign_of_ne value other

@[simp]
theorem register_compute_self (machine : Machine) (dst : Temp) (value : Word)
    : (machine.compute dst value).register dst = value :=
  machine.toStore.register_assign_self dst value

@[simp]
theorem register_compute_of_ne (machine : Machine) {dst register : Temp} (value : Word)
    (other : register ≠ dst)
    : (machine.compute dst value).register register = machine.register register :=
  machine.toStore.register_assign_of_ne value other

/-- Puts a value into memory. -/
def store (machine : Machine) (address value : Word) : Machine :=
  { machine with toStore := machine.toStore.write address value }

/-- Sets the flags from two words. -/
def compare (machine : Machine) (left right : Word) : Machine :=
  { machine with flags := some (Flags.ofComparison left right) }

end Machine

/-- The effect of an operation after which control goes on; `symbols` gives the addresses of
labels.
-/
def Op.exec? (symbols : Label → Word) (machine : Machine) : Op → Option Machine
  | loadImm value dst => some (machine.move dst value)
  | clear dst => some (machine.compute dst 0)
  | copy dst src => some (machine.move dst (machine.register src))
  | load address dst => some (machine.move dst (machine.memory (address.locate machine.toStore)))
  | store src address =>
      some (machine.store (address.locate machine.toStore) (machine.register src))
  | storeImm value address =>
      some (machine.store (address.locate machine.toStore) (extendImm32 value))
  | lea address dst => some (machine.move dst (address.locate machine.toStore))
  | leaLabel symbol dst => some (machine.move dst (symbols symbol))
  | compareImm left right =>
      some (machine.compare (machine.register left) (extendImm32 right))
  | compareMem left right =>
      some (machine.compare (machine.register left)
        (machine.memory (right.locate machine.toStore)))
  | compare left right => some (machine.compare (machine.register left) (machine.register right))
  | condMove op src dst => do
      let flags ← machine.flags
      return if flags.test op then machine.move dst (machine.register src) else machine
  | increment dst => some (machine.compute dst (machine.register dst + 1))
  | decrement dst => some (machine.compute dst (machine.register dst - 1))
  | arithImm op value dst =>
      some (machine.compute dst (op.apply (machine.register dst) (extendImm32 value)))
  | arith op src dst =>
      some (machine.compute dst (op.apply (machine.register dst) (machine.register src)))
  | multiplyImm value src dst =>
      some (machine.compute dst (machine.register src * extendImm32 value))
  | signExtend =>
      some (machine.move rdx (if (machine.register rax).msb then BitVec.allOnes 64 else 0))
  | divide divisor => do
      let (quotient, remainder) ←
        quotient? (machine.register rdx) (machine.register rax) (machine.register divisor)
      return (machine.compute rax quotient).compute rdx remainder
  | label _ => some machine
  | branch _ _ _ => none
  | jump _ => none
  | call _ _ => none

/-- The effect of operations in order. -/
def execAll? (symbols : Label → Word) : List Op → Machine → Option Machine
  | [], machine => some machine
  | op :: rest, machine => (op.exec? symbols machine).bind (execAll? symbols rest)

----------------------------------------------------------------------------------------------
-- Code
----------------------------------------------------------------------------------------------

/-- A point of a run through code: the instruction that is next, and the state of the machine. -/
structure CodePoint where
  position : Nat
  machine : Machine

/-- One step of a run through code. A conditional jump goes to its first label or on. -/
def step? (symbols : Label → Word) (code : Array Op) (point : CodePoint) : Option CodePoint :=
  let goTo (label : Label) : Option CodePoint :=
    (FlowGraph.labelNode? (code.map Op.instr) label).map fun position => { point with position }
  match code[point.position]? with
  | none => none
  | some (.jump target) => goTo target
  | some (.branch op ifTrue _) => do
      let flags ← point.machine.flags
      if flags.test op then goTo ifTrue
      else some { point with position := point.position + 1 }
  | some op => do
      return { position := point.position + 1, machine := ← op.exec? symbols point.machine }

/-- The points that a run through code can reach. -/
def Reaches (symbols : Label → Word) (code : Array Op) : CodePoint → CodePoint → Prop :=
  Relation.ReflTransGen fun before after => step? symbols code before = some after

end TreeTiling.X64
