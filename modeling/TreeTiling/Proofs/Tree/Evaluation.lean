import Mathlib.Logic.Relation
import TreeTiling.Proofs.Tree.Occurrence

/-!
The meaning of trees: what expressions evaluate to and how statements run.

A value can be undefined, which is `none`: a division by zero or with an overflowing quotient has
no value, and neither has a call, whose result is up to code outside the tree. A run stops at a
statement that needs such a value.
-/

namespace TreeTiling

----------------------------------------------------------------------------------------------
-- Registers and memory
----------------------------------------------------------------------------------------------

/-- What registers and memory hold. A memory word has one address and overlaps no other. -/
structure Store where
  register : Temp → Word
  memory : Word → Word

namespace Store

/-- Puts a value into a register. -/
def assign (store : Store) (dst : Temp) (value : Word) : Store :=
  { store with register := fun register => if register = dst then value else store.register register }

/-- Puts a value into a memory word. -/
def write (store : Store) (address value : Word) : Store :=
  { store with memory := fun other => if other = address then value else store.memory other }

@[simp]
theorem register_assign_self (store : Store) (dst : Temp) (value : Word)
    : (store.assign dst value).register dst = value := by
  simp [assign]

@[simp]
theorem register_assign_of_ne (store : Store) {dst register : Temp} (value : Word)
    (other : register ≠ dst)
    : (store.assign dst value).register register = store.register register := by
  simp [assign, other]

@[simp]
theorem memory_assign (store : Store) (dst : Temp) (value : Word)
    : (store.assign dst value).memory = store.memory :=
  rfl

@[simp]
theorem register_write (store : Store) (address value : Word)
    : (store.write address value).register = store.register :=
  rfl

end Store

----------------------------------------------------------------------------------------------
-- Expressions
----------------------------------------------------------------------------------------------

/-- Whether the quotient of two words is defined: the divisor is not zero and the quotient is not
one more than the greatest word.
-/
def Word.divisible (dividend divisor : Word) : Bool :=
  divisor != 0 && !(dividend == BitVec.intMin 64 && divisor == -1)

/-- The result of an operator. Sums, differences and products wrap around; a quotient is rounded
towards zero.
-/
def BinOp.apply? (op : BinOp) (left right : Word) : Option Word :=
  match op with
  | plus => some (left + right)
  | minus => some (left - right)
  | mul => some (left * right)
  | div => if left.divisible right then some (left.sdiv right) else none
  | and => some (left &&& right)
  | or => some (left ||| right)
  | xor => some (left ^^^ right)

/-- The value of an expression, where `symbols` gives the addresses of labels. -/
def Exp.eval? (symbols : Label → Word) (store : Store) : Exp → Option Word
  | const value => some value
  | name label => some (symbols label)
  | temp register => some (store.register register)
  | mem address => (address.eval? symbols store).map store.memory
  | binop op left right => do
      let leftValue ← left.eval? symbols store
      let rightValue ← right.eval? symbols store
      op.apply? leftValue rightValue
  | call _ _ => none

namespace Exp

variable {symbols : Label → Word} {store : Store} {value : Word}

theorem eval?_mem_eq_some {address : Exp}
    : (mem address).eval? symbols store = some value
      ↔ ∃ place, address.eval? symbols store = some place ∧ store.memory place = value := by
  simp only [eval?, Option.map_eq_some_iff]

theorem eval?_binop_eq_some {op : BinOp} {left right : Exp}
    : (binop op left right).eval? symbols store = some value
      ↔ ∃ leftValue rightValue,
          left.eval? symbols store = some leftValue
          ∧ right.eval? symbols store = some rightValue
          ∧ op.apply? leftValue rightValue = some value := by
  simp only [eval?, Option.bind_eq_bind, Option.bind_eq_some_iff]
  constructor
  · rintro ⟨leftValue, leftDefined, rightValue, rightDefined, applied⟩
    exact ⟨leftValue, rightValue, leftDefined, rightDefined, applied⟩
  · rintro ⟨leftValue, rightValue, leftDefined, rightDefined, applied⟩
    exact ⟨leftValue, leftDefined, rightValue, rightDefined, applied⟩

/-- An expression with a value makes no call; by induction on it. -/
theorem isCallFree_of_eval? {tree : Exp} (defined : tree.eval? symbols store = some value)
    : tree.isCallFree = true := by
  fun_induction eval? symbols store tree generalizing value with
  | case1 | case2 | case3 => simp [isCallFree, isCall]
  | case4 address ih =>
      obtain ⟨_, placeDefined, _⟩ := Option.map_eq_some_iff.mp defined
      rw [isCallFree_mem, ih placeDefined]
  | case5 op left right leftIh rightIh =>
      obtain ⟨_, leftDefined, defined⟩ := Option.bind_eq_some_iff.mp defined
      obtain ⟨_, rightDefined, _⟩ := Option.bind_eq_some_iff.mp defined
      rw [isCallFree_binop, leftIh leftDefined, rightIh rightDefined, Bool.and_self]
  | case6 => cases defined

end Exp

----------------------------------------------------------------------------------------------
-- Statements
----------------------------------------------------------------------------------------------

/-- A point of a run: the statement that is next, and what registers and memory hold. -/
structure Point where
  position : Nat
  store : Store

namespace Stm

/-- The position of the statement that defines a label. -/
def labelPosition? (parts : List Stm) (label : Label) : Option Nat :=
  parts.findIdx? fun part => part.labelName? == some label

/-- What a statement that hands control on does to registers and memory, if it is defined. A
conditional move evaluates its value whether it moves or not.
-/
def effect? (symbols : Label → Word) (store : Store) : Stm → Option Store
  | label _ => some store
  | cmove op left right dst value => do
      let result ← value.eval? symbols store
      let leftValue ← left.eval? symbols store
      let rightValue ← right.eval? symbols store
      return if op.holds leftValue rightValue then store.assign dst result else store
  | move (.temp dst) src => do
      return store.assign dst (← src.eval? symbols store)
  | move (.mem address) src => do
      let place ← address.eval? symbols store
      return store.write place (← src.eval? symbols store)
  | exp value => do
      let _ ← value.eval? symbols store
      return store
  | _ => none

/-- One step of a run through the statements of a flat body, if it is defined. -/
def step? (symbols : Label → Word) (parts : List Stm) (point : Point) : Option Point :=
  let goTo (label : Label) : Option Point :=
    (labelPosition? parts label).map fun position => { point with position }
  match parts[point.position]? with
  | none => none
  | some (jump (.name target)) => goTo target
  | some (cjump op left right ifTrue ifFalse) => do
      let leftValue ← left.eval? symbols point.store
      let rightValue ← right.eval? symbols point.store
      goTo (if op.holds leftValue rightValue then ifTrue else ifFalse)
  | some part => do
      return { position := point.position + 1, store := ← part.effect? symbols point.store }

/-- The three kinds of steps: to the target of a jump, to a label of a conditional jump, and past
a statement that hands control on.
-/
theorem step?_cases {symbols : Label → Word} {parts : List Stm} {before after : Point}
    (steps : step? symbols parts before = some after)
    : (∃ target position,
        parts[before.position]? = some (jump (.name target))
        ∧ labelPosition? parts target = some position
        ∧ after = { before with position })
      ∨ (∃ op left right ifTrue ifFalse leftValue rightValue position,
          parts[before.position]? = some (cjump op left right ifTrue ifFalse)
          ∧ left.eval? symbols before.store = some leftValue
          ∧ right.eval? symbols before.store = some rightValue
          ∧ labelPosition? parts (if op.holds leftValue rightValue then ifTrue else ifFalse)
            = some position
          ∧ after = { before with position })
      ∨ ∃ part store,
          parts[before.position]? = some part
          ∧ part.effect? symbols before.store = some store
          ∧ after = { position := before.position + 1, store } := by
  simp only [step?] at steps
  split at steps
  · cases steps
  · rename_i target found
    obtain ⟨position, defined, rfl⟩ := Option.map_eq_some_iff.mp steps
    exact .inl ⟨target, position, found, defined, rfl⟩
  · rename_i op left right ifTrue ifFalse found
    obtain ⟨leftValue, leftDefined, steps⟩ := Option.bind_eq_some_iff.mp steps
    obtain ⟨rightValue, rightDefined, steps⟩ := Option.bind_eq_some_iff.mp steps
    obtain ⟨position, defined, rfl⟩ := Option.map_eq_some_iff.mp steps
    exact .inr (.inl ⟨op, left, right, ifTrue, ifFalse, leftValue, rightValue, position, found,
      leftDefined, rightDefined, defined, rfl⟩)
  · rename_i part _ _ found
    obtain ⟨store, defined, same⟩ := Option.bind_eq_some_iff.mp steps
    exact .inr (.inr ⟨part, store, found, defined, (Option.some.inj same).symm⟩)

/-- The points that a run through a flat body can reach. -/
def Reaches (symbols : Label → Word) (parts : List Stm) : Point → Point → Prop :=
  Relation.ReflTransGen fun before after => step? symbols parts before = some after

end Stm

end TreeTiling
