import TreeTiling.Proofs.X64.Execution
import TreeTiling.Proofs.X64.Tiling

/-!
Values of trees whose machine registers are read in time.

A temporary is not copied when its value is asked for. It is read where the value is used, and in
between the code of another operand may run. That code leaves alone all registers but `rax` and
`rdx`, which a division writes. So a tree has to read these two before a division of the same tree
writes them; where it does, its code leaves its value.
-/

namespace TreeTiling.X64

----------------------------------------------------------------------------------------------
-- Registers that hold values
----------------------------------------------------------------------------------------------

def isZero : Exp → Bool
  | .const value => value == 0
  | _ => false

/-- The register in which the value of a tree is found without a copy: a temporary is used where it
is, also with zero added to it.
-/
def heldIn? : Exp → Option Temp
  | .temp register => some register
  | .binop .plus left right =>
      if isZero right then heldIn? left
      else if isZero left then heldIn? right
      else none
  | _ => none

/-- Such a register occurs in the tree; by induction on it. -/
theorem mem_temps_of_heldIn? {tree : Exp} {register : Temp} (held : heldIn? tree = some register)
    : register ∈ tree.temps := by
  fun_induction heldIn? tree with
  | case1 own =>
      obtain rfl := Option.some.inj held
      simp
  | case2 left right _ ih => simp [ih held]
  | case3 left right _ _ ih => simp [ih held]
  | case4 | case5 => cases held

theorem SameAs.heldIn? {tree operand : Exp} (same : SameAs tree operand) {register : Temp}
    (held : X64.heldIn? operand = some register)
    : X64.heldIn? tree = some register := by
  cases same with
  | zeroRight => simpa [X64.heldIn?, isZero] using held
  | zeroLeft =>
      have notZero : isZero operand = false := by
        cases operand with
        | const value => cases held
        | _ => rfl
      rw [X64.heldIn?, notZero]
      exact held

/-- The register of a value was taken by its code, held the value from the start, or holds the
result of a call.
-/
theorem Tiling.register_cases {tree : Exp} {register : Temp} {first next : Nat} {code : List Op}
    (tiling : Tiling (.value tree register) first code next)
    : (∃ number, register = .virtual number ∧ first ≤ number ∧ number < next)
      ∨ heldIn? tree = some register
      ∨ (register = returnReg ∧ tree.isCallFree = false) := by
  generalize isValue : Task.value tree register = task at tiling
  induction tiling generalizing tree register with
  | make =>
      cases isValue
      exact .inl ⟨_, rfl, Nat.le_refl _, Nat.lt_succ_self _⟩
  | load _ operand | update _ operand | multiple _ operand =>
      cases isValue
      exact .inl ⟨_, rfl, operand.le, Nat.lt_succ_self _⟩
  | temp =>
      cases isValue
      exact .inr (.inl rfl)
  | same same _ ih =>
      cases isValue
      rcases ih rfl with fresh | held | ⟨isReturn, calls⟩
      · exact .inl fresh
      · exact .inr (.inl (same.heldIn? held))
      · exact .inr (.inr ⟨isReturn, by cases same <;> simp [calls]⟩)
  | combine left right | quotient left right =>
      cases isValue
      exact .inl ⟨_, rfl, Nat.le_trans left.le right.le, Nat.lt_succ_self _⟩
  | callValue =>
      cases isValue
      exact .inr (.inr ⟨rfl, by simp⟩)
  | _ => cases isValue

----------------------------------------------------------------------------------------------
-- Reads in time
----------------------------------------------------------------------------------------------

/-- The tree reads `rax` and `rdx` before its divisions write them. After a division in the left
operand they are not read in the right one; the left operand is not held in them while a division in
the right one runs; and they do not hold the divisor when a division writes them.
-/
def ReadsInTime : Exp → Prop
  | .mem address => ReadsInTime address
  | .binop op left right =>
      ReadsInTime left
      ∧ ReadsInTime right
      ∧ (left.hasDivision = true → rax ∉ right.temps ∧ rdx ∉ right.temps)
      ∧ (right.hasDivision = true → heldIn? left ≠ some rax ∧ heldIn? left ≠ some rdx)
      ∧ (op = .div → heldIn? right ≠ some rax ∧ heldIn? right ≠ some rdx)
  | _ => True

instance decidableReadsInTime : (tree : Exp) → Decidable (ReadsInTime tree)
  | .mem address => decidableReadsInTime address
  | .binop _ left right =>
      have := decidableReadsInTime left
      have := decidableReadsInTime right
      inferInstanceAs (Decidable (_ ∧ _ ∧ _))
  | .const _ | .name _ | .temp _ | .call _ _ => isTrue trivial

/-- A tree without calls whose temporaries are there before its code runs, and that reads in time.
-/
structure InTime (first : Nat) (tree : Exp) : Prop where
  callFree : tree.isCallFree = true
  earlier : ∀ number, Temp.virtual number ∈ tree.temps → number < first
  reads : ReadsInTime tree

/-- Two trees that are computed one after the other, and both read in time. -/
structure PairInTime (first : Nat) (left right : Exp) : Prop where
  leftInTime : InTime first left
  rightInTime : InTime first right
  later : left.hasDivision = true → rax ∉ right.temps ∧ rdx ∉ right.temps
  held : right.hasDivision = true → heldIn? left ≠ some rax ∧ heldIn? left ≠ some rdx

section

variable {first next : Nat} {tree left right : Exp}

theorem InTime.mono (inTime : InTime first tree) (le : first ≤ next) : InTime next tree :=
  ⟨inTime.callFree, fun number occurs => Nat.lt_of_lt_of_le (inTime.earlier number occurs) le,
    inTime.reads⟩

theorem InTime.address (inTime : InTime first (.mem tree)) : InTime first tree := by
  obtain ⟨callFree, earlier, reads⟩ := inTime
  rw [Exp.isCallFree_mem] at callFree
  rw [Exp.temps_mem] at earlier
  exact ⟨callFree, earlier, reads⟩

theorem InTime.pair {op : BinOp} (inTime : InTime first (.binop op left right))
    : PairInTime first left right := by
  obtain ⟨callFree, earlier, leftReads, rightReads, later, held, -⟩ := inTime
  rw [Exp.isCallFree_binop, Bool.and_eq_true] at callFree
  rw [Exp.temps_binop] at earlier
  refine ⟨⟨callFree.1, fun number occurs => earlier number ?_, leftReads⟩,
    ⟨callFree.2, fun number occurs => earlier number ?_, rightReads⟩, later, held⟩
  · exact List.mem_append_left _ occurs
  · exact List.mem_append_right _ occurs

/-- A constant factor makes no difference. -/
theorem PairInTime.factor {op : BinOp} {value : Word}
    (inTime : PairInTime first left (.binop op right (.const value)))
    : PairInTime first left right := by
  obtain ⟨leftInTime, rightInTime, later, held⟩ := inTime
  rw [Exp.temps_binop, Exp.temps_const, List.append_nil] at later
  exact ⟨leftInTime, rightInTime.pair.leftInTime, later, fun divides => held (by simp [divides])⟩

/-- The register of a value stays as it is while later code runs, if that code does not divide or
the value is not held in a register that a division writes.
-/
theorem Tiling.register_stable {register : Temp} {code : List Op} {divides : Bool}
    (tiling : Tiling (.value tree register) first code next) (inTime : InTime first tree)
    (spared : divides = true → heldIn? tree ≠ some rax ∧ heldIn? tree ≠ some rdx)
    : Stable next divides register := by
  rcases tiling.register_cases with ⟨number, rfl, -, lt⟩ | held | ⟨-, calls⟩
  · exact lt
  · cases register with
    | virtual number =>
        have occurs := inTime.earlier number (mem_temps_of_heldIn? held)
        exact Nat.lt_of_lt_of_le occurs tiling.le
    | fixed name =>
        intro isDivided
        obtain ⟨notRax, notRdx⟩ := spared isDivided
        exact ⟨fun same => notRax (same ▸ held), fun same => notRdx (same ▸ held)⟩
  · rw [inTime.callFree] at calls
    cases calls

end

----------------------------------------------------------------------------------------------
-- Values and addresses
----------------------------------------------------------------------------------------------

section

variable (symbols : Label → Word) (first : Nat) (code : List Op)

/-- The code leaves the value of a tree in a register. -/
def Computes (tree : Exp) (register : Temp) : Prop :=
  ∀ (machine : Machine) (value : Word),
    InTime first tree
    → tree.eval? symbols machine.toStore = some value
    → Runs symbols code machine fun after =>
        Agrees first tree.hasDivision machine.toStore after.toStore
        ∧ after.register register = value

/-- The code fills the registers of an address, which then stands for the value of the trees of its
form.
-/
def Locates (form : AddressForm) (address : Address) : Prop :=
  ∀ (tree : Exp) (machine : Machine) (place : Word),
    form.Of tree
    → InTime first tree
    → tree.eval? symbols machine.toStore = some place
    → Runs symbols code machine fun after =>
        Agrees first tree.hasDivision machine.toStore after.toStore
        ∧ address.locate after.toStore = place

/-- The code of a value or an address leaves it. -/
def Task.Timely : Task → Prop
  | value tree register => Computes symbols first code tree register
  | address form operand => Locates symbols first code form operand
  | _ => True

end

section

variable {symbols : Label → Word} {first middle next : Nat} {code leftCode rightCode : List Op}
  {tree left right : Exp} {register leftRegister rightRegister : Temp}

theorem MadeBy.computes {make : Temp → Op} (made : MadeBy tree make)
    : Computes symbols first [make (.virtual first)] tree (.virtual first) := by
  intro machine value _ defined
  obtain ⟨made, after, madeDefined, executed, stored⟩ := made.exec machine (.virtual first)
  obtain rfl := Option.some.inj (madeDefined.symm.trans defined)
  exact .put (not_stable_virtual (Nat.le_refl first)) (.refl _) executed stored

theorem Computes.temp : Computes symbols first [] (.temp register) register := by
  intro machine value _ defined
  obtain rfl := Option.some.inj defined
  exact .nil ⟨.refl _, rfl⟩

theorem SameAs.part {operand : Exp} (same : SameAs tree operand)
    : (operand.hasDivision = true → tree.hasDivision = true)
      ∧ (InTime first tree → InTime first operand) := by
  cases same with
  | zeroRight => exact ⟨by simp +contextual, fun inTime => inTime.pair.leftInTime⟩
  | zeroLeft => exact ⟨by simp +contextual, fun inTime => inTime.pair.rightInTime⟩

theorem UpdatedBy.part {operand : Exp} {update : Temp → Op}
    (updated : UpdatedBy tree operand update)
    : (operand.hasDivision = true → tree.hasDivision = true)
      ∧ (InTime first tree → InTime first operand) := by
  cases updated with
  | incrementRight | decrement | immRight =>
      exact ⟨by simp +contextual, fun inTime => inTime.pair.leftInTime⟩
  | incrementLeft | immLeft =>
      exact ⟨by simp +contextual, fun inTime => inTime.pair.rightInTime⟩

theorem MultipleOf.part {factor : Exp} {value : Word} (multiple : MultipleOf tree factor value)
    : (factor.hasDivision = true → tree.hasDivision = true)
      ∧ (InTime first tree → InTime first factor) := by
  cases multiple with
  | right => exact ⟨by simp +contextual, fun inTime => inTime.pair.leftInTime⟩
  | left => exact ⟨by simp +contextual, fun inTime => inTime.pair.rightInTime⟩

/-- Two values in sequence: the code of the first keeps what the second reads, and the code of the
second keeps the register of the first.
-/
theorem Computes.both (leftTiling : Tiling (.value left leftRegister) first leftCode middle)
    (leftComputes : Computes symbols first leftCode left leftRegister)
    (rightComputes : Computes symbols middle rightCode right rightRegister)
    {machine : Machine} {leftValue rightValue : Word} (inTime : PairInTime first left right)
    (leftDefined : left.eval? symbols machine.toStore = some leftValue)
    (rightDefined : right.eval? symbols machine.toStore = some rightValue)
    : Runs symbols (leftCode ++ rightCode) machine fun after =>
        Agrees first (left.hasDivision || right.hasDivision) machine.toStore after.toStore
        ∧ after.register leftRegister = leftValue
        ∧ after.register rightRegister = rightValue := by
  obtain ⟨leftInTime, rightInTime, later, held⟩ := inTime
  refine (leftComputes machine leftValue leftInTime leftDefined).append ?_
  rintro halfway ⟨agrees, leftHeld⟩
  have rightStable : ∀ register ∈ right.temps, Stable first left.hasDivision register := by
    refine fun register => stable_of_earlier rightInTime.earlier ?_
    cases divides : left.hasDivision with
    | false => exact .inl rfl
    | true => exact .inr (later divides)
  have stillDefined : right.eval? symbols halfway.toStore = some rightValue := by
    rw [agrees.eval?_of_stable rightStable, rightDefined]
  refine (rightComputes halfway rightValue (rightInTime.mono leftTiling.le) stillDefined).weaken ?_
  rintro after ⟨laterAgrees, rightHeld⟩
  have leftStable := leftTiling.register_stable leftInTime held
  refine ⟨?_, (laterAgrees.register leftStable).trans leftHeld, rightHeld⟩
  exact (agrees.weaken (by simp +contextual)).trans
    ((laterAgrees.mono leftTiling.le).weaken (by simp +contextual))

theorem Computes.update {operand : Exp} {update : Temp → Op}
    (updated : UpdatedBy tree operand update)
    (computes : Computes symbols first code operand register) (le : first ≤ next)
    : Computes symbols first (code ++ [.copy (.virtual next) register, update (.virtual next)])
        tree (.virtual next) := by
  intro machine value inTime defined
  obtain ⟨operandValue, operandDefined, exec⟩ := updated.exec defined
  obtain ⟨divides, operandInTime⟩ := updated.part
  refine (computes machine operandValue (operandInTime inTime) operandDefined).append ?_
  rintro middle ⟨agrees, held⟩
  have unstable : ¬ Stable first tree.hasDivision (.virtual next) := not_stable_virtual le
  obtain ⟨after, executed, stored⟩ :=
    exec (middle.move (.virtual next) (middle.register register)) (.virtual next)
      ((Store.register_assign_self ..).trans held)
  exact .cons rfl
    (.put unstable ((agrees.weaken divides).assign_right unstable _) executed stored)

theorem Computes.combine {op : Arith}
    (leftTiling : Tiling (.value left leftRegister) first leftCode middle)
    (rightTiling : Tiling (.value right rightRegister) middle rightCode next)
    (leftComputes : Computes symbols first leftCode left leftRegister)
    (rightComputes : Computes symbols middle rightCode right rightRegister)
    : Computes symbols first
        (leftCode ++ rightCode
          ++ [.copy (.virtual next) leftRegister, .arith op rightRegister (.virtual next)])
        (.binop op.binop left right) (.virtual next) := by
  intro machine value inTime defined
  obtain ⟨leftValue, rightValue, leftDefined, rightDefined, applied⟩ :=
    Exp.eval?_binop_eq_some.mp defined
  rw [Arith.apply?_binop] at applied
  obtain rfl := Option.some.inj applied
  have pair := inTime.pair
  refine (leftComputes.both leftTiling rightComputes pair leftDefined rightDefined).append ?_
  rintro halfway ⟨agrees, leftHeld, rightHeld⟩
  have unstable : ¬ Stable first (Exp.binop op.binop left right).hasDivision (.virtual next) :=
    not_stable_virtual (Nat.le_trans leftTiling.le rightTiling.le)
  have rightStable : Stable next false rightRegister :=
    rightTiling.register_stable (pair.rightInTime.mono leftTiling.le)
      fun divides => absurd divides (by decide)
  refine .cons rfl (.put unstable ((agrees.weaken ?_).assign_right unstable _) rfl ?_)
  · simp +contextual
  · simp only [Machine.compute, Machine.move, Store.register_assign_self,
      Store.register_assign_of_ne _ _ rightStable.ne_virtual, leftHeld, rightHeld]

theorem Computes.multiple {factor : Exp} {value : Word} (multiple : MultipleOf tree factor value)
    (computes : Computes symbols first code factor register) (le : first ≤ next)
    : Computes symbols first (code ++ [.multiplyImm value register (.virtual next)]) tree
        (.virtual next) := by
  intro machine product inTime defined
  obtain ⟨factorValue, factorDefined, rfl⟩ := multiple.eval? defined
  obtain ⟨divides, factorInTime⟩ := multiple.part
  refine (computes machine factorValue (factorInTime inTime) factorDefined).append ?_
  rintro middle ⟨agrees, held⟩
  refine .put (not_stable_virtual le) (agrees.weaken divides) rfl ?_
  rw [held]
  rfl

theorem Computes.quotient
    (leftTiling : Tiling (.value left leftRegister) first leftCode middle)
    (rightTiling : Tiling (.value right rightRegister) middle rightCode next)
    (leftComputes : Computes symbols first leftCode left leftRegister)
    (rightComputes : Computes symbols middle rightCode right rightRegister)
    : Computes symbols first
        (leftCode ++ rightCode
          ++ [.copy rax leftRegister, .signExtend, .divide rightRegister,
              .copy (.virtual next) rax])
        (.binop .div left right) (.virtual next) := by
  intro machine value inTime defined
  obtain ⟨leftValue, rightValue, leftDefined, rightDefined, applied⟩ :=
    Exp.eval?_binop_eq_some.mp defined
  obtain ⟨divisible, applied⟩ := Option.ite_none_right_eq_some.mp applied
  obtain rfl := Option.some.inj applied
  have pair := inTime.pair
  obtain ⟨-, -, -, -, -, -, divisor⟩ := inTime
  have divides : (Exp.binop .div left right).hasDivision = true := by simp
  rw [divides]
  refine (leftComputes.both leftTiling rightComputes pair leftDefined rightDefined).append ?_
  rintro halfway ⟨agrees, leftHeld, rightHeld⟩
  have divisorStable : Stable next true rightRegister :=
    rightTiling.register_stable (pair.rightInTime.mono leftTiling.le)
      fun _ => divisor rfl
  show Runs symbols
    ([.copy rax leftRegister, .signExtend, .divide rightRegister] ++ [.copy (.virtual next) rax])
    halfway _
  refine (Runs.divided (agrees.weaken fun _ => rfl) leftHeld rightHeld divisorStable
    divisible).append ?_
  rintro after ⟨laterAgrees, raxHeld⟩
  refine .put (not_stable_virtual (Nat.le_trans leftTiling.le rightTiling.le)) laterAgrees rfl ?_
  rw [raxHeld]
  rfl

theorem Computes.direct (computes : Computes symbols first code tree register)
    : Locates symbols first code (.direct tree) (.direct register) := by
  intro _ machine place of inTime defined
  cases of
  exact computes machine place inTime defined

theorem Computes.displaced {offset : Word} (computes : Computes symbols first code tree register)
    : Locates symbols first code (.displaced offset tree) (.displaced offset register) := by
  intro _ machine place of inTime defined
  cases of with
  | displaced _ fits =>
      obtain ⟨base, _, baseDefined, offsetDefined, applied⟩ :=
        Exp.eval?_binop_eq_some.mp defined
      obtain rfl := Option.some.inj offsetDefined
      obtain rfl := Option.some.inj applied
      refine (computes machine base inTime.pair.leftInTime baseDefined).weaken ?_
      rintro after ⟨agrees, held⟩
      refine ⟨agrees.weaken (by simp +contextual), ?_⟩
      rw [Address.locate, held, extendImm32_of_fits fits]

theorem Computes.indexed
    (leftTiling : Tiling (.value left leftRegister) first leftCode middle)
    (leftComputes : Computes symbols first leftCode left leftRegister)
    (rightComputes : Computes symbols middle rightCode right rightRegister)
    : Locates symbols first (leftCode ++ rightCode) (.indexed left right)
        (.indexed leftRegister rightRegister) := by
  intro _ machine place of inTime defined
  cases of with
  | indexed =>
      obtain ⟨base, index, baseDefined, indexDefined, applied⟩ :=
        Exp.eval?_binop_eq_some.mp defined
      obtain rfl := Option.some.inj applied
      refine (leftComputes.both leftTiling rightComputes inTime.pair baseDefined
        indexDefined).weaken ?_
      rintro after ⟨agrees, leftHeld, rightHeld⟩
      refine ⟨agrees.weaken (by simp), ?_⟩
      rw [Address.locate, leftHeld, rightHeld]

theorem Computes.scaled {scale : Word}
    (leftTiling : Tiling (.value left leftRegister) first leftCode middle)
    (leftComputes : Computes symbols first leftCode left leftRegister)
    (rightComputes : Computes symbols middle rightCode right rightRegister)
    : Locates symbols first (leftCode ++ rightCode) (.scaled left right scale)
        (.scaled leftRegister rightRegister scale) := by
  intro _ machine place of inTime defined
  cases of with
  | scaled =>
      obtain ⟨base, offset, baseDefined, offsetDefined, applied⟩ :=
        Exp.eval?_binop_eq_some.mp defined
      obtain ⟨index, _, indexDefined, scaleDefined, multiplied⟩ :=
        Exp.eval?_binop_eq_some.mp offsetDefined
      obtain rfl := Option.some.inj scaleDefined
      obtain rfl := Option.some.inj multiplied
      obtain rfl := Option.some.inj applied
      refine (leftComputes.both leftTiling rightComputes inTime.pair.factor baseDefined
        indexDefined).weaken ?_
      rintro after ⟨agrees, leftHeld, rightHeld⟩
      refine ⟨agrees.weaken fun divides => ?_, ?_⟩
      · rcases Bool.or_eq_true_iff.mp divides with inLeft | inRight
        · simp [inLeft]
        · simp [inRight]
      · rw [Address.locate, leftHeld, rightHeld]

theorem Locates.load {form : AddressForm} {address : Address} (of : form.Of tree)
    (locates : Locates symbols first code form address) (le : first ≤ next)
    : Computes symbols first (code ++ [.load address (.virtual next)]) (.mem tree)
        (.virtual next) := by
  intro machine value inTime defined
  obtain ⟨place, placeDefined, rfl⟩ := Exp.eval?_mem_eq_some.mp defined
  refine (locates tree machine place of inTime.address placeDefined).append ?_
  rintro middle ⟨agrees, located⟩
  rw [Exp.hasDivision_mem]
  refine .put (not_stable_virtual le) agrees rfl ?_
  rw [located, agrees.memory]
  rfl

end

/-- The code of a value or an address leaves it, if its tree reads in time. By induction on the
tiling, with one lemma per form of code.
-/
theorem Tiling.timely {task : Task} {first next : Nat} {code : List Op}
    (tiling : Tiling task first code next) (symbols : Label → Word)
    : task.Timely symbols first code := by
  induction tiling with
  | make made => exact made.computes
  | temp => exact .temp
  | load of operand ih => exact ih.load of operand.le
  | same same _ ih =>
      intro machine value inTime defined
      obtain ⟨divides, operandInTime⟩ := same.part
      refine (ih machine value (operandInTime inTime) (same.eval? defined)).weaken ?_
      exact fun _ reached => ⟨reached.1.weaken divides, reached.2⟩
  | update updated operand ih => exact ih.update updated operand.le
  | combine left right leftIh rightIh => exact leftIh.combine left right rightIh
  | multiple multiple factor ih => exact ih.multiple multiple factor.le
  | quotient left right leftIh rightIh => exact leftIh.quotient left right rightIh
  | callValue =>
      intro machine value _ defined
      simp [Exp.eval?] at defined
  | direct _ ih => exact ih.direct
  | displaced _ ih => exact ih.displaced
  | indexed left _ leftIh rightIh => exact leftIh.indexed left rightIh
  | scaled left _ leftIh rightIh => exact leftIh.scaled left rightIh
  | _ => trivial

end TreeTiling.X64
