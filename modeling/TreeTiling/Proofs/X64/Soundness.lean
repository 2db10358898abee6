import TreeTiling.Proofs.X64.Timing

/-!
Selected code does what its tree means: the code of a tiling leaves the value, the address or the
outcome of the comparison that the tree stands for, and nothing stable is changed but what a
statement changes.
-/

namespace TreeTiling.X64

----------------------------------------------------------------------------------------------
-- What sound code does
----------------------------------------------------------------------------------------------

section

variable (symbols : Label → Word) (divides : Bool) (first : Nat) (code : List Op) (next : Nat)

/-- The code leaves the value of a tree in a register that stays stable. -/
def ValueSound (tree : Exp) (register : Temp) : Prop :=
  ∀ (machine : Machine) (value : Word),
    Readable first divides tree
    → tree.eval? symbols machine.toStore = some value
    → Stable next divides register
      ∧ Runs symbols code machine fun after =>
          Agrees first divides machine.toStore after.toStore ∧ after.register register = value

/-- The code fills the registers of an address, which then stands for the value of the trees of
its form.
-/
def AddressSound (form : AddressForm) (address : Address) : Prop :=
  ∀ (tree : Exp) (machine : Machine) (place : Word),
    form.Of tree
    → Readable first divides tree
    → tree.eval? symbols machine.toStore = some place
    → (∀ register ∈ address.registers, Stable next divides register)
      ∧ Runs symbols code machine fun after =>
          Agrees first divides machine.toStore after.toStore
          ∧ address.locate after.toStore = place

/-- The code leaves flags in which the tested relation tells whether the relation holds. -/
def ComparisonSound (op : RelOp) (left right : Exp) (tested : RelOp) : Prop :=
  ∀ (machine : Machine) (leftValue rightValue : Word),
    Readable first divides left
    → Readable first divides right
    → left.eval? symbols machine.toStore = some leftValue
    → right.eval? symbols machine.toStore = some rightValue
    → Runs symbols code machine fun after =>
        Agrees first divides machine.toStore after.toStore
        ∧ ∃ flags, after.flags = some flags ∧ flags.test tested = op.holds leftValue rightValue

/-- The code of an expression whose value is not wanted changes nothing that is stable. -/
def EffectsSound (tree : Exp) : Prop :=
  ∀ (machine : Machine) (value : Word),
    Readable first divides tree
    → tree.eval? symbols machine.toStore = some value
    → Runs symbols code machine fun after => Agrees first divides machine.toStore after.toStore

/-- The code of a statement that hands control on has the effect of the statement. -/
def StatementSound (tree : Stm) : Prop :=
  ∀ (machine : Machine) (store : Store),
    (∀ operand ∈ tree.operands, Readable first divides operand)
    → tree.effect? symbols machine.toStore = some store
    → Runs symbols code machine fun after => Agrees first divides store after.toStore

/-- The code does what its task asks for. Nothing is said of calls: they have no value here. -/
def Task.Sound : Task → Prop
  | value tree register => ValueSound symbols divides first code next tree register
  | address form operand => AddressSound symbols divides first code next form operand
  | comparison op left right tested =>
      ComparisonSound symbols divides first code op left right tested
  | effects tree => EffectsSound symbols divides first code tree
  | statement tree => StatementSound symbols divides first code tree
  | argument _ _ | arguments _ _ | stores _ | call _ _ => True

end

----------------------------------------------------------------------------------------------
-- Values
----------------------------------------------------------------------------------------------

section

variable {symbols : Label → Word} {divides : Bool} {first middle next : Nat}
  {code leftCode rightCode : List Op} {tree left right : Exp}
  {register leftRegister rightRegister : Temp}

/-- Where there are divisions, a readable tree does not name the registers that they write. -/
theorem Readable.unread (readable : Readable first divides tree) (isDivided : divides = true)
    : rax ∉ tree.temps ∧ rdx ∉ tree.temps := by
  subst isDivided
  exact ⟨fun occurs => not_stable_rax (readable.temps rax occurs),
    fun occurs => not_stable_rdx (readable.temps rdx occurs)⟩

theorem Readable.spared (readable : Readable first divides tree) (isDivided : divides = true)
    : heldIn? tree ≠ some rax ∧ heldIn? tree ≠ some rdx := by
  obtain ⟨raxUnread, rdxUnread⟩ := readable.unread isDivided
  exact ⟨fun held => raxUnread (mem_temps_of_heldIn? held),
    fun held => rdxUnread (mem_temps_of_heldIn? held)⟩

/-- A readable tree reads in time; by induction on it. -/
theorem Readable.readsInTime (readable : Readable first divides tree) : ReadsInTime tree := by
  fun_induction ReadsInTime tree with
  | case1 address ih => exact ih readable.address
  | case2 op left right leftIh rightIh =>
      refine ⟨leftIh readable.left, rightIh readable.right, ?_, ?_, ?_⟩
      · exact fun found => readable.right.unread (readable.left.division found)
      · exact fun found => readable.left.spared (readable.right.division found)
      · rintro rfl
        exact readable.right.spared (readable.division (by simp))
  | case3 => trivial

theorem Readable.inTime (readable : Readable first divides tree)
    (callFree : tree.isCallFree = true)
    : InTime first tree :=
  ⟨callFree, fun _ occurs => readable.temps _ occurs, readable.readsInTime⟩

/-- The code of a value is sound, as a readable tree reads in time. -/
theorem Tiling.valueSound (tiling : Tiling (.value tree register) first code next)
    : ValueSound symbols divides first code next tree register := by
  intro machine value readable defined
  have inTime := readable.inTime (Exp.isCallFree_of_eval? defined)
  refine ⟨tiling.register_stable inTime readable.spared, ?_⟩
  refine (tiling.timely symbols machine value inTime defined).weaken ?_
  exact fun after reached => ⟨reached.1.weaken readable.division, reached.2⟩

/-- The registers of an address stay as they are while later code runs. -/
theorem AddressForm.Of.registers_stable {form : AddressForm} {address : Address}
    (of : form.Of tree) (operand : Tiling (.address form address) first code next)
    (readable : Readable first divides tree) (callFree : tree.isCallFree = true)
    : ∀ register ∈ address.registers, Stable next divides register := by
  have stable {part : Exp} {register : Temp} {start stop : Nat} {partCode : List Op}
      (tiling : Tiling (.value part register) start partCode stop)
      (readable : Readable start divides part) (callFree : part.isCallFree = true)
      : Stable stop divides register :=
    tiling.register_stable (readable.inTime callFree) readable.spared
  cases of with
  | direct =>
      cases operand with
      | direct base => exact List.forall_mem_singleton.mpr (stable base readable callFree)
  | displaced =>
      rw [Exp.isCallFree_binop, Bool.and_eq_true] at callFree
      cases operand with
      | displaced base =>
          exact List.forall_mem_singleton.mpr (stable base readable.left callFree.1)
  | indexed =>
      rw [Exp.isCallFree_binop, Bool.and_eq_true] at callFree
      cases operand with
      | indexed base index =>
          have baseStable := stable base readable.left callFree.1
          have indexStable := stable index (readable.right.mono base.le) callFree.2
          exact List.forall_mem_cons.mpr
            ⟨baseStable.mono index.le, List.forall_mem_singleton.mpr indexStable⟩
  | scaled =>
      rw [Exp.isCallFree_binop, Exp.isCallFree_binop, Bool.and_eq_true, Bool.and_eq_true]
        at callFree
      cases operand with
      | scaled base index =>
          have baseStable := stable base readable.left callFree.1
          have indexStable := stable index (readable.right.left.mono base.le) callFree.2.1
          exact List.forall_mem_cons.mpr
            ⟨baseStable.mono index.le, List.forall_mem_singleton.mpr indexStable⟩

/-- The code of an address is sound. -/
theorem Tiling.addressSound {form : AddressForm} {address : Address}
    (tiling : Tiling (.address form address) first code next)
    : AddressSound symbols divides first code next form address := by
  intro tree machine place of readable defined
  have callFree := Exp.isCallFree_of_eval? defined
  refine ⟨of.registers_stable tiling readable callFree, ?_⟩
  refine (tiling.timely symbols tree machine place of (readable.inTime callFree) defined).weaken ?_
  exact fun after reached => ⟨reached.1.weaken readable.division, reached.2⟩

/-- Two values in sequence: the code of the second keeps the register of the first. -/
theorem ValueSound.both
    (leftSound : ValueSound symbols divides first leftCode middle left leftRegister)
    (rightSound : ValueSound symbols divides middle rightCode next right rightRegister)
    (firstLe : first ≤ middle) (middleLe : middle ≤ next) {machine : Machine}
    {leftValue rightValue : Word} (leftReadable : Readable first divides left)
    (rightReadable : Readable first divides right)
    (leftDefined : left.eval? symbols machine.toStore = some leftValue)
    (rightDefined : right.eval? symbols machine.toStore = some rightValue)
    : Stable next divides leftRegister
      ∧ Stable next divides rightRegister
      ∧ Runs symbols (leftCode ++ rightCode) machine fun after =>
          Agrees first divides machine.toStore after.toStore
          ∧ after.register leftRegister = leftValue
          ∧ after.register rightRegister = rightValue := by
  obtain ⟨leftStable, leftRun⟩ := leftSound machine leftValue leftReadable leftDefined
  -- What the right operand means is not changed by the code of the left one.
  have rightThen
      : ∀ halfway : Machine,
          Agrees first divides machine.toStore halfway.toStore
          → Stable next divides rightRegister
            ∧ Runs symbols rightCode halfway fun after =>
                Agrees middle divides halfway.toStore after.toStore
                ∧ after.register rightRegister = rightValue := by
    intro halfway agrees
    refine rightSound halfway rightValue (rightReadable.mono firstLe) ?_
    rw [agrees.eval? rightReadable, rightDefined]
  refine ⟨leftStable.mono middleLe, (rightThen machine (.refl _)).1, leftRun.append ?_⟩
  rintro halfway ⟨agrees, leftHeld⟩
  refine (rightThen halfway agrees).2.weaken ?_
  rintro after ⟨laterAgrees, rightHeld⟩
  exact ⟨agrees.trans (laterAgrees.mono firstLe), (laterAgrees.register leftStable).trans leftHeld,
    rightHeld⟩

----------------------------------------------------------------------------------------------
-- Comparisons
----------------------------------------------------------------------------------------------

section

variable {op : RelOp}

theorem ValueSound.immRight {value : Word} (fits : value.fitsImm32 = true)
    (sound : ValueSound symbols divides first code next left register)
    : ComparisonSound symbols divides first (code ++ [.compareImm register value]) op left
        (.const value) op := by
  intro machine leftValue _ leftReadable _ leftDefined rightDefined
  obtain rfl := Option.some.inj rightDefined
  refine (sound machine leftValue leftReadable leftDefined).2.append ?_
  rintro middle ⟨agrees, held⟩
  refine .compared agrees rfl ?_
  rw [held, extendImm32_of_fits fits]

theorem ValueSound.immLeft {value : Word} (fits : value.fitsImm32 = true)
    (sound : ValueSound symbols divides first code next right register)
    : ComparisonSound symbols divides first (code ++ [.compareImm register value]) op
        (.const value) right op.swapped := by
  intro machine _ rightValue _ rightReadable leftDefined rightDefined
  obtain rfl := Option.some.inj leftDefined
  refine (sound machine rightValue rightReadable rightDefined).2.append ?_
  rintro middle ⟨agrees, held⟩
  refine .compared agrees rfl ?_
  rw [held, extendImm32_of_fits fits, RelOp.swapped_holds]

theorem ValueSound.memBoth
    (leftSound : ValueSound symbols divides first leftCode middle left leftRegister)
    (rightSound : ValueSound symbols divides middle rightCode next right rightRegister)
    (firstLe : first ≤ middle) (middleLe : middle ≤ next)
    : ComparisonSound symbols divides first
        (leftCode ++ rightCode
          ++ [.load (.direct leftRegister) (.virtual next),
              .compareMem (.virtual next) (.direct rightRegister)])
        op (.mem left) (.mem right) op := by
  intro machine _ _ leftReadable rightReadable leftDefined rightDefined
  obtain ⟨leftPlace, leftPlaced, rfl⟩ := Exp.eval?_mem_eq_some.mp leftDefined
  obtain ⟨rightPlace, rightPlaced, rfl⟩ := Exp.eval?_mem_eq_some.mp rightDefined
  obtain ⟨_, rightStable, run⟩ :=
    leftSound.both rightSound firstLe middleLe leftReadable.address rightReadable.address
      leftPlaced rightPlaced
  refine run.append ?_
  rintro halfway ⟨agrees, leftHeld, rightHeld⟩
  have unstable : ¬ Stable first divides (.virtual next) :=
    not_stable_virtual (Nat.le_trans firstLe middleLe)
  refine .cons rfl (.compared (agrees.assign_right unstable _) rfl ?_)
  rw [Machine.register_move_self]
  simp only [Address.locate, Machine.register_move_of_ne _ _ rightStable.ne_virtual, leftHeld,
    rightHeld, ← agrees.memory]
  rfl

theorem ValueSound.memRight
    (leftSound : ValueSound symbols divides first leftCode middle left leftRegister)
    (rightSound : ValueSound symbols divides middle rightCode next right rightRegister)
    (firstLe : first ≤ middle) (middleLe : middle ≤ next)
    : ComparisonSound symbols divides first
        (leftCode ++ rightCode ++ [.compareMem leftRegister (.direct rightRegister)]) op left
        (.mem right) op := by
  intro machine leftValue _ leftReadable rightReadable leftDefined rightDefined
  obtain ⟨rightPlace, rightPlaced, rfl⟩ := Exp.eval?_mem_eq_some.mp rightDefined
  obtain ⟨_, _, run⟩ :=
    leftSound.both rightSound firstLe middleLe leftReadable rightReadable.address leftDefined
      rightPlaced
  refine run.append ?_
  rintro halfway ⟨agrees, leftHeld, rightHeld⟩
  refine .compared agrees rfl ?_
  rw [Address.locate, leftHeld, rightHeld, agrees.memory]

theorem ValueSound.memLeft
    (leftSound : ValueSound symbols divides first leftCode middle left leftRegister)
    (rightSound : ValueSound symbols divides middle rightCode next right rightRegister)
    (firstLe : first ≤ middle) (middleLe : middle ≤ next)
    : ComparisonSound symbols divides first
        (leftCode ++ rightCode ++ [.compareMem rightRegister (.direct leftRegister)]) op
        (.mem left) right op.swapped := by
  intro machine _ rightValue leftReadable rightReadable leftDefined rightDefined
  obtain ⟨leftPlace, leftPlaced, rfl⟩ := Exp.eval?_mem_eq_some.mp leftDefined
  obtain ⟨_, _, run⟩ :=
    leftSound.both rightSound firstLe middleLe leftReadable.address rightReadable leftPlaced
      rightDefined
  refine run.append ?_
  rintro halfway ⟨agrees, leftHeld, rightHeld⟩
  refine .compared agrees rfl ?_
  rw [Address.locate, leftHeld, rightHeld, agrees.memory, RelOp.swapped_holds]

theorem ValueSound.registers
    (leftSound : ValueSound symbols divides first leftCode middle left leftRegister)
    (rightSound : ValueSound symbols divides middle rightCode next right rightRegister)
    (firstLe : first ≤ middle) (middleLe : middle ≤ next)
    : ComparisonSound symbols divides first
        (leftCode ++ rightCode ++ [.compare leftRegister rightRegister]) op left right op := by
  intro machine leftValue rightValue leftReadable rightReadable leftDefined rightDefined
  obtain ⟨_, _, run⟩ :=
    leftSound.both rightSound firstLe middleLe leftReadable rightReadable leftDefined rightDefined
  refine run.append ?_
  rintro halfway ⟨agrees, leftHeld, rightHeld⟩
  refine .compared agrees rfl ?_
  rw [leftHeld, rightHeld]

end

----------------------------------------------------------------------------------------------
-- Statements
----------------------------------------------------------------------------------------------

theorem ValueSound.effects
    (sound : ValueSound symbols divides first code next tree register)
    : EffectsSound symbols divides first code tree := by
  intro machine value readable defined
  refine (sound machine value readable defined).2.weaken ?_
  exact fun after reached => reached.1

/-- A value that is computed first is still there once the comparison is made. -/
theorem ValueSound.cmove {op tested : RelOp} {dst : Temp} {valueCode : List Op}
    (valueSound : ValueSound symbols divides first valueCode middle tree register)
    (compares : ComparisonSound symbols divides middle code op left right tested)
    (le : first ≤ middle)
    : StatementSound symbols divides first (valueCode ++ code ++ [.condMove tested register dst])
        (.cmove op left right dst tree) := by
  intro machine store readable defined
  simp only [Stm.effect?, Option.bind_eq_bind, Option.bind_eq_some_iff] at defined
  obtain ⟨value, valueDefined, leftValue, leftDefined, rightValue, rightDefined, effect⟩ := defined
  obtain rfl := Option.some.inj effect
  have leftReadable : Readable first divides left := readable left (by simp [Stm.operands])
  have rightReadable : Readable first divides right := readable right (by simp [Stm.operands])
  obtain ⟨stable, run⟩ :=
    valueSound machine value (readable tree (by simp [Stm.operands])) valueDefined
  rw [List.append_assoc]
  refine run.append ?_
  rintro halfway ⟨agrees, held⟩
  have comparesThen :=
    compares halfway leftValue rightValue (leftReadable.mono le) (rightReadable.mono le)
      ((agrees.eval? leftReadable).trans leftDefined)
      ((agrees.eval? rightReadable).trans rightDefined)
  refine comparesThen.append ?_
  rintro last ⟨laterAgrees, flags, flagsSet, means⟩
  have allAgrees := agrees.trans (laterAgrees.mono le)
  have stillHeld := (laterAgrees.register stable).trans held
  refine .cons (exec?_condMove flagsSet means) (.nil ?_)
  rw [stillHeld]
  cases op.holds leftValue rightValue with
  | true => exact allAgrees.assign dst value
  | false => exact allAgrees

theorem MadeBy.statementSound {make : Temp → Op} {dst : Temp} (made : MadeBy tree make)
    : StatementSound symbols divides first [make dst] (.move (.temp dst) tree) := by
  intro machine store _ defined
  obtain ⟨value, valueDefined, effect⟩ := Option.bind_eq_some_iff.mp defined
  obtain rfl := Option.some.inj effect
  obtain ⟨madeValue, after, madeDefined, executed, stored⟩ := made.exec machine dst
  obtain rfl := Option.some.inj (madeDefined.symm.trans valueDefined)
  exact .cons executed (.nil (stored ▸ .refl _))

theorem ValueSound.assign {dst : Temp}
    (sound : ValueSound symbols divides first code next tree register)
    : StatementSound symbols divides first (code ++ [.copy dst register])
        (.move (.temp dst) tree) := by
  intro machine store readable defined
  obtain ⟨value, valueDefined, effect⟩ := Option.bind_eq_some_iff.mp defined
  obtain rfl := Option.some.inj effect
  obtain ⟨_, run⟩ := sound machine value (readable tree (by simp [Stm.operands])) valueDefined
  refine run.append ?_
  rintro last ⟨agrees, held⟩
  refine .cons rfl (.nil ?_)
  rw [held]
  exact agrees.assign dst value

section

variable {form : AddressForm} {address : Address}

theorem AddressSound.assign {dst : Temp} (of : form.Of tree)
    (sound : AddressSound symbols divides first code next form address)
    : StatementSound symbols divides first (code ++ [.lea address dst])
        (.move (.temp dst) tree) := by
  intro machine store readable defined
  obtain ⟨place, placeDefined, effect⟩ := Option.bind_eq_some_iff.mp defined
  obtain rfl := Option.some.inj effect
  obtain ⟨_, run⟩ :=
    sound tree machine place of (readable tree (by simp [Stm.operands])) placeDefined
  refine run.append ?_
  rintro last ⟨agrees, located⟩
  refine .cons rfl (.nil ?_)
  rw [located]
  exact agrees.assign dst place

theorem AddressSound.assignLoad {dst : Temp} (of : form.Of tree)
    (sound : AddressSound symbols divides first code next form address)
    : StatementSound symbols divides first (code ++ [.load address dst])
        (.move (.temp dst) (.mem tree)) := by
  intro machine store readable defined
  obtain ⟨value, valueDefined, effect⟩ := Option.bind_eq_some_iff.mp defined
  obtain rfl := Option.some.inj effect
  obtain ⟨place, placeDefined, rfl⟩ := Exp.eval?_mem_eq_some.mp valueDefined
  have readableTree := readable (.mem tree) (by simp [Stm.operands])
  obtain ⟨_, run⟩ := sound tree machine place of readableTree.address placeDefined
  refine run.append ?_
  rintro last ⟨agrees, located⟩
  refine .cons rfl (.nil ?_)
  rw [located, agrees.memory]
  exact agrees.assign dst _

theorem AddressSound.storeImm {value : Word} (of : form.Of tree) (fits : value.fitsImm32 = true)
    (sound : AddressSound symbols divides first code next form address)
    : StatementSound symbols divides first (code ++ [.storeImm value address])
        (.move (.mem tree) (.const value)) := by
  intro machine store readable defined
  obtain ⟨place, placeDefined, effect⟩ := Option.bind_eq_some_iff.mp defined
  obtain rfl := Option.some.inj effect
  have readableTree := readable (.mem tree) (by simp [Stm.operands])
  obtain ⟨_, run⟩ := sound tree machine place of readableTree.address placeDefined
  refine run.append ?_
  rintro last ⟨agrees, located⟩
  refine .cons rfl (.nil ?_)
  rw [located, extendImm32_of_fits fits]
  exact agrees.write place value

/-- A value that is computed after an address is stored where the address still points. -/
theorem AddressSound.store {value : Exp} {addressCode valueCode : List Op} (of : form.Of tree)
    (sound : AddressSound symbols divides first addressCode middle form address)
    (valueSound : ValueSound symbols divides middle valueCode next value register)
    (le : first ≤ middle)
    : StatementSound symbols divides first (addressCode ++ valueCode ++ [.store register address])
        (.move (.mem tree) value) := by
  intro machine store readable defined
  obtain ⟨place, placeDefined, defined⟩ := Option.bind_eq_some_iff.mp defined
  obtain ⟨word, wordDefined, effect⟩ := Option.bind_eq_some_iff.mp defined
  obtain rfl := Option.some.inj effect
  have readableTree := readable (.mem tree) (by simp [Stm.operands])
  have readableValue := readable value (by simp [Stm.operands])
  obtain ⟨stable, run⟩ := sound tree machine place of readableTree.address placeDefined
  rw [List.append_assoc]
  refine run.append ?_
  rintro halfway ⟨agrees, located⟩
  obtain ⟨_, valueRun⟩ :=
    valueSound halfway word (readableValue.mono le)
      ((agrees.eval? readableValue).trans wordDefined)
  refine valueRun.append ?_
  rintro last ⟨laterAgrees, held⟩
  refine .cons rfl (.nil ?_)
  rw [held, laterAgrees.locate stable, located]
  exact (agrees.trans (laterAgrees.mono le)).write place word

end

end

----------------------------------------------------------------------------------------------
-- Tilings
----------------------------------------------------------------------------------------------

section

variable {symbols : Label → Word} {divides : Bool} {first next : Nat} {code : List Op}

theorem Tiling.comparisonSound {op tested : RelOp} {left right : Exp}
    (tiling : Tiling (.comparison op left right tested) first code next)
    : ComparisonSound symbols divides first code op left right tested := by
  cases tiling with
  | immRight fits left => exact left.valueSound.immRight fits
  | immLeft fits right => exact right.valueSound.immLeft fits
  | memBoth left right => exact left.valueSound.memBoth right.valueSound left.le right.le
  | memRight left right => exact left.valueSound.memRight right.valueSound left.le right.le
  | memLeft left right => exact left.valueSound.memLeft right.valueSound left.le right.le
  | registers left right => exact left.valueSound.registers right.valueSound left.le right.le

theorem Tiling.effectsSound {tree : Exp} (tiling : Tiling (.effects tree) first code next)
    : EffectsSound symbols divides first code tree := by
  cases tiling with
  | callEffects =>
      intro machine value _ defined
      simp [Exp.eval?] at defined
  | idle => exact fun machine _ _ _ => .nil (.refl machine.toStore)
  | valueEffects value => exact value.valueSound.effects

theorem Tiling.statementSound {tree : Stm} (tiling : Tiling (.statement tree) first code next)
    : StatementSound symbols divides first code tree := by
  cases tiling with
  | label =>
      intro machine store _ defined
      obtain rfl := Option.some.inj defined
      exact .cons rfl (.nil (.refl _))
  | jump | cjump =>
      intro machine store _ defined
      simp [Stm.effect?] at defined
  | cmove value compared => exact value.valueSound.cmove compared.comparisonSound value.le
  | assignMade _ made => exact made.statementSound
  | assignAddress of operand => exact operand.addressSound.assign of
  | assignLoad of operand => exact operand.addressSound.assignLoad of
  | assignCopy value => exact value.valueSound.assign
  | storeImm of fits operand => exact operand.addressSound.storeImm of fits
  | store of operand value => exact operand.addressSound.store of value.valueSound operand.le
  | effects effects =>
      intro machine store readable defined
      obtain ⟨value, valueDefined, effect⟩ := Option.bind_eq_some_iff.mp defined
      obtain rfl := Option.some.inj effect
      exact effects.effectsSound machine value (readable _ (by simp [Stm.operands])) valueDefined

end

/-- All code that covers a task is sound. -/
theorem Tiling.sound {task : Task} {first next : Nat} {code : List Op}
    (tiling : Tiling task first code next) (symbols : Label → Word) (divides : Bool)
    : task.Sound symbols divides first code next := by
  cases task with
  | value => exact tiling.valueSound
  | address => exact tiling.addressSound
  | comparison => exact tiling.comparisonSound
  | effects => exact tiling.effectsSound
  | statement => exact tiling.statementSound
  | argument | arguments | stores | call => trivial

end TreeTiling.X64
