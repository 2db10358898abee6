import TreeTiling.Proofs.X64.Tiles

/-!
Tilings: the code that covers a tree, as a relation that follows the tree.

A tiling says how a piece of code is put together from the code of the parts, and which numbers
of temporaries it takes. Whatever selection emits is a tiling, so a property of all emitted code is
proved by induction on tilings, without a word about rules, sessions or bounds.
-/

namespace TreeTiling.X64

open TreeTiling.Action (carryOut effectsOf emitInstr fail freshTemp valueOf)

----------------------------------------------------------------------------------------------
-- Tasks
----------------------------------------------------------------------------------------------

/-- What a piece of code is for, together with what selection answers about it. -/
inductive Task where
  /-- Leaves the value of a tree in a register. -/
  | value (tree : Exp) (register : Temp)
  /-- Leaves the values that an address is made of in the registers of an operand. -/
  | address (form : AddressForm) (address : Address)
  /-- Compares two values; the relation holds of them as the tested one holds of the flags. -/
  | comparison (op : RelOp) (left right : Exp) (tested : RelOp)
  /-- Brings an argument to the form in which it is stored. -/
  | argument (arg value : Exp)
  | arguments (args : List (Exp × Nat)) (staged : List (Nat × Exp))
  /-- Stores staged arguments where the callee expects them. -/
  | stores (staged : List (Nat × Exp))
  | call (function : Label) (args : List Exp)
  | effects (tree : Exp)
  | statement (tree : Stm)

/-- The code of a call's two passes: what staging the arguments emits, and what storing the staged
arguments emits after it.
-/
def CallPasses (args : List Exp) (staged : List (Nat × Exp)) (evaluation stores : List Op) : Prop :=
  ∃ bound before middle after,
    rules.perform bound (stageArgs args.zipIdx.reverse) before = .ok staged middle
    ∧ before.Gains evaluation middle
    ∧ rules.perform bound (storeArgs staged) middle = .ok () after
    ∧ middle.Gains stores after

/-- The code covers the task and takes the temporaries between the two numbers. -/
inductive Tiling : Task → Nat → List Op → Nat → Prop where
  | make {tree : Exp} {make : Temp → Op} {first : Nat} (made : MadeBy tree make)
    : Tiling (.value tree (.virtual first)) first [make (.virtual first)] (first + 1)
  | temp (register : Temp) (first : Nat)
    : Tiling (.value (.temp register) register) first [] first
  | load {form : AddressForm} {tree : Exp} {address : Address} {first next : Nat} {code : List Op}
    (of : form.Of tree) (operand : Tiling (.address form address) first code next)
    : Tiling (.value (.mem tree) (.virtual next)) first (code ++ [.load address (.virtual next)])
        (next + 1)
  | same {tree operand : Exp} {register : Temp} {first next : Nat} {code : List Op}
    (same : SameAs tree operand) (value : Tiling (.value operand register) first code next)
    : Tiling (.value tree register) first code next
  | update {tree operand : Exp} {update : Temp → Op} {register : Temp} {first next : Nat}
    {code : List Op} (updated : UpdatedBy tree operand update)
    (value : Tiling (.value operand register) first code next)
    : Tiling (.value tree (.virtual next)) first
        (code ++ [.copy (.virtual next) register, update (.virtual next)]) (next + 1)
  | combine {op : Arith} {left right : Exp} {leftRegister rightRegister : Temp}
    {first middle next : Nat} {leftCode rightCode : List Op}
    (leftValue : Tiling (.value left leftRegister) first leftCode middle)
    (rightValue : Tiling (.value right rightRegister) middle rightCode next)
    : Tiling (.value (.binop op.binop left right) (.virtual next)) first
        (leftCode ++ rightCode
          ++ [.copy (.virtual next) leftRegister, .arith op rightRegister (.virtual next)])
        (next + 1)
  | multiple {tree factor : Exp} {value : Word} {register : Temp} {first next : Nat}
    {code : List Op} (multiple : MultipleOf tree factor value)
    (factorValue : Tiling (.value factor register) first code next)
    : Tiling (.value tree (.virtual next)) first
        (code ++ [.multiplyImm value register (.virtual next)]) (next + 1)
  | quotient {left right : Exp} {dividend divisor : Temp} {first middle next : Nat}
    {leftCode rightCode : List Op}
    (leftValue : Tiling (.value left dividend) first leftCode middle)
    (rightValue : Tiling (.value right divisor) middle rightCode next)
    : Tiling (.value (.binop .div left right) (.virtual next)) first
        (leftCode ++ rightCode
          ++ [.copy rax dividend, .signExtend, .divide divisor, .copy (.virtual next) rax])
        (next + 1)
  | callValue {function : Label} {args : List Exp} {first next : Nat} {code : List Op}
    (call : Tiling (.call function args) first code next)
    : Tiling (.value (.call (.name function) args) returnReg) first code next
  | direct {base : Exp} {register : Temp} {first next : Nat} {code : List Op}
    (baseValue : Tiling (.value base register) first code next)
    : Tiling (.address (.direct base) (.direct register)) first code next
  | displaced {offset : Word} {base : Exp} {register : Temp} {first next : Nat} {code : List Op}
    (baseValue : Tiling (.value base register) first code next)
    : Tiling (.address (.displaced offset base) (.displaced offset register)) first code next
  | indexed {base index : Exp} {baseRegister indexRegister : Temp} {first middle next : Nat}
    {baseCode indexCode : List Op}
    (baseValue : Tiling (.value base baseRegister) first baseCode middle)
    (indexValue : Tiling (.value index indexRegister) middle indexCode next)
    : Tiling (.address (.indexed base index) (.indexed baseRegister indexRegister)) first
        (baseCode ++ indexCode) next
  | scaled {base index : Exp} {scale : Word} {baseRegister indexRegister : Temp}
    {first middle next : Nat} {baseCode indexCode : List Op}
    (baseValue : Tiling (.value base baseRegister) first baseCode middle)
    (indexValue : Tiling (.value index indexRegister) middle indexCode next)
    : Tiling (.address (.scaled base index scale) (.scaled baseRegister indexRegister scale)) first
        (baseCode ++ indexCode) next
  | immRight {op : RelOp} {left : Exp} {value : Word} {register : Temp} {first next : Nat}
    {code : List Op} (fits : value.fitsImm32 = true)
    (leftValue : Tiling (.value left register) first code next)
    : Tiling (.comparison op left (.const value) op) first
        (code ++ [.compareImm register value]) next
  | immLeft {op : RelOp} {value : Word} {right : Exp} {register : Temp} {first next : Nat}
    {code : List Op} (fits : value.fitsImm32 = true)
    (rightValue : Tiling (.value right register) first code next)
    : Tiling (.comparison op (.const value) right op.swapped) first
        (code ++ [.compareImm register value]) next
  | memBoth {op : RelOp} {left right : Exp} {leftRegister rightRegister : Temp}
    {first middle next : Nat} {leftCode rightCode : List Op}
    (leftValue : Tiling (.value left leftRegister) first leftCode middle)
    (rightValue : Tiling (.value right rightRegister) middle rightCode next)
    : Tiling (.comparison op (.mem left) (.mem right) op) first
        (leftCode ++ rightCode
          ++ [.load (.direct leftRegister) (.virtual next),
              .compareMem (.virtual next) (.direct rightRegister)])
        (next + 1)
  | memRight {op : RelOp} {left right : Exp} {leftRegister rightRegister : Temp}
    {first middle next : Nat} {leftCode rightCode : List Op}
    (leftValue : Tiling (.value left leftRegister) first leftCode middle)
    (rightValue : Tiling (.value right rightRegister) middle rightCode next)
    : Tiling (.comparison op left (.mem right) op) first
        (leftCode ++ rightCode ++ [.compareMem leftRegister (.direct rightRegister)]) next
  | memLeft {op : RelOp} {left right : Exp} {leftRegister rightRegister : Temp}
    {first middle next : Nat} {leftCode rightCode : List Op}
    (leftValue : Tiling (.value left leftRegister) first leftCode middle)
    (rightValue : Tiling (.value right rightRegister) middle rightCode next)
    : Tiling (.comparison op (.mem left) right op.swapped) first
        (leftCode ++ rightCode ++ [.compareMem rightRegister (.direct leftRegister)]) next
  | registers {op : RelOp} {left right : Exp} {leftRegister rightRegister : Temp}
    {first middle next : Nat} {leftCode rightCode : List Op}
    (leftValue : Tiling (.value left leftRegister) first leftCode middle)
    (rightValue : Tiling (.value right rightRegister) middle rightCode next)
    : Tiling (.comparison op left right op) first
        (leftCode ++ rightCode ++ [.compare leftRegister rightRegister]) next
  | keepConst (value : Word) (first : Nat)
    : Tiling (.argument (.const value) (.const value)) first [] first
  | keepName (label : Label) (first : Nat)
    : Tiling (.argument (.name label) (.name label)) first [] first
  | keepRegister {arg : Exp} {register : Temp} {first next : Nat} {code : List Op}
    (isVirtual : register.isFixed = false)
    (value : Tiling (.value arg register) first code next)
    : Tiling (.argument arg (.temp register)) first code next
  | copyFixed {arg : Exp} {register : Temp} {first next : Nat} {code : List Op}
    (isFixed : register.isFixed = true) (value : Tiling (.value arg register) first code next)
    : Tiling (.argument arg (.temp (.virtual next))) first
        (code ++ [.copy (.virtual next) register]) (next + 1)
  | noArguments (first : Nat) : Tiling (.arguments [] []) first [] first
  | moreArguments {arg value : Exp} {index : Nat} {args : List (Exp × Nat)}
    {staged : List (Nat × Exp)} {first middle next : Nat} {code rest : List Op}
    (argument : Tiling (.argument arg value) first code middle)
    (others : Tiling (.arguments args staged) middle rest next)
    : Tiling (.arguments ((arg, index) :: args) ((index, value) :: staged)) first (code ++ rest) next
  | noStores (first : Nat) : Tiling (.stores []) first [] first
  | moreStores {index : Nat} {value : Exp} {staged : List (Nat × Exp)} {first middle next : Nat}
    {code rest : List Op}
    (store : Tiling (.statement (.move (outArg index) value)) first code middle)
    (others : Tiling (.stores staged) middle rest next)
    : Tiling (.stores ((index, value) :: staged)) first (code ++ rest) next
  | call {function : Label} {args : List Exp} {staged : List (Nat × Exp)}
    {first middle next : Nat} {evaluation stores : List Op}
    (passes : CallPasses args staged evaluation stores)
    (stagedArgs : Tiling (.arguments args.zipIdx.reverse staged) first evaluation middle)
    (storedArgs : Tiling (.stores staged) middle stores next)
    : Tiling (.call function args) first (evaluation ++ stores ++ [.call function args.length]) next
  | callEffects {function : Label} {args : List Exp} {first next : Nat} {code : List Op}
    (call : Tiling (.call function args) first code next)
    : Tiling (.effects (.call (.name function) args)) first code next
  | idle {tree : Exp} (first : Nat) (leaf : tree.height = 1) : Tiling (.effects tree) first [] first
  | valueEffects {tree : Exp} {register : Temp} {first next : Nat} {code : List Op}
    (value : Tiling (.value tree register) first code next)
    : Tiling (.effects tree) first code next
  | label (name : Label) (first : Nat)
    : Tiling (.statement (.label name)) first [.label name] first
  | jump (target : Label) (first : Nat)
    : Tiling (.statement (.jump (.name target))) first [.jump target] first
  | cjump {op tested : RelOp} {left right : Exp} {ifTrue ifFalse : Label} {first next : Nat}
    {code : List Op} (compared : Tiling (.comparison op left right tested) first code next)
    : Tiling (.statement (.cjump op left right ifTrue ifFalse)) first
        (code ++ [.branch tested ifTrue ifFalse]) next
  | cmove {op tested : RelOp} {left right value : Exp} {dst register : Temp}
    {first middle next : Nat} {valueCode code : List Op}
    (valueTiling : Tiling (.value value register) first valueCode middle)
    (compared : Tiling (.comparison op left right tested) middle code next)
    : Tiling (.statement (.cmove op left right dst value)) first
        (valueCode ++ code ++ [.condMove tested register dst]) next
  | assignMade {tree : Exp} {make : Temp → Op} {dst : Temp} (first : Nat) (made : MadeBy tree make)
    : Tiling (.statement (.move (.temp dst) tree)) first [make dst] first
  | assignAddress {form : AddressForm} {tree : Exp} {dst : Temp} {address : Address}
    {first next : Nat} {code : List Op} (of : form.Of tree)
    (operand : Tiling (.address form address) first code next)
    : Tiling (.statement (.move (.temp dst) tree)) first (code ++ [.lea address dst]) next
  | assignLoad {form : AddressForm} {tree : Exp} {dst : Temp} {address : Address}
    {first next : Nat} {code : List Op} (of : form.Of tree)
    (operand : Tiling (.address form address) first code next)
    : Tiling (.statement (.move (.temp dst) (.mem tree))) first (code ++ [.load address dst]) next
  | assignCopy {tree : Exp} {dst register : Temp} {first next : Nat} {code : List Op}
    (value : Tiling (.value tree register) first code next)
    : Tiling (.statement (.move (.temp dst) tree)) first (code ++ [.copy dst register]) next
  | storeImm {form : AddressForm} {tree : Exp} {value : Word} {address : Address}
    {first next : Nat} {code : List Op} (of : form.Of tree) (fits : value.fitsImm32 = true)
    (operand : Tiling (.address form address) first code next)
    : Tiling (.statement (.move (.mem tree) (.const value))) first
        (code ++ [.storeImm value address]) next
  | store {form : AddressForm} {tree value : Exp} {address : Address} {register : Temp}
    {first middle next : Nat} {addressCode valueCode : List Op} (of : form.Of tree)
    (operand : Tiling (.address form address) first addressCode middle)
    (valueTiling : Tiling (.value value register) middle valueCode next)
    : Tiling (.statement (.move (.mem tree) value)) first
        (addressCode ++ valueCode ++ [.store register address]) next
  | effects {tree : Exp} {first next : Nat} {code : List Op}
    (effects : Tiling (.effects tree) first code next)
    : Tiling (.statement (.exp tree)) first code next

/-- Numbers of temporaries are only taken, never given back. -/
theorem Tiling.le {task : Task} {first next : Nat} {code : List Op}
    (tiling : Tiling task first code next)
    : first ≤ next := by
  induction tiling <;> omega

----------------------------------------------------------------------------------------------
-- Selection yields tilings
----------------------------------------------------------------------------------------------

/-- What a selection gains covers a task. -/
def Covers (task : Task) (before after : Selection Op) : Prop :=
  ∃ code, before.Gains code after ∧ Tiling task before.session.temps code after.session.temps

/-- Taking note of a rule is no part of what is covered. -/
theorem Covers.of_note {task : Task} {before after : Selection Op} {category : Category}
    {index : Nat} {pattern : Pattern} {tree : Node}
    (covers : Covers task (before.note category index pattern tree) after)
    : Covers task before after :=
  covers

/-- Everything selected within a bound covers its task. -/
structure CoversWithin (bound : Nat) : Prop where
  value
    : ∀ {tree : Exp} {register : Temp} {before after : Selection Op},
        rules.valueWithin bound tree before = .ok register after
        → Covers (.value tree register) before after
  effects
    : ∀ {tree : Exp} {before after : Selection Op},
        rules.discardWithin bound tree before = .ok () after
        → Covers (.effects tree) before after
  move
    : ∀ {dst src : Exp} {before after : Selection Op},
        rules.statementWithin bound (.move dst src) before = .ok () after
        → Covers (.statement (.move dst src)) before after

section

variable {bound : Nat} {before after : Selection Op}

/-- Making a leaf in a fresh temporary takes one number and emits one instruction. -/
theorem makeFresh_ok {make : Temp → Op} {register : Temp}
    (performed : rules.perform bound (makeFresh make) before = .ok register after)
    : register = .virtual before.session.temps
      ∧ before.Gains [make (.virtual before.session.temps)] after
      ∧ after.session.temps = before.session.temps + 1 := by
  simp only [makeFresh, Rules.perform_bind_ok, Rules.perform_freshTemp_ok,
    Rules.perform_emitInstr_ok, Rules.perform_pure_ok] at performed
  obtain ⟨_, _, ⟨rfl, rfl⟩, _, _, rfl, rfl, rfl⟩ := performed
  exact ⟨rfl, before.gains_emit_taken _, rfl⟩

/-- Two values in sequence are covered one after the other. -/
theorem CoversWithin.both (covers : CoversWithin bound) {left right : Exp}
    {leftRegister rightRegister : Temp} {middle : Selection Op}
    (leftSelected : rules.valueWithin bound left before = .ok leftRegister middle)
    (rightSelected : rules.valueWithin bound right middle = .ok rightRegister after)
    : ∃ leftCode rightCode,
        before.Gains (leftCode ++ rightCode) after
        ∧ Tiling (.value left leftRegister) before.session.temps leftCode middle.session.temps
        ∧ Tiling (.value right rightRegister) middle.session.temps rightCode
            after.session.temps := by
  obtain ⟨leftCode, leftGains, leftTiling⟩ := covers.value leftSelected
  obtain ⟨rightCode, rightGains, rightTiling⟩ := covers.value rightSelected
  exact ⟨leftCode, rightCode, leftGains.trans rightGains, leftTiling, rightTiling⟩

/-- The registers of a memory operand cover its form. -/
theorem CoversWithin.address (covers : CoversWithin bound) {form : AddressForm} {address : Address}
    (performed : rules.perform bound form.select before = .ok address after)
    : Covers (.address form address) before after := by
  cases form with
  | direct base =>
      simp only [AddressForm.select, Rules.perform_bind_ok, Rules.perform_valueOf_ok,
        Rules.perform_pure_ok] at performed
      obtain ⟨register, _, selected, rfl, rfl⟩ := performed
      obtain ⟨code, gains, tiling⟩ := covers.value selected
      exact ⟨code, gains, .direct tiling⟩
  | displaced offset base =>
      simp only [AddressForm.select, Rules.perform_bind_ok, Rules.perform_valueOf_ok,
        Rules.perform_pure_ok] at performed
      obtain ⟨register, _, selected, rfl, rfl⟩ := performed
      obtain ⟨code, gains, tiling⟩ := covers.value selected
      exact ⟨code, gains, .displaced tiling⟩
  | indexed base index =>
      simp only [AddressForm.select, Rules.perform_bind_ok, Rules.perform_valueOf_ok,
        Rules.perform_pure_ok] at performed
      obtain ⟨_, _, baseSelected, _, _, indexSelected, rfl, rfl⟩ := performed
      obtain ⟨_, _, gains, baseTiling, indexTiling⟩ := covers.both baseSelected indexSelected
      exact ⟨_, gains, .indexed baseTiling indexTiling⟩
  | scaled base index scale =>
      simp only [AddressForm.select, Rules.perform_bind_ok, Rules.perform_valueOf_ok,
        Rules.perform_pure_ok] at performed
      obtain ⟨_, _, baseSelected, _, _, indexSelected, rfl, rfl⟩ := performed
      obtain ⟨_, _, gains, baseTiling, indexTiling⟩ := covers.both baseSelected indexSelected
      exact ⟨_, gains, .scaled baseTiling indexTiling⟩

/-- Staging an argument that is no leaf of its own computes it to a register. -/
theorem CoversWithin.computed (covers : CoversWithin bound) {arg value : Exp}
    (performed
      : rules.perform bound (do
          let register ← valueOf arg
          if register.isFixed then
            let copy ← freshTemp
            emitInstr (.copy copy register)
            return .temp copy
          else
            return .temp register) before
        = .ok value after)
    : Covers (.argument arg value) before after := by
  simp only [Rules.perform_bind_ok, Rules.perform_valueOf_ok] at performed
  obtain ⟨register, middle, selected, performed⟩ := performed
  obtain ⟨code, gains, tiling⟩ := covers.value selected
  by_cases isFixed : register.isFixed = true
  · rw [if_pos isFixed] at performed
    simp only [Rules.perform_bind_ok, Rules.perform_freshTemp_ok, Rules.perform_emitInstr_ok,
      Rules.perform_pure_ok] at performed
    obtain ⟨_, _, ⟨rfl, rfl⟩, _, _, rfl, rfl, rfl⟩ := performed
    exact ⟨_, gains.trans (middle.gains_emit_taken _), .copyFixed isFixed tiling⟩
  · rw [if_neg isFixed] at performed
    obtain ⟨rfl, rfl⟩ := Rules.perform_pure_ok.mp performed
    exact ⟨code, gains, .keepRegister (Bool.not_eq_true _ ▸ isFixed) tiling⟩

/-- A staged argument covers the argument. -/
theorem CoversWithin.argument (covers : CoversWithin bound) {arg value : Exp}
    (performed : rules.perform bound (stageArg arg) before = .ok value after)
    : Covers (.argument arg value) before after := by
  cases arg with
  | const word =>
      obtain ⟨rfl, rfl⟩ := Rules.perform_pure_ok.mp performed
      exact ⟨[], .refl _, .keepConst word _⟩
  | name label =>
      obtain ⟨rfl, rfl⟩ := Rules.perform_pure_ok.mp performed
      exact ⟨[], .refl _, .keepName label _⟩
  | temp _ | mem _ | binop _ _ _ | call _ _ => exact covers.computed performed

/-- The staged arguments cover the arguments; by induction on them. -/
theorem CoversWithin.arguments (covers : CoversWithin bound) {args : List (Exp × Nat)}
    {staged : List (Nat × Exp)}
    (performed : rules.perform bound (stageArgs args) before = .ok staged after)
    : Covers (.arguments args staged) before after := by
  induction args generalizing before staged with
  | nil =>
      obtain ⟨rfl, rfl⟩ := Rules.perform_pure_ok.mp performed
      exact ⟨[], .refl _, .noArguments _⟩
  | cons first rest ih =>
      obtain ⟨arg, index⟩ := first
      simp only [stageArgs, List.mapM_cons, bind_assoc, pure_bind, Rules.perform_bind_ok,
        Rules.perform_pure_ok] at performed
      obtain ⟨value, middle, firstStaged, others, _, restStaged, rfl, rfl⟩ := performed
      obtain ⟨code, gains, tiling⟩ := covers.argument firstStaged
      obtain ⟨restCode, restGains, restTiling⟩ := ih restStaged
      exact ⟨_, gains.trans restGains, .moreArguments tiling restTiling⟩

/-- Storing staged arguments covers the stores; by induction on them. -/
theorem CoversWithin.stores (covers : CoversWithin bound) {staged : List (Nat × Exp)}
    (performed : rules.perform bound (storeArgs staged) before = .ok () after)
    : Covers (.stores staged) before after := by
  induction staged generalizing before with
  | nil =>
      obtain ⟨_, rfl⟩ := Rules.perform_pure_ok.mp performed
      exact ⟨[], .refl _, .noStores _⟩
  | cons first rest ih =>
      obtain ⟨index, value⟩ := first
      simp only [storeArgs, List.forM_eq_forM, List.forM_cons, Rules.perform_bind_ok,
        Rules.perform_carryOut_ok] at performed
      obtain ⟨_, middle, stored, restStored⟩ := performed
      obtain ⟨code, gains, tiling⟩ := covers.move stored
      obtain ⟨restCode, restGains, restTiling⟩ := ih restStored
      exact ⟨_, gains.trans restGains, .moreStores tiling restTiling⟩

/-- A call's code is its two passes and the transfer. -/
theorem CoversWithin.call (covers : CoversWithin bound) {function : Label} {args : List Exp}
    (performed : rules.perform bound (emitCall function args) before = .ok () after)
    : Covers (.call function args) before after := by
  simp only [emitCall_eq, Rules.perform_bind_ok, Rules.perform_emitInstr_ok] at performed
  obtain ⟨staged, middle, stagedArgs, _, last, storedArgs, rfl⟩ := performed
  obtain ⟨evaluation, evaluationGains, evaluationTiling⟩ := covers.arguments stagedArgs
  obtain ⟨stores, storesGains, storesTiling⟩ := covers.stores storedArgs
  have passes : CallPasses args staged evaluation stores :=
    ⟨bound, before, middle, last, stagedArgs, evaluationGains, storedArgs, storesGains⟩
  exact ⟨_, (evaluationGains.trans storesGains).trans (last.gains_emit _),
    .call passes evaluationTiling storesTiling⟩

/-- The code of a comparison covers it, in every shape. -/
theorem CoversWithin.comparison (covers : CoversWithin bound) {op tested : RelOp}
    {left right : Exp} {compare : Action Op RelOp} (tile : CompareTile op left right compare)
    (performed : rules.perform bound compare before = .ok tested after)
    : Covers (.comparison op left right tested) before after := by
  cases tile with
  | immRight left fits =>
      simp only [Rules.perform_bind_ok, Rules.perform_valueOf_ok, Rules.perform_emitInstr_ok,
        Rules.perform_pure_ok] at performed
      obtain ⟨_, middle, selected, _, _, rfl, rfl, rfl⟩ := performed
      obtain ⟨code, gains, tiling⟩ := covers.value selected
      exact ⟨_, gains.trans (middle.gains_emit _), .immRight fits tiling⟩
  | immLeft right fits =>
      simp only [Rules.perform_bind_ok, Rules.perform_valueOf_ok, Rules.perform_emitInstr_ok,
        Rules.perform_pure_ok] at performed
      obtain ⟨_, middle, selected, _, _, rfl, rfl, rfl⟩ := performed
      obtain ⟨code, gains, tiling⟩ := covers.value selected
      exact ⟨_, gains.trans (middle.gains_emit _), .immLeft fits tiling⟩
  | memBoth left right =>
      simp only [Rules.perform_bind_ok, Rules.perform_valueOf_ok, Rules.perform_freshTemp_ok,
        Rules.perform_emitInstr_ok, Rules.perform_pure_ok] at performed
      obtain ⟨_, _, leftSelected, _, middle, rightSelected, _, _, ⟨rfl, rfl⟩, _, _, rfl, _, _, rfl,
        rfl, rfl⟩ := performed
      obtain ⟨_, _, gains, leftTiling, rightTiling⟩ := covers.both leftSelected rightSelected
      exact ⟨_, gains.trans ((middle.gains_emit_taken _).trans (Selection.gains_emit _ _)),
        .memBoth leftTiling rightTiling⟩
  | memRight left right =>
      simp only [Rules.perform_bind_ok, Rules.perform_valueOf_ok, Rules.perform_emitInstr_ok,
        Rules.perform_pure_ok] at performed
      obtain ⟨_, _, leftSelected, _, middle, rightSelected, _, _, rfl, rfl, rfl⟩ := performed
      obtain ⟨_, _, gains, leftTiling, rightTiling⟩ := covers.both leftSelected rightSelected
      exact ⟨_, gains.trans (middle.gains_emit _), .memRight leftTiling rightTiling⟩
  | memLeft left right =>
      simp only [Rules.perform_bind_ok, Rules.perform_valueOf_ok, Rules.perform_emitInstr_ok,
        Rules.perform_pure_ok] at performed
      obtain ⟨_, _, leftSelected, _, middle, rightSelected, _, _, rfl, rfl, rfl⟩ := performed
      obtain ⟨_, _, gains, leftTiling, rightTiling⟩ := covers.both leftSelected rightSelected
      exact ⟨_, gains.trans (middle.gains_emit _), .memLeft leftTiling rightTiling⟩
  | registers left right =>
      simp only [Rules.perform_bind_ok, Rules.perform_valueOf_ok, Rules.perform_emitInstr_ok,
        Rules.perform_pure_ok] at performed
      obtain ⟨_, _, leftSelected, _, middle, rightSelected, _, _, rfl, rfl, rfl⟩ := performed
      obtain ⟨_, _, gains, leftTiling, rightTiling⟩ := covers.both leftSelected rightSelected
      exact ⟨_, gains.trans (middle.gains_emit _), .registers leftTiling rightTiling⟩

/-- The code of a tile covers the value of its tree. -/
theorem CoversWithin.valueTile (covers : CoversWithin bound) {tree : Exp} {register : Temp}
    {action : Action Op Temp} (tile : ValueTile tree action)
    (performed : rules.perform bound action before = .ok register after)
    : Covers (.value tree register) before after := by
  cases tile with
  | call function args =>
      simp only [Rules.perform_bind_ok, Rules.perform_pure_ok] at performed
      obtain ⟨_, _, called, rfl, rfl⟩ := performed
      obtain ⟨code, gains, tiling⟩ := covers.call called
      exact ⟨code, gains, .callValue tiling⟩
  | refuse callee args indirect => exact (Rules.perform_fail_ok.mp performed).elim
  | make made =>
      obtain ⟨rfl, gains, temps⟩ := makeFresh_ok performed
      exact ⟨_, gains, temps ▸ .make made⟩
  | temp register =>
      obtain ⟨rfl, rfl⟩ := Rules.perform_pure_ok.mp performed
      exact ⟨[], .refl _, .temp register _⟩
  | load of =>
      obtain ⟨address, middle, selected, loaded⟩ := Rules.perform_bind_ok.mp performed
      obtain ⟨code, gains, tiling⟩ := covers.address selected
      obtain ⟨rfl, loadGains, temps⟩ := makeFresh_ok loaded
      exact ⟨_, gains.trans loadGains, temps ▸ .load of tiling⟩
  | same same =>
      obtain ⟨code, gains, tiling⟩ := covers.value (Rules.perform_valueOf_ok.mp performed)
      exact ⟨code, gains, .same same tiling⟩
  | update updated =>
      simp only [updateCopy, Rules.perform_bind_ok, Rules.perform_valueOf_ok,
        Rules.perform_freshTemp_ok, Rules.perform_emitInstr_ok, Rules.perform_pure_ok] at performed
      obtain ⟨_, middle, selected, _, _, ⟨rfl, rfl⟩, _, _, rfl, _, _, rfl, rfl, rfl⟩ := performed
      obtain ⟨code, gains, tiling⟩ := covers.value selected
      exact ⟨_, gains.trans ((middle.gains_emit_taken _).trans (Selection.gains_emit _ _)),
        .update updated tiling⟩
  | combine op left right =>
      simp only [combine, Rules.perform_bind_ok, Rules.perform_valueOf_ok,
        Rules.perform_freshTemp_ok, Rules.perform_emitInstr_ok, Rules.perform_pure_ok] at performed
      obtain ⟨_, _, leftSelected, _, middle, rightSelected, _, _, ⟨rfl, rfl⟩, _, _, rfl, _, _, rfl,
        rfl, rfl⟩ := performed
      obtain ⟨_, _, gains, leftTiling, rightTiling⟩ := covers.both leftSelected rightSelected
      exact ⟨_, gains.trans ((middle.gains_emit_taken _).trans (Selection.gains_emit _ _)),
        .combine leftTiling rightTiling⟩
  | multiple multiple =>
      simp only [multiplyByImm, Rules.perform_bind_ok, Rules.perform_valueOf_ok,
        Rules.perform_freshTemp_ok, Rules.perform_emitInstr_ok, Rules.perform_pure_ok] at performed
      obtain ⟨_, middle, selected, _, _, ⟨rfl, rfl⟩, _, _, rfl, rfl, rfl⟩ := performed
      obtain ⟨code, gains, tiling⟩ := covers.value selected
      exact ⟨_, gains.trans (middle.gains_emit_taken _), .multiple multiple tiling⟩
  | quotient left right =>
      simp only [divideInto, Rules.perform_bind_ok, Rules.perform_valueOf_ok,
        Rules.perform_freshTemp_ok, Rules.perform_emitInstr_ok, Rules.perform_pure_ok] at performed
      obtain ⟨_, _, leftSelected, _, middle, rightSelected, _, _, rfl, _, _, rfl, _, _, rfl, _, _,
        ⟨rfl, rfl⟩, _, _, rfl, rfl, rfl⟩ := performed
      obtain ⟨_, _, gains, leftTiling, rightTiling⟩ := covers.both leftSelected rightSelected
      exact ⟨_, gains.trans ((((middle.gains_emit _).trans (Selection.gains_emit _ _)).trans
        (Selection.gains_emit _ _)).trans (Selection.gains_emit_taken _ _)),
        .quotient leftTiling rightTiling⟩

/-- The code of a tile covers the effects of its tree. -/
theorem CoversWithin.discardTile (covers : CoversWithin bound) {tree : Exp}
    {action : Action Op Unit} (tile : DiscardTile tree action)
    (performed : rules.perform bound action before = .ok () after)
    : Covers (.effects tree) before after := by
  cases tile with
  | call function args =>
      obtain ⟨code, gains, tiling⟩ := covers.call performed
      exact ⟨code, gains, .callEffects tiling⟩
  | refuse callee args indirect => exact (Rules.perform_fail_ok.mp performed).elim
  | idle tree leaf =>
      obtain ⟨_, rfl⟩ := Rules.perform_pure_ok.mp performed
      exact ⟨[], .refl _, .idle _ leaf⟩
  | value tree =>
      simp only [Rules.perform_bind_ok, Rules.perform_valueOf_ok, Rules.perform_pure_ok]
        at performed
      obtain ⟨register, _, selected, _, rfl⟩ := performed
      obtain ⟨code, gains, tiling⟩ := covers.value selected
      exact ⟨code, gains, .valueEffects tiling⟩

/-- The code of a tile covers its statement. -/
theorem CoversWithin.statementTile (covers : CoversWithin bound) {tree : Stm}
    {action : Action Op Unit} (tile : StatementTile tree action)
    (performed : rules.perform bound action before = .ok () after)
    : Covers (.statement tree) before after := by
  cases tile with
  | label name =>
      obtain rfl := Rules.perform_emitInstr_ok.mp performed
      exact ⟨_, before.gains_emit _, .label name _⟩
  | jump target =>
      obtain rfl := Rules.perform_emitInstr_ok.mp performed
      exact ⟨_, before.gains_emit _, .jump target _⟩
  | refuse target indirect => exact (Rules.perform_fail_ok.mp performed).elim
  | cjump ifTrue ifFalse compares =>
      simp only [Rules.perform_bind_ok, Rules.perform_emitInstr_ok] at performed
      obtain ⟨tested, middle, compared, rfl⟩ := performed
      obtain ⟨code, gains, tiling⟩ := covers.comparison compares compared
      exact ⟨_, gains.trans (middle.gains_emit _), .cjump tiling⟩
  | cmove dst value compares =>
      simp only [Rules.perform_bind_ok, Rules.perform_valueOf_ok, Rules.perform_emitInstr_ok]
        at performed
      obtain ⟨register, _, selected, tested, middle, compared, rfl⟩ := performed
      obtain ⟨_, valueGains, valueTiling⟩ := covers.value selected
      obtain ⟨_, gains, tiling⟩ := covers.comparison compares compared
      exact ⟨_, (valueGains.trans gains).trans (middle.gains_emit _), .cmove valueTiling tiling⟩
  | make dst made =>
      obtain rfl := Rules.perform_emitInstr_ok.mp performed
      exact ⟨_, before.gains_emit _, .assignMade _ made⟩
  | lea dst of =>
      simp only [Rules.perform_bind_ok, Rules.perform_emitInstr_ok] at performed
      obtain ⟨address, middle, selected, rfl⟩ := performed
      obtain ⟨code, gains, tiling⟩ := covers.address selected
      exact ⟨_, gains.trans (middle.gains_emit _), .assignAddress of tiling⟩
  | load dst of =>
      simp only [Rules.perform_bind_ok, Rules.perform_emitInstr_ok] at performed
      obtain ⟨address, middle, selected, rfl⟩ := performed
      obtain ⟨code, gains, tiling⟩ := covers.address selected
      exact ⟨_, gains.trans (middle.gains_emit _), .assignLoad of tiling⟩
  | copy dst tree =>
      simp only [Rules.perform_bind_ok, Rules.perform_valueOf_ok, Rules.perform_emitInstr_ok]
        at performed
      obtain ⟨register, middle, selected, rfl⟩ := performed
      obtain ⟨code, gains, tiling⟩ := covers.value selected
      exact ⟨_, gains.trans (middle.gains_emit _), .assignCopy tiling⟩
  | storeImm of fits =>
      simp only [Rules.perform_bind_ok, Rules.perform_emitInstr_ok] at performed
      obtain ⟨address, middle, selected, rfl⟩ := performed
      obtain ⟨code, gains, tiling⟩ := covers.address selected
      exact ⟨_, gains.trans (middle.gains_emit _), .storeImm of fits tiling⟩
  | store value of =>
      simp only [Rules.perform_bind_ok, Rules.perform_valueOf_ok, Rules.perform_emitInstr_ok]
        at performed
      obtain ⟨address, _, addressed, register, middle, selected, rfl⟩ := performed
      obtain ⟨_, addressGains, addressTiling⟩ := covers.address addressed
      obtain ⟨_, valueGains, valueTiling⟩ := covers.value selected
      exact ⟨_, (addressGains.trans valueGains).trans (middle.gains_emit _),
        .store of addressTiling valueTiling⟩
  | effects tree =>
      obtain ⟨code, gains, tiling⟩ := covers.effects (Rules.perform_effectsOf_ok.mp performed)
      exact ⟨code, gains, .effects tiling⟩

end

----------------------------------------------------------------------------------------------
-- Trees of any nesting
----------------------------------------------------------------------------------------------

/-- A part of a statement is covered where all that its action asks for is. -/
theorem CoversWithin.part {bound : Nat} {before after : Selection Op} (covers : CoversWithin bound)
    {part : Stm} (selected : rules.partWithin bound part before = .ok () after)
    : Covers (.statement part) before after := by
  obtain ⟨choice, chosen, performed⟩ := Rules.partWithin_ok.mp selected
  exact (covers.statementTile (statementTile_of_choose? chosen) performed).of_note

/-- Whatever is selected within a bound covers its task; witness: induction on the bound, where a
tree is covered by the tile that is chosen for it.
-/
theorem coversWithin (bound : Nat) : CoversWithin bound := by
  induction bound with
  | zero =>
      constructor
      · intro tree register before after selected
        rw [Rules.valueWithin] at selected
        cases selected
      · intro tree before after selected
        rw [Rules.discardWithin] at selected
        cases selected
      · intro dst src before after selected
        rw [Rules.statementWithin] at selected
        cases selected
  | succ bound covers =>
      constructor
      · intro tree register before after selected
        obtain ⟨choice, chosen, performed⟩ := Rules.valueWithin_ok.mp selected
        exact (covers.valueTile (valueTile_of_choose? chosen) performed).of_note
      · intro tree before after selected
        obtain ⟨choice, chosen, performed⟩ := Rules.discardWithin_ok.mp selected
        exact (covers.discardTile (discardTile_of_choose? chosen) performed).of_note
      · intro dst src before after selected
        simp only [Rules.statementWithin_succ, Stm.flatten] at selected
        obtain ⟨_, _, partSelected, finished⟩ := SelectM.bind_eq_ok.mp selected
        obtain ⟨_, rfl⟩ := SelectM.pure_eq_ok.mp finished
        exact covers.part partSelected

----------------------------------------------------------------------------------------------
-- Staged arguments
----------------------------------------------------------------------------------------------

/-- The forms in which an argument is stored; none reads a machine register. -/
inductive Staged : Exp → Prop where
  | const (value : Word) : Staged (.const value)
  | name (label : Label) : Staged (.name label)
  | register (number : Nat) : Staged (.temp (.virtual number))

theorem Tiling.staged_argument {arg value : Exp} {first next : Nat} {code : List Op}
    (tiling : Tiling (.argument arg value) first code next)
    : Staged value := by
  cases tiling with
  | keepConst => exact .const _
  | keepName => exact .name _
  | @keepRegister _ register _ _ _ isVirtual =>
      cases register with
      | virtual number => exact .register number
      | fixed name => cases isVirtual
  | copyFixed => exact .register _

/-- All arguments are staged; by induction on them. -/
theorem Tiling.staged {args : List (Exp × Nat)} {staged : List (Nat × Exp)} {first next : Nat}
    {code : List Op} (tiling : Tiling (.arguments args staged) first code next)
    : ∀ entry ∈ staged, Staged entry.2 := by
  induction args generalizing staged first code with
  | nil =>
      cases tiling
      exact fun entry member => absurd member List.not_mem_nil
  | cons arg rest ih =>
      cases tiling with
      | moreArguments argument others =>
          intro entry member
          rcases List.mem_cons.mp member with rfl | later
          · exact argument.staged_argument
          · exact ih others entry later

----------------------------------------------------------------------------------------------
-- Bodies
----------------------------------------------------------------------------------------------

/-- The code of statements in order, one piece for each. -/
inductive BodyTiling : List Stm → Nat → List (List Op) → Nat → Prop where
  | nil (first : Nat) : BodyTiling [] first [] first
  | cons {part : Stm} {parts : List Stm} {first middle next : Nat} {code : List Op}
    {pieces : List (List Op)} (tiling : Tiling (.statement part) first code middle)
    (rest : BodyTiling parts middle pieces next)
    : BodyTiling (part :: parts) first (code :: pieces) next

/-- The code of a statement list is a tiling of its parts; by induction on them. -/
theorem bodyTiling_of_parts {bound : Nat} {parts : List Stm} {before after : Selection Op}
    (selected : parts.forM (rules.partWithin bound) before = .ok () after)
    : ∃ pieces,
        before.Gains pieces.flatten after
        ∧ BodyTiling parts before.session.temps pieces after.session.temps := by
  induction parts generalizing before with
  | nil =>
      obtain ⟨_, rfl⟩ := SelectM.pure_eq_ok.mp selected
      exact ⟨[], .refl _, .nil _⟩
  | cons part parts ih =>
      rw [List.forM_eq_forM, List.forM_cons, SelectM.bind_eq_ok] at selected
      obtain ⟨_, middle, partSelected, restSelected⟩ := selected
      obtain ⟨code, gains, tiling⟩ := (coversWithin bound).part partSelected
      obtain ⟨pieces, restGains, rest⟩ := ih restSelected
      exact ⟨code :: pieces, gains.trans restGains, .cons tiling rest⟩

/-- What selecting a statement gains is a tiling of its parts. -/
theorem selectStatement_tiles {tree : Stm} {before after : Selection Op}
    (selected : rules.selectStatement tree before = .ok () after)
    : ∃ pieces,
        before.Gains pieces.flatten after
        ∧ BodyTiling tree.flatten before.session.temps pieces after.session.temps := by
  rw [Rules.selectStatement_eq] at selected
  exact bodyTiling_of_parts selected

/-- What selecting a statement gains covers it, if it is its only part. -/
theorem selectStatement_covers {tree : Stm} (single : tree.flatten = [tree])
    {before after : Selection Op} (selected : rules.selectStatement tree before = .ok () after)
    : Covers (.statement tree) before after := by
  obtain ⟨pieces, gains, body⟩ := selectStatement_tiles selected
  rw [single] at body
  cases body with
  | cons tiling rest =>
      cases rest
      exact ⟨_, by simpa using gains, tiling⟩

/-- An operation in the code of statements stands in the code of one of them; by induction on the
statements.
-/
theorem BodyTiling.of_mem {parts : List Stm} {first next : Nat} {pieces : List (List Op)}
    (tiling : BodyTiling parts first pieces next) {op : Op} (member : op ∈ pieces.flatten)
    : ∃ part ∈ parts, ∃ start code stop, Tiling (.statement part) start code stop ∧ op ∈ code := by
  induction tiling with
  | nil => cases member
  | cons piece _ ih =>
      rcases List.mem_append.mp member with here | later
      · exact ⟨_, List.mem_cons_self, _, _, _, piece, here⟩
      · obtain ⟨part, isPart, found⟩ := ih later
        exact ⟨part, List.mem_cons_of_mem _ isPart, found⟩

end TreeTiling.X64
