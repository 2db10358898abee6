import TreeTiling.Proofs.X64.Simulation
import TreeTiling.Proofs.X64.WrittenCode

/-!
Conditional jumps and moves: the code of each ends in a comparison and, right after it, the
operation that tests the flags.

A comparison takes an immediate or a memory word only on one side, so the words may be compared the
other way round than the tree has them; the relation that is tested is then the transposed one.
What counts is that the condition, as the suffix of the mnemonic reads it from the flags, is met
exactly if the relation of the tree holds.
-/

namespace TreeTiling.X64

----------------------------------------------------------------------------------------------
-- Comparisons
----------------------------------------------------------------------------------------------

/-- The two words that an operation compares as it is written, if it does. -/
def Op.comparands? (store : Store) (op : Op) : Option (Word × Word) :=
  op.toLine.comparands? store

/-- An operation that compares, whatever registers and memory hold. -/
def Op.Compares (op : Op) : Prop :=
  ∀ store, ∃ left right, op.comparands? store = some (left, right)

/-- A comparison sets the flags from its two words and changes nothing else. -/
theorem exec?_of_comparands? {op : Op} {machine : Machine} {left right : Word}
    (found : op.comparands? machine.toStore = some (left, right)) (symbols : Label → Word)
    : op.exec? symbols machine = some (machine.compare left right) := by
  rw [exec?_eq_effect?]
  exact Line.effect?_of_comparands? found symbols

/-- All comparisons are written `cmpq`. -/
theorem Op.Compares.mnemonic {op : Op} (compares : op.Compares)
    : op.instr.mnemonic = "cmpq" := by
  obtain ⟨left, right, found⟩ := compares ⟨fun _ => 0, fun _ => 0⟩
  obtain ⟨source, destination, isLine⟩ := Line.eq_of_comparands? found
  have notLabel : op.instr.labelName? = none := by
    refine Option.eq_none_iff_forall_ne_some.mpr fun label defines => ?_
    have sameOperands := congrArg Line.operands (labelName?_eq_some_iff.mp defines)
    rw [isLine] at sameOperands
    cases sameOperands
  rw [mnemonic_instr notLabel]
  exact congrArg Line.word isLine

/-- Running code in two parts. -/
theorem execAll?_append (symbols : Label → Word) (front back : List Op) (machine : Machine)
    : execAll? symbols (front ++ back) machine
      = (execAll? symbols front machine).bind (execAll? symbols back) := by
  induction front generalizing machine with
  | nil => rfl
  | cons op front ih =>
      rw [List.cons_append, execAll?, execAll?, Option.bind_assoc]
      congr 1
      funext middle
      exact ih middle

/-- After a comparison the flags are those of the difference of its two words. -/
theorem flags_of_compares {op : Op} (compares : op.Compares) {symbols : Label → Word}
    {front : List Op} {machine last : Machine}
    (ran : execAll? symbols (front ++ [op]) machine = some last)
    : ∃ left right,
        op.comparands? last.toStore = some (left, right)
        ∧ last.flags = some (Flags.ofComparison left right) := by
  rw [execAll?_append] at ran
  obtain ⟨middle, -, executed⟩ := Option.bind_eq_some_iff.mp ran
  obtain ⟨left, right, found⟩ := compares middle.toStore
  rw [execAll?, exec?_of_comparands? found] at executed
  obtain rfl := Option.some.inj executed
  exact ⟨left, right, found, rfl⟩

/-- In every shape, the code of a comparison ends with the comparison itself. -/
theorem Tiling.ends_comparing {op tested : RelOp} {left right : Exp} {first next : Nat}
    {code : List Op} (tiling : Tiling (.comparison op left right tested) first code next)
    : ∃ front comparison, code = front ++ [comparison] ∧ comparison.Compares := by
  cases tiling with
  | immRight | immLeft | memRight | memLeft | registers =>
      exact ⟨_, _, rfl, fun _ => ⟨_, _, rfl⟩⟩
  | @memBoth _ _ _ leftRegister _ _ _ next leftCode rightCode =>
      refine ⟨leftCode ++ rightCode ++ [.load (.direct leftRegister) (.virtual next)], _,
        (List.append_assoc _ [_] [_]).symm, fun _ => ⟨_, _, rfl⟩⟩

----------------------------------------------------------------------------------------------
-- Single statements
----------------------------------------------------------------------------------------------

/-- The temporaries of a statement were there before, and where it divides it leaves `rax` and
`rdx` to its divisions.
-/
structure Placed (tree : Stm) (first : Nat) : Prop where
  earlier : ∀ number, Temp.virtual number ∈ tree.temps → number < first
  divisions : tree.hasDivision = false ∨ (rax ∉ tree.temps ∧ rdx ∉ tree.temps)

theorem Placed.stable {tree : Stm} {first : Nat} (placed : Placed tree first) {register : Temp}
    (occurs : register ∈ tree.temps)
    : Stable first tree.hasDivision register :=
  stable_of_mem_temps placed.earlier placed.divisions occurs

theorem Placed.readable {tree : Stm} {first : Nat} (placed : Placed tree first)
    (flat : tree.flatten = [tree]) {operand : Exp} (member : operand ∈ tree.operands)
    : Readable first tree.hasDivision operand :=
  undisturbed_of_stable (fun _ => placed.stable) tree (by simp [flat]) operand member

/-- A conditional jump or move is selected to code that covers it, if all its calls go to labels. -/
theorem selectStatement_conditional {tree : Stm}
    (conditional
      : (∃ op left right ifTrue ifFalse, tree = .cjump op left right ifTrue ifFalse)
        ∨ ∃ op left right dst value, tree = .cmove op left right dst value)
    (calls : ∀ operand ∈ tree.operands, operand.CallsLabels) (before : Selection Op)
    : ∃ after code,
        rules.selectStatement tree before = .ok () after
        ∧ before.Gains code after
        ∧ Tiling (.statement tree) before.session.temps code after.session.temps := by
  have flat : tree.flatten = [tree] := by
    rcases conditional with ⟨_, _, _, _, _, rfl⟩ | ⟨_, _, _, _, _, rfl⟩ <;> rfl
  have selectable : ∀ part ∈ tree.flatten, Selectable part := by
    rw [flat, List.forall_mem_singleton]
    rcases conditional with ⟨_, _, _, _, _, rfl⟩ | ⟨_, _, _, _, _, rfl⟩
    · exact ⟨⟨by rintro _ ⟨⟩, by rintro _ _ ⟨⟩⟩, by rintro _ ⟨⟩, calls⟩
    · exact ⟨⟨by rintro _ ⟨⟩, by rintro _ _ ⟨⟩⟩, by rintro _ ⟨⟩, calls⟩
  obtain ⟨_, after, selected⟩ := selectStatement_accepts selectable before
  obtain ⟨code, gains, tiling⟩ := selectStatement_covers flat selected
  exact ⟨after, code, selected, gains, tiling⟩

section

variable {op : RelOp} {left right : Exp} {before : Selection Op}

/-- The code of a conditional jump ends in a comparison and the jump, and from every state in which
both sides have values it gets to the jump, whose condition is then met exactly if the relation
holds of the values.
-/
theorem selectStatement_cjump {ifTrue ifFalse : Label} (leftCalls : left.CallsLabels)
    (rightCalls : right.CallsLabels)
    (placed : Placed (.cjump op left right ifTrue ifFalse) before.session.temps)
    : ∃ after front comparison tested,
        rules.selectStatement (.cjump op left right ifTrue ifFalse) before = .ok () after
        ∧ before.Gains (front ++ [comparison, .branch tested ifTrue ifFalse]) after
        ∧ comparison.Compares
        ∧ ∀ (symbols : Label → Word) (machine : Machine) (leftValue rightValue : Word),
            left.eval? symbols machine.toStore = some leftValue
            → right.eval? symbols machine.toStore = some rightValue
            → ∃ last flags,
                execAll? symbols (front ++ [comparison]) machine = some last
                ∧ last.flags = some flags
                ∧ flags.test tested = op.holds leftValue rightValue := by
  have calls : ∀ operand ∈ (Stm.cjump op left right ifTrue ifFalse).operands,
      operand.CallsLabels := by
    simpa [Stm.operands] using ⟨leftCalls, rightCalls⟩
  obtain ⟨after, code, selected, gains, tiling⟩ :=
    selectStatement_conditional (.inl ⟨op, left, right, ifTrue, ifFalse, rfl⟩) calls before
  cases tiling with
  | @cjump _ tested _ _ _ _ _ _ code compared =>
      obtain ⟨front, comparison, rfl, compares⟩ := compared.ends_comparing
      rw [List.append_assoc] at gains
      refine ⟨after, front, comparison, tested, selected, gains, compares, ?_⟩
      intro symbols machine leftValue rightValue leftDefined rightDefined
      have leftReadable : Readable _ _ left := placed.readable rfl (by simp [Stm.operands])
      have rightReadable : Readable _ _ right := placed.readable rfl (by simp [Stm.operands])
      obtain ⟨last, ran, -, flags, flagsSet, means⟩ :=
        compared.sound symbols _ machine leftValue rightValue leftReadable rightReadable leftDefined
          rightDefined
      exact ⟨last, flags, ran, flagsSet, means⟩

/-- The code of a conditional move ends in a comparison and the move, and from every state in which
the statement has an effect it has that effect on all that is stable.
-/
theorem selectStatement_cmove {dst : Temp} {value : Exp} (leftCalls : left.CallsLabels)
    (rightCalls : right.CallsLabels) (valueCalls : value.CallsLabels)
    (placed : Placed (.cmove op left right dst value) before.session.temps)
    : ∃ after front comparison tested src,
        rules.selectStatement (.cmove op left right dst value) before = .ok () after
        ∧ before.Gains (front ++ [comparison, .condMove tested src dst]) after
        ∧ comparison.Compares
        ∧ ∀ (symbols : Label → Word) (machine : Machine) (store : Store),
            (Stm.cmove op left right dst value).effect? symbols machine.toStore = some store
            → Runs symbols (front ++ [comparison, .condMove tested src dst]) machine fun last =>
                Agrees before.session.temps (Stm.cmove op left right dst value).hasDivision store
                  last.toStore := by
  have calls : ∀ operand ∈ (Stm.cmove op left right dst value).operands,
      operand.CallsLabels := by
    simpa [Stm.operands] using ⟨valueCalls, leftCalls, rightCalls⟩
  obtain ⟨after, code, selected, gains, tiling⟩ :=
    selectStatement_conditional (.inr ⟨op, left, right, dst, value, rfl⟩) calls before
  have sound := fun symbols machine store => tiling.sound symbols _ machine store
    fun _ member => placed.readable rfl member
  cases tiling with
  | @cmove _ tested _ _ _ _ src _ _ _ valueCode code valueTiling compared =>
      obtain ⟨front, comparison, rfl, compares⟩ := compared.ends_comparing
      have split
          : valueCode ++ (front ++ [comparison]) ++ [.condMove tested src dst]
            = (valueCode ++ front) ++ [comparison, .condMove tested src dst] := by
        simp
      rw [split] at gains sound
      exact ⟨after, valueCode ++ front, comparison, tested, src, selected, gains, compares, sound⟩

end

/-- Selection succeeds on conditional jumps and moves whose comparison has no calls. The code ends
in a comparison and, right after it, the conditional jump to the two labels or the conditional move.
Wherever both sides have values, the condition of the jump, read from the flags of the difference
that was taken, is met exactly if the relation holds of the values; and the move leaves the new
value in its destination if it holds, the old one if not, and everything else as it was, except for
its own temporaries and, if there are divisions, `rax` and `rdx`. Labels have any addresses, and
registers, memory and flags hold anything at first.
-/
theorem conditionals_follow_relation (op : RelOp) (left right : Exp) (before : Selection Op)
    (leftCallFree : left.isCallFree = true) (rightCallFree : right.isCallFree = true)
    : (∀ ifTrue ifFalse,
        Placed (.cjump op left right ifTrue ifFalse) before.session.temps
        → ∃ after front comparison tested,
            rules.selectStatement (.cjump op left right ifTrue ifFalse) before = .ok () after
            ∧ before.Gains (front ++ [comparison, .branch tested ifTrue ifFalse]) after
            ∧ comparison.instr.mnemonic = "cmpq"
            ∧ (Op.branch tested ifTrue ifFalse).instr.mnemonic = "j" ++ conditionSuffix tested
            ∧ (Op.branch tested ifTrue ifFalse).instr.jumps = [ifTrue, ifFalse]
            ∧ ∀ (symbols : Label → Word) (machine : Machine) (leftValue rightValue : Word),
                left.eval? symbols machine.toStore = some leftValue
                → right.eval? symbols machine.toStore = some rightValue
                → ∃ last minuend subtrahend,
                    execAll? symbols (front ++ [comparison]) machine = some last
                    ∧ comparison.comparands? last.toStore = some (minuend, subtrahend)
                    ∧ last.flags = some (Flags.ofComparison minuend subtrahend)
                    ∧ (Flags.ofComparison minuend subtrahend).condition? (conditionSuffix tested)
                      = some (op.holds leftValue rightValue))
      ∧ ∀ dst value,
          value.CallsLabels
          → Placed (.cmove op left right dst value) before.session.temps
          → ∃ after front comparison tested src,
              rules.selectStatement (.cmove op left right dst value) before = .ok () after
              ∧ before.Gains (front ++ [comparison, .condMove tested src dst]) after
              ∧ comparison.instr.mnemonic = "cmpq"
              ∧ (Op.condMove tested src dst).instr.mnemonic = "cmov" ++ conditionSuffix tested
              ∧ ∀ (symbols : Label → Word) (machine : Machine)
                  (leftValue rightValue newValue : Word),
                  left.eval? symbols machine.toStore = some leftValue
                  → right.eval? symbols machine.toStore = some rightValue
                  → value.eval? symbols machine.toStore = some newValue
                  → ∃ last,
                      execAll? symbols (front ++ [comparison, .condMove tested src dst]) machine
                        = some last
                      ∧ last.register dst
                        = (if op.holds leftValue rightValue then newValue else machine.register dst)
                      ∧ last.memory = machine.memory
                      ∧ (∀ number < before.session.temps,
                          Temp.virtual number ≠ dst
                          → last.register (.virtual number) = machine.register (.virtual number))
                      ∧ ∀ name,
                          Temp.fixed name ≠ dst
                          → (Stm.cmove op left right dst value).hasDivision = false
                            ∨ (Temp.fixed name ≠ rax ∧ Temp.fixed name ≠ rdx)
                          → last.register (.fixed name) = machine.register (.fixed name) := by
  have leftCalls := Exp.callsLabels_of_isCallFree leftCallFree
  have rightCalls := Exp.callsLabels_of_isCallFree rightCallFree
  constructor
  · intro ifTrue ifFalse placed
    obtain ⟨after, front, comparison, tested, selected, gains, compares, sound⟩ :=
      selectStatement_cjump leftCalls rightCalls placed
    refine ⟨after, front, comparison, tested, selected, gains, compares.mnemonic,
      Op.mnemonic_instr rfl, rfl, ?_⟩
    intro symbols machine leftValue rightValue leftDefined rightDefined
    obtain ⟨last, flags, ran, flagsSet, means⟩ :=
      sound symbols machine leftValue rightValue leftDefined rightDefined
    obtain ⟨minuend, subtrahend, compared, flagsAre⟩ := flags_of_compares compares ran
    obtain rfl := Option.some.inj (flagsSet.symm.trans flagsAre)
    refine ⟨last, minuend, subtrahend, ran, compared, flagsAre, ?_⟩
    rw [Flags.condition?_conditionSuffix, means]
  · intro dst value valueCalls placed
    obtain ⟨after, front, comparison, tested, src, selected, gains, compares, sound⟩ :=
      selectStatement_cmove leftCalls rightCalls valueCalls placed
    refine ⟨after, front, comparison, tested, src, selected, gains, compares.mnemonic,
      Op.mnemonic_instr rfl, ?_⟩
    intro symbols machine leftValue rightValue newValue leftDefined rightDefined newDefined
    have effect
        : (Stm.cmove op left right dst value).effect? symbols machine.toStore
          = some (if op.holds leftValue rightValue then machine.toStore.assign dst newValue
              else machine.toStore) := by
      rw [Stm.effect?, newDefined, leftDefined, rightDefined]
      rfl
    obtain ⟨last, ran, agrees⟩ := sound symbols machine _ effect
    have elsewhere : ∀ register : Temp,
        Stable before.session.temps (Stm.cmove op left right dst value).hasDivision register
        → register ≠ dst
        → last.register register = machine.register register := by
      intro register stable other
      rw [agrees.register stable]
      split
      · exact Store.register_assign_of_ne _ _ other
      · rfl
    refine ⟨last, ran, ?_, ?_, fun number lt => elsewhere (.virtual number) lt,
      fun name other spared => elsewhere (.fixed name) (stable_fixed spared) other⟩
    · rw [agrees.register (placed.stable (show dst ∈ Stm.temps _ by simp))]
      split
      · exact Store.register_assign_self ..
      · rfl
    · rw [agrees.memory]
      split <;> rfl

----------------------------------------------------------------------------------------------
-- A comparison the other way round
----------------------------------------------------------------------------------------------

/-- A table whose length is its first word. -/
def measuredTable : Machine where
  register register := if register = .virtual 0 then 64 else if register = .virtual 2 then -7 else 5
  memory place := if place = 64 then 11 else 0
  flags := none

/-- Whether ten is less than the length of the table at a temporary: as a jump and as a move of a
quotient. The immediate stands on the left, so the words are compared the other way round.
-/
theorem tableLength_follows_relation
    : let length := Exp.mem (.temp (.virtual 0))
      let quotient := Exp.binop .div (.temp (.virtual 2)) (.const 3)
      (∃ after front comparison tested last flags,
        rules.selectStatement (.cjump .ult (.const 10) length ⟨"more"⟩ ⟨"done"⟩)
            { session := { temps := 3 } }
          = .ok () after
        ∧ Selection.Gains { session := { temps := 3 } }
            (front ++ [comparison, .branch tested ⟨"more"⟩ ⟨"done"⟩]) after
        ∧ execAll? (fun _ => 0) (front ++ [comparison]) measuredTable = some last
        ∧ last.flags = some flags
        ∧ flags.condition? (conditionSuffix tested) = some true)
      ∧ ∃ after code last,
          rules.selectStatement (.cmove .ult (.const 10) length (.virtual 1) quotient)
              { session := { temps := 3 } }
            = .ok () after
          ∧ Selection.Gains { session := { temps := 3 } } code after
          ∧ execAll? (fun _ => 0) code measuredTable = some last
          ∧ last.register (.virtual 1) = -2
          ∧ last.register (.virtual 2) = -7 := by
  intro length quotient
  have jumpPlaced : Placed (.cjump .ult (.const 10) length ⟨"more"⟩ ⟨"done"⟩) 3 := by
    refine ⟨?_, .inl (by decide)⟩
    intro number occurs
    simp [length] at occurs
    omega
  have movePlaced : Placed (.cmove .ult (.const 10) length (.virtual 1) quotient) 3 := by
    refine ⟨?_, .inr ⟨by decide, by decide⟩⟩
    intro number occurs
    simp [length, quotient] at occurs
    omega
  obtain ⟨jumps, moves⟩ :=
    conditionals_follow_relation .ult (.const 10) length { session := { temps := 3 } } (by decide)
      (by decide)
  constructor
  · obtain ⟨after, front, comparison, tested, selected, gains, -, -, -, follows⟩ :=
      jumps ⟨"more"⟩ ⟨"done"⟩ jumpPlaced
    obtain ⟨last, _, _, ran, -, flagsSet, met⟩ :=
      follows (fun _ => 0) measuredTable 10 11 rfl (by decide)
    exact ⟨after, front, comparison, tested, last, _, selected, gains, ran, flagsSet, met⟩
  · obtain ⟨after, front, comparison, tested, src, selected, gains, -, -, follows⟩ :=
      moves (.virtual 1) quotient (Exp.callsLabels_of_isCallFree (by decide)) movePlaced
    obtain ⟨last, ran, moved, -, kept, -⟩ :=
      follows (fun _ => 0) measuredTable 10 11 (-2) rfl (by decide) (by decide)
    exact ⟨after, _, last, selected, gains, ran, moved, kept 2 (by decide) (by decide)⟩

end TreeTiling.X64
