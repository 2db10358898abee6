import TreeTiling.Proofs.X64.Machine
import TreeTiling.Proofs.X64.Operands

/-!
The effect of code as it is written.

A line has a word and operands, those of the text of an instruction, and here its effect is read off
these alone: the mnemonic says what is done, and the order of the operands which of them is the
destination. Main statements: every operation has the effect of its line, and the machine takes the
steps of the lines.
-/

namespace TreeTiling.X64

/-- A line of code: a mnemonic with its operands, or the definition of a label. -/
structure Line where
  word : String
  operands : List Operand
deriving DecidableEq

def Op.toLine (op : Op) : Line :=
  { word := op.word, operands := op.operands }

----------------------------------------------------------------------------------------------
-- Conditions
----------------------------------------------------------------------------------------------

namespace Flags

/-- Whether the condition of a mnemonic suffix is met; other suffixes have no condition. -/
def condition? (flags : Flags) : String → Option Bool
  | "e" => some flags.zero
  | "ne" => some (!flags.zero)
  | "l" => some (flags.sign != flags.overflow)
  | "le" => some (flags.zero || flags.sign != flags.overflow)
  | "g" => some (!flags.zero && flags.sign == flags.overflow)
  | "ge" => some (flags.sign == flags.overflow)
  | "b" => some flags.carry
  | "be" => some (flags.carry || flags.zero)
  | "a" => some (!flags.carry && !flags.zero)
  | "ae" => some (!flags.carry)
  | _ => none

/-- The suffix of a relation has the condition that the machine tests for it. -/
theorem condition?_conditionSuffix (flags : Flags) (op : RelOp)
    : flags.condition? (conditionSuffix op) = some (flags.test op) := by
  cases op <;> rfl

/-- Whether the condition is met that a word has behind a stem. -/
def conditionAfter? (flags : Flags) (stem word : String) : Option Bool :=
  if stem.toList <+: word.toList then
    flags.condition? (String.ofList (word.toList.drop stem.toList.length))
  else
    none

theorem conditionAfter?_append (flags : Flags) (stem : String) (op : RelOp)
    : flags.conditionAfter? stem (stem ++ conditionSuffix op) = some (flags.test op) := by
  rw [conditionAfter?, String.toList_append, if_pos (List.prefix_append _ _), List.drop_left,
    String.ofList_toList, condition?_conditionSuffix]

end Flags

----------------------------------------------------------------------------------------------
-- Operands
----------------------------------------------------------------------------------------------

namespace Operand

/-- The word that an operand holds. Immediates have 32 bits, and labels hold no word. -/
def value? (store : Store) : Operand → Option Word
  | immediate value => some (extendImm32 value)
  | register name => some (store.register name)
  | memory address => some (store.memory (address.locate store))
  | relative _ | code _ => none

/-- Where in memory an operand is. -/
def location? (symbols : Label → Word) (store : Store) : Operand → Option Word
  | memory address => some (address.locate store)
  | relative symbol => some (symbols symbol)
  | _ => none

/-- Puts a word into a register or into memory. -/
def put? (machine : Machine) (value : Word) : Operand → Option Machine
  | register name => some (machine.move name value)
  | memory address => some (machine.store (address.locate machine.toStore) value)
  | _ => none

end Operand

----------------------------------------------------------------------------------------------
-- Lines
----------------------------------------------------------------------------------------------

/-- The arithmetic of a mnemonic, on the destination and the source. -/
def arithmetic? : String → Option (Word → Word → Word)
  | "addq" => some fun dst src => dst + src
  | "subq" => some fun dst src => dst - src
  | "imulq" => some fun dst src => dst * src
  | "andq" => some fun dst src => dst &&& src
  | "orq" => some fun dst src => dst ||| src
  | "xorq" => some fun dst src => dst ^^^ src
  | _ => none

theorem arithmetic?_mnemonic (op : Arith) : arithmetic? op.mnemonic = some op.apply := by
  cases op <;> rfl

namespace Line

/-- The two words that a line compares, if it does: the first is the destination's. -/
def comparands? (store : Store) : Line → Option (Word × Word)
  | ⟨"cmpq", [source, destination]⟩ => do
      return (← destination.value? store, ← source.value? store)
  | _ => none

/-- The effect of a mnemonic without operands, or of a label's definition. -/
def effectOfNone? (machine : Machine) (word : String) : Option Machine :=
  if word.toList.getLast? = some ':' then
    some machine
  else if word = "cqto" then
    some (machine.move rdx (if (machine.register rax).msb then BitVec.allOnes 64 else 0))
  else
    none

/-- The effect of a mnemonic on a register. -/
def effectOfOne? (machine : Machine) (operand : Temp) : String → Option Machine
  | "incq" => some (machine.compute operand (machine.register operand + 1))
  | "decq" => some (machine.compute operand (machine.register operand - 1))
  | "idivq" => do
      let (quotient, remainder) ←
        quotient? (machine.register rdx) (machine.register rax) (machine.register operand)
      return (machine.compute rax quotient).compute rdx remainder
  | _ => none

/-- The effect of a mnemonic that replaces a register by what it makes of a word: arithmetic or a
conditional move.
-/
def effectOnRegister? (machine : Machine) (word : String) (value : Word) (dst : Temp)
    : Option Machine :=
  match arithmetic? word with
  | some apply => some (machine.compute dst (apply (machine.register dst) value))
  | none => do
      let flags ← machine.flags
      let met ← flags.conditionAfter? "cmov" word
      return if met then machine.move dst value else machine

/-- The effect of a line after which control goes on; `symbols` gives the addresses of labels. Only
a move to a register takes an immediate of 64 bits.
-/
def effect? (symbols : Label → Word) (machine : Machine) : Line → Option Machine
  | ⟨word, []⟩ => effectOfNone? machine word
  | ⟨word, [.register operand]⟩ => effectOfOne? machine operand word
  | ⟨"movq", [.immediate value, .register dst]⟩ => some (machine.move dst value)
  | ⟨"movq", [source, destination]⟩ => do
      destination.put? machine (← source.value? machine.toStore)
  | ⟨"leaq", [source, .register dst]⟩ => do
      return machine.move dst (← source.location? symbols machine.toStore)
  | ⟨"cmpq", [source, destination]⟩ => do
      let (left, right) ← comparands? machine.toStore ⟨"cmpq", [source, destination]⟩
      return machine.compare left right
  | ⟨word, [source, .register dst]⟩ => do
      effectOnRegister? machine word (← source.value? machine.toStore) dst
  | ⟨"imulq", [.immediate value, .register src, .register dst]⟩ =>
      some (machine.compute dst (machine.register src * extendImm32 value))
  | _ => none

/-- All mnemonics but three make something of the destination itself. -/
theorem effect?_onRegister (symbols : Label → Word) (machine : Machine) {word : String}
    (other : word ∉ ["movq", "leaq", "cmpq"]) (source : Operand) (dst : Temp)
    : effect? symbols machine ⟨word, [source, .register dst]⟩
      = (source.value? machine.toStore).bind (effectOnRegister? machine word · dst) := by
  simp only [List.mem_cons, List.not_mem_nil, or_false, not_or] at other
  unfold effect?
  split <;> simp_all

end Line

/-- Every operation has the effect of its line. -/
theorem exec?_eq_effect? (symbols : Label → Word) (machine : Machine) (op : Op)
    : op.exec? symbols machine = op.toLine.effect? symbols machine := by
  cases op with
  | clear dst =>
      show some (machine.compute dst 0)
        = some (machine.compute dst (machine.register dst ^^^ machine.register dst))
      rw [BitVec.xor_self]
      rfl
  | condMove op src dst =>
      have other : moveMnemonic op ∉ ["movq", "leaq", "cmpq"] := by cases op <;> decide
      have noArithmetic : arithmetic? (moveMnemonic op) = none := by cases op <;> rfl
      rw [Op.toLine, Op.word, Op.operands, Line.effect?_onRegister symbols machine other,
        Operand.value?, Option.bind_some, Line.effectOnRegister?, noArithmetic, moveMnemonic]
      simp only [Flags.conditionAfter?_append]
      rfl
  | arithImm op value dst | arith op src dst =>
      have other : op.mnemonic ∉ ["movq", "leaq", "cmpq"] := by cases op <;> decide
      rw [Op.toLine, Op.word, Op.operands, Line.effect?_onRegister symbols machine other,
        Operand.value?, Option.bind_some, Line.effectOnRegister?, arithmetic?_mnemonic]
      rfl
  | label name =>
      show some machine = Line.effectOfNone? machine (name.name ++ ":")
      rw [Line.effectOfNone?, if_pos (by simp)]
  | _ => rfl

namespace Line

variable {line : Line} {left right : Word}

theorem eq_of_comparands? {store : Store} (found : line.comparands? store = some (left, right))
    : ∃ source destination, line = ⟨"cmpq", [source, destination]⟩ := by
  unfold comparands? at found
  split at found
  · exact ⟨_, _, rfl⟩
  · cases found

/-- A line that compares sets the flags from its two words and changes nothing else. -/
theorem effect?_of_comparands? {machine : Machine}
    (found : line.comparands? machine.toStore = some (left, right)) (symbols : Label → Word)
    : line.effect? symbols machine = some (machine.compare left right) := by
  obtain ⟨source, destination, rfl⟩ := eq_of_comparands? found
  have effect : effect? symbols machine ⟨"cmpq", [source, destination]⟩
      = (comparands? machine.toStore ⟨"cmpq", [source, destination]⟩).map
          fun words => machine.compare words.1 words.2 := by
    cases source <;> cases destination <;> rfl
  rw [effect, found, Option.map_some]

end Line

----------------------------------------------------------------------------------------------
-- Runs
----------------------------------------------------------------------------------------------

namespace Line

/-- The effect of lines in order. -/
def effectAll? (symbols : Label → Word) : List Line → Machine → Option Machine
  | [], machine => some machine
  | line :: rest, machine => (line.effect? symbols machine).bind (effectAll? symbols rest)

/-- The last line that defines a label. -/
def definition? (code : Array Line) (label : Label) : Option Nat :=
  (List.range code.size).reverse.find? fun position =>
    code[position]? == some ⟨label.name ++ ":", []⟩

/-- One step of a run through lines. A jump has its target as its operand. -/
def step? (symbols : Label → Word) (code : Array Line) (point : CodePoint) : Option CodePoint := do
  let goTo (label : Label) : Option CodePoint :=
    (definition? code label).map fun position => { point with position }
  let line ← code[point.position]?
  match line.operands with
  | [.code target] =>
      if line.word = "jmp" then
        goTo target
      else
        let flags ← point.machine.flags
        let met ← flags.conditionAfter? "j" line.word
        if met then goTo target else some { point with position := point.position + 1 }
  | _ => return { position := point.position + 1, machine := ← line.effect? symbols point.machine }

end Line

/-- Operations in order have the effect of their lines in order. -/
theorem execAll?_eq_lines (symbols : Label → Word) (code : List Op) (machine : Machine)
    : execAll? symbols code machine = Line.effectAll? symbols (code.map Op.toLine) machine := by
  induction code generalizing machine with
  | nil => rfl
  | cons op rest ih =>
      rw [execAll?, List.map_cons, Line.effectAll?, exec?_eq_effect?]
      exact congrArg _ (funext ih)

/-- The instruction that defines a label is written as its definition. -/
theorem labelName?_eq_some_iff {op : Op} {label : Label}
    : op.instr.labelName? = some label ↔ op.toLine = ⟨label.name ++ ":", []⟩ := by
  constructor
  · intro defines
    cases op with
    | label name =>
        obtain rfl := Option.some.inj defines
        rfl
    | _ => cases defines
  · intro same
    obtain ⟨sameWord, noOperands⟩ := Line.mk.inj same
    cases op with
    | label name =>
        have sameName : name.name = label.name := by
          rw [← String.toList_inj, Op.word, String.toList_append, String.toList_append,
            List.append_left_inj, String.toList_inj] at sameWord
          exact sameWord
        exact congrArg (fun text => some (Label.mk text)) sameName
    | signExtend =>
        have sameEnd := congrArg (fun word => word.toList.getLast?) sameWord
        simp [Op.word] at sameEnd
    | _ => cases noOperands

theorem labelNode?_eq_definition? (code : Array Op) (label : Label)
    : FlowGraph.labelNode? (code.map Op.instr) label
      = Line.definition? (code.map Op.toLine) label := by
  have pointwise (position : Nat)
      : ((code.map Op.instr)[position]?.bind Instr.labelName? == some label)
        = ((code.map Op.toLine)[position]? == some ⟨label.name ++ ":", []⟩) := by
    rw [Array.getElem?_map, Array.getElem?_map]
    cases code[position]? with
    | none => rfl
    | some op =>
        rw [Bool.eq_iff_iff]
        simp [labelName?_eq_some_iff]
  simp only [FlowGraph.labelNode?, Line.definition?, Array.size_map, pointwise]

/-- The machine takes the steps of the lines. -/
theorem step?_eq_lines (symbols : Label → Word) (code : Array Op) (point : CodePoint)
    : step? symbols code point = Line.step? symbols (code.map Op.toLine) point := by
  rw [step?, Line.step?]
  simp only [labelNode?_eq_definition?, Array.getElem?_map]
  cases code[point.position]? with
  | none => rfl
  | some op =>
      cases op with
      | branch op ifTrue ifFalse =>
          have conditional : jumpMnemonic op ≠ "jmp" := by cases op <;> decide
          simp only [Option.map_some, Op.toLine, Op.word, Op.operands, Option.bind_eq_bind,
            Option.bind_some, if_neg conditional]
          rw [jumpMnemonic]
          simp only [Flags.conditionAfter?_append]
          rfl
      | jump target => rfl
      | call function arguments =>
          have noCondition (flags : Flags) : flags.conditionAfter? "j" "call" = none :=
            if_neg (by decide)
          have noJump : "call" ≠ "jmp" := by decide
          simp only [Option.map_some, Op.toLine, Op.word, Op.operands, Option.bind_eq_bind,
            Option.bind_some, if_neg noJump, noCondition, Option.bind_none, Option.bind_fun_none]
          rfl
      | _ =>
          simp only [exec?_eq_effect?]
          rfl

theorem reaches_eq_lines (symbols : Label → Word) (code : Array Op)
    : Reaches symbols code
      = Relation.ReflTransGen fun before after =>
          Line.step? symbols (code.map Op.toLine) before = some after := by
  simp only [Reaches, step?_eq_lines]

end TreeTiling.X64
