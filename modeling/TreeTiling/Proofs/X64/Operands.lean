import TreeTiling.Proofs.Instr.Rendering
import TreeTiling.Proofs.Selection.Scope
import TreeTiling.X64.Op

/-!
The operands of each operation, in the order in which they are written, and the written form.

Templates name registers by their places in the lists of registers written and read. The operands
say the same without places: the text of an operation's instruction, under any naming of its
registers, is the mnemonic followed by the texts of the operands.
-/

namespace TreeTiling.X64

open Instr (Shows)

----------------------------------------------------------------------------------------------
-- Operands
----------------------------------------------------------------------------------------------

/-- The text of a memory operand. -/
def Address.text (naming : Temp → String) : Address → String
  | direct base => "(" ++ naming base ++ ")"
  | displaced offset base => Word.text offset ++ "(" ++ naming base ++ ")"
  | indexed base index => "(" ++ naming base ++ "," ++ naming index ++ ")"
  | scaled base index scale =>
      "(" ++ naming base ++ "," ++ naming index ++ "," ++ Word.text scale ++ ")"

/-- An operand of an operation. -/
inductive Operand where
  | immediate (value : Word)
  | register (name : Temp)
  | memory (address : Address)
  /-- A symbol in memory, addressed from the instruction on. -/
  | relative (symbol : Label)
  /-- A place in the code. -/
  | code (label : Label)
deriving DecidableEq

namespace Operand

def text (naming : Temp → String) : Operand → String
  | immediate value => "$" ++ Word.text value
  | register name => naming name
  | memory address => address.text naming
  | relative symbol => symbol.name ++ "(%rip)"
  | code label => label.name

/-- The registers in an operand. -/
def registers : Operand → List Temp
  | register name => [name]
  | memory address => address.registers
  | _ => []

/-- The labels in an operand. -/
def labels : Operand → List Label
  | relative symbol => [symbol]
  | code label => [label]
  | _ => []

/-- Whether the operand stands in memory. -/
def isMemory : Operand → Bool
  | memory _ | relative _ => true
  | _ => false

end Operand

namespace Op

/-- The word an operation is written with: its mnemonic, or a label's definition. -/
def word : Op → String
  | loadImm _ _ | copy _ _ | load _ _ | store _ _ | storeImm _ _ => "movq"
  | clear _ => "xorq"
  | lea _ _ | leaLabel _ _ => "leaq"
  | compareImm _ _ | compareMem _ _ | compare _ _ => "cmpq"
  | branch op _ _ => jumpMnemonic op
  | condMove op _ _ => moveMnemonic op
  | increment _ => "incq"
  | decrement _ => "decq"
  | arithImm op _ _ | arith op _ _ => op.mnemonic
  | multiplyImm _ _ _ => "imulq"
  | signExtend => "cqto"
  | divide _ => "idivq"
  | jump _ => "jmp"
  | label name => name.name ++ ":"
  | call _ _ => "call"

/-- The operands as they are written: sources first, the destination last. -/
def operands : Op → List Operand
  | loadImm value dst => [.immediate value, .register dst]
  | clear dst => [.register dst, .register dst]
  | copy dst src => [.register src, .register dst]
  | load address dst => [.memory address, .register dst]
  | store src address => [.register src, .memory address]
  | storeImm value address => [.immediate value, .memory address]
  | lea address dst => [.memory address, .register dst]
  | leaLabel symbol dst => [.relative symbol, .register dst]
  | compareImm left right => [.immediate right, .register left]
  | compareMem left right => [.memory right, .register left]
  | compare left right => [.register right, .register left]
  | branch _ ifTrue _ => [.code ifTrue]
  | condMove _ src dst => [.register src, .register dst]
  | increment dst => [.register dst]
  | decrement dst => [.register dst]
  | arithImm _ value dst => [.immediate value, .register dst]
  | arith _ src dst => [.register src, .register dst]
  | multiplyImm value src dst => [.immediate value, .register src, .register dst]
  | signExtend => []
  | divide divisor => [.register divisor]
  | jump target => [.code target]
  | label _ => []
  | call function _ => [.code function]

/-- The labels an operation names. -/
def labels : Op → List Label
  | leaLabel symbol _ => [symbol]
  | branch _ ifTrue ifFalse => [ifTrue, ifFalse]
  | jump target => [target]
  | label name => [name]
  | call function _ => [function]
  | _ => []

/-- A word and the operands after it, which start at their column. -/
def line (word : String) (operands : List String) : String :=
  if operands = [] then word else column word ++ ", ".intercalate operands

/-- The operation as it is written, with every register named by `naming`. -/
def written (naming : Temp → String) (op : Op) : String :=
  line op.word (op.operands.map (Operand.text naming))

----------------------------------------------------------------------------------------------
-- Templates of operands
----------------------------------------------------------------------------------------------

/-- The templates of the operands: places stand for registers and for labels gone to. -/
def operandTemplates : Op → List String
  | loadImm value _ => ["$" ++ Word.text value, "`d0"]
  | clear _ => ["`d0", "`d0"]
  | copy _ _ => [Address.place 0, "`d0"]
  | load address _ => [address.template 0, "`d0"]
  | store _ address => [Address.place address.registers.length, address.template 0]
  | storeImm value address => ["$" ++ Word.text value, address.template 0]
  | lea address _ => [address.template 0, "`d0"]
  | leaLabel symbol _ => [symbol.name ++ "(%rip)", "`d0"]
  | compareImm _ right => ["$" ++ Word.text right, Address.place 0]
  | compareMem _ right => [right.template 1, Address.place 0]
  | compare _ _ => [Address.place 1, Address.place 0]
  | branch _ _ _ => ["`j0"]
  | condMove _ _ _ => [Address.place 0, "`d0"]
  | increment _ => ["`d0"]
  | decrement _ => ["`d0"]
  | arithImm _ value _ => ["$" ++ Word.text value, "`d0"]
  | arith _ _ _ => [Address.place 0, "`d0"]
  | multiplyImm value _ _ => ["$" ++ Word.text value, Address.place 0, "`d0"]
  | signExtend => []
  | divide _ => [Address.place 0]
  | jump _ => ["`j0"]
  | label _ => []
  | call function _ => [function.name]

theorem toList_pushn (text : String) (character : Char) (count : Nat)
    : (text.pushn character count).toList = text.toList ++ List.replicate count character := by
  unfold String.pushn
  induction count with
  | zero => simp [Nat.repeat]
  | succ count ih =>
      rw [Nat.repeat, String.toList_push, ih, List.replicate_succ', List.append_assoc]

@[simp] theorem toList_column (word : String)
    : (column word).toList = word.toList ++ List.replicate (8 - word.toList.length) ' ' := by
  rw [column, Text.alignLeft, toList_pushn, String.length_toList]

/-- Every template is a line of the templates of its operands. -/
theorem template_instr (op : Op) : op.instr.template = line op.word op.operandTemplates := by
  have first : (Address.place 0).toList = ['\x60', 's', '0'] := by decide
  have second : (Address.place 1).toList = ['\x60', 's', '1'] := by decide
  apply String.toList_injective
  cases op <;>
    simp [instr, Instr.straight, Instr.branch, Instr.jump, Instr.template, line, word,
      operandTemplates, first, second]

/-- A word without blanks that leaves room in its column is the first word of its line. -/
theorem firstWord_line {word : String} (solid : word.toList.all (!Text.isBlank ·) = true)
    (isWord : word.toList ≠ []) (short : word.toList.length < 8) (operands : List String)
    : Text.firstWord (line word operands) = word := by
  have spelled : ∃ rest : List Char,
      (line word operands).toList = word.toList ++ rest
      ∧ rest.takeWhile (fun c => !Text.isBlank c) = [] := by
    rw [line]
    split
    · exact ⟨[], (List.append_nil _).symm, rfl⟩
    · obtain ⟨room, isRoom⟩ := Nat.exists_eq_add_of_lt short
      have padded : 8 - word.toList.length = room + 1 := by omega
      rw [String.toList_append, toList_column, padded, List.append_assoc]
      exact ⟨_, rfl, rfl⟩
  obtain ⟨rest, isLine, ends⟩ := spelled
  obtain ⟨first, others, isFirst⟩ := List.exists_cons_of_ne_nil isWord
  have allSolid := List.all_eq_true.mp solid
  have firstSolid : ¬ Text.isBlank first = true := by
    simpa using allSolid first (isFirst ▸ List.mem_cons_self)
  have noBlanks : (word.toList ++ rest).dropWhile Text.isBlank = word.toList ++ rest := by
    rw [isFirst, List.cons_append, List.dropWhile_cons_of_neg firstSolid]
  rw [Text.firstWord, isLine, noBlanks, List.takeWhile_append_of_pos allSolid, ends,
    List.append_nil, String.ofList_toList]

/-- Statistics count an operation under its word; definitions of labels have any. -/
theorem mnemonic_instr {op : Op} (notLabel : op.instr.labelName? = none)
    : op.instr.mnemonic = op.word := by
  have regular : op.word.toList.all (!Text.isBlank ·) = true
      ∧ op.word.toList ≠ []
      ∧ op.word.toList.length < 8 := by
    cases op with
    | branch op _ _ | condMove op _ _ | arithImm op _ _ | arith op _ _ =>
        cases op <;> (rw [word]; decide)
    | label name => cases notLabel
    | _ =>
        rw [word]
        decide
  obtain ⟨solid, isWord, short⟩ := regular
  rw [Instr.mnemonic, template_instr, firstWord_line solid isWord short]

end Op

----------------------------------------------------------------------------------------------
-- Texts of operands
----------------------------------------------------------------------------------------------

section Shown

variable {instr : Instr} {naming : Temp → String}

theorem shows_read {index : Nat} {register : Temp} (found : instr.uses[index]? = some register)
    : Shows instr naming (Address.place index) (naming register) :=
  .place .read index (by simp only [Instr.operandText?, found, Option.map_some])
    (by simp only [Address.place, String.toList_append, Nat.toList_repr]; rfl)

theorem shows_written {register : Temp} (found : instr.defs[0]? = some register)
    : Shows instr naming "`d0" (naming register) :=
  .place .written 0 (by simp only [Instr.operandText?, found, Option.map_some]) (by decide)

theorem shows_target {label : Label} (found : instr.jumps[0]? = some label)
    : Shows instr naming "`j0" label.name :=
  .place .target 0 (by simp only [Instr.operandText?, found, Option.map_some]) (by decide)

theorem noPlace_toDigits (number : Nat) : '\x60' ∉ Nat.toDigits 10 number :=
  Text.notMem_toDigits (by decide) number

/-- No place opens in the text of a word, which consists of digits and a sign. -/
theorem noPlace_text (word : Word) : '\x60' ∉ (Word.text word).toList := by
  unfold Word.text
  cases word.toInt with
  | ofNat number => simpa [Int.repr, Nat.repr] using noPlace_toDigits number
  | negSucc number => simpa [Int.repr, Nat.repr] using noPlace_toDigits (number + 1)

theorem shows_immediate (value : Word)
    : Shows instr naming ("$" ++ Word.text value) ("$" ++ Word.text value) :=
  (Shows.plain (noPlace_text value)).prepend (by decide)

/-- An address stands for its text where its registers are read from place `first` on. -/
theorem shows_address {first : Nat} {others : List Temp} (address : Address)
    (found : instr.uses.drop first = address.registers ++ others)
    : Shows instr naming (address.template first) (address.text naming) := by
  have read (index : Nat) (register : Temp)
      (isNext : (address.registers ++ others)[index]? = some register)
      : Shows instr naming (Address.place (first + index)) (naming register) :=
    shows_read (by rw [← List.getElem?_drop, found, isNext])
  have close : Shows instr naming ")" ")" := .plain (by decide)
  have pair (base index : Temp)
      (baseShown : Shows instr naming (Address.place first) (naming base))
      (indexShown : Shows instr naming (Address.place (first + 1)) (naming index))
      : Shows instr naming ("(" ++ Address.place first ++ "," ++ Address.place (first + 1))
          ("(" ++ naming base ++ "," ++ naming index) :=
    (baseShown.prepend (by decide)).separated "," (by decide) (by decide) indexShown
  cases address with
  | direct base => exact ((read 0 base rfl).prepend (by decide)).append (by decide) close
  | displaced offset base =>
      have front : '\x60' ∉ (Word.text offset ++ "(").toList := by
        simp [noPlace_text]
      exact ((read 0 base rfl).prepend front).append (by decide) close
  | indexed base index =>
      exact (pair base index (read 0 base rfl) (read 1 index rfl)).append (by decide) close
  | scaled base index scale =>
      have scaled := (pair base index (read 0 base rfl) (read 1 index rfl)).separated ","
        (by decide) (by decide) (.plain (noPlace_text scale))
      exact scaled.append (by decide) close

end Shown

namespace Op

/-- Every operand's template stands for the operand's text. -/
theorem shows_operands (naming : Temp → String) (op : Op)
    (noPlace : ∀ label ∈ op.labels, '\x60' ∉ label.name.toList)
    : List.Forall₂ (Shows op.instr naming) op.operandTemplates
        (op.operands.map (Operand.text naming)) := by
  cases op with
  | loadImm value dst => exact .cons (shows_immediate value) (.cons (shows_written rfl) .nil)
  | clear dst => exact .cons (shows_written rfl) (.cons (shows_written rfl) .nil)
  | copy dst src => exact .cons (shows_read rfl) (.cons (shows_written rfl) .nil)
  | load address dst =>
      exact .cons (shows_address address (List.append_nil _).symm) (.cons (shows_written rfl) .nil)
  | store src address =>
      have stored : (store src address).instr.uses[address.registers.length]? = some src :=
        List.getElem?_concat_length
      exact .cons (shows_read stored) (.cons (shows_address address rfl) .nil)
  | storeImm value address =>
      exact .cons (shows_immediate value)
        (.cons (shows_address address (List.append_nil _).symm) .nil)
  | lea address dst =>
      exact .cons (shows_address address (List.append_nil _).symm) (.cons (shows_written rfl) .nil)
  | leaLabel symbol dst =>
      have plain := noPlace symbol (by simp [labels])
      refine .cons (.plain ?_) (.cons (shows_written rfl) .nil)
      simp [plain]
  | compareImm left right => exact .cons (shows_immediate right) (.cons (shows_read rfl) .nil)
  | compareMem left right =>
      exact .cons (shows_address right (List.append_nil _).symm) (.cons (shows_read rfl) .nil)
  | compare left right => exact .cons (shows_read rfl) (.cons (shows_read rfl) .nil)
  | branch op ifTrue ifFalse => exact .cons (shows_target rfl) .nil
  | condMove op src dst => exact .cons (shows_read rfl) (.cons (shows_written rfl) .nil)
  | increment dst => exact .cons (shows_written rfl) .nil
  | decrement dst => exact .cons (shows_written rfl) .nil
  | arithImm op value dst => exact .cons (shows_immediate value) (.cons (shows_written rfl) .nil)
  | arith op src dst => exact .cons (shows_read rfl) (.cons (shows_written rfl) .nil)
  | multiplyImm value src dst =>
      exact .cons (shows_immediate value)
        (.cons (shows_read rfl) (.cons (shows_written rfl) .nil))
  | signExtend => exact .nil
  | divide divisor => exact .cons (shows_read rfl) .nil
  | jump target => exact .cons (shows_target rfl) .nil
  | label name => exact .nil
  | call function arguments =>
      exact .cons (.plain (noPlace function (by simp [labels]))) .nil

/-- No place opens in a word, unless it opens in the label that the word defines. -/
theorem noPlace_word (op : Op) (noPlace : ∀ label ∈ op.labels, '\x60' ∉ label.name.toList)
    : '\x60' ∉ op.word.toList := by
  cases op with
  | branch op _ _ => cases op <;> simp [word, jumpMnemonic, conditionSuffix]
  | condMove op _ _ => cases op <;> simp [word, moveMnemonic, conditionSuffix]
  | arithImm op _ _ | arith op _ _ => cases op <;> simp [word, Arith.mnemonic]
  | label name => simpa [word] using noPlace name (by simp [labels])
  | _ => simp [word]

/-- The places of an operation's instruction are filled, and its text is the written form. -/
theorem textWith_instr (naming : Temp → String) (op : Op)
    (noPlace : ∀ label ∈ op.labels, '\x60' ∉ label.name.toList)
    : op.instr.Filled ∧ op.instr.textWith naming = op.written naming := by
  have parts := op.shows_operands naming noPlace
  have noPlaceWord := op.noPlace_word noPlace
  apply Shows.textWith
  rw [template_instr, written, line, line]
  by_cases none : op.operandTemplates = []
  · have noOperands : op.operands.map (Operand.text naming) = [] := by
      rw [none] at parts
      exact List.forall₂_nil_left_iff.mp parts
    rw [if_pos none, if_pos noOperands]
    exact .plain noPlaceWord
  · have someOperand : op.operands.map (Operand.text naming) ≠ [] := by
      intro noOperands
      rw [noOperands] at parts
      exact none (List.forall₂_nil_right_iff.mp parts)
    rw [if_neg none, if_neg someOperand]
    exact (Shows.joined parts).prepend (by simp [noPlaceWord])

/-- The instruction lists the registers of the operands. -/
theorem registers_operands (op : Op)
    : ∀ operand ∈ op.operands, operand.registers ⊆ op.instr.registers := by
  cases op <;>
    simp [operands, Operand.registers, instr, Instr.straight, Instr.registers, Instr.defs,
      Instr.uses]

theorem labels_operands (op : Op) : ∀ operand ∈ op.operands, operand.labels ⊆ op.labels := by
  cases op <;> simp [operands, Operand.labels, labels]

end Op

----------------------------------------------------------------------------------------------
-- Written forms without places
----------------------------------------------------------------------------------------------

theorem Address.noPlace_text {naming : Temp → String} (address : Address)
    (names : ∀ register ∈ address.registers, '\x60' ∉ (naming register).toList)
    : '\x60' ∉ (address.text naming).toList := by
  cases address <;>
    simp_all [Address.text, Address.registers, X64.noPlace_text]

theorem Operand.noPlace_text {naming : Temp → String} (operand : Operand)
    (labels : ∀ label ∈ operand.labels, '\x60' ∉ label.name.toList)
    (names : ∀ register ∈ operand.registers, '\x60' ∉ (naming register).toList)
    : '\x60' ∉ (operand.text naming).toList := by
  cases operand with
  | immediate value => simpa [Operand.text] using X64.noPlace_text value
  | register name => exact names name List.mem_cons_self
  | memory address => exact address.noPlace_text names
  | relative symbol => simpa [Operand.text] using labels symbol List.mem_cons_self
  | code label => exact labels label List.mem_cons_self

/-- No place opens in a written operation if none opens in its labels and in the names of its
registers.
-/
theorem Op.noPlace_written {naming : Temp → String} (op : Op)
    (labels : ∀ label ∈ op.labels, '\x60' ∉ label.name.toList)
    (names : ∀ register ∈ op.instr.registers, '\x60' ∉ (naming register).toList)
    : '\x60' ∉ (op.written naming).toList := by
  have operands : ∀ text ∈ op.operands.map (Operand.text naming), '\x60' ∉ text.toList := by
    intro text member
    obtain ⟨operand, isOperand, rfl⟩ := List.mem_map.mp member
    exact operand.noPlace_text
      (fun label occurs => labels label (op.labels_operands operand isOperand occurs))
      (fun register occurs => names register (op.registers_operands operand isOperand occurs))
  rw [Op.written, Op.line]
  split
  · exact op.noPlace_word labels
  · rw [String.toList_append, List.mem_append, not_or]
    exact ⟨by simp [op.noPlace_word labels], Text.notMem_commaSeparated (by decide) operands⟩

end TreeTiling.X64
