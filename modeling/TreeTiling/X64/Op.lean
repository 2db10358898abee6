import TreeTiling.Instr
import TreeTiling.Selection
import TreeTiling.Text.Column
import TreeTiling.X64.Condition
import TreeTiling.X64.Register

/-!
The x86-64 operations that selection emits, and the abstract instruction of each.

Operations are data, so that their effect can be stated without looking at any text. Texts follow
the AT&T order of operands: the destination comes last.
-/

namespace TreeTiling.X64

----------------------------------------------------------------------------------------------
-- Addresses
----------------------------------------------------------------------------------------------

/-- The forms of a memory operand. -/
inductive Address where
  | direct (base : Temp)
  | displaced (offset : Word) (base : Temp)
  | indexed (base index : Temp)
  | scaled (base index : Temp) (scale : Word)
deriving DecidableEq

namespace Address

/-- The registers an address is computed from. -/
def registers : Address → List Temp
  | direct base => [base]
  | displaced _ base => [base]
  | indexed base index => [base, index]
  | scaled base index _ => [base, index]

/-- The place of a register read, in a template. -/
def place (index : Nat) : String :=
  "`s" ++ index.repr

/-- The template of an address whose registers are read from place `first` on. -/
def template (first : Nat) : Address → String
  | direct _ => "(" ++ place first ++ ")"
  | displaced offset _ => Word.text offset ++ "(" ++ place first ++ ")"
  | indexed _ _ => "(" ++ place first ++ "," ++ place (first + 1) ++ ")"
  | scaled _ _ scale =>
      "(" ++ place first ++ "," ++ place (first + 1) ++ "," ++ Word.text scale ++ ")"

end Address

----------------------------------------------------------------------------------------------
-- Operations
----------------------------------------------------------------------------------------------

/-- Arithmetic that replaces its second operand by a result. -/
inductive Arith where
  | add
  | sub
  | imul
  | and
  | or
  | xor
deriving DecidableEq

def Arith.mnemonic : Arith → String
  | add => "addq"
  | sub => "subq"
  | imul => "imulq"
  | and => "andq"
  | or => "orq"
  | xor => "xorq"

/-- The operations of the machine that selection makes use of. -/
inductive Op where
  | loadImm (value : Word) (dst : Temp)
  /-- Clears a register without reading it. -/
  | clear (dst : Temp)
  | copy (dst src : Temp)
  | load (address : Address) (dst : Temp)
  | store (src : Temp) (address : Address)
  | storeImm (value : Word) (address : Address)
  | lea (address : Address) (dst : Temp)
  | leaLabel (symbol : Label) (dst : Temp)
  /-- Compares a register with an immediate. -/
  | compareImm (left : Temp) (right : Word)
  /-- Compares a register with a word in memory. -/
  | compareMem (left : Temp) (right : Address)
  | compare (left right : Temp)
  /-- Goes to the first label if the relation holds of what was compared last. -/
  | branch (op : RelOp) (ifTrue ifFalse : Label)
  /-- Copies if the relation holds of what was compared last. -/
  | condMove (op : RelOp) (src dst : Temp)
  | increment (dst : Temp)
  | decrement (dst : Temp)
  | arithImm (op : Arith) (value : Word) (dst : Temp)
  | arith (op : Arith) (src dst : Temp)
  | multiplyImm (value : Word) (src dst : Temp)
  /-- Extends the sign of `rax` into `rdx`. -/
  | signExtend
  /-- Divides `rdx:rax`, leaving the quotient in `rax` and the remainder in `rdx`. -/
  | divide (divisor : Temp)
  | jump (target : Label)
  | label (name : Label)
  /-- Calls a function that is passed a number of arguments. -/
  | call (function : Label) (arguments : Nat)
deriving DecidableEq

namespace Op

/-- A mnemonic filled up to the column of the operands. -/
def column (mnemonic : String) : String :=
  Text.alignLeft 8 mnemonic

/-- The argument registers that a call with a number of arguments passes. -/
def passed (arguments : Nat) : List Temp :=
  argRegs.take arguments

/-- The abstract instruction of an operation. A call writes every register that a callee may
overwrite, and the argument registers are among them.
-/
def instr : Op → Instr
  | loadImm value dst => .straight ("movq    $" ++ Word.text value ++ ", `d0") [dst] []
  | clear dst => .straight "xorq    `d0, `d0" [dst] []
  | copy dst src => .move "movq    `s0, `d0" dst src
  | load address dst =>
      .straight ("movq    " ++ address.template 0 ++ ", `d0") [dst] address.registers
  | store src address =>
      .straight
        ("movq    " ++ Address.place address.registers.length ++ ", " ++ address.template 0)
        [] (address.registers ++ [src])
  | storeImm value address =>
      .straight ("movq    $" ++ Word.text value ++ ", " ++ address.template 0) []
        address.registers
  | lea address dst =>
      .straight ("leaq    " ++ address.template 0 ++ ", `d0") [dst] address.registers
  | leaLabel symbol dst => .straight ("leaq    " ++ symbol.name ++ "(%rip), `d0") [dst] []
  | compareImm left right => .straight ("cmpq    $" ++ Word.text right ++ ", `s0") [] [left]
  | compareMem left right =>
      .straight ("cmpq    " ++ right.template 1 ++ ", `s0") [] (left :: right.registers)
  | compare left right => .straight "cmpq    `s1, `s0" [] [left, right]
  | branch op ifTrue ifFalse =>
      .branch (column (jumpMnemonic op) ++ "`j0") [] [ifTrue, ifFalse]
  | condMove op src dst =>
      .straight (column (moveMnemonic op) ++ "`s0, `d0") [dst] [src, dst]
  | increment dst => .straight "incq    `d0" [dst] [dst]
  | decrement dst => .straight "decq    `d0" [dst] [dst]
  | arithImm op value dst =>
      .straight (column op.mnemonic ++ "$" ++ Word.text value ++ ", `d0") [dst] [dst]
  | arith op src dst => .straight (column op.mnemonic ++ "`s0, `d0") [dst] [src, dst]
  | multiplyImm value src dst =>
      .straight ("imulq   $" ++ Word.text value ++ ", `s0, `d0") [dst] [src]
  | signExtend => .straight "cqto" [rdx] [rax]
  | divide divisor => .straight "idivq   `s0" [rax, rdx] [divisor, rax, rdx]
  | jump target => .jump "jmp     `j0" [target]
  | label name => .label (name.name ++ ":") name
  | call function arguments =>
      .straight ("call    " ++ function.name) callerSaves (specials ++ passed arguments)

instance : Emittable Op where
  instr := instr

end Op

end TreeTiling.X64
