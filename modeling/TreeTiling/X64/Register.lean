import TreeTiling.Tree

/-!
The machine registers of x86-64 and their roles in the System V calling convention.

The first six arguments travel in registers. Later ones go to eight-byte slots of the outgoing
area, which starts at the stack pointer. The result comes back in `rax`.
-/

namespace TreeTiling.X64

def rax : Temp := .fixed "%rax"
def rbx : Temp := .fixed "%rbx"
def rcx : Temp := .fixed "%rcx"
def rdx : Temp := .fixed "%rdx"
def rsi : Temp := .fixed "%rsi"
def rdi : Temp := .fixed "%rdi"
def rsp : Temp := .fixed "%rsp"
def rbp : Temp := .fixed "%rbp"
def r8 : Temp := .fixed "%r8"
def r9 : Temp := .fixed "%r9"
def r10 : Temp := .fixed "%r10"
def r11 : Temp := .fixed "%r11"
def r12 : Temp := .fixed "%r12"
def r13 : Temp := .fixed "%r13"
def r14 : Temp := .fixed "%r14"
def r15 : Temp := .fixed "%r15"

/-- All machine registers. -/
def registers : List Temp :=
  [rax, rbx, rcx, rdx, rsi, rdi, rsp, rbp, r8, r9, r10, r11, r12, r13, r14, r15]

/-- The argument registers, in the order of the arguments. -/
def argRegs : List Temp :=
  [rdi, rsi, rdx, rcx, r8, r9]

/-- The registers a callee may overwrite. -/
def callerSaves : List Temp :=
  [rax, rcx, rdx, rsi, rdi, r8, r9, r10, r11]

/-- The registers a callee preserves. -/
def calleeSaves : List Temp :=
  [rbx, r12, r13, r14, r15]

/-- The stack and frame pointers, which every call reads. -/
def specials : List Temp :=
  [rsp, rbp]

/-- The register that holds the result of a call. -/
def returnReg : Temp := rax

/-- The number of bytes in a word. -/
def wordSize : Nat := 8

/-- The register with a name, which may be given with or without its percent sign. -/
def register? (name : String) : Option Temp :=
  let letters :=
    match name.toList with
    | '%' :: letters => letters
    | letters => letters
  registers.find? fun register => register.text.toList == '%' :: letters

/-- Where the argument with an index, counted from zero, is left for the callee. -/
def outArg (index : Nat) : Exp :=
  match argRegs[index]? with
  | some register => .temp register
  | none =>
      let slot := BitVec.ofNat 64 ((index - argRegs.length) * wordSize)
      .mem (.binop .plus (.temp rsp) (.const slot))

end TreeTiling.X64
