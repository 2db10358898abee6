import TreeTiling.Instr.Template
import TreeTiling.Temp
import TreeTiling.Text.Blank

/-!
Abstract instructions: a template together with the registers it writes and reads, the labels it
may go to, and whether control can reach the instruction after it.

Flow analysis and register allocation look only at these lists. The final text comes from the
template, once every register has a name.
-/

namespace TreeTiling

/-- An abstract instruction. -/
inductive Instr where
  | oper (template : String) (defs uses : List Temp) (jumps : List Label) (fallsThrough : Bool)
  /-- A copy from register to register. -/
  | move (template : String) (dst src : Temp)
  /-- The definition of a label. -/
  | label (template : String) (name : Label)
deriving DecidableEq

namespace Instr

----------------------------------------------------------------------------------------------
-- Common shapes
----------------------------------------------------------------------------------------------

/-- An operation after which control always goes on. -/
def straight (template : String) (defs uses : List Temp) : Instr :=
  oper template defs uses [] true

/-- A conditional branch: control goes to one of the labels or on. -/
def branch (template : String) (uses : List Temp) (labels : List Label) : Instr :=
  oper template [] uses labels true

/-- An unconditional jump: control goes to one of the labels. -/
def jump (template : String) (labels : List Label) : Instr :=
  oper template [] [] labels false

/-- An operation that leaves the procedure. -/
def leave (template : String) (uses : List Temp) : Instr :=
  oper template [] uses [] false

----------------------------------------------------------------------------------------------
-- Operands
----------------------------------------------------------------------------------------------

def template : Instr → String
  | oper template _ _ _ _ => template
  | move template _ _ => template
  | label template _ => template

/-- The registers written. -/
def defs : Instr → List Temp
  | oper _ defs _ _ _ => defs
  | move _ dst _ => [dst]
  | label _ _ => []

/-- The registers read. -/
def uses : Instr → List Temp
  | oper _ _ uses _ _ => uses
  | move _ _ src => [src]
  | label _ _ => []

/-- The labels control may go to. -/
def jumps : Instr → List Label
  | oper _ _ _ jumps _ => jumps
  | _ => []

/-- Whether control can reach the next instruction. -/
def fallsThrough : Instr → Bool
  | oper _ _ _ _ fallsThrough => fallsThrough
  | _ => true

def isMove : Instr → Bool
  | move _ _ _ => true
  | _ => false

/-- The label an instruction defines. -/
def labelName? : Instr → Option Label
  | label _ name => some name
  | _ => none

/-- The first word of the template, under which statistics count the instruction. -/
def mnemonic (instr : Instr) : String :=
  Text.firstWord instr.template

----------------------------------------------------------------------------------------------
-- Text
----------------------------------------------------------------------------------------------

/-- The text of the operand a place asks for, if the instruction has it. -/
def operandText? (instr : Instr) (naming : Temp → String) (slot : Template.Slot) (index : Nat)
    : Option String :=
  match slot with
  | .written => instr.defs[index]?.map naming
  | .read => instr.uses[index]?.map naming
  | .target => instr.jumps[index]?.map Label.name

/-- What a piece of the template becomes. A place without an operand stays as it is written. The
index of a place is taken to fit in a machine word, so that it can be a number of any size here.
-/
def pieceText (instr : Instr) (naming : Temp → String) : Template.Piece → List Char
  | .text character => [character]
  | .place slot digits =>
      match instr.operandText? naming slot (Nat.ofDigitChars 10 digits 0) with
      | some operand => operand.toList
      | none => (Template.Piece.place slot digits).source

/-- The instruction's text with every register named by `naming`. -/
def textWith (instr : Instr) (naming : Temp → String) : String :=
  String.ofList ((Template.pieces instr.template.toList).flatMap (instr.pieceText naming))

/-- The instruction's text with registers under their own names. -/
def text (instr : Instr) : String :=
  instr.textWith Temp.text

end Instr

end TreeTiling
