import TreeTiling.Instr

/-! Assembly: the instructions of each fragment, in program order, and their text. -/

namespace TreeTiling

/-- The instructions of one fragment. -/
structure Section where
  name : Label
  isProcedure : Bool
  instrs : Array Instr
deriving DecidableEq

namespace Section

/-- A line of assembly: labels stand at the margin and everything else is indented. -/
def lineText (instr : Instr) : String :=
  match instr.labelName? with
  | some _ => instr.text ++ "\n"
  | none => "        " ++ instr.text ++ "\n"

def heading (part : Section) : String :=
  (if part.isProcedure then "# procedure " else "# data ") ++ part.name.name ++ "\n"

def text (part : Section) : String :=
  part.heading ++ String.join (part.instrs.toList.map lineText)

end Section

/-- The sections of a program, in the order of its fragments. -/
abbrev Assembly := List Section

namespace Assembly

def procedures (assembly : Assembly) : List Section :=
  assembly.filter Section.isProcedure

/-- The first section with a name. -/
def get? (assembly : Assembly) (name : String) : Option Section :=
  assembly.find? fun part => part.name.name == name

def text (assembly : Assembly) : String :=
  String.join (assembly.map Section.text)

end Assembly

end TreeTiling
