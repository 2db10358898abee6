import TreeTiling.Assembly
import TreeTiling.Fragment
import TreeTiling.X64.Rules

/-!
Code generation: fragments to assembly, one section per fragment.

A failure ends the run without assembly, but the session keeps what was counted until then.
-/

namespace TreeTiling.X64

/-- Computations that generate code in a session. -/
abbrev GenerateM := EStateM SelectionError Session

/-- Selects the body of a procedure, which is the session's current one meanwhile. -/
def selectProcedure (name : Label) (body : Stm) : GenerateM (Array Op) := fun session =>
  match rules.selectBody body (session.enter name.name) with
  | (.ok code, session) => .ok code session.leave
  | (.error error, session) => .error error session.leave

/-- Generates a procedure. It is counted only once all of it is selected. -/
def generateProcedure (name : Label) (body : Stm) : GenerateM Section := do
  let code ← selectProcedure name body
  modify fun session =>
    (session.log (.selected targetName code.size name session.temps)).count
      (·.recordProcedure name.name code.size)
  return { name, isProcedure := true, instrs := code.map Op.instr }

/-- Generates a data fragment: its label, then a directive for each word. -/
def generateData (name : Label) (words : List Exp) : GenerateM Section := do
  let directives ← words.mapM fun word =>
    match dataWord word with
    | .ok directive => pure directive
    | .error error => throw error
  modify (·.count (·.recordData))
  return { name, isProcedure := false, instrs := (Op.instr (.label name) :: directives).toArray }

def generate : Fragment → GenerateM Section
  | .procedure name body => generateProcedure name body
  | .data name words => generateData name words

/-- Generates every fragment in order, up to the first that fails. -/
def assemble (fragments : List Fragment) : GenerateM Assembly :=
  fragments.mapM generate

end TreeTiling.X64
