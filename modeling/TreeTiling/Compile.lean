import TreeTiling.Flow.Liveness
import TreeTiling.Source.Reader
import TreeTiling.X64.Generate

/-! Compilation of a program text: reading, code generation, and liveness of each procedure. -/

namespace TreeTiling

/-- Why a program was not compiled. -/
inductive CompileError where
  | source (error : Source.Error)
  | selection (error : SelectionError)

def CompileError.message : CompileError → String
  | source error => error.message
  | selection error => error.message

/-- Whether the compiler is at fault, as when no rule covers a tree, and not the text. -/
def CompileError.isInternal : CompileError → Bool
  | source _ => false
  | selection _ => true

namespace Session

/-- Reads and generates a program with a new set of names. The session keeps what was counted
also where there is no assembly.
-/
def compile (session : Session) (source : String) : Except CompileError Assembly × Session :=
  match (Source.readFragments X64.register? source).run { names := [], session } with
  | .error error reading => (.error (.source error), reading.session)
  | .ok fragments reading =>
      match (X64.assemble fragments).run reading.session with
      | .error error session => (.error (.selection error), session)
      | .ok assembly session => (.ok assembly, session)

/-- Analyses sections in order; each goes with its liveness. -/
def analyseAll (session : Session) : List Section → List (Section × Liveness) × Session
  | [] => ([], session)
  | part :: rest =>
      let (liveness, session) := session.analyse part.instrs
      let (others, session) := session.analyseAll rest
      ((part, liveness) :: others, session)

end Session

end TreeTiling
