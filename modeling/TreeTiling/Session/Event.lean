import TreeTiling.Instr
import TreeTiling.Pattern.Basic
import TreeTiling.Selection.Error

/-! The events a session keeps a record of, and the line that each is logged as. -/

namespace TreeTiling

/-- How much an event matters. -/
inductive Level where
  | trace
  | debug
  | warn
deriving DecidableEq

def Level.text : Level → String
  | trace => "TRACE"
  | debug => "DEBUG"
  | warn => "WARN"

/-- Something that happened while compiling. -/
inductive Event where
  | fired (category : Category) (index : Nat) (pattern : Pattern) (tree : Node)
  | emitted (instr : Instr)
  | selected (target : String) (instructions : Nat) (procedure : Label) (temps : Nat)
  | unresolved (target : Label) (instr : Instr)
  | flowGraph (nodes edges : Nat)
  | liveness (nodes sets edges inserted sent : Nat)

namespace Event

def level : Event → Level
  | fired _ _ _ _ => .trace
  | emitted _ => .trace
  | selected _ _ _ _ => .debug
  | unresolved _ _ => .warn
  | flowGraph _ _ => .debug
  | liveness _ _ _ _ _ => .debug

def message : Event → String
  | fired category index pattern tree =>
      category.text ++ " rule #" ++ index.repr ++ " " ++ pattern.text ++ " fires on " ++ tree.text
  | emitted instr => "emit " ++ instr.text
  | selected target instructions procedure temps =>
      target ++ ": selected " ++ instructions.repr ++ " instructions for " ++ procedure.name
        ++ " (" ++ temps.repr ++ " temporaries so far)"
  | unresolved target instr =>
      "jump target " ++ target.name ++ " of `" ++ instr.text ++ "` is not a label here"
  | flowGraph nodes edges =>
      "flow graph: " ++ nodes.repr ++ " nodes, " ++ edges.repr ++ " edges"
  | liveness nodes sets edges inserted sent =>
      "liveness: " ++ nodes.repr ++ " nodes, " ++ sets.repr ++ " sets, " ++ edges.repr
        ++ " edges, " ++ inserted.repr ++ " insertions, " ++ sent.repr ++ " propagations"

/-- The line under which an event is logged. -/
def text (event : Event) : String :=
  event.level.text ++ " " ++ event.message

end Event

end TreeTiling
