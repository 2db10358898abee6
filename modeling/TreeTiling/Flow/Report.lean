import TreeTiling.Flow.Liveness
import TreeTiling.Text.Column

/-! The liveness report: a line per instruction with its live sets. -/

namespace TreeTiling.Liveness

/-- The line of a node. Its number and its text are set in columns. -/
def reportLine (liveness : Liveness) (node : Nat) (instr : Instr) : String :=
  Text.alignRight 4 node.repr ++ ": " ++ Text.alignLeft 32 instr.text
    ++ " in=" ++ Temp.setText (liveness.liveIn node)
    ++ " out=" ++ Temp.setText (liveness.liveOut node) ++ "\n"

def report (liveness : Liveness) : String :=
  String.join (liveness.graph.instrs.toList.mapIdx liveness.reportLine)

end TreeTiling.Liveness
