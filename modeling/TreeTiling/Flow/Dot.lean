import TreeTiling.Decimal.Fixed
import TreeTiling.Flow.Liveness

/-!
A flow graph with its live sets as a Graphviz document: a node per instruction, green for moves
and blue for the rest, and an edge per successor.
-/

namespace TreeTiling.Dot

/-- Sizes that grow with the number of nodes, to stay readable when scaled to a page. -/
structure Style where
  fontSize : Float
  lineWidth : Float
  arrowSize : Float

/-- The greater of two numbers. -/
def atLeast (least x : Float) : Float :=
  if least < x then x else least

def Style.ofSize (nodes : Nat) : Style :=
  let count := nodes.toFloat
  let root := (count + 1.0).sqrt
  { fontSize := atLeast 30.0 (root.sqrt * count * 1.2)
    lineWidth := atLeast 3.0 (root * 1.4)
    arrowSize := atLeast 2.0 root.sqrt }

/-- Puts a backslash before every occurrence of a character. -/
def guardWith (guarded : Char) (text : List Char) : List Char :=
  text.flatMap fun c => if c = guarded then ['\\', c] else [c]

/-- A text as the inside of a quoted string. Backslashes are guarded first, or else those that
guard quotes would be guarded in turn.
-/
def escape (text : String) : String :=
  String.ofList (guardWith '"' (guardWith '\\' text.toList))

/-- The line of a node: what is live before it, its number and text, what is live after it. -/
def nodeLine (style : Style) (liveness : Liveness) (node : Nat) (instr : Instr) : String :=
  "  n" ++ node.repr ++ " [label=\"" ++ Temp.setText (liveness.liveIn node) ++ "\\n"
    ++ node.repr ++ ": " ++ escape instr.text ++ "\\n" ++ Temp.setText (liveness.liveOut node)
    ++ "\", fontsize=" ++ Decimal.twoPlaces style.fontSize ++ ", style=\"setlinewidth("
    ++ Decimal.twoPlaces style.lineWidth ++ ")\", color="
    ++ (if instr.isMove then "green" else "blue") ++ "];\n"

/-- The line of an edge. -/
def edgeLine (style : Style) (source target : Nat) : String :=
  "  n" ++ source.repr ++ " -> n" ++ target.repr ++ " [arrowhead=normal, arrowsize="
    ++ Decimal.twoPlaces style.arrowSize ++ ", style=\"setlinewidth("
    ++ Decimal.twoPlaces style.lineWidth ++ ")\"];\n"

/-- The document of a graph under a title. -/
def document (liveness : Liveness) (title : String) : String :=
  let graph := liveness.graph
  let style := Style.ofSize graph.size
  "digraph \"Flow graph\" \x7b\nlabelloc=\"t\";\n"
    ++ "fontsize=" ++ Decimal.twoPlaces style.fontSize ++ ";\n"
    ++ "label=\"" ++ escape title ++ "\";\n"
    ++ "  graph [size=\"6.5, 9\", ratio=fill];\n"
    ++ String.join (graph.instrs.toList.mapIdx (nodeLine style liveness))
    ++ String.join (graph.nodes.flatMap fun node =>
      (graph.successors node).map (edgeLine style node))
    ++ "\x7d\n"

end TreeTiling.Dot
