import TreeTiling.Selection
import TreeTiling.Text.Quoted

/-!
Scripts: rule bodies written as data.

A script works on a list of registers, which starts empty and grows at its end. Instructions name
registers by their place in the list, and their templates may hold captured values.
-/

namespace TreeTiling

/-- A captured value as it stands in the template of a scripted instruction. -/
def Kind.valueText : (kind : Kind) → kind.Value → String
  | .exp, tree => tree.text
  | .exps, trees => Text.quoteList (trees.map Exp.text)
  | .scalar .int, value => Word.text value
  | .scalar .label, value => value.name
  | .scalar .temp, .virtual number => number.repr
  | .scalar .temp, .fixed name => name
  | .scalar .relop, value => value.name
  | .scalar .binop, value => value.name

namespace Script

/-- A part of a template: plain text, or the captured value of a variable. -/
inductive Part where
  | text (text : String)
  | captured (kind : Kind) (var : Var kind)

/-- One step of a script. Numbers are places in the register list. -/
inductive Step where
  | value (var : Var .exp)
  | discard (var : Var .exp)
  | fresh
  | temp (var : Var (.scalar .temp))
  | given (register : Temp)
  | oper (template : List Part) (defs uses : List Nat)
  | move (template : List Part) (dst src : Nat)
  | branch (template : List Part) (labels : List (Var (.scalar .label))) (uses : List Nat)
  | jump (template : List Part) (labels : List (Var (.scalar .label)))
  | leave (template : List Part) (uses : List Nat)
  | label (template : List Part) (label : Var (.scalar .label))
  | refuse (what : String) (var : Var .exp)

/-- The text of a template with its captured values. -/
def templateText (captures : Captures) : List Part → Except SelectionError String
  | [] => return ""
  | .text text :: rest => return text ++ (← templateText captures rest)
  | .captured kind var :: rest => do
      let value ← captures.get var
      return kind.valueText value ++ (← templateText captures rest)

/-- The registers at places in the list. -/
def pick (registers : List Temp) (places : List Nat) : List Temp :=
  places.filterMap (registers[·]?)

/-- The labels that variables captured, read in order. -/
def capturedLabels (captures : Captures) (vars : List (Var (.scalar .label)))
    : Except SelectionError (List Label) :=
  vars.mapM fun (var : Var (.scalar .label)) => captures.get var

/-- Carries out one step; the answer is the register list after it. -/
def Step.run (captures : Captures) (registers : List Temp) : Step → Action Instr (List Temp)
  | value var => do
      let register ← Action.valueOf (← captures.get var)
      return registers ++ [register]
  | discard var => do
      Action.effectsOf (← captures.get var)
      return registers
  | fresh => do
      let register ← Action.freshTemp
      return registers ++ [register]
  | temp var => do
      let register ← captures.get var
      return registers ++ [register]
  | given register => return registers ++ [register]
  | oper template defs uses => do
      let text ← templateText captures template
      Action.emitInstr (.straight text (pick registers defs) (pick registers uses))
      return registers
  | move template dst src => do
      let text ← templateText captures template
      match registers[dst]?, registers[src]? with
      | some dst, some src => Action.emitInstr (.move text dst src)
      | _, _ => pure ()
      return registers
  | branch template labels uses => do
      let labels ← capturedLabels captures labels
      let text ← templateText captures template
      Action.emitInstr (.branch text (pick registers uses) labels)
      return registers
  | jump template labels => do
      let labels ← capturedLabels captures labels
      let text ← templateText captures template
      Action.emitInstr (.jump text labels)
      return registers
  | leave template uses => do
      let text ← templateText captures template
      Action.emitInstr (.leave text (pick registers uses))
      return registers
  | label template var => do
      let text ← templateText captures template
      Action.emitInstr (.label text (← captures.get var))
      return registers
  | refuse what var => do
      let tree ← captures.get var
      Action.fail (.unsupported what (.exp tree))

/-- Carries out steps in order, from a register list. -/
def run (captures : Captures) : List Step → List Temp → Action Instr (List Temp)
  | [], registers => return registers
  | step :: rest, registers => do
      run captures rest (← step.run captures registers)

/-- A script as the body of a rule without a result. -/
def effect (script : List Step) (captures : Captures) : Action Instr Unit := do
  let _ ← run captures script []

/-- A script as the body of a rule for values, which answers with its last register. -/
def result (script : List Step) (captures : Captures) : Action Instr Temp := do
  match (← run captures script []).getLast? with
  | some register => return register
  | none => Action.fail (.unboundCapture "result")

end Script

end TreeTiling
