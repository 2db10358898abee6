import TreeTiling.Selection.Rules
import TreeTiling.Session

/-!
Instruction selection by tiling: each tree is covered by the first rule that matches it, and the
rule's action says which parts are covered next and what is emitted in between.

A rule may ask for any tree, so selection carries a bound on how deeply rules may nest. For a rule
set that asks only for parts of what it matched, a tree is met at most twice on the way down, once
for its value and once for its effects; `Exp.nesting` and `Stm.nesting` leave room for that.
-/

namespace TreeTiling

variable {ι α : Type}

/-- Things that have an abstract instruction: what a selector can emit. -/
class Emittable (ι : Type) where
  instr : ι → Instr

instance : Emittable Instr where
  instr := id

/-- The state of selection: the session and the code so far. -/
structure Selection (ι : Type) where
  session : Session := {}
  code : Array ι := #[]

/-- Computations of the selector. A failure leaves behind what was emitted and counted. -/
abbrev SelectM (ι : Type) := EStateM SelectionError (Selection ι)

namespace Selection

/-- Appends an instruction, which is logged and counted. -/
def emit [Emittable ι] (selection : Selection ι) (item : ι) : Selection ι :=
  let instr := Emittable.instr item
  { session := (selection.session.log (.emitted instr)).count (·.recordInstruction instr.mnemonic)
    code := selection.code.push item }

/-- Takes note that a rule fires. -/
def note (selection : Selection ι) (category : Category) (index : Nat) (pattern : Pattern)
    (tree : Node)
    : Selection ι :=
  { selection with
    session := (selection.session.log (.fired category index pattern tree)).count
      (·.recordRule category) }

/-- Takes the next temporary of the session. -/
def fresh : SelectM ι Temp :=
  modifyGet fun selection =>
    let (register, session) := selection.session.fresh
    (register, { selection with session })

end Selection

----------------------------------------------------------------------------------------------
-- Carrying out actions
----------------------------------------------------------------------------------------------

/-- Carries out an action, given how trees are selected that it asks for. -/
def Action.run [Emittable ι] (value : Exp → SelectM ι Temp) (discard : Exp → SelectM ι Unit)
    (statement : Stm → SelectM ι Unit)
    : Action ι α → SelectM ι α
  | .done result => pure result
  | .fail error => throw error
  | .emit instr next => do
      modify (·.emit instr)
      next.run value discard statement
  | .fresh next => do
      let register ← Selection.fresh
      (next register).run value discard statement
  | .value tree next => do
      let register ← value tree
      (next register).run value discard statement
  | .discard tree next => do
      discard tree
      next.run value discard statement
  | .statement tree next => do
      statement tree
      next.run value discard statement

namespace RuleTable

variable {π : Type}

/-- Fires the rule of a choice: notes it, then carries out its action on the captures. -/
def fire (category : Category) (tree : Node) (sort : π → Pattern)
    (carryOut : Action ι α → SelectM ι α)
    : Option (Choice π ι α) → SelectM ι α
  | none => throw (.noRule category tree)
  | some choice => do
      modify (·.note category choice.index (sort choice.rule.pattern) tree)
      carryOut (choice.rule.action choice.captures)

end RuleTable

namespace Rules

variable [Emittable ι]

mutual

/-- Selects code for the value of an expression, rules nesting no deeper than the bound. -/
def valueWithin (rules : Rules ι) : Nat → Exp → SelectM ι Temp
  | 0, tree => throw (.tooDeep (.exp tree))
  | bound + 1, tree =>
      RuleTable.fire .value (.exp tree) .exp
        (Action.run (rules.valueWithin bound) (rules.discardWithin bound)
          (rules.statementWithin bound))
        (rules.value.choose? (·.matches? tree))

/-- Selects code for the effects of an expression, rules nesting no deeper than the bound. -/
def discardWithin (rules : Rules ι) : Nat → Exp → SelectM ι Unit
  | 0, tree => throw (.tooDeep (.exp tree))
  | bound + 1, tree =>
      RuleTable.fire .discard (.exp tree) .exp
        (Action.run (rules.valueWithin bound) (rules.discardWithin bound)
          (rules.statementWithin bound))
        (rules.discard.choose? (·.matches? tree))

/-- Selects code for a statement, rules nesting no deeper than the bound. The parts of a sequence
are selected in order, up to the first that fails.
-/
def statementWithin (rules : Rules ι) : Nat → Stm → SelectM ι Unit
  | 0, tree => throw (.tooDeep (.stm tree))
  | bound + 1, tree =>
      tree.flatten.forM fun part =>
        RuleTable.fire .statement (.stm part) .stm
          (Action.run (rules.valueWithin bound) (rules.discardWithin bound)
            (rules.statementWithin bound))
          (rules.statement.choose? (·.matches? part))

end

end Rules

----------------------------------------------------------------------------------------------
-- Selection of whole trees
----------------------------------------------------------------------------------------------

/-- How deeply rules may nest on an expression. -/
def Exp.nesting (tree : Exp) : Nat :=
  2 * tree.height + 4

/-- How deeply rules may nest on a statement. -/
def Stm.nesting (tree : Stm) : Nat :=
  2 * tree.height + 4

namespace Rules

variable [Emittable ι]

/-- Selects code that leaves an expression's value in the register it answers with. -/
def selectValue (rules : Rules ι) (tree : Exp) : SelectM ι Temp :=
  rules.valueWithin tree.nesting tree

/-- Selects code for an expression's effects. -/
def selectDiscard (rules : Rules ι) (tree : Exp) : SelectM ι Unit :=
  rules.discardWithin tree.nesting tree

/-- Selects code for a statement. -/
def selectStatement (rules : Rules ι) (tree : Stm) : SelectM ι Unit :=
  rules.statementWithin tree.nesting tree

/-- Selects the code of a procedure body in a session. Without success there is no code. -/
def selectBody (rules : Rules ι) (body : Stm) (session : Session)
    : Except SelectionError (Array ι) × Session :=
  match (rules.selectStatement body).run { session } with
  | .ok _ selection => (.ok selection.code, selection.session)
  | .error error selection => (.error error, selection.session)

end Rules

end TreeTiling
