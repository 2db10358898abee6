import TreeTiling.Fragment
import TreeTiling.Session
import TreeTiling.Source.Numeral
import TreeTiling.Source.Sexp

/-!
Reading programs. A text is a list of fragments such as

    (proc main (move (temp i) (const 0)) (jump done) (label done))
    (data table (const 1) (name main))

Temporaries are named. A new name takes the next temporary of the session and keeps it for as long
as the reader remembers names; a name that starts with a percent sign is a machine register. What
was taken before a fault stays taken.
-/

namespace TreeTiling.Source

/-- The temporaries that a reader has given to names, latest first. -/
abbrev Names := List (String × Temp)

/-- What reading changes: the names, and the session that hands out temporaries. -/
structure Reading where
  names : Names
  session : Session

/-- Computations of a reader. -/
abbrev ReadM := EStateM Error Reading

/-- Fails with a fault in a line. -/
def fault {α : Type} (line : Nat) (fault : Fault) : ReadM α :=
  throw ⟨line, fault⟩

----------------------------------------------------------------------------------------------
-- Atoms
----------------------------------------------------------------------------------------------

/-- The text of an operand that has to be an atom. -/
def atom (role : AtomRole) : Sexp → ReadM String
  | .atom text _ => return text
  | .list _ line => fault line (.notAtom role)

def label (operand : Sexp) : ReadM Label :=
  return ⟨← atom .label operand⟩

def relation (operand : Sexp) : ReadM RelOp := do
  let name ← atom .relation operand
  match RelOp.ofName? name with
  | some op => return op
  | none => fault operand.line (.unknownRelation name)

/-- The integer in a form that starts in a line. -/
def integer (line : Nat) (operand : Sexp) : ReadM Word := do
  let numeral ← atom .integer operand
  match Numeral.word? numeral.toList with
  | some value => return value
  | none => fault line (.badInteger numeral)

/-- The temporary of a name, which takes a fresh one if it is new. -/
def named (name : String) : ReadM Temp :=
  modifyGet fun reading =>
    match reading.names.lookup name with
    | some register => (register, reading)
    | none =>
        let (register, session) := reading.session.fresh
        (register, { names := (name, register) :: reading.names, session })

/-- The name in an operand for a temporary: an atom, or a `temp` form with an atom. -/
def temporaryName : Sexp → ReadM String
  | .atom name _ => return name
  | .list (.atom keyword _ :: args) line =>
      if keyword = "temp" then
        match args with
        | [operand] => atom .temporary operand
        | _ => fault line (.arity keyword 1 args.length)
      else fault line .notTemporary
  | .list _ line => fault line .noKeyword

/-- A temporary or a machine register, where `register?` knows the machine's names. -/
def temporary (register? : String → Option Temp) (operand : Sexp) : ReadM Temp := do
  let name ← temporaryName operand
  if name.toList.head? = some '%' then
    match register? name with
    | some register => return register
    | none => fault operand.line (.unknownRegister name)
  else named name

----------------------------------------------------------------------------------------------
-- Expressions
----------------------------------------------------------------------------------------------

/-- The forms of an expression. -/
inductive ExpForm where
  | const
  | name
  | temp
  | mem
  | call
  | binary (op : BinOp)

namespace ExpForm

/-- The form of a keyword. Only operators are recognised whatever the case of their letters. -/
def ofKeyword? (keyword : String) : Option ExpForm :=
  if keyword = "const" then some const
  else if keyword = "name" then some name
  else if keyword = "temp" then some temp
  else if keyword = "mem" then some mem
  else if keyword = "call" then some call
  else (BinOp.ofName? keyword).map binary

/-- The number of operands; a call takes any number after its function. -/
def arity : ExpForm → Nat
  | const | name | temp | mem | call => 1
  | binary _ => 2

end ExpForm

mutual

/-- Reads an expression. A bare numeral is a constant. -/
def exp (register? : String → Option Temp) : Sexp → ReadM Exp
  | .atom text line =>
      match Numeral.word? text.toList with
      | some value => return .const value
      | none => fault line (.notExpression text)
  | .list (.atom keyword _ :: args) line =>
      match ExpForm.ofKeyword? keyword, args with
      | none, _ => fault line (.unknownExpression keyword)
      | some .const, [operand] => return .const (← integer line operand)
      | some .name, [operand] => return .name (← label operand)
      | some .temp, [operand] => return .temp (← temporary register? operand)
      | some .mem, [operand] => return .mem (← exp register? operand)
      | some .call, [] => fault line .callWithoutFunction
      | some .call, .atom function _ :: rest =>
          return .call (.name ⟨function⟩) (← exps register? rest)
      | some .call, .list items start :: rest => do
          let function ← exp register? (.list items start)
          return .call function (← exps register? rest)
      | some (.binary op), [leftOperand, rightOperand] => do
          let left ← exp register? leftOperand
          return .binop op left (← exp register? rightOperand)
      | some form, args => fault line (.arity keyword form.arity args.length)
  | .list _ line => fault line .noKeyword

/-- Reads expressions in order. -/
def exps (register? : String → Option Temp) : List Sexp → ReadM (List Exp)
  | [] => return []
  | operand :: rest => do
      let first ← exp register? operand
      return first :: (← exps register? rest)

end

----------------------------------------------------------------------------------------------
-- Statements
----------------------------------------------------------------------------------------------

/-- The forms of a statement. -/
inductive StmForm where
  | label
  | jump
  | cjump
  | cmove
  | move
  | exp
  | seq

namespace StmForm

def ofKeyword? (keyword : String) : Option StmForm :=
  if keyword = "label" then some label
  else if keyword = "jump" then some jump
  else if keyword = "cjump" then some cjump
  else if keyword = "cmove" then some cmove
  else if keyword = "move" then some move
  else if keyword = "exp" then some exp
  else if keyword = "seq" then some seq
  else none

/-- The number of operands; a sequence takes any number. -/
def arity : StmForm → Nat
  | label | jump | exp => 1
  | move => 2
  | cjump | cmove => 5
  | seq => 0

end StmForm

/-- Reads the target of a jump; an atom is a label. -/
def jumpTarget (register? : String → Option Temp) : Sexp → ReadM Exp
  | .atom target _ => return .name ⟨target⟩
  | .list items line => exp register? (.list items line)

mutual

/-- Reads a statement. -/
def stm (register? : String → Option Temp) : Sexp → ReadM Stm
  | .atom text line => fault line (.notForm text)
  | .list (.atom keyword _ :: args) line =>
      match StmForm.ofKeyword? keyword, args with
      | none, _ => fault line (.unknownStatement keyword)
      | some .label, [operand] => return .label (← label operand)
      | some .jump, [operand] => return .jump (← jumpTarget register? operand)
      | some .cjump, [opOperand, leftOperand, rightOperand, trueOperand, falseOperand] => do
          let op ← relation opOperand
          let left ← exp register? leftOperand
          let right ← exp register? rightOperand
          let ifTrue ← label trueOperand
          return .cjump op left right ifTrue (← label falseOperand)
      | some .cmove, [opOperand, leftOperand, rightOperand, dstOperand, valueOperand] => do
          let op ← relation opOperand
          let left ← exp register? leftOperand
          let right ← exp register? rightOperand
          let dst ← temporary register? dstOperand
          return .cmove op left right dst (← exp register? valueOperand)
      | some .move, [dstOperand, srcOperand] => do
          let dst ← exp register? dstOperand
          return .move dst (← exp register? srcOperand)
      | some .exp, [operand] => return .exp (← exp register? operand)
      | some .seq, parts => return .seq (← stms register? parts)
      | some form, args => fault line (.arity keyword form.arity args.length)
  | .list _ line => fault line .noKeyword

/-- Reads statements in order. -/
def stms (register? : String → Option Temp) : List Sexp → ReadM (List Stm)
  | [] => return []
  | operand :: rest => do
      let first ← stm register? operand
      return first :: (← stms register? rest)

end

----------------------------------------------------------------------------------------------
-- Fragments and whole texts
----------------------------------------------------------------------------------------------

/-- Reads a fragment. The name is looked at before the keyword. -/
def fragment (register? : String → Option Temp) : Sexp → ReadM Fragment
  | .atom text line => fault line (.notForm text)
  | .list [.atom keyword _] line => fault line (.fragmentWithoutName keyword)
  | .list (.atom keyword _ :: nameOperand :: rest) line => do
      let name ← label nameOperand
      if keyword = "proc" then return .procedure name (.seq (← stms register? rest))
      else if keyword = "data" then return .data name (← exps register? rest)
      else fault line (.unknownFragment keyword)
  | .list _ line => fault line .noKeyword

/-- Reads fragments in order. -/
def fragments (register? : String → Option Temp) : List Sexp → ReadM (List Fragment)
  | [] => return []
  | operand :: rest => do
      let first ← fragment register? operand
      return first :: (← fragments register? rest)

/-- The atoms and lists of a text. -/
def parse (source : String) : ReadM (List Sexp) :=
  match Sexp.parse source with
  | .ok items => return items
  | .error error => throw error

/-- Reads a whole program. -/
def readFragments (register? : String → Option Temp) (source : String)
    : ReadM (List Fragment) := do
  fragments register? (← parse source)

/-- Reads a text of one or more statements; several make a sequence. -/
def readStm (register? : String → Option Temp) (source : String) : ReadM Stm := do
  match ← stms register? (← parse source) with
  | [] => fault 1 .noStatement
  | [statement] => return statement
  | statements => return .seq statements

/-- Reads a text of exactly one expression. -/
def readExp (register? : String → Option Temp) (source : String) : ReadM Exp := do
  match ← parse source with
  | [operand] => exp register? operand
  | _ => fault 1 .notOneExpression

end TreeTiling.Source
