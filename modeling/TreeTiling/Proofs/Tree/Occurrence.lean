import TreeTiling.Fragment

/-!
What occurs in a tree: subtrees, calls, labels, temporaries, divisions; and when a body is
canonical.
-/

namespace TreeTiling

----------------------------------------------------------------------------------------------
-- Expressions
----------------------------------------------------------------------------------------------

namespace Exp

mutual

/-- An expression and all expressions inside it. -/
@[simp]
def subtrees : Exp → List Exp
  | const value => [const value]
  | name label => [name label]
  | temp register => [temp register]
  | mem address => mem address :: address.subtrees
  | binop op left right => binop op left right :: (left.subtrees ++ right.subtrees)
  | call function args => call function args :: (function.subtrees ++ argsSubtrees args)

/-- The expressions inside a list of arguments, which are among them. -/
@[simp]
def argsSubtrees : List Exp → List Exp
  | [] => []
  | arg :: rest => arg.subtrees ++ argsSubtrees rest

end

mutual

/-- The calls of labels in an expression, each with its arguments, in the order in which they are
made. The arguments of a call come before it, the last one first.
-/
@[simp]
def calls : Exp → List (Label × List Exp)
  | const _ => []
  | name _ => []
  | temp _ => []
  | mem address => address.calls
  | binop _ left right => left.calls ++ right.calls
  | call (name function) args => argsCalls args ++ [(function, args)]
  | call function args => function.calls ++ argsCalls args

@[simp]
def argsCalls : List Exp → List (Label × List Exp)
  | [] => []
  | arg :: rest => argsCalls rest ++ arg.calls

end

mutual

/-- The labels in an expression. -/
@[simp]
def labels : Exp → List Label
  | const _ | temp _ => []
  | name label => [label]
  | mem address => address.labels
  | binop _ left right => left.labels ++ right.labels
  | call function args => function.labels ++ argsLabels args

@[simp]
def argsLabels : List Exp → List Label
  | [] => []
  | arg :: rest => arg.labels ++ argsLabels rest

end

/-- The temporary that an expression is. -/
def asTemp? : Exp → Option Temp
  | temp register => some register
  | _ => none

def isCall : Exp → Bool
  | call _ _ => true
  | _ => false

def isDivision : Exp → Bool
  | binop .div _ _ => true
  | _ => false

/-- The temporaries that an expression reads. -/
def temps (tree : Exp) : List Temp :=
  tree.subtrees.filterMap asTemp?

def isCallFree (tree : Exp) : Bool :=
  tree.subtrees.all fun part => !part.isCall

def hasDivision (tree : Exp) : Bool :=
  tree.subtrees.any isDivision

theorem argsSubtrees_eq (args : List Exp) : argsSubtrees args = args.flatMap subtrees := by
  induction args with
  | nil => simp [argsSubtrees]
  | cons arg rest ih => simp [argsSubtrees, ih]

@[simp]
theorem temps_const (value : Word) : (const value).temps = [] := by
  simp [temps, subtrees, asTemp?]

@[simp]
theorem temps_name (label : Label) : (name label).temps = [] := by
  simp [temps, subtrees, asTemp?]

@[simp]
theorem temps_temp (register : Temp) : (temp register).temps = [register] := by
  simp [temps, subtrees, asTemp?]

@[simp]
theorem temps_mem (address : Exp) : (mem address).temps = address.temps := by
  simp [temps, subtrees, List.filterMap_cons, asTemp?]

@[simp]
theorem temps_binop (op : BinOp) (left right : Exp)
    : (binop op left right).temps = left.temps ++ right.temps := by
  simp [temps, subtrees, List.filterMap_cons, asTemp?]

@[simp]
theorem temps_call (callee : Exp) (args : List Exp)
    : (call callee args).temps = callee.temps ++ args.flatMap temps := by
  have inside : (args.flatMap subtrees).filterMap asTemp? = args.flatMap temps := by
    induction args with
    | nil => rfl
    | cons arg rest ih => rw [List.flatMap_cons, List.filterMap_append, ih, List.flatMap_cons]; rfl
  rw [temps, subtrees, argsSubtrees_eq, List.filterMap_cons_none rfl, List.filterMap_append, inside]
  rfl

@[simp]
theorem isCallFree_mem (address : Exp) : (mem address).isCallFree = address.isCallFree := by
  simp [isCallFree, subtrees, isCall]

@[simp]
theorem isCallFree_binop (op : BinOp) (left right : Exp)
    : (binop op left right).isCallFree = (left.isCallFree && right.isCallFree) := by
  simp [isCallFree, subtrees, isCall]

@[simp]
theorem isCallFree_call (function : Exp) (args : List Exp)
    : (call function args).isCallFree = false := by
  simp [isCallFree, subtrees, isCall]

@[simp]
theorem hasDivision_mem (address : Exp) : (mem address).hasDivision = address.hasDivision := by
  simp [hasDivision, subtrees, isDivision]

@[simp]
theorem hasDivision_binop (op : BinOp) (left right : Exp)
    : (binop op left right).hasDivision
      = (decide (op = .div) || (left.hasDivision || right.hasDivision)) := by
  cases op <;> simp [hasDivision, subtrees, isDivision]

end Exp

----------------------------------------------------------------------------------------------
-- Statements
----------------------------------------------------------------------------------------------

namespace Stm

/-- The label that a statement defines. -/
def labelName? : Stm → Option Label
  | label name => some name
  | _ => none

/-- The expressions that a statement is made of, in the order in which they are computed; a sequence
has none of its own.
-/
def operands : Stm → List Exp
  | label _ => []
  | jump target => [target]
  | cjump _ left right _ _ => [left, right]
  | cmove _ left right _ value => [value, left, right]
  | move dst src => [dst, src]
  | exp value => [value]
  | seq _ => []

/-- The calls of labels in a body, in the order in which they are made. -/
def calls (body : Stm) : List (Label × List Exp) :=
  body.flatten.flatMap fun part => part.operands.flatMap Exp.calls

mutual

/-- The labels in a statement. -/
@[simp]
def labels : Stm → List Label
  | label name => [name]
  | jump target => target.labels
  | cjump _ left right ifTrue ifFalse => left.labels ++ right.labels ++ [ifTrue, ifFalse]
  | cmove _ left right _ value => left.labels ++ right.labels ++ value.labels
  | move dst src => dst.labels ++ src.labels
  | exp value => value.labels
  | seq statements => labelsAll statements

@[simp]
def labelsAll : List Stm → List Label
  | [] => []
  | statement :: rest => statement.labels ++ labelsAll rest

end

/-- The temporaries that a statement names, other than in the parts of a sequence. -/
def ownTemps (tree : Stm) : List Temp :=
  tree.operands.flatMap Exp.temps ++
    match tree with
    | cmove _ _ _ dst _ => [dst]
    | _ => []

/-- The temporaries that occur in a body. -/
def temps (body : Stm) : List Temp :=
  body.flatten.flatMap ownTemps

/-- The temporaries of a sequence are those of its parts; by induction on them. -/
@[simp]
theorem temps_seq (statements : List Stm)
    : (seq statements).temps = statements.flatMap temps := by
  induction statements with
  | nil => rfl
  | cons first rest ih =>
      rw [temps, flatten] at ih
      rw [temps, flatten, flattenAll, List.flatMap_append, ih, List.flatMap_cons, temps]

@[simp]
theorem temps_label (name : Label) : (label name).temps = [] := by
  simp [temps, flatten, ownTemps, operands]

@[simp]
theorem temps_jump (target : Exp) : (jump target).temps = target.temps := by
  simp [temps, flatten, ownTemps, operands]

@[simp]
theorem temps_cjump (op : RelOp) (left right : Exp) (ifTrue ifFalse : Label)
    : (cjump op left right ifTrue ifFalse).temps = left.temps ++ right.temps := by
  simp [temps, flatten, ownTemps, operands]

@[simp]
theorem temps_cmove (op : RelOp) (left right : Exp) (dst : Temp) (value : Exp)
    : (cmove op left right dst value).temps
      = value.temps ++ (left.temps ++ (right.temps ++ [dst])) := by
  simp [temps, flatten, ownTemps, operands]

@[simp]
theorem temps_move (dst src : Exp) : (move dst src).temps = dst.temps ++ src.temps := by
  simp [temps, flatten, ownTemps, operands]

@[simp]
theorem temps_exp (value : Exp) : (exp value).temps = value.temps := by
  simp [temps, flatten, ownTemps, operands]

def isCallFree (body : Stm) : Bool :=
  body.flatten.all fun part => part.operands.all Exp.isCallFree

def hasDivision (body : Stm) : Bool :=
  body.flatten.any fun part => part.operands.any Exp.hasDivision

/-- A body in the form that selection is made for. Labels are defined once, jumps go to labels of
the body, a conditional jump stands in front of the label it goes to if the relation fails, and
only temporaries and memory words are assigned to.
-/
structure Canonical (body : Stm) : Prop where
  labelsDistinct : (body.flatten.filterMap labelName?).Nodup
  jumpsResolve
    : ∀ target, jump target ∈ body.flatten → ∃ name, target = .name name ∧ label name ∈ body.flatten
  branchesResolve
    : ∀ op left right ifTrue ifFalse,
        cjump op left right ifTrue ifFalse ∈ body.flatten
        → label ifTrue ∈ body.flatten ∧ label ifFalse ∈ body.flatten
  branchesFallThrough
    : ∀ position op left right ifTrue ifFalse,
        body.flatten[position]? = some (cjump op left right ifTrue ifFalse)
        → body.flatten[position + 1]? = some (label ifFalse)
  destinations
    : ∀ dst src,
        move dst src ∈ body.flatten
        → (∃ register, dst = .temp register) ∨ ∃ address, dst = .mem address

end Stm

/-- The temporaries that occur in a fragment. -/
def Fragment.temps : Fragment → List Temp
  | procedure _ body => body.temps
  | data _ words => words.flatMap Exp.temps

end TreeTiling
