import Mathlib.Data.List.Forall2
import TreeTiling.Proofs.Source.Numerals
import TreeTiling.Proofs.Tree.Occurrence

/-!
How programs are written: the forms that stand for each tree, and one text of them.

A tree has many forms. Numerals have several spellings, operators and relations stand in letters of
either case, a constant may be a bare numeral, the target of a jump or a call a bare label, and the
destination of a conditional move a bare name.
-/

namespace TreeTiling

----------------------------------------------------------------------------------------------
-- What a text has to name
----------------------------------------------------------------------------------------------

namespace Stm

mutual

/-- The registers of a statement in the order in which a text names them. -/
@[simp]
def mentions : Stm → List Temp
  | label _ => []
  | jump target => target.temps
  | cjump _ left right _ _ => left.temps ++ right.temps
  | cmove _ left right dst value => left.temps ++ right.temps ++ [dst] ++ value.temps
  | move dst src => dst.temps ++ src.temps
  | exp value => value.temps
  | seq statements => mentionsAll statements

@[simp]
def mentionsAll : List Stm → List Temp
  | [] => []
  | statement :: rest => statement.mentions ++ mentionsAll rest

end

end Stm

namespace Fragment

def labels : Fragment → List Label
  | procedure name body => name :: body.labels
  | data name words => name :: Exp.argsLabels words

/-- The registers of a fragment in the order in which a text names them. -/
def mentions : Fragment → List Temp
  | procedure _ body => body.mentions
  | data _ words => words.flatMap Exp.temps

/-- The body of a procedure is a sequence. -/
def HasSequence : Fragment → Prop
  | procedure _ body => ∃ statements, body = .seq statements
  | data _ _ => True

end Fragment

namespace Source

variable {naming : Nat → String}

----------------------------------------------------------------------------------------------
-- Forms of trees
----------------------------------------------------------------------------------------------

/-- The text of a register: the name of its number, or the name of a machine register. -/
def spelling (naming : Nat → String) : Temp → String
  | .virtual number => naming number
  | .fixed name => name

/-- The forms of an expression. -/
inductive WrittenExp (naming : Nat → String) : Exp → Form → Prop where
  | numeral {text : String} {value : Word} (spells : Numeral.Spells text.toList value)
    : WrittenExp naming (.const value) (.atom text)
  | const {text : String} {value : Word} (spells : Numeral.Spells text.toList value)
    : WrittenExp naming (.const value) (.list [.atom "const", .atom text])
  | name (label : Label) : WrittenExp naming (.name label) (.list [.atom "name", .atom label.name])
  | temp (register : Temp)
    : WrittenExp naming (.temp register)
        (.list [.atom "temp", .atom (spelling naming register)])
  | mem {address : Exp} {form : Form} (written : WrittenExp naming address form)
    : WrittenExp naming (.mem address) (.list [.atom "mem", form])
  | binop {op : BinOp} {keyword : String} {left right : Exp} {leftForm rightForm : Form}
    (sameLetters : Text.sameLetters op.name keyword = true)
    (leftWritten : WrittenExp naming left leftForm)
    (rightWritten : WrittenExp naming right rightForm)
    : WrittenExp naming (.binop op left right) (.list [.atom keyword, leftForm, rightForm])
  | callLabel (function : Label) {args : List Exp} {forms : List Form}
    (argsWritten : List.Forall₂ (WrittenExp naming) args forms)
    : WrittenExp naming (.call (.name function) args)
        (.list (.atom "call" :: .atom function.name :: forms))
  | call {function : Exp} {items : List Form} {args : List Exp} {forms : List Form}
    (functionWritten : WrittenExp naming function (.list items))
    (argsWritten : List.Forall₂ (WrittenExp naming) args forms)
    : WrittenExp naming (.call function args) (.list (.atom "call" :: .list items :: forms))

/-- The forms of a register where only a register can stand. -/
inductive WrittenTemp (naming : Nat → String) : Temp → Form → Prop where
  | bare (register : Temp) : WrittenTemp naming register (.atom (spelling naming register))
  | temp (register : Temp)
    : WrittenTemp naming register (.list [.atom "temp", .atom (spelling naming register)])

/-- The forms of a statement. -/
inductive WrittenStm (naming : Nat → String) : Stm → Form → Prop where
  | label (name : Label) : WrittenStm naming (.label name) (.list [.atom "label", .atom name.name])
  | jumpLabel (target : Label)
    : WrittenStm naming (.jump (.name target)) (.list [.atom "jump", .atom target.name])
  | jump {target : Exp} {items : List Form} (written : WrittenExp naming target (.list items))
    : WrittenStm naming (.jump target) (.list [.atom "jump", .list items])
  | cjump {op : RelOp} {relation : String} {left right : Exp} {leftForm rightForm : Form}
    (ifTrue ifFalse : Label) (sameLetters : Text.sameLetters op.name relation = true)
    (leftWritten : WrittenExp naming left leftForm)
    (rightWritten : WrittenExp naming right rightForm)
    : WrittenStm naming (.cjump op left right ifTrue ifFalse)
        (.list
          [.atom "cjump", .atom relation, leftForm, rightForm, .atom ifTrue.name,
            .atom ifFalse.name])
  | cmove {op : RelOp} {relation : String} {left right value : Exp} {dst : Temp}
    {leftForm rightForm dstForm valueForm : Form}
    (sameLetters : Text.sameLetters op.name relation = true)
    (leftWritten : WrittenExp naming left leftForm)
    (rightWritten : WrittenExp naming right rightForm)
    (dstWritten : WrittenTemp naming dst dstForm)
    (valueWritten : WrittenExp naming value valueForm)
    : WrittenStm naming (.cmove op left right dst value)
        (.list [.atom "cmove", .atom relation, leftForm, rightForm, dstForm, valueForm])
  | move {dst src : Exp} {dstForm srcForm : Form} (dstWritten : WrittenExp naming dst dstForm)
    (srcWritten : WrittenExp naming src srcForm)
    : WrittenStm naming (.move dst src) (.list [.atom "move", dstForm, srcForm])
  | exp {value : Exp} {form : Form} (written : WrittenExp naming value form)
    : WrittenStm naming (.exp value) (.list [.atom "exp", form])
  | seq {statements : List Stm} {forms : List Form}
    (written : List.Forall₂ (WrittenStm naming) statements forms)
    : WrittenStm naming (.seq statements) (.list (.atom "seq" :: forms))

/-- The forms of a fragment. The statements of a procedure stand in it without their sequence. -/
inductive WrittenFragment (naming : Nat → String) : Fragment → Form → Prop where
  | procedure (name : Label) {statements : List Stm} {forms : List Form}
    (written : List.Forall₂ (WrittenStm naming) statements forms)
    : WrittenFragment naming (.procedure name (.seq statements))
        (.list (.atom "proc" :: .atom name.name :: forms))
  | data (name : Label) {words : List Exp} {forms : List Form}
    (written : List.Forall₂ (WrittenExp naming) words forms)
    : WrittenFragment naming (.data name words)
        (.list (.atom "data" :: .atom name.name :: forms))

/-- A text is a program's if it spells forms of its fragments in order, laid out in any way. -/
def Writes (naming : Nat → String) (fragments : List Fragment) (source : String) : Prop :=
  ∃ forms,
    List.Forall₂ (WrittenFragment naming) fragments forms
    ∧ Layout (Form.lexemesAll forms) source.toList

----------------------------------------------------------------------------------------------
-- Printing
----------------------------------------------------------------------------------------------

mutual

/-- One form of an expression: constants in decimal, operators in capitals, and no shorthands. -/
@[simp]
def expForm (naming : Nat → String) : Exp → Form
  | .const value => .list [.atom "const", .atom (Word.text value)]
  | .name label => .list [.atom "name", .atom label.name]
  | .temp register => .list [.atom "temp", .atom (spelling naming register)]
  | .mem address => .list [.atom "mem", expForm naming address]
  | .binop op left right => .list [.atom op.name, expForm naming left, expForm naming right]
  | .call function args =>
      .list (.atom "call" :: expForm naming function :: expForms naming args)

@[simp]
def expForms (naming : Nat → String) : List Exp → List Form
  | [] => []
  | tree :: rest => expForm naming tree :: expForms naming rest

end

mutual

/-- One form of a statement. -/
@[simp]
def stmForm (naming : Nat → String) : Stm → Form
  | .label name => .list [.atom "label", .atom name.name]
  | .jump target => .list [.atom "jump", expForm naming target]
  | .cjump op left right ifTrue ifFalse =>
      .list
        [.atom "cjump", .atom op.name, expForm naming left, expForm naming right,
          .atom ifTrue.name, .atom ifFalse.name]
  | .cmove op left right dst value =>
      .list
        [.atom "cmove", .atom op.name, expForm naming left, expForm naming right,
          .atom (spelling naming dst), expForm naming value]
  | .move dst src => .list [.atom "move", expForm naming dst, expForm naming src]
  | .exp value => .list [.atom "exp", expForm naming value]
  | .seq statements => .list (.atom "seq" :: stmForms naming statements)

@[simp]
def stmForms (naming : Nat → String) : List Stm → List Form
  | [] => []
  | statement :: rest => stmForm naming statement :: stmForms naming rest

end

/-- One form of a fragment, where the body of a procedure is a sequence. -/
def fragmentForm (naming : Nat → String) : Fragment → Form
  | .procedure name (.seq statements) =>
      .list (.atom "proc" :: .atom name.name :: stmForms naming statements)
  | .procedure name body => .list [.atom "proc", .atom name.name, stmForm naming body]
  | .data name words => .list (.atom "data" :: .atom name.name :: expForms naming words)

/-- One text of a program: a space after each atom and parenthesis. -/
def print (naming : Nat → String) (fragments : List Fragment) : String :=
  String.ofList (spaced (Form.lexemesAll (fragments.map (fragmentForm naming))))

theorem expForm_isList (tree : Exp) : ∃ items, expForm naming tree = .list items := by
  cases tree <;> simp

theorem sameLetters_self (text : String) : Text.sameLetters text text = true :=
  beq_self_eq_true _

mutual

/-- The form that is printed is one of the expression's forms. -/
theorem expForm_written : ∀ tree : Exp, WrittenExp naming tree (expForm naming tree)
  | .const value => by
      rw [expForm]
      exact .const (Numeral.spells_text value)
  | .name label => by
      rw [expForm]
      exact .name label
  | .temp register => by
      rw [expForm]
      exact .temp register
  | .mem address => by
      rw [expForm]
      exact .mem (expForm_written address)
  | .binop op left right => by
      rw [expForm]
      exact .binop (sameLetters_self op.name) (expForm_written left) (expForm_written right)
  | .call function args => by
      have functionWritten := expForm_written function
      obtain ⟨items, isList⟩ : ∃ items, expForm naming function = .list items :=
        expForm_isList function
      rw [isList] at functionWritten
      rw [expForm, isList]
      exact .call functionWritten (expForms_written args)

theorem expForms_written
    : ∀ trees : List Exp, List.Forall₂ (WrittenExp naming) trees (expForms naming trees)
  | [] => by
      rw [expForms]
      exact .nil
  | tree :: rest => by
      rw [expForms]
      exact .cons (expForm_written tree) (expForms_written rest)

end

mutual

theorem stmForm_written : ∀ tree : Stm, WrittenStm naming tree (stmForm naming tree)
  | .label name => by
      rw [stmForm]
      exact .label name
  | .jump target => by
      have written : WrittenExp naming target (expForm naming target) := expForm_written target
      obtain ⟨items, isList⟩ := expForm_isList target
      rw [isList] at written
      rw [stmForm, isList]
      exact .jump written
  | .cjump op left right ifTrue ifFalse => by
      rw [stmForm]
      exact .cjump ifTrue ifFalse (sameLetters_self op.name) (expForm_written left)
        (expForm_written right)
  | .cmove op left right dst value => by
      rw [stmForm]
      exact .cmove (sameLetters_self op.name) (expForm_written left) (expForm_written right)
        (.bare dst) (expForm_written value)
  | .move dst src => by
      rw [stmForm]
      exact .move (expForm_written dst) (expForm_written src)
  | .exp value => by
      rw [stmForm]
      exact .exp (expForm_written value)
  | .seq statements => by
      rw [stmForm]
      exact .seq (stmForms_written statements)

theorem stmForms_written
    : ∀ statements : List Stm,
        List.Forall₂ (WrittenStm naming) statements (stmForms naming statements)
  | [] => by
      rw [stmForms]
      exact .nil
  | statement :: rest => by
      rw [stmForms]
      exact .cons (stmForm_written statement) (stmForms_written rest)

end

theorem fragmentForm_written {fragment : Fragment} (hasSequence : fragment.HasSequence)
    : WrittenFragment naming fragment (fragmentForm naming fragment) := by
  cases fragment with
  | procedure name body =>
      obtain ⟨statements, rfl⟩ := hasSequence
      exact .procedure name (stmForms_written statements)
  | data name words => exact .data name (expForms_written words)

----------------------------------------------------------------------------------------------
-- Atoms of what is printed
----------------------------------------------------------------------------------------------

/-- Labels and registers can be written. -/
structure Writable (naming : Nat → String) (labels : List Label) (registers : List Temp)
    : Prop where
  labels : ∀ label ∈ labels, IsAtom label.name
  registers : ∀ register ∈ registers, IsAtom (spelling naming register)

theorem Writable.append {labels others : List Label} {registers more : List Temp}
    (writable : Writable naming (labels ++ others) (registers ++ more))
    : Writable naming labels registers ∧ Writable naming others more := by
  obtain ⟨labelsAtoms, registersAtoms⟩ := writable
  rw [List.forall_mem_append] at labelsAtoms registersAtoms
  exact ⟨⟨labelsAtoms.1, registersAtoms.1⟩, ⟨labelsAtoms.2, registersAtoms.2⟩⟩

theorem isAtom_binOp (op : BinOp) : IsAtom op.name := by
  cases op <;> decide

theorem isAtom_relOp (op : RelOp) : IsAtom op.name := by
  cases op <;> decide

mutual

theorem expForm_proper
    : ∀ {tree : Exp}, Writable naming tree.labels tree.temps → (expForm naming tree).Proper
  | .const value, writable => by
      have keyword : IsAtom "const" := by decide
      simp [keyword, Numeral.isAtom_text]
  | .name label, writable => by
      have keyword : IsAtom "name" := by decide
      simp [keyword, writable.labels label (by simp)]
  | .temp register, writable => by
      have keyword : IsAtom "temp" := by decide
      simp [keyword, writable.registers register (by simp)]
  | .mem address, writable => by
      have keyword : IsAtom "mem" := by decide
      rw [Exp.labels, Exp.temps_mem] at writable
      simp [keyword, expForm_proper writable]
  | .binop op left right, writable => by
      rw [Exp.labels, Exp.temps_binop] at writable
      simp [isAtom_binOp, expForm_proper writable.append.1, expForm_proper writable.append.2]
  | .call function args, writable => by
      have keyword : IsAtom "call" := by decide
      rw [Exp.labels, Exp.temps_call] at writable
      simp [keyword, expForm_proper writable.append.1, expForms_proper writable.append.2]

theorem expForms_proper
    : ∀ {trees : List Exp},
        Writable naming (Exp.argsLabels trees) (trees.flatMap Exp.temps)
        → Form.AllProper (expForms naming trees)
  | [], _ => by simp
  | tree :: rest, writable => by
      rw [Exp.argsLabels, List.flatMap_cons] at writable
      simp [expForm_proper writable.append.1, expForms_proper writable.append.2]

end

mutual

theorem stmForm_proper
    : ∀ {tree : Stm}, Writable naming tree.labels tree.mentions → (stmForm naming tree).Proper
  | .label name, writable => by
      have keyword : IsAtom "label" := by decide
      simp [keyword, writable.labels name (by simp)]
  | .jump target, writable => by
      have keyword : IsAtom "jump" := by decide
      rw [Stm.labels, Stm.mentions] at writable
      simp [keyword, expForm_proper writable]
  | .cjump op left right ifTrue ifFalse, writable => by
      have keyword : IsAtom "cjump" := by decide
      have targets : IsAtom ifTrue.name ∧ IsAtom ifFalse.name :=
        ⟨writable.labels ifTrue (by simp), writable.labels ifFalse (by simp)⟩
      rw [Stm.labels, Stm.mentions, ← List.append_nil (left.temps ++ right.temps)] at writable
      obtain ⟨leftWritable, rightWritable⟩ := writable.append.1.append
      simp [keyword, isAtom_relOp, targets, expForm_proper leftWritable,
        expForm_proper rightWritable]
  | .cmove op left right dst value, writable => by
      have keyword : IsAtom "cmove" := by decide
      have dstAtom := writable.registers dst (by simp)
      rw [Stm.labels, Stm.mentions, ← List.append_nil (left.labels ++ right.labels)] at writable
      obtain ⟨operands, valueWritable⟩ := writable.append
      obtain ⟨leftWritable, rightWritable⟩ := operands.append.1.append
      simp [keyword, isAtom_relOp, dstAtom, expForm_proper leftWritable,
        expForm_proper rightWritable, expForm_proper valueWritable]
  | .move dst src, writable => by
      have keyword : IsAtom "move" := by decide
      rw [Stm.labels, Stm.mentions] at writable
      simp [keyword, expForm_proper writable.append.1, expForm_proper writable.append.2]
  | .exp value, writable => by
      have keyword : IsAtom "exp" := by decide
      rw [Stm.labels, Stm.mentions] at writable
      simp [keyword, expForm_proper writable]
  | .seq statements, writable => by
      have keyword : IsAtom "seq" := by decide
      rw [Stm.labels, Stm.mentions] at writable
      simp [keyword, stmForms_proper writable]

theorem stmForms_proper
    : ∀ {statements : List Stm},
        Writable naming (Stm.labelsAll statements) (Stm.mentionsAll statements)
        → Form.AllProper (stmForms naming statements)
  | [], _ => by simp
  | statement :: rest, writable => by
      rw [Stm.labelsAll, Stm.mentionsAll] at writable
      simp [stmForm_proper writable.append.1, stmForms_proper writable.append.2]

end

theorem fragmentForm_proper {fragment : Fragment} (hasSequence : fragment.HasSequence)
    (writable : Writable naming fragment.labels fragment.mentions)
    : (fragmentForm naming fragment).Proper := by
  cases fragment with
  | procedure name body =>
      obtain ⟨statements, rfl⟩ := hasSequence
      have keyword : IsAtom "proc" := by decide
      obtain ⟨labels, registers⟩ := writable
      obtain ⟨nameAtom, bodyLabels⟩ := List.forall_mem_cons.mp labels
      rw [Stm.labels] at bodyLabels
      rw [Fragment.mentions, Stm.mentions] at registers
      simp [fragmentForm, keyword, nameAtom, stmForms_proper ⟨bodyLabels, registers⟩]
  | data name words =>
      have keyword : IsAtom "data" := by decide
      obtain ⟨labels, registers⟩ := writable
      obtain ⟨nameAtom, wordLabels⟩ := List.forall_mem_cons.mp labels
      simp [fragmentForm, keyword, nameAtom, expForms_proper ⟨wordLabels, registers⟩]

/-- What is printed for a program is one of its texts. -/
theorem print_writes {fragments : List Fragment}
    (sequences : ∀ fragment ∈ fragments, fragment.HasSequence)
    (writable
      : Writable naming (fragments.flatMap Fragment.labels) (fragments.flatMap Fragment.mentions))
    : Writes naming fragments (print naming fragments) := by
  have each
      : List.Forall₂ (WrittenFragment naming) fragments (fragments.map (fragmentForm naming))
        ∧ Form.AllProper (fragments.map (fragmentForm naming)) := by
    induction fragments with
    | nil => simp
    | cons fragment rest ih =>
        obtain ⟨sequence, restSequences⟩ := List.forall_mem_cons.mp sequences
        rw [List.flatMap_cons, List.flatMap_cons] at writable
        obtain ⟨written, proper⟩ := ih restSequences writable.append.2
        rw [List.map_cons, Form.allProper_cons]
        exact ⟨.cons (fragmentForm_written sequence) written,
          fragmentForm_proper sequence writable.append.1, proper⟩
  refine ⟨_, each.1, ?_⟩
  rw [print, String.toList_ofList]
  exact (layout_spaced each.2).1

end Source

end TreeTiling
