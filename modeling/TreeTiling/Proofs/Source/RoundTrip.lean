import Mathlib.Data.List.Induction
import TreeTiling.Proofs.Source.Grammar
import TreeTiling.Proofs.Source.Naming
import TreeTiling.Proofs.Tree.Renumbering
import TreeTiling.X64.Register

/-!
Reading a program back from any of its texts.

A reader numbers temporaries as it meets their names, so what comes back is the program with each
temporary renumbered by its rank among the first occurrences. Neither the names nor the layout
matter.
-/

namespace TreeTiling

----------------------------------------------------------------------------------------------
-- Ranks
----------------------------------------------------------------------------------------------

namespace Temp

def number? : Temp → Option Nat
  | virtual number => some number
  | fixed _ => none

/-- The numbers of the virtual registers of a list, each where it occurs first. -/
def ranking (registers : List Temp) : List Nat :=
  (registers.filterMap number?).eraseDups

/-- The rank of a virtual register among the first occurrences in a list. -/
def rank (registers : List Temp) (number : Nat) : Nat :=
  (ranking registers).idxOf number

theorem mem_ranking {registers : List Temp} {number : Nat}
    : number ∈ ranking registers ↔ .virtual number ∈ registers := by
  rw [ranking, List.mem_eraseDups, List.mem_filterMap]
  constructor
  · intro found
    obtain ⟨register, member, isNumber⟩ := found
    cases register with
    | virtual other =>
        cases isNumber
        exact member
    | fixed name => cases isNumber
  · exact fun member => ⟨_, member, rfl⟩

theorem ranking_append (earlier later : List Temp)
    : ∃ added, ranking (earlier ++ later) = ranking earlier ++ added := by
  rw [ranking, List.filterMap_append, List.eraseDups_append]
  exact ⟨_, rfl⟩

/-- A register that occurs again changes nothing about the ranking. -/
theorem ranking_again {earlier : List Temp} {number : Nat} (occurs : .virtual number ∈ earlier)
    : ranking (earlier ++ [.virtual number]) = ranking earlier := by
  have single : [Temp.virtual number].filterMap number? = [number] := rfl
  rw [← mem_ranking, ranking, List.mem_eraseDups] at occurs
  rw [ranking, List.filterMap_append, single, List.eraseDups_append, ranking]
  simp [List.removeAll, -List.mem_filterMap, occurs]

/-- A register that is new comes last in the ranking. -/
theorem ranking_new {earlier : List Temp} {number : Nat} (new : .virtual number ∉ earlier)
    : ranking (earlier ++ [.virtual number]) = ranking earlier ++ [number] := by
  have single : [Temp.virtual number].filterMap number? = [number] := rfl
  rw [← mem_ranking, ranking, List.mem_eraseDups] at new
  rw [ranking, List.filterMap_append, single, List.eraseDups_append, ranking]
  simp [List.removeAll, -List.mem_filterMap, new, List.eraseDups_cons]

theorem ranking_fixed (earlier : List Temp) (name : String)
    : ranking (earlier ++ [.fixed name]) = ranking earlier := by
  have single : [Temp.fixed name].filterMap number? = [] := rfl
  rw [ranking, List.filterMap_append, single, List.append_nil, ranking]

/-- What has a rank keeps it when more registers follow. -/
theorem rank_of_isPrefix {earlier all : List Temp} (isPrefix : earlier <+: all) {number : Nat}
    (occurs : .virtual number ∈ earlier)
    : rank all number = rank earlier number := by
  obtain ⟨later, rfl⟩ := isPrefix
  obtain ⟨added, same⟩ := ranking_append earlier later
  rw [rank, same, List.idxOf_append_of_mem (mem_ranking.mpr occurs), rank]

end Temp

namespace Source

variable {naming : Nat → String} {session : Session} {register? : String → Option Temp}
  {all : List Temp} {α β : Type}

----------------------------------------------------------------------------------------------
-- Names after some registers
----------------------------------------------------------------------------------------------

/-- The names that were given to ranked numbers, from the first temporary on. -/
def given (naming : Nat → String) (first : Nat) (ranking : List Nat) : Names :=
  (ranking.zipIdx.map fun entry => (naming entry.1, .virtual (first + entry.2))).reverse

theorem given_append (naming : Nat → String) (first : Nat) (ranking : List Nat) (number : Nat)
    : given naming first (ranking ++ [number])
      = (naming number, .virtual (first + ranking.length)) :: given naming first ranking := by
  simp [given, List.zipIdx_append]

/-- Where reading stands after it has met registers. -/
def readingAfter (naming : Nat → String) (session : Session) (registers : List Temp) : Reading where
  names := given naming session.temps (Temp.ranking registers)
  session := { session with temps := session.temps + (Temp.ranking registers).length }

/-- A name that was met has the temporary of its rank, and no other has one; by induction on the
registers, the last one off.
-/
theorem lookup_given (first : Nat) {registers : List Temp} {number : Nat}
    (injective
      : ∀ other, .virtual other ∈ registers → naming other = naming number → other = number)
    : (.virtual number ∈ registers
        → (given naming first (Temp.ranking registers)).lookup (naming number)
          = some (.virtual (first + Temp.rank registers number)))
      ∧ (.virtual number ∉ registers
        → (given naming first (Temp.ranking registers)).lookup (naming number) = none) := by
  induction registers using List.reverseRecOn with
  | nil => exact ⟨fun occurs => absurd occurs List.not_mem_nil, fun _ => rfl⟩
  | append_singleton registers register ih =>
      obtain ⟨met, unmet⟩ := ih fun other member => injective other (List.mem_append_left _ member)
      rw [List.mem_append, List.mem_singleton]
      cases register with
      | fixed name => simpa [Temp.rank, Temp.ranking_fixed] using And.intro met unmet
      | virtual other =>
          by_cases again : .virtual other ∈ registers
          · rw [Temp.rank, Temp.ranking_again again]
            refine ⟨fun occurs => met ?_, fun absent => unmet fun occurs => absent (.inl occurs)⟩
            rcases occurs with earlier | isOther
            · exact earlier
            · exact isOther ▸ again
          · rw [Temp.rank, Temp.ranking_new again, given_append, List.lookup_cons]
            by_cases isOther : number = other
            · subst isOther
              have notRanked := mt Temp.mem_ranking.mp again
              simp [List.idxOf_append_of_notMem notRanked]
            · have differs : (naming number == naming other) = false := by
                refine beq_false_of_ne fun same => isOther ?_
                exact (injective other (List.mem_append_right _ List.mem_cons_self) same.symm).symm
              rw [differs]
              refine ⟨?_, fun absent => unmet fun occurs => absent (.inl occurs)⟩
              intro occurs
              have earlier : .virtual number ∈ registers :=
                occurs.resolve_right fun same => isOther (Temp.virtual.inj same)
              rw [List.idxOf_append_of_mem (Temp.mem_ranking.mpr earlier)]
              exact met earlier

----------------------------------------------------------------------------------------------
-- Readers
----------------------------------------------------------------------------------------------

/-- How a text names registers: machine registers as the reader knows them, and the others by names
of their own that are not taken for machine registers.
-/
structure Spelled (register? : String → Option Temp) (naming : Nat → String) (all : List Temp)
    : Prop where
  plain : ∀ number, .virtual number ∈ all → (naming number).toList.head? ≠ some '%'
  injective
    : ∀ left right,
        .virtual left ∈ all → .virtual right ∈ all → naming left = naming right → left = right
  machine
    : ∀ name,
        .fixed name ∈ all
        → name.toList.head? = some '%' ∧ register? name = some (.fixed name)

/-- The number that reading gives to a register of a text. -/
def renumbered (session : Session) (all : List Temp) (number : Nat) : Nat :=
  session.temps + Temp.rank all number

/-- A computation reads registers of a text in order and answers with a result. -/
def Reads (naming : Nat → String) (session : Session) (all registers : List Temp)
    (reader : ReadM α) (result : α)
    : Prop :=
  ∀ earlier,
    earlier ++ registers <+: all
    → reader (readingAfter naming session earlier)
      = .ok result (readingAfter naming session (earlier ++ registers))

namespace Reads

variable {registers others : List Temp}

theorem pure (result : α) : Reads naming session all [] (pure result) result := by
  intro earlier _
  rw [List.append_nil]
  rfl

/-- Readers in sequence read one list of registers after the other. -/
theorem bind {reader : ReadM α} {next : α → ReadM β} {result : α} {answer : β}
    (reads : Reads naming session all registers reader result)
    (nextReads : Reads naming session all others (next result) answer)
    : Reads naming session all (registers ++ others) (reader >>= next) answer := by
  intro earlier isPrefix
  rw [← List.append_assoc] at isPrefix ⊢
  have first := reads earlier ((List.prefix_append _ _).trans isPrefix)
  change EStateM.bind reader next _ = _
  unfold EStateM.bind
  rw [first]
  exact nextReads _ isPrefix

theorem map {reader : ReadM α} {result : α}
    (reads : Reads naming session all registers reader result) (change : α → β)
    : Reads naming session all registers (do return change (← reader)) (change result) := by
  have both : Reads naming session all (registers ++ []) (do return change (← reader)) _ :=
    reads.bind (.pure (change result))
  rwa [List.append_nil] at both

/-- A name is read as the temporary of its rank. -/
theorem named (spelled : Spelled register? naming all) (number : Nat)
    : Reads naming session all [.virtual number] (named (naming number))
        (.virtual (renumbered session all number)) := by
  intro earlier isPrefix
  have occurs : .virtual number ∈ earlier ++ [.virtual number] := by simp
  have injective
      : ∀ other, .virtual other ∈ earlier → naming other = naming number → other = number :=
    fun other member =>
      spelled.injective other number (isPrefix.subset (List.mem_append_left _ member))
        (isPrefix.subset occurs)
  obtain ⟨met, unmet⟩ := lookup_given session.temps injective
  -- Whatever follows, the rank is settled once the name has been read.
  rw [named_eq, renumbered, Temp.rank_of_isPrefix isPrefix occurs, Temp.rank]
  by_cases again : .virtual number ∈ earlier
  · have found
        : (readingAfter naming session earlier).names.lookup (naming number)
          = some (.virtual (session.temps + Temp.rank earlier number)) :=
      met again
    rw [found, readingAfter, readingAfter, Temp.ranking_again again, Temp.rank]
  · have isNew : (readingAfter naming session earlier).names.lookup (naming number) = none :=
      unmet again
    have notRanked := mt Temp.mem_ranking.mp again
    rw [isNew, readingAfter, readingAfter, Temp.ranking_new again, given_append,
      List.idxOf_append_of_notMem notRanked]
    simp [Session.fresh, Nat.add_assoc]

/-- A register is read by its spelling. -/
theorem temporary (spelled : Spelled register? naming all) {register : Temp} {operand : Sexp}
    (isName : temporaryName operand = Pure.pure (spelling naming register))
    : Reads naming session all [register] (temporary register? operand)
        (register.renumber (renumbered session all)) := by
  intro earlier isPrefix
  have occurs : register ∈ all := isPrefix.subset (by simp)
  unfold Source.temporary
  rw [isName, pure_bind]
  cases register with
  | virtual number =>
      rw [spelling, if_neg (spelled.plain number occurs)]
      exact Reads.named spelled number earlier isPrefix
  | fixed name =>
      obtain ⟨isMachine, known⟩ := spelled.machine name occurs
      rw [spelling, if_pos isMachine, known, readingAfter, readingAfter, Temp.ranking_fixed]
      rfl

end Reads

theorem temporaryName_of_written {register : Temp} {operand : Sexp}
    (written : WrittenTemp naming register operand.form)
    : temporaryName operand = pure (spelling naming register) := by
  generalize isForm : operand.form = form at written
  cases written with
  | bare =>
      obtain ⟨line, rfl⟩ := Sexp.form_eq_atom.mp isForm
      rfl
  | temp =>
      obtain ⟨start, operands, line, rfl, isOperands⟩ := Sexp.form_eq_keyword.mp isForm
      obtain ⟨name, rfl, isName⟩ := Sexp.forms_eq_singleton.mp isOperands
      obtain ⟨nameLine, rfl⟩ := Sexp.form_eq_atom.mp isName
      rfl

----------------------------------------------------------------------------------------------
-- Operators in letters of either case
----------------------------------------------------------------------------------------------

theorem sameLetters_right {left right : String} (same : Text.sameLetters left right = true)
    (text : String)
    : Text.sameLetters text right = Text.sameLetters text left := by
  rw [Text.sameLetters, Text.sameLetters, eq_of_beq same]

theorem binOp_ofName? {op : BinOp} {keyword : String}
    (same : Text.sameLetters op.name keyword = true)
    : BinOp.ofName? keyword = some op := by
  have exact : BinOp.ofName? op.name = some op := by
    cases op <;> decide
  simpa only [BinOp.ofName?, sameLetters_right same] using exact

theorem relOp_ofName? {op : RelOp} {keyword : String}
    (same : Text.sameLetters op.name keyword = true)
    : RelOp.ofName? keyword = some op := by
  have exact : RelOp.ofName? op.name = some op := by
    cases op <;> decide
  simpa only [RelOp.ofName?, sameLetters_right same] using exact

/-- An operator is no other keyword, whatever the case of its letters. -/
theorem ofKeyword?_operator {op : BinOp} {keyword : String}
    (same : Text.sameLetters op.name keyword = true)
    : ExpForm.ofKeyword? keyword = some (.binary op) := by
  have differs
      : ∀ word ∈ ["const", "name", "temp", "mem", "call"],
          Text.sameLetters op.name word = false := by
    cases op <;> decide
  have apart : ∀ word ∈ ["const", "name", "temp", "mem", "call"], keyword ≠ word := by
    intro word member isWord
    have differsHere := differs word member
    rw [← isWord, same] at differsHere
    cases differsHere
  simp only [List.forall_mem_cons] at apart
  simp [ExpForm.ofKeyword?, apart, binOp_ofName? same]

----------------------------------------------------------------------------------------------
-- Trees
----------------------------------------------------------------------------------------------

theorem Reads.integer {text : String} {value : Word}
    (spells : Numeral.Spells text.toList value) (line start : Nat)
    : Reads naming session all [] (integer line (.atom text start)) value := by
  unfold Source.integer atom
  rw [pure_bind, Numeral.word?_of_spells spells]
  exact .pure value

theorem Reads.relation {op : RelOp} {text : String}
    (same : Text.sameLetters op.name text = true) (line : Nat)
    : Reads naming session all [] (relation (.atom text line)) op := by
  unfold Source.relation atom
  rw [pure_bind, relOp_ofName? same]
  exact .pure op

theorem Reads.label (label : Label) (line : Nat)
    : Reads naming session all [] (Source.label (.atom label.name line)) label :=
  .pure label

mutual

/-- Reading a form of an expression; by recursion on the expression, whose forms stand in lists that
hide them from an induction on how it is written.
-/
theorem exp_reads (spelled : Spelled register? naming all)
    : ∀ (tree : Exp) {operand : Sexp},
        WrittenExp naming tree operand.form
        → Reads naming session all tree.temps (exp register? operand)
            (tree.renumber (renumbered session all))
  | .const value, operand, written => by
      generalize isForm : operand.form = form at written
      rw [Exp.renumber, Exp.temps_const]
      cases written with
      | numeral spells =>
          obtain ⟨line, rfl⟩ := Sexp.form_eq_atom.mp isForm
          rw [exp.eq_def]
          dsimp only
          rw [Numeral.word?_of_spells spells]
          exact .pure _
      | const spells =>
          obtain ⟨start, operands, line, rfl, isOperands⟩ := Sexp.form_eq_keyword.mp isForm
          obtain ⟨numeral, rfl, isNumeral⟩ := Sexp.forms_eq_singleton.mp isOperands
          obtain ⟨numeralLine, rfl⟩ := Sexp.form_eq_atom.mp isNumeral
          rw [exp.eq_def]
          exact (Reads.integer spells line numeralLine).map Exp.const
  | .name label, operand, written => by
      generalize isForm : operand.form = form at written
      rw [Exp.renumber, Exp.temps_name]
      cases written with
      | name =>
          obtain ⟨start, operands, line, rfl, isOperands⟩ := Sexp.form_eq_keyword.mp isForm
          obtain ⟨name, rfl, isName⟩ := Sexp.forms_eq_singleton.mp isOperands
          obtain ⟨nameLine, rfl⟩ := Sexp.form_eq_atom.mp isName
          rw [exp.eq_def]
          exact (Reads.label label nameLine).map Exp.name
  | .temp register, operand, written => by
      generalize isForm : operand.form = form at written
      rw [Exp.renumber, Exp.temps_temp]
      cases written with
      | temp =>
          obtain ⟨start, operands, line, rfl, isOperands⟩ := Sexp.form_eq_keyword.mp isForm
          obtain ⟨name, rfl, isName⟩ := Sexp.forms_eq_singleton.mp isOperands
          obtain ⟨nameLine, rfl⟩ := Sexp.form_eq_atom.mp isName
          rw [exp.eq_def]
          have isSpelling
              : temporaryName (.atom (spelling naming register) nameLine)
                = pure (spelling naming register) :=
            rfl
          exact (Reads.temporary spelled isSpelling).map Exp.temp
  | .mem address, operand, written => by
      generalize isForm : operand.form = form at written
      rw [Exp.renumber, Exp.temps_mem]
      cases written with
      | mem addressWritten =>
          obtain ⟨start, operands, line, rfl, isOperands⟩ := Sexp.form_eq_keyword.mp isForm
          obtain ⟨inner, rfl, rfl⟩ := Sexp.forms_eq_singleton.mp isOperands
          rw [exp.eq_def]
          exact (exp_reads spelled address addressWritten).map Exp.mem
  | .binop op left right, operand, written => by
      generalize isForm : operand.form = form at written
      rw [Exp.renumber, Exp.temps_binop]
      cases written with
      | binop same leftWritten rightWritten =>
          obtain ⟨start, operands, line, rfl, isOperands⟩ := Sexp.form_eq_keyword.mp isForm
          obtain ⟨first, second, rfl, rfl, rfl⟩ := Sexp.forms_eq_pair.mp isOperands
          rw [exp.eq_def]
          dsimp only
          rw [ofKeyword?_operator same]
          exact (exp_reads spelled left leftWritten).bind
            ((exp_reads spelled right rightWritten).map _)
  | .call function args, operand, written => by
      generalize isForm : operand.form = form at written
      rw [Exp.renumber, Exp.temps_call]
      cases written with
      | callLabel label argsWritten =>
          obtain ⟨start, operands, line, rfl, isOperands⟩ := Sexp.form_eq_keyword.mp isForm
          obtain ⟨first, others, rfl, isFirst, rfl⟩ := Sexp.forms_eq_cons.mp isOperands
          obtain ⟨nameLine, rfl⟩ := Sexp.form_eq_atom.mp isFirst
          rw [exp.eq_def, Exp.temps_name, Exp.renumber, List.nil_append]
          exact (exps_reads spelled args argsWritten).map _
      | call functionWritten argsWritten =>
          obtain ⟨start, operands, line, rfl, isOperands⟩ := Sexp.form_eq_keyword.mp isForm
          obtain ⟨first, others, rfl, isFirst, rfl⟩ := Sexp.forms_eq_cons.mp isOperands
          obtain ⟨items, itemsLine, rfl, rfl⟩ := Sexp.form_eq_list.mp isFirst
          rw [exp.eq_def]
          rw [← isFirst] at functionWritten
          exact (exp_reads spelled function functionWritten).bind
            ((exps_reads spelled args argsWritten).map _)

theorem exps_reads (spelled : Spelled register? naming all)
    : ∀ (trees : List Exp) {operands : List Sexp},
        List.Forall₂ (WrittenExp naming) trees (Sexp.forms operands)
        → Reads naming session all (trees.flatMap Exp.temps) (exps register? operands)
            (Exp.argsRenumber (renumbered session all) trees)
  | [], operands, written => by
      obtain rfl := Sexp.forms_eq_nil.mp (List.forall₂_nil_left_iff.mp written)
      rw [exps, Exp.argsRenumber]
      exact .pure _
  | tree :: rest, operands, written => by
      obtain ⟨form, forms, treeWritten, restWritten, isForms⟩ :=
        List.forall₂_cons_left_iff.mp written
      obtain ⟨operand, others, rfl, rfl, rfl⟩ := Sexp.forms_eq_cons.mp isForms
      rw [exps, Exp.argsRenumber, List.flatMap_cons]
      exact (exp_reads spelled tree treeWritten).bind ((exps_reads spelled rest restWritten).map _)

end

/-- Reading a form of the target of a jump that is no bare label. -/
theorem jumpTarget_reads (spelled : Spelled register? naming all) {target : Exp} {operand : Sexp}
    {items : List Form} (written : WrittenExp naming target (.list items))
    (isForm : operand.form = .list items)
    : Reads naming session all target.temps (jumpTarget register? operand)
        (target.renumber (renumbered session all)) := by
  obtain ⟨inner, line, rfl, -⟩ := Sexp.form_eq_list.mp isForm
  rw [← isForm] at written
  exact exp_reads spelled target written

mutual

/-- Reading a form of a statement. -/
theorem stm_reads (spelled : Spelled register? naming all)
    : ∀ (tree : Stm) {operand : Sexp},
        WrittenStm naming tree operand.form
        → Reads naming session all tree.mentions (stm register? operand)
            (tree.renumber (renumbered session all))
  | .label name, operand, written => by
      generalize isForm : operand.form = form at written
      rw [Stm.renumber, Stm.mentions]
      cases written with
      | label =>
          obtain ⟨start, operands, line, rfl, isOperands⟩ := Sexp.form_eq_keyword.mp isForm
          obtain ⟨label, rfl, isLabel⟩ := Sexp.forms_eq_singleton.mp isOperands
          obtain ⟨labelLine, rfl⟩ := Sexp.form_eq_atom.mp isLabel
          rw [stm.eq_def]
          exact (Reads.label name labelLine).map Stm.label
  | .jump target, operand, written => by
      generalize isForm : operand.form = form at written
      rw [Stm.renumber, Stm.mentions]
      cases written with
      | jumpLabel label =>
          obtain ⟨start, operands, line, rfl, isOperands⟩ := Sexp.form_eq_keyword.mp isForm
          obtain ⟨name, rfl, isName⟩ := Sexp.forms_eq_singleton.mp isOperands
          obtain ⟨nameLine, rfl⟩ := Sexp.form_eq_atom.mp isName
          rw [stm.eq_def, Exp.renumber, Exp.temps_name]
          exact .pure _
      | jump targetWritten =>
          obtain ⟨start, operands, line, rfl, isOperands⟩ := Sexp.form_eq_keyword.mp isForm
          obtain ⟨inner, rfl, isInner⟩ := Sexp.forms_eq_singleton.mp isOperands
          rw [stm.eq_def]
          exact (jumpTarget_reads spelled targetWritten isInner).map Stm.jump
  | .cjump op left right ifTrue ifFalse, operand, written => by
      generalize isForm : operand.form = form at written
      rw [Stm.renumber, Stm.mentions]
      cases written with
      | cjump _ _ same leftWritten rightWritten =>
          obtain ⟨start, operands, line, rfl, isOperands⟩ := Sexp.form_eq_keyword.mp isForm
          obtain ⟨first, afterFirst, rfl, isRelation, isRest⟩ := Sexp.forms_eq_cons.mp isOperands
          obtain ⟨second, afterSecond, rfl, rfl, isTail⟩ := Sexp.forms_eq_cons.mp isRest
          obtain ⟨third, afterThird, rfl, rfl, isTargets⟩ := Sexp.forms_eq_cons.mp isTail
          obtain ⟨fourth, fifth, rfl, isTrue, isFalse⟩ := Sexp.forms_eq_pair.mp isTargets
          obtain ⟨relationLine, rfl⟩ := Sexp.form_eq_atom.mp isRelation
          obtain ⟨trueLine, rfl⟩ := Sexp.form_eq_atom.mp isTrue
          obtain ⟨falseLine, rfl⟩ := Sexp.form_eq_atom.mp isFalse
          -- The labels name no register, but they are read after all those that do.
          rw [stm.eq_def, ← List.append_nil right.temps]
          exact (Reads.relation same relationLine).bind
            ((exp_reads spelled left leftWritten).bind
              ((exp_reads spelled right rightWritten).bind
                ((Reads.label ifTrue trueLine).bind ((Reads.label ifFalse falseLine).map _))))
  | .cmove op left right dst value, operand, written => by
      generalize isForm : operand.form = form at written
      rw [Stm.renumber, Stm.mentions, List.append_assoc, List.append_assoc]
      cases written with
      | cmove same leftWritten rightWritten dstWritten valueWritten =>
          obtain ⟨start, operands, line, rfl, isOperands⟩ := Sexp.form_eq_keyword.mp isForm
          obtain ⟨first, afterFirst, rfl, isRelation, isRest⟩ := Sexp.forms_eq_cons.mp isOperands
          obtain ⟨second, afterSecond, rfl, rfl, isTail⟩ := Sexp.forms_eq_cons.mp isRest
          obtain ⟨third, afterThird, rfl, rfl, isMove⟩ := Sexp.forms_eq_cons.mp isTail
          obtain ⟨fourth, fifth, rfl, rfl, rfl⟩ := Sexp.forms_eq_pair.mp isMove
          obtain ⟨relationLine, rfl⟩ := Sexp.form_eq_atom.mp isRelation
          rw [stm.eq_def]
          exact (Reads.relation same relationLine).bind
            ((exp_reads spelled left leftWritten).bind
              ((exp_reads spelled right rightWritten).bind
                ((Reads.temporary spelled (temporaryName_of_written dstWritten)).bind
                  ((exp_reads spelled value valueWritten).map _))))
  | .move dst src, operand, written => by
      generalize isForm : operand.form = form at written
      rw [Stm.renumber, Stm.mentions]
      cases written with
      | move dstWritten srcWritten =>
          obtain ⟨start, operands, line, rfl, isOperands⟩ := Sexp.form_eq_keyword.mp isForm
          obtain ⟨first, second, rfl, rfl, rfl⟩ := Sexp.forms_eq_pair.mp isOperands
          rw [stm.eq_def]
          exact (exp_reads spelled dst dstWritten).bind ((exp_reads spelled src srcWritten).map _)
  | .exp value, operand, written => by
      generalize isForm : operand.form = form at written
      rw [Stm.renumber, Stm.mentions]
      cases written with
      | exp valueWritten =>
          obtain ⟨start, operands, line, rfl, isOperands⟩ := Sexp.form_eq_keyword.mp isForm
          obtain ⟨inner, rfl, rfl⟩ := Sexp.forms_eq_singleton.mp isOperands
          rw [stm.eq_def]
          exact (exp_reads spelled value valueWritten).map Stm.exp
  | .seq statements, operand, written => by
      generalize isForm : operand.form = form at written
      rw [Stm.renumber, Stm.mentions]
      cases written with
      | seq partsWritten =>
          obtain ⟨start, operands, line, rfl, rfl⟩ := Sexp.form_eq_keyword.mp isForm
          have opens
              : stm register? (.list (.atom "seq" start :: operands) line)
                = (do return .seq (← stms register? operands)) := by
            rw [stm.eq_def]
            cases operands <;> rfl
          rw [opens]
          exact (stms_reads spelled statements partsWritten).map Stm.seq

theorem stms_reads (spelled : Spelled register? naming all)
    : ∀ (trees : List Stm) {operands : List Sexp},
        List.Forall₂ (WrittenStm naming) trees (Sexp.forms operands)
        → Reads naming session all (Stm.mentionsAll trees) (stms register? operands)
            (Stm.renumberAll (renumbered session all) trees)
  | [], operands, written => by
      obtain rfl := Sexp.forms_eq_nil.mp (List.forall₂_nil_left_iff.mp written)
      rw [stms, Stm.renumberAll, Stm.mentionsAll]
      exact .pure _
  | tree :: rest, operands, written => by
      obtain ⟨form, forms, treeWritten, restWritten, isForms⟩ :=
        List.forall₂_cons_left_iff.mp written
      obtain ⟨operand, others, rfl, rfl, rfl⟩ := Sexp.forms_eq_cons.mp isForms
      rw [stms, Stm.renumberAll, Stm.mentionsAll]
      exact (stm_reads spelled tree treeWritten).bind ((stms_reads spelled rest restWritten).map _)

end

/-- Reading a form of a fragment. -/
theorem fragment_reads (spelled : Spelled register? naming all) {tree : Fragment} {operand : Sexp}
    (written : WrittenFragment naming tree operand.form)
    : Reads naming session all tree.mentions (fragment register? operand)
        (tree.renumber (renumbered session all)) := by
  generalize isForm : operand.form = form at written
  cases written with
  | procedure name bodyWritten =>
      obtain ⟨start, operands, line, rfl, isOperands⟩ := Sexp.form_eq_keyword.mp isForm
      obtain ⟨first, rest, rfl, isName, rfl⟩ := Sexp.forms_eq_cons.mp isOperands
      obtain ⟨nameLine, rfl⟩ := Sexp.form_eq_atom.mp isName
      rw [Fragment.mentions, Stm.mentions, Fragment.renumber, Stm.renumber]
      exact (Reads.label name nameLine).bind ((stms_reads spelled _ bodyWritten).map _)
  | data name wordsWritten =>
      obtain ⟨start, operands, line, rfl, isOperands⟩ := Sexp.form_eq_keyword.mp isForm
      obtain ⟨first, rest, rfl, isName, rfl⟩ := Sexp.forms_eq_cons.mp isOperands
      obtain ⟨nameLine, rfl⟩ := Sexp.form_eq_atom.mp isName
      exact (Reads.label name nameLine).bind ((exps_reads spelled _ wordsWritten).map _)

/-- Reading forms of fragments in order. -/
theorem fragments_reads (spelled : Spelled register? naming all) {trees : List Fragment}
    {operands : List Sexp}
    (written : List.Forall₂ (WrittenFragment naming) trees (Sexp.forms operands))
    : Reads naming session all (trees.flatMap Fragment.mentions) (fragments register? operands)
        (trees.map (Fragment.renumber (renumbered session all))) := by
  induction trees generalizing operands with
  | nil =>
      obtain rfl := Sexp.forms_eq_nil.mp (List.forall₂_nil_left_iff.mp written)
      exact .pure _
  | cons tree rest ih =>
      obtain ⟨form, forms, treeWritten, restWritten, isForms⟩ :=
        List.forall₂_cons_left_iff.mp written
      obtain ⟨operand, others, rfl, rfl, rfl⟩ := Sexp.forms_eq_cons.mp isForms
      rw [List.flatMap_cons]
      exact (fragment_reads spelled treeWritten).bind ((ih restWritten).map _)

/-- A text of a program reads as the program, with its registers renumbered. -/
theorem readFragments_of_writes {fragments : List Fragment} {source : String} (session : Session)
    (spelled : Spelled register? naming (fragments.flatMap Fragment.mentions))
    (writes : Writes naming fragments source)
    : readFragments register? source { names := [], session }
      = .ok
          (fragments.map
            (Fragment.renumber (renumbered session (fragments.flatMap Fragment.mentions))))
          (readingAfter naming session (fragments.flatMap Fragment.mentions)) := by
  obtain ⟨forms, written, layout⟩ := writes
  obtain ⟨items, parses, rfl⟩ := parse_layout layout
  have reads
      : Reads naming session (fragments.flatMap Fragment.mentions)
          (fragments.flatMap Fragment.mentions) (Source.fragments register? items) _ :=
    fragments_reads spelled written
  have opens : readFragments register? source = Source.fragments register? items := by
    unfold readFragments parse
    rw [parses]
    rfl
  rw [opens]
  exact reads [] (List.prefix_refl _)

----------------------------------------------------------------------------------------------
-- Programs for the machine
----------------------------------------------------------------------------------------------

/-- A program that can be written: bodies are sequences, labels are atoms, machine registers exist,
and the virtual registers that occur have different names, which are atoms without a percent sign in
front.
-/
structure Printable (naming : Nat → String) (program : List Fragment) : Prop where
  sequences : ∀ fragment ∈ program, fragment.HasSequence
  labels : ∀ label ∈ program.flatMap Fragment.labels, IsAtom label.name
  machine
    : ∀ name, .fixed name ∈ program.flatMap Fragment.mentions → .fixed name ∈ X64.registers
  names
    : ∀ number,
        .virtual number ∈ program.flatMap Fragment.mentions
        → IsAtom (naming number) ∧ (naming number).toList.head? ≠ some '%'
  injective
    : ∀ left right,
        .virtual left ∈ program.flatMap Fragment.mentions
        → .virtual right ∈ program.flatMap Fragment.mentions
        → naming left = naming right
        → left = right

theorem machine_register {name : String} (known : .fixed name ∈ X64.registers)
    : IsAtom name ∧ name.toList.head? = some '%' ∧ X64.register? name = some (.fixed name) := by
  have each
      : ∀ register ∈ X64.registers,
          IsAtom register.text
          ∧ register.text.toList.head? = some '%'
          ∧ X64.register? register.text = some register := by
    decide
  exact each _ known

theorem Printable.spelled {program : List Fragment} (printable : Printable naming program)
    : Spelled X64.register? naming (program.flatMap Fragment.mentions) where
  plain number occurs := (printable.names number occurs).2
  injective := printable.injective
  machine name occurs := (machine_register (printable.machine name occurs)).2

theorem Printable.writable {program : List Fragment} (printable : Printable naming program)
    : Writable naming (program.flatMap Fragment.labels) (program.flatMap Fragment.mentions) where
  labels := printable.labels
  registers register occurs := by
    cases register with
    | virtual number => exact (printable.names number occurs).1
    | fixed name => exact (machine_register (printable.machine name occurs)).1

/-- A program is recovered from each of its texts, and it has one: the same trees come back, and the
virtual registers are numbered in the order in which they first occur, from the next one of the
session on. Neither the naming nor the text has a part in the result.
-/
theorem readFragments_recovers_program (program : List Fragment) (naming : Nat → String)
    (session : Session) (printable : Printable naming program)
    : Writes naming program (print naming program)
      ∧ ∀ source,
          Writes naming program source
          → ∃ names,
              readFragments X64.register? source { names := [], session }
              = .ok
                  (program.map
                    (Fragment.renumber fun number =>
                      session.temps + Temp.rank (program.flatMap Fragment.mentions) number))
                  { names
                    session :=
                      { session with
                        temps :=
                          session.temps
                          + (Temp.ranking (program.flatMap Fragment.mentions)).length } } := by
  refine ⟨print_writes printable.sequences printable.writable, ?_⟩
  intro source writes
  exact ⟨_, readFragments_of_writes session printable.spelled writes⟩

/-- Counts down to a limit, with the least word in a table. -/
def countdown : List Fragment :=
  [.procedure ⟨"count"⟩
      (.seq
        [.label ⟨"next"⟩,
          .move (.temp (.virtual 7)) (.binop .minus (.temp (.virtual 7)) (.const 1)),
          .cjump .gt (.temp (.virtual 7)) (.temp (.virtual 3)) ⟨"next"⟩ ⟨"done"⟩,
          .seq [.label ⟨"done"⟩, .move (.temp X64.rax) (.temp (.virtual 3))]]),
    .data ⟨"table"⟩ [.const (BitVec.intMin 64), .name ⟨"count"⟩]]

def countdownNames (number : Nat) : String :=
  if number = 7 then "i" else "limit"

theorem countdown_printable : Printable countdownNames countdown := by
  have labels
      : countdown.flatMap Fragment.labels
        = [⟨"count"⟩, ⟨"next"⟩, ⟨"next"⟩, ⟨"done"⟩, ⟨"done"⟩, ⟨"table"⟩, ⟨"count"⟩] := by
    simp [countdown, Fragment.labels]
  have registers
      : countdown.flatMap Fragment.mentions
        = [.virtual 7, .virtual 7, .virtual 7, .virtual 3, X64.rax, .virtual 3] := by
    simp [countdown, Fragment.mentions]
  have isNumber {number : Nat}
      (occurs : .virtual number ∈ countdown.flatMap Fragment.mentions)
      : number = 7 ∨ number = 3 := by
    rw [registers] at occurs
    simpa [X64.rax] using occurs
  refine ⟨?_, ?_, ?_, ?_, ?_⟩
  · simp [countdown, Fragment.HasSequence]
  · rw [labels]
    decide
  · rw [registers]
    simp [X64.rax, X64.registers]
  · intro number occurs
    rcases isNumber occurs with rfl | rfl <;> decide
  · intro left right leftOccurs rightOccurs
    rcases isNumber leftOccurs with rfl | rfl <;> rcases isNumber rightOccurs with rfl | rfl <;>
      decide

theorem countdown_recovered
    : Printable countdownNames countdown
      ∧ ∃ names,
          readFragments X64.register? (print countdownNames countdown)
            { names := [], session := { temps := 5 } }
          = .ok
              [.procedure ⟨"count"⟩
                  (.seq
                    [.label ⟨"next"⟩,
                      .move (.temp (.virtual 5)) (.binop .minus (.temp (.virtual 5)) (.const 1)),
                      .cjump .gt (.temp (.virtual 5)) (.temp (.virtual 6)) ⟨"next"⟩ ⟨"done"⟩,
                      .seq [.label ⟨"done"⟩, .move (.temp X64.rax) (.temp (.virtual 6))]]),
                .data ⟨"table"⟩ [.const (BitVec.intMin 64), .name ⟨"count"⟩]]
              { names, session := { temps := 7 } } := by
  obtain ⟨writes, reads⟩ :=
    readFragments_recovers_program countdown countdownNames { temps := 5 } countdown_printable
  obtain ⟨names, result⟩ := reads _ writes
  exact ⟨countdown_printable, names, result⟩

end Source

end TreeTiling
