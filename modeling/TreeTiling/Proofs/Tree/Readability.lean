import TreeTiling.Proofs.Source.RoundTrip

/-!
Trees are told apart by their texts.

The text of a tree is a word and, between parentheses, the texts of its parts. It ends at the
parenthesis that closes the first one, so that nothing behind it can be taken for a part. Labels
stand bare between parts, but have no blanks or parentheses, and every other comma in the text has
a blank behind it.
-/

namespace TreeTiling

open Source (IsAtom isAtomChar)

----------------------------------------------------------------------------------------------
-- Texts up to a character
----------------------------------------------------------------------------------------------

/-- Texts that are equal have the same parts up to the first place of a character, and behind it. -/
theorem cut_inj {c : Char} {first second rest others : List Char} (firstFree : c ∉ first)
    (secondFree : c ∉ second) (same : first ++ c :: rest = second ++ c :: others)
    : first = second ∧ rest = others := by
  induction first generalizing second with
  | nil =>
      cases second with
      | nil => exact ⟨rfl, (List.cons.inj same).2⟩
      | cons d second =>
          obtain ⟨rfl, -⟩ := List.cons.inj same
          exact absurd List.mem_cons_self secondFree
  | cons d first ih =>
      cases second with
      | nil =>
          obtain ⟨rfl, -⟩ := List.cons.inj same
          exact absurd List.mem_cons_self firstFree
      | cons e second =>
          obtain ⟨rfl, sameLater⟩ := List.cons.inj same
          obtain ⟨rfl, sameRest⟩ :=
            ih (mt (List.mem_cons_of_mem d) firstFree) (mt (List.mem_cons_of_mem d) secondFree)
              sameLater
          exact ⟨rfl, sameRest⟩

theorem Source.IsAtom.free {text : String} (isAtom : IsAtom text) {c : Char}
    (ends : isAtomChar c = false)
    : c ∉ text.toList := by
  intro member
  rw [isAtom.chars c member] at ends
  cases ends

/-- An atom is told from the text by a character that cannot be part of it. -/
theorem Source.IsAtom.cut_inj {first second : String} {c : Char} {rest others : List Char}
    (firstAtom : IsAtom first) (secondAtom : IsAtom second) (ends : isAtomChar c = false)
    (same : first.toList ++ c :: rest = second.toList ++ c :: others)
    : first = second ∧ rest = others := by
  obtain ⟨sameText, sameRest⟩ :=
    TreeTiling.cut_inj (firstAtom.free ends) (secondAtom.free ends) same
  exact ⟨String.toList_inj.mp sameText, sameRest⟩

/-- A comma may be part of an atom, but the blank behind a comma is not. -/
theorem Source.IsAtom.comma_inj {first second : String} {rest others : List Char}
    (firstAtom : IsAtom first) (secondAtom : IsAtom second)
    (same : first.toList ++ ',' :: ' ' :: rest = second.toList ++ ',' :: ' ' :: others)
    : first = second ∧ rest = others := by
  have free {text : String} (isAtom : IsAtom text) : ' ' ∉ text.toList ++ [','] := by
    simp [isAtom.free (c := ' ') rfl]
  have cut : (first.toList ++ [',']) ++ ' ' :: rest = (second.toList ++ [',']) ++ ' ' :: others := by
    simpa using same
  obtain ⟨sameText, sameRest⟩ := TreeTiling.cut_inj (free firstAtom) (free secondAtom) cut
  exact ⟨String.toList_inj.mp (List.append_cancel_right sameText), sameRest⟩

/-- Words in front of parentheses are told apart by the first one. -/
theorem Source.IsAtom.wrapped_inj {word other : String} {inside otherInside rest others : List Char}
    (wordAtom : IsAtom word) (otherAtom : IsAtom other)
    (same
      : word.toList ++ '(' :: (inside ++ [')']) ++ rest
        = other.toList ++ '(' :: (otherInside ++ [')']) ++ others)
    : word = other ∧ inside ++ ')' :: rest = otherInside ++ ')' :: others := by
  rw [List.append_assoc, List.append_assoc] at same
  obtain ⟨sameWord, sameInside⟩ := wordAtom.cut_inj otherAtom rfl same
  exact ⟨sameWord, by simpa using sameInside⟩

----------------------------------------------------------------------------------------------
-- Leaves
----------------------------------------------------------------------------------------------

/-- Labels can be written as atoms, and registers that are not virtual are those of the machine. -/
structure Displayable (labels : List Label) (registers : List Temp) : Prop where
  labels : ∀ label ∈ labels, IsAtom label.name
  machine : ∀ register ∈ registers, register.isFixed = true → register ∈ X64.registers

instance (labels : List Label) (registers : List Temp) : Decidable (Displayable labels registers) :=
  decidable_of_iff
    ((∀ label ∈ labels, IsAtom label.name)
      ∧ ∀ register ∈ registers, register.isFixed = true → register ∈ X64.registers)
    ⟨fun both => ⟨both.1, both.2⟩, fun displayable => ⟨displayable.labels, displayable.machine⟩⟩

theorem Displayable.append {labels others : List Label} {registers more : List Temp}
    (displayable : Displayable (labels ++ others) (registers ++ more))
    : Displayable labels registers ∧ Displayable others more := by
  obtain ⟨atoms, machine⟩ := displayable
  rw [List.forall_mem_append] at atoms machine
  exact ⟨⟨atoms.1, machine.1⟩, ⟨atoms.2, machine.2⟩⟩

theorem Word.text_inj {left right : Word} (same : Word.text left = Word.text right)
    : left = right := by
  have leftRead := Numeral.word?_of_spells (Numeral.spells_text left)
  have rightRead := Numeral.word?_of_spells (Numeral.spells_text right)
  rw [same, rightRead] at leftRead
  exact (Option.some.inj leftRead).symm

theorem Temp.isAtom_text {register : Temp}
    (machine : register.isFixed = true → register ∈ X64.registers)
    : IsAtom register.text := by
  cases register with
  | virtual number =>
      have digits : ∀ c ∈ Nat.toDigits 10 number, isAtomChar c = true := fun c member =>
        Numeral.isAtomChar_of_isDigit (Nat.isDigit_of_mem_toDigits (by decide) (by decide) member)
      refine ⟨?_, ?_⟩
      · simp [text]
      · simpa [text, Nat.repr] using ⟨by decide, digits⟩
  | fixed name => exact (Source.machine_register (machine rfl)).1

/-- Virtual registers are told from machine registers by the percent sign. -/
theorem Temp.text_inj {left right : Temp}
    (leftMachine : left.isFixed = true → left ∈ X64.registers)
    (rightMachine : right.isFixed = true → right ∈ X64.registers)
    (same : left.text = right.text)
    : left = right := by
  have apart {number : Nat} {name : String} (known : .fixed name ∈ X64.registers)
      : "t" ++ number.repr ≠ name := by
    intro isName
    have starts := (Source.machine_register known).2.1
    simp [← isName] at starts
  cases left with
  | virtual number =>
      cases right with
      | virtual other =>
          have sameDigits : Nat.toDigits 10 number = Nat.toDigits 10 other := by
            simpa [text, Nat.repr] using congrArg String.toList same
          rw [← Nat.ofDigitChars_ten_toDigits (n := number), sameDigits,
            Nat.ofDigitChars_ten_toDigits]
      | fixed name => exact absurd same (apart (rightMachine rfl))
  | fixed name =>
      cases right with
      | virtual other => exact absurd same.symm (apart (leftMachine rfl))
      | fixed other => exact congrArg fixed same

theorem BinOp.name_inj {left right : BinOp} (same : left.name = right.name) : left = right := by
  revert same
  cases left <;> cases right <;> decide

theorem RelOp.name_inj {left right : RelOp} (same : left.name = right.name) : left = right := by
  revert same
  cases left <;> cases right <;> decide

----------------------------------------------------------------------------------------------
-- Expressions
----------------------------------------------------------------------------------------------

namespace Exp

/-- The word that the text of an expression starts with. -/
def head : Exp → String
  | const _ => "CONST"
  | name _ => "NAME"
  | temp _ => "TEMP"
  | mem _ => "MEM"
  | binop op _ _ => op.name
  | call _ _ => "CALL"

/-- What stands between the outer parentheses of an expression's text. -/
def inside : Exp → List Char
  | const value => (Word.text value).toList
  | name label => label.name.toList
  | temp register => register.text.toList
  | mem address => address.text.toList
  | binop _ left right => left.text.toList ++ ',' :: ' ' :: right.text.toList
  | call function args => function.text.toList ++ (argsText args).toList

theorem toList_text (tree : Exp)
    : tree.text.toList = tree.head.toList ++ '(' :: (tree.inside ++ [')']) := by
  cases tree <;> simp [text, head, inside]

theorem isAtom_head (tree : Exp) : IsAtom tree.head := by
  have words : ∀ word ∈ ["CONST", "NAME", "TEMP", "MEM", "CALL"], IsAtom word := by decide
  cases tree with
  | binop op _ _ => exact Source.isAtom_binOp op
  | _ => exact words _ (by simp [head])

/-- Expressions of the same form, with the same operator if they have one. -/
inductive Alike : Exp → Exp → Prop where
  | const (value other : Word) : Alike (.const value) (.const other)
  | name (label other : Label) : Alike (.name label) (.name other)
  | temp (register other : Temp) : Alike (.temp register) (.temp other)
  | mem (address other : Exp) : Alike (.mem address) (.mem other)
  | binop (op : BinOp) (left right other another : Exp)
    : Alike (.binop op left right) (.binop op other another)
  | call (function other : Exp) (args others : List Exp)
    : Alike (.call function args) (.call other others)

/-- The first word tells the form. -/
theorem alike_of_head {left right : Exp} (same : left.head = right.head) : Alike left right := by
  have named (op : BinOp) (word : String) (reserved : word ∈ ["CONST", "NAME", "TEMP", "MEM", "CALL"])
      : op.name ≠ word ∧ word ≠ op.name := by
    revert word
    cases op <;> decide
  cases left <;> cases right <;> simp [head, named] at same
  · exact .const _ _
  · exact .name _ _
  · exact .temp _ _
  · exact .mem _ _
  · obtain rfl := BinOp.name_inj same
    exact .binop _ _ _ _ _
  · exact .call _ _ _ _

/-- Texts that start alike start with trees of the same form, and agree from inside the trees on. -/
theorem alike_of_text {left right : Exp} {rest others : List Char}
    (same : left.text.toList ++ rest = right.text.toList ++ others)
    : Alike left right ∧ left.inside ++ ')' :: rest = right.inside ++ ')' :: others := by
  rw [toList_text, toList_text] at same
  obtain ⟨sameHead, sameInside⟩ := left.isAtom_head.wrapped_inj right.isAtom_head same
  exact ⟨alike_of_head sameHead, sameInside⟩

mutual

/-- No text of an expression is the start of another's; by induction on the expression. -/
theorem text_append_inj
    : ∀ {left right : Exp} {rest others : List Char},
        Displayable left.labels left.temps
        → Displayable right.labels right.temps
        → left.text.toList ++ rest = right.text.toList ++ others
        → left = right ∧ rest = others
  | .const value, right, rest, others, _, _, same => by
      obtain ⟨alike, sameInside⟩ := alike_of_text same
      cases alike with
      | const _ other =>
          obtain ⟨sameText, sameRest⟩ :=
            (Numeral.isAtom_text value).cut_inj (Numeral.isAtom_text other) rfl sameInside
          exact ⟨congrArg const (Word.text_inj sameText), sameRest⟩
  | .name label, right, rest, others, leftDisplayable, rightDisplayable, same => by
      obtain ⟨alike, sameInside⟩ := alike_of_text same
      cases alike with
      | name _ other =>
          have labelAtom := leftDisplayable.labels label (by simp)
          have otherAtom := rightDisplayable.labels other (by simp)
          obtain ⟨sameName, sameRest⟩ := labelAtom.cut_inj otherAtom rfl sameInside
          exact ⟨congrArg (fun name => Exp.name ⟨name⟩) sameName, sameRest⟩
  | .temp register, right, rest, others, leftDisplayable, rightDisplayable, same => by
      obtain ⟨alike, sameInside⟩ := alike_of_text same
      cases alike with
      | temp _ other =>
          have machine := leftDisplayable.machine register (by simp)
          have otherMachine := rightDisplayable.machine other (by simp)
          obtain ⟨sameText, sameRest⟩ :=
            (Temp.isAtom_text machine).cut_inj (Temp.isAtom_text otherMachine) rfl sameInside
          exact ⟨congrArg temp (Temp.text_inj machine otherMachine sameText), sameRest⟩
  | .mem address, right, rest, others, leftDisplayable, rightDisplayable, same => by
      obtain ⟨alike, sameInside⟩ := alike_of_text same
      cases alike with
      | mem _ other =>
          rw [labels, temps_mem] at leftDisplayable rightDisplayable
          obtain ⟨rfl, sameRest⟩ :=
            text_append_inj leftDisplayable rightDisplayable sameInside
          exact ⟨rfl, (List.cons.inj sameRest).2⟩
  | .binop op left right, tree, rest, others, leftDisplayable, rightDisplayable, same => by
      obtain ⟨alike, sameInside⟩ := alike_of_text same
      cases alike with
      | binop _ _ _ other another =>
          rw [labels, temps_binop] at leftDisplayable rightDisplayable
          simp only [inside, List.append_assoc, List.cons_append] at sameInside
          obtain ⟨rfl, sameLater⟩ :=
            text_append_inj leftDisplayable.append.1 rightDisplayable.append.1 sameInside
          have sameRight := (List.cons.inj (List.cons.inj sameLater).2).2
          obtain ⟨rfl, sameRest⟩ :=
            text_append_inj leftDisplayable.append.2 rightDisplayable.append.2 sameRight
          exact ⟨rfl, (List.cons.inj sameRest).2⟩
  | .call function args, right, rest, others, leftDisplayable, rightDisplayable, same => by
      obtain ⟨alike, sameInside⟩ := alike_of_text same
      cases alike with
      | call _ other _ otherArgs =>
          rw [labels, temps_call] at leftDisplayable rightDisplayable
          simp only [inside, List.append_assoc] at sameInside
          obtain ⟨rfl, sameLater⟩ :=
            text_append_inj leftDisplayable.append.1 rightDisplayable.append.1 sameInside
          obtain ⟨rfl, sameRest⟩ :=
            argsText_append_inj leftDisplayable.append.2 rightDisplayable.append.2 sameLater
          exact ⟨rfl, sameRest⟩

/-- Arguments end at the parenthesis that closes the call. -/
theorem argsText_append_inj
    : ∀ {left right : List Exp} {rest others : List Char},
        Displayable (argsLabels left) (left.flatMap temps)
        → Displayable (argsLabels right) (right.flatMap temps)
        → (argsText left).toList ++ ')' :: rest = (argsText right).toList ++ ')' :: others
        → left = right ∧ rest = others
  | [], [], _, _, _, _, same => ⟨rfl, by simpa [argsText] using same⟩
  | [], _ :: _, _, _, _, _, same => by simp [argsText] at same
  | _ :: _, [], _, _, _, _, same => by simp [argsText] at same
  | left :: leftRest, right :: rightRest, rest, others, leftDisplayable, rightDisplayable, same => by
      rw [argsLabels, List.flatMap_cons] at leftDisplayable rightDisplayable
      have sameFirst
          : left.text.toList ++ ((argsText leftRest).toList ++ ')' :: rest)
            = right.text.toList ++ ((argsText rightRest).toList ++ ')' :: others) := by
        simpa [argsText] using same
      obtain ⟨rfl, sameLater⟩ :=
        text_append_inj leftDisplayable.append.1 rightDisplayable.append.1 sameFirst
      obtain ⟨rfl, sameRest⟩ :=
        argsText_append_inj leftDisplayable.append.2 rightDisplayable.append.2 sameLater
      exact ⟨rfl, sameRest⟩

end

/-- An expression in front of a comma is told from what follows. -/
theorem text_comma_inj {left right : Exp} {rest others : List Char}
    (leftDisplayable : Displayable left.labels left.temps)
    (rightDisplayable : Displayable right.labels right.temps)
    (same : left.text.toList ++ ',' :: ' ' :: rest = right.text.toList ++ ',' :: ' ' :: others)
    : left = right ∧ rest = others := by
  obtain ⟨rfl, sameLater⟩ := text_append_inj leftDisplayable rightDisplayable same
  exact ⟨rfl, (List.cons.inj (List.cons.inj sameLater).2).2⟩

theorem text_inj {left right : Exp} (leftDisplayable : Displayable left.labels left.temps)
    (rightDisplayable : Displayable right.labels right.temps) (same : left.text = right.text)
    : left = right :=
  (text_append_inj leftDisplayable rightDisplayable (congrArg (·.toList ++ []) same)).1

end Exp

----------------------------------------------------------------------------------------------
-- Statements
----------------------------------------------------------------------------------------------

namespace Stm

/-- The word that the text of a statement starts with. -/
def head : Stm → String
  | label _ => "LABEL"
  | jump _ => "JUMP"
  | cjump _ _ _ _ _ => "CJUMP"
  | cmove _ _ _ _ _ => "CMOVE"
  | move _ _ => "MOVE"
  | exp _ => "EXP"
  | seq _ => "SEQ"

/-- The statements of a sequence, each but the first after a comma. -/
def sequence : List Stm → List Char
  | [] => []
  | first :: rest => first.text.toList ++ (restText rest).toList

/-- What stands between the outer parentheses of a statement's text. -/
def inside : Stm → List Char
  | label name => name.name.toList
  | jump target => target.text.toList
  | cjump op left right ifTrue ifFalse =>
      op.name.toList ++ ',' :: ' ' :: (left.text.toList ++ ',' :: ' ' :: (right.text.toList
        ++ ',' :: ' ' :: (ifTrue.name.toList ++ ',' :: ' ' :: ifFalse.name.toList)))
  | cmove op left right dst value =>
      op.name.toList ++ ',' :: ' ' :: (left.text.toList ++ ',' :: ' ' :: (right.text.toList
        ++ ',' :: ' ' :: ((Exp.temp dst).text.toList ++ ',' :: ' ' :: value.text.toList)))
  | move dst src => dst.text.toList ++ ',' :: ' ' :: src.text.toList
  | exp value => value.text.toList
  | seq statements => sequence statements

theorem toList_text (tree : Stm)
    : tree.text.toList = tree.head.toList ++ '(' :: (tree.inside ++ [')']) := by
  -- Each form's text is unfolded by computation: the equations of the printer take long to make.
  cases tree with
  | label name =>
      change ("LABEL(" ++ name.name ++ ")").toList = _
      simp [head, inside]
  | jump target =>
      change ("JUMP(" ++ target.text ++ ")").toList = _
      simp [head, inside]
  | cjump op left right ifTrue ifFalse =>
      change ("CJUMP(" ++ op.name ++ ", " ++ left.text ++ ", " ++ right.text ++ ", " ++ ifTrue.name
        ++ ", " ++ ifFalse.name ++ ")").toList = _
      simp [head, inside]
  | cmove op left right dst value =>
      change ("CMOVE(" ++ op.name ++ ", " ++ left.text ++ ", " ++ right.text ++ ", TEMP("
        ++ dst.text ++ "), " ++ value.text ++ ")").toList = _
      simp [head, inside, Exp.text]
  | move dst src =>
      change ("MOVE(" ++ dst.text ++ ", " ++ src.text ++ ")").toList = _
      simp [head, inside]
  | exp value =>
      change ("EXP(" ++ value.text ++ ")").toList = _
      simp [head, inside]
  | seq statements =>
      cases statements with
      | nil => rfl
      | cons first rest =>
          change ("SEQ(" ++ first.text ++ restText rest ++ ")").toList = _
          simp [head, inside, sequence]

theorem isAtom_head (tree : Stm) : IsAtom tree.head := by
  have words
      : ∀ word ∈ ["LABEL", "JUMP", "CJUMP", "CMOVE", "MOVE", "EXP", "SEQ"], IsAtom word := by
    decide
  cases tree <;> exact words _ (by simp [head])

/-- Statements of the same form. -/
inductive Alike : Stm → Stm → Prop where
  | label (name other : Label) : Alike (.label name) (.label other)
  | jump (target other : Exp) : Alike (.jump target) (.jump other)
  | cjump (op otherOp : RelOp) (left right otherLeft otherRight : Exp)
    (ifTrue ifFalse otherTrue otherFalse : Label)
    : Alike (.cjump op left right ifTrue ifFalse)
        (.cjump otherOp otherLeft otherRight otherTrue otherFalse)
  | cmove (op otherOp : RelOp) (left right value otherLeft otherRight otherValue : Exp)
    (dst otherDst : Temp)
    : Alike (.cmove op left right dst value)
        (.cmove otherOp otherLeft otherRight otherDst otherValue)
  | move (dst src otherDst otherSrc : Exp) : Alike (.move dst src) (.move otherDst otherSrc)
  | exp (value other : Exp) : Alike (.exp value) (.exp other)
  | seq (statements others : List Stm) : Alike (.seq statements) (.seq others)

/-- The first word tells the form. -/
theorem alike_of_head {left right : Stm} (same : left.head = right.head) : Alike left right := by
  cases left <;> cases right <;> simp [head] at same
  · exact .label _ _
  · exact .jump _ _
  · exact .cjump _ _ _ _ _ _ _ _ _ _
  · exact .cmove _ _ _ _ _ _ _ _ _ _
  · exact .move _ _ _ _
  · exact .exp _ _
  · exact .seq _ _

theorem alike_of_text {left right : Stm} {rest others : List Char}
    (same : left.text.toList ++ rest = right.text.toList ++ others)
    : Alike left right ∧ left.inside ++ ')' :: rest = right.inside ++ ')' :: others := by
  rw [toList_text, toList_text] at same
  obtain ⟨sameHead, sameInside⟩ := left.isAtom_head.wrapped_inj right.isAtom_head same
  exact ⟨alike_of_head sameHead, sameInside⟩

/-- A statement's text starts with a letter. -/
theorem text_append_ne (tree : Stm) (rest others : List Char)
    : tree.text.toList ++ rest ≠ ')' :: others := by
  obtain ⟨c, letters, starts⟩ := List.exists_cons_of_ne_nil tree.isAtom_head.nonempty
  intro same
  rw [toList_text, starts] at same
  obtain ⟨rfl, -⟩ := List.cons.inj same
  exact tree.isAtom_head.free rfl (starts ▸ List.mem_cons_self)

/-- What is displayable in a statement is so in its operands. -/
theorem displayable_operand {tree : Stm} {operand : Exp}
    (displayable : Displayable tree.labels tree.temps) (member : operand ∈ tree.operands)
    : Displayable operand.labels operand.temps := by
  have inLabels : ∀ label ∈ operand.labels, label ∈ tree.labels := by
    cases tree <;> grind [operands, labels]
  have inTemps : ∀ register ∈ operand.temps, register ∈ tree.temps := by
    cases tree <;> grind [operands, temps_jump, temps_cjump, temps_cmove, temps_move, temps_exp]
  refine ⟨?_, ?_⟩
  · exact fun label occurs => displayable.labels label (inLabels label occurs)
  · exact fun register occurs => displayable.machine register (inTemps register occurs)

theorem displayable_dst {op : RelOp} {left right value : Exp} {dst : Temp}
    (displayable
      : Displayable (cmove op left right dst value).labels (cmove op left right dst value).temps)
    : Displayable (Exp.temp dst).labels (Exp.temp dst).temps := by
  refine ⟨List.forall_mem_nil _, fun register member => displayable.machine register ?_⟩
  rw [Exp.temps_temp, List.mem_singleton] at member
  simp [member]

/-- A comparison in front of a comma is told from what follows. -/
theorem comparison_inj {op otherOp : RelOp} {left right otherLeft otherRight : Exp}
    {rest others : List Char} (leftDisplayable : Displayable left.labels left.temps)
    (rightDisplayable : Displayable right.labels right.temps)
    (otherLeftDisplayable : Displayable otherLeft.labels otherLeft.temps)
    (otherRightDisplayable : Displayable otherRight.labels otherRight.temps)
    (same
      : op.name.toList ++ ',' :: ' ' :: (left.text.toList ++ ',' :: ' ' :: (right.text.toList
          ++ ',' :: ' ' :: rest))
        = otherOp.name.toList ++ ',' :: ' ' :: (otherLeft.text.toList ++ ',' :: ' ' ::
            (otherRight.text.toList ++ ',' :: ' ' :: others)))
    : op = otherOp ∧ left = otherLeft ∧ right = otherRight ∧ rest = others := by
  obtain ⟨sameOp, sameOperands⟩ :=
    (Source.isAtom_relOp op).comma_inj (Source.isAtom_relOp otherOp) same
  obtain ⟨sameLeft, sameLater⟩ :=
    Exp.text_comma_inj leftDisplayable otherLeftDisplayable sameOperands
  obtain ⟨sameRight, sameRest⟩ :=
    Exp.text_comma_inj rightDisplayable otherRightDisplayable sameLater
  exact ⟨RelOp.name_inj sameOp, sameLeft, sameRight, sameRest⟩

mutual

/-- No text of a statement is the start of another's; by induction on the statement. -/
theorem text_append_inj (left : Stm) {right : Stm} {rest others : List Char}
    (leftDisplayable : Displayable left.labels left.temps)
    (rightDisplayable : Displayable right.labels right.temps)
    (same : left.text.toList ++ rest = right.text.toList ++ others)
    : left = right ∧ rest = others := by
  obtain ⟨alike, sameInside⟩ := alike_of_text same
  have operand {value : Exp} (member : value ∈ left.operands) :=
    displayable_operand leftDisplayable member
  have otherOperand {value : Exp} (member : value ∈ right.operands) :=
    displayable_operand rightDisplayable member
  cases alike with
  | label name other =>
      have nameAtom := leftDisplayable.labels name (by simp)
      have otherAtom := rightDisplayable.labels other (by simp)
      obtain ⟨sameName, sameRest⟩ := nameAtom.cut_inj otherAtom rfl sameInside
      exact ⟨congrArg (fun name => Stm.label ⟨name⟩) sameName, sameRest⟩
  | jump target other =>
      obtain ⟨rfl, sameRest⟩ :=
        Exp.text_append_inj (operand (by simp [operands])) (otherOperand (by simp [operands]))
          sameInside
      exact ⟨rfl, (List.cons.inj sameRest).2⟩
  | cjump op otherOp left right otherLeft otherRight ifTrue ifFalse otherTrue otherFalse =>
      simp only [inside, List.append_assoc, List.cons_append] at sameInside
      obtain ⟨rfl, rfl, rfl, sameLabels⟩ :=
        comparison_inj (operand (by simp [operands])) (operand (by simp [operands]))
          (otherOperand (by simp [operands])) (otherOperand (by simp [operands])) sameInside
      obtain ⟨sameTrue, sameFalse⟩ :=
        (leftDisplayable.labels ifTrue (by simp)).comma_inj
          (rightDisplayable.labels otherTrue (by simp)) sameLabels
      obtain ⟨sameLast, sameRest⟩ :=
        (leftDisplayable.labels ifFalse (by simp)).cut_inj
          (rightDisplayable.labels otherFalse (by simp)) rfl sameFalse
      obtain rfl : ifTrue = otherTrue := congrArg Label.mk sameTrue
      obtain rfl : ifFalse = otherFalse := congrArg Label.mk sameLast
      exact ⟨rfl, sameRest⟩
  | cmove op otherOp left right value otherLeft otherRight otherValue dst otherDst =>
      simp only [inside, List.append_assoc, List.cons_append] at sameInside
      obtain ⟨rfl, rfl, rfl, sameMove⟩ :=
        comparison_inj (operand (by simp [operands])) (operand (by simp [operands]))
          (otherOperand (by simp [operands])) (otherOperand (by simp [operands])) sameInside
      obtain ⟨sameDst, sameValue⟩ :=
        Exp.text_comma_inj (displayable_dst leftDisplayable) (displayable_dst rightDisplayable)
          sameMove
      obtain rfl := Exp.temp.inj sameDst
      obtain ⟨rfl, sameRest⟩ :=
        Exp.text_append_inj (operand (by simp [operands])) (otherOperand (by simp [operands]))
          sameValue
      exact ⟨rfl, (List.cons.inj sameRest).2⟩
  | move dst src otherDst otherSrc =>
      simp only [inside, List.append_assoc, List.cons_append] at sameInside
      obtain ⟨rfl, sameSrc⟩ :=
        Exp.text_comma_inj (operand (by simp [operands])) (otherOperand (by simp [operands]))
          sameInside
      obtain ⟨rfl, sameRest⟩ :=
        Exp.text_append_inj (operand (by simp [operands])) (otherOperand (by simp [operands]))
          sameSrc
      exact ⟨rfl, (List.cons.inj sameRest).2⟩
  | exp value other =>
      obtain ⟨rfl, sameRest⟩ :=
        Exp.text_append_inj (operand (by simp [operands])) (otherOperand (by simp [operands]))
          sameInside
      exact ⟨rfl, (List.cons.inj sameRest).2⟩
  | seq statements otherStatements =>
      rw [labels, temps_seq] at leftDisplayable rightDisplayable
      cases statements with
      | nil =>
          cases otherStatements with
          | nil => exact ⟨rfl, (List.cons.inj sameInside).2⟩
          | cons other otherLater =>
              rw [inside, inside, sequence, sequence, List.append_assoc] at sameInside
              exact absurd sameInside.symm (other.text_append_ne _ _)
      | cons first later =>
          cases otherStatements with
          | nil =>
              rw [inside, inside, sequence, sequence, List.append_assoc] at sameInside
              exact absurd sameInside (first.text_append_ne _ _)
          | cons other otherLater =>
              rw [labelsAll, List.flatMap_cons] at leftDisplayable rightDisplayable
              rw [inside, inside, sequence, sequence, List.append_assoc, List.append_assoc] at sameInside
              obtain ⟨rfl, sameLater⟩ :=
                text_append_inj first leftDisplayable.append.1 rightDisplayable.append.1 sameInside
              obtain ⟨rfl, sameRest⟩ :=
                restText_append_inj later leftDisplayable.append.2 rightDisplayable.append.2
                  sameLater
              exact ⟨rfl, sameRest⟩

/-- Statements of a sequence end at the parenthesis that closes it. -/
theorem restText_append_inj (left : List Stm) {right : List Stm} {rest others : List Char}
    (leftDisplayable : Displayable (labelsAll left) (left.flatMap temps))
    (rightDisplayable : Displayable (labelsAll right) (right.flatMap temps))
    (same : (restText left).toList ++ ')' :: rest = (restText right).toList ++ ')' :: others)
    : left = right ∧ rest = others := by
  cases left with
  | nil =>
      cases right with
      | nil => exact ⟨rfl, by simpa [restText] using same⟩
      | cons _ _ => simp [restText] at same
  | cons first later =>
      cases right with
      | nil => simp [restText] at same
      | cons other otherLater =>
          rw [labelsAll, List.flatMap_cons] at leftDisplayable rightDisplayable
          have sameFirst
              : first.text.toList ++ ((restText later).toList ++ ')' :: rest)
                = other.text.toList ++ ((restText otherLater).toList ++ ')' :: others) := by
            simpa [restText] using same
          obtain ⟨rfl, sameLater⟩ :=
            text_append_inj first leftDisplayable.append.1 rightDisplayable.append.1 sameFirst
          obtain ⟨rfl, sameRest⟩ :=
            restText_append_inj later leftDisplayable.append.2 rightDisplayable.append.2 sameLater
          exact ⟨rfl, sameRest⟩

end

theorem text_inj {left right : Stm} (leftDisplayable : Displayable left.labels left.temps)
    (rightDisplayable : Displayable right.labels right.temps) (same : left.text = right.text)
    : left = right :=
  (text_append_inj left leftDisplayable rightDisplayable (congrArg (·.toList ++ []) same)).1

end Stm

----------------------------------------------------------------------------------------------
-- Nodes
----------------------------------------------------------------------------------------------

namespace Node

def labels : Node → List Label
  | exp tree => tree.labels
  | stm tree => tree.labels

def temps : Node → List Temp
  | exp tree => tree.temps
  | stm tree => tree.temps

/-- No word starts both expressions and statements. -/
theorem exp_text_ne_stm_text (left : Exp) (right : Stm) : left.text ≠ right.text := by
  have apart : left.head ≠ right.head := by
    cases left with
    | binop op _ _ => cases op <;> cases right <;> simp [Exp.head, Stm.head, BinOp.name]
    | _ => cases right <;> simp [Exp.head, Stm.head]
  intro same
  rw [← String.toList_inj, Exp.toList_text, Stm.toList_text] at same
  exact apart (left.isAtom_head.cut_inj right.isAtom_head rfl same).1

theorem text_inj {left right : Node} (leftDisplayable : Displayable left.labels left.temps)
    (rightDisplayable : Displayable right.labels right.temps) (same : left.text = right.text)
    : left = right := by
  cases left with
  | exp left =>
      cases right with
      | exp right => exact congrArg exp (Exp.text_inj leftDisplayable rightDisplayable same)
      | stm right => exact absurd same (exp_text_ne_stm_text left right)
  | stm left =>
      cases right with
      | exp right => exact absurd same.symm (exp_text_ne_stm_text right left)
      | stm right => exact congrArg stm (Stm.text_inj leftDisplayable rightDisplayable same)

end Node

end TreeTiling
