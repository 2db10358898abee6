import TreeTiling.Proofs.Tree.Readability
import TreeTiling.Session.Event

/-!
What a message says about a tree.

Messages end with the text of the tree they are about, and what stands in front of it may be any
text. The tree is found from the end: in a tree's text every blank stands behind a comma, whereas
the blank in front of the tree stands behind a letter. So messages of different failures differ,
and a line about a rule that fired tells the tree it fired on.
-/

namespace TreeTiling

open Source (IsAtom isAtomChar)

----------------------------------------------------------------------------------------------
-- Blanks
----------------------------------------------------------------------------------------------

/-- Every blank stands behind a comma. -/
def CommaSpaced (text : List Char) : Prop :=
  ∀ front back, text = front ++ ' ' :: back → front.getLast? = some ','

namespace CommaSpaced

theorem of_free {text : List Char} (free : ' ' ∉ text) : CommaSpaced text := by
  rintro front back rfl
  simp at free

theorem of_atom {text : String} (isAtom : IsAtom text) : CommaSpaced text.toList :=
  of_free (isAtom.free rfl)

theorem append {first second : List Char} (firstSpaced : CommaSpaced first)
    (secondSpaced : CommaSpaced second)
    : CommaSpaced (first ++ second) := by
  intro front back same
  rcases List.append_eq_append_iff.mp same with ⟨middle, rfl, inSecond⟩ | ⟨middle, rfl, later⟩
  · have ends := secondSpaced middle back inSecond
    simp [ends]
  · cases middle with
    | nil => cases secondSpaced [] back later.symm
    | cons c middle =>
        obtain ⟨rfl, -⟩ := List.cons.inj later
        exact firstSpaced front middle rfl

/-- The comma between two parts of a tree brings its own blank. -/
theorem comma {text : List Char} (spaced : CommaSpaced text) : CommaSpaced (',' :: ' ' :: text) := by
  have separator : CommaSpaced [',', ' '] := by
    intro front back same
    rcases front with _ | ⟨c, _ | ⟨d, front⟩⟩ <;> simp at same
    obtain ⟨rfl, -⟩ := same
    rfl
  exact separator.append spaced

/-- What follows the last blank that no comma stands before is determined by the whole text. -/
theorem tail_inj {front others first second : List Char} (firstSpaced : CommaSpaced first)
    (secondSpaced : CommaSpaced second) (frontEnds : front.getLast? ≠ some ',')
    (othersEnd : others.getLast? ≠ some ',')
    (same : front ++ ' ' :: first = others ++ ' ' :: second)
    : front = others ∧ first = second := by
  rcases List.append_eq_append_iff.mp same with ⟨middle, rfl, later⟩ | ⟨middle, rfl, later⟩
  · cases middle with
    | nil => exact ⟨by simp, (List.cons.inj later).2⟩
    | cons c middle =>
        obtain ⟨rfl, inFirst⟩ := List.cons.inj later
        have ends := firstSpaced middle second inFirst
        simp [List.getLast?_cons, ends] at othersEnd
  · cases middle with
    | nil => exact ⟨by simp, (List.cons.inj later).2.symm⟩
    | cons c middle =>
        obtain ⟨rfl, inSecond⟩ := List.cons.inj later
        have ends := secondSpaced middle first inSecond
        simp [List.getLast?_cons, ends] at frontEnds

/-- Parentheses behind a word bring no blanks. -/
theorem wrapped {word : String} {inside : List Char} (isAtom : IsAtom word)
    (spaced : CommaSpaced inside)
    : CommaSpaced (word.toList ++ '(' :: (inside ++ [')'])) := by
  have opens : CommaSpaced ['('] := of_free (by decide)
  have closes : CommaSpaced [')'] := of_free (by decide)
  exact (of_atom isAtom).append (opens.append (spaced.append closes))

end CommaSpaced

----------------------------------------------------------------------------------------------
-- Blanks in trees
----------------------------------------------------------------------------------------------

namespace Exp

mutual

theorem commaSpaced_text (tree : Exp) (displayable : Displayable tree.labels tree.temps)
    : CommaSpaced tree.text.toList := by
  rw [toList_text]
  apply CommaSpaced.wrapped tree.isAtom_head
  cases tree with
  | const value => exact .of_atom (Numeral.isAtom_text value)
  | name label => exact .of_atom (displayable.labels label (by simp))
  | temp register =>
      have machine := displayable.machine register (by simp)
      exact .of_atom (Temp.isAtom_text machine)
  | mem address =>
      rw [labels, temps_mem] at displayable
      exact commaSpaced_text address displayable
  | binop op left right =>
      rw [labels, temps_binop] at displayable
      have leftSpaced := commaSpaced_text left displayable.append.1
      have rightSpaced := commaSpaced_text right displayable.append.2
      exact leftSpaced.append rightSpaced.comma
  | call function args =>
      rw [labels, temps_call] at displayable
      have functionSpaced := commaSpaced_text function displayable.append.1
      have argsSpaced := commaSpaced_argsText args displayable.append.2
      exact functionSpaced.append argsSpaced

theorem commaSpaced_argsText (args : List Exp)
    (displayable : Displayable (argsLabels args) (args.flatMap temps))
    : CommaSpaced (argsText args).toList := by
  cases args with
  | nil => exact .of_free (by simp [argsText])
  | cons arg rest =>
      rw [argsLabels, List.flatMap_cons] at displayable
      have argSpaced := commaSpaced_text arg displayable.append.1
      have restSpaced := commaSpaced_argsText rest displayable.append.2
      simpa [argsText] using (argSpaced.append restSpaced).comma

end

end Exp

namespace Stm

mutual

theorem commaSpaced_text (tree : Stm) (displayable : Displayable tree.labels tree.temps)
    : CommaSpaced tree.text.toList := by
  have spaced {operand : Exp} (member : operand ∈ tree.operands) : CommaSpaced operand.text.toList :=
    operand.commaSpaced_text (displayable_operand displayable member)
  rw [toList_text]
  apply CommaSpaced.wrapped tree.isAtom_head
  cases tree with
  | label name => exact .of_atom (displayable.labels name (by simp))
  | jump target => exact spaced (by simp [operands])
  | cjump op left right ifTrue ifFalse =>
      have opSpaced := CommaSpaced.of_atom (Source.isAtom_relOp op)
      have trueSpaced := CommaSpaced.of_atom (displayable.labels ifTrue (by simp))
      have falseSpaced := CommaSpaced.of_atom (displayable.labels ifFalse (by simp))
      have leftSpaced : CommaSpaced left.text.toList := spaced (by simp [operands])
      have rightSpaced : CommaSpaced right.text.toList := spaced (by simp [operands])
      exact opSpaced.append (leftSpaced.append (rightSpaced.append
        (trueSpaced.append falseSpaced.comma).comma).comma).comma
  | cmove op left right dst value =>
      have opSpaced := CommaSpaced.of_atom (Source.isAtom_relOp op)
      have leftSpaced : CommaSpaced left.text.toList := spaced (by simp [operands])
      have rightSpaced : CommaSpaced right.text.toList := spaced (by simp [operands])
      have dstSpaced : CommaSpaced (Exp.temp dst).text.toList :=
        Exp.commaSpaced_text (.temp dst) (displayable_dst displayable)
      have valueSpaced : CommaSpaced value.text.toList := spaced (by simp [operands])
      exact opSpaced.append (leftSpaced.append (rightSpaced.append
        (dstSpaced.append valueSpaced.comma).comma).comma).comma
  | move dst src =>
      have dstSpaced : CommaSpaced dst.text.toList := spaced (by simp [operands])
      have srcSpaced : CommaSpaced src.text.toList := spaced (by simp [operands])
      exact dstSpaced.append srcSpaced.comma
  | exp value => exact spaced (by simp [operands])
  | seq statements =>
      rw [labels, temps_seq] at displayable
      cases statements with
      | nil => exact .of_free (by simp [inside, sequence])
      | cons first rest =>
          rw [labelsAll, List.flatMap_cons] at displayable
          have firstSpaced := commaSpaced_text first displayable.append.1
          have restSpaced := commaSpaced_restText rest displayable.append.2
          exact firstSpaced.append restSpaced

theorem commaSpaced_restText (statements : List Stm)
    (displayable : Displayable (labelsAll statements) (statements.flatMap temps))
    : CommaSpaced (restText statements).toList := by
  cases statements with
  | nil => exact .of_free (by simp [restText])
  | cons first rest =>
      rw [labelsAll, List.flatMap_cons] at displayable
      have firstSpaced := commaSpaced_text first displayable.append.1
      have restSpaced := commaSpaced_restText rest displayable.append.2
      simpa [restText] using (firstSpaced.append restSpaced).comma

end

end Stm

theorem Node.commaSpaced_text {tree : Node} (displayable : Displayable tree.labels tree.temps)
    : CommaSpaced tree.text.toList := by
  cases tree with
  | exp tree => exact tree.commaSpaced_text displayable
  | stm tree => exact tree.commaSpaced_text displayable

/-- A tree at the end of a text is told from what stands in front, whatever that is. -/
theorem Node.ending_inj {front others : String} {left right : Node}
    (leftDisplayable : Displayable left.labels left.temps)
    (rightDisplayable : Displayable right.labels right.temps)
    (frontEnds : front.toList.getLast? ≠ some ',') (othersEnd : others.toList.getLast? ≠ some ',')
    (same : front.toList ++ ' ' :: left.text.toList = others.toList ++ ' ' :: right.text.toList)
    : front = others ∧ left = right := by
  obtain ⟨sameFront, sameText⟩ :=
    (commaSpaced_text leftDisplayable).tail_inj (commaSpaced_text rightDisplayable) frontEnds
      othersEnd same
  exact ⟨String.toList_inj.mp sameFront,
    text_inj leftDisplayable rightDisplayable (String.toList_inj.mp sameText)⟩

----------------------------------------------------------------------------------------------
-- Messages
----------------------------------------------------------------------------------------------

theorem Category.text_inj {left right : Category} (same : left.text = right.text)
    : left = right := by
  revert same
  cases left <;> cases right <;> decide

namespace SelectionError

/-- The tree that a failure is about. -/
def tree? : SelectionError → Option Node
  | noRule _ tree => some tree
  | unsupported _ tree => some tree
  | unboundCapture _ => none
  | tooDeep tree => some tree

@[simp]
theorem message_noRule (category : Category) (tree : Node)
    : (noRule category tree).message = "no " ++ category.text ++ " rule matches " ++ tree.text :=
  rfl

@[simp]
theorem message_unsupported (what : String) (tree : Node)
    : (unsupported what tree).message = "not implemented: " ++ what ++ " in " ++ tree.text :=
  rfl

@[simp]
theorem message_unboundCapture (name : String)
    : (unboundCapture name).message
      = "rule action read capture `" ++ name ++ "` that its pattern never binds" :=
  rfl

@[simp]
theorem message_tooDeep (tree : Node)
    : (tooDeep tree).message = "rules do not settle on " ++ tree.text :=
  rfl

/-- Messages about a tree end with it, and have a letter before the blank in front of it. -/
theorem message_ending {error : SelectionError} {tree : Node} (about : error.tree? = some tree)
    : ∃ front : String,
        error.message.toList = front.toList ++ ' ' :: tree.text.toList
        ∧ front.toList.getLast? ≠ some ',' := by
  cases error with
  | noRule category _ =>
      obtain rfl := Option.some.inj about
      refine ⟨"no " ++ category.text ++ " rule matches", ?_, ?_⟩
      · simp
      · simp [List.getLast?_cons]
  | unsupported what _ =>
      obtain rfl := Option.some.inj about
      refine ⟨"not implemented: " ++ what ++ " in", ?_, ?_⟩
      · simp
      · simp [List.getLast?_cons]
  | unboundCapture name => cases about
  | tooDeep _ =>
      obtain rfl := Option.some.inj about
      refine ⟨"rules do not settle on", ?_, ?_⟩
      · simp
      · simp

/-- A message that names no tree is not taken for one that does. -/
theorem no_tree_of_message {left right : SelectionError} (same : left.message = right.message)
    (noTree : left.tree? = none)
    : right.tree? = none := by
  have chars := congrArg String.toList same
  cases left with
  | unboundCapture name =>
      cases right with
      | unboundCapture _ => rfl
      | _ => simp at chars
  | _ => cases noTree

/-- The start of a message tells the kind of failure, and what it says besides the tree. -/
theorem eq_of_message {left right : SelectionError} (sameTree : left.tree? = right.tree?)
    (same : left.message = right.message)
    : left = right := by
  have chars := congrArg String.toList same
  cases left with
  | noRule category tree =>
      cases right with
      | noRule other _ =>
          obtain rfl := Option.some.inj sameTree
          have sameText : category.text.toList = other.text.toList := by simpa using chars
          rw [Category.text_inj (String.toList_inj.mp sameText)]
      | _ => simp at chars
  | unsupported what tree =>
      cases right with
      | unsupported other _ =>
          obtain rfl := Option.some.inj sameTree
          have sameText : what.toList = other.toList := by simpa using chars
          rw [String.toList_inj.mp sameText]
      | _ => simp at chars
  | unboundCapture name =>
      cases right with
      | unboundCapture other =>
          have sameText : name.toList = other.toList := by simpa using chars
          rw [String.toList_inj.mp sameText]
      | _ => simp at chars
  | tooDeep tree =>
      cases right with
      | tooDeep _ =>
          obtain rfl := Option.some.inj sameTree
          rfl
      | _ => simp at chars

/-- Failures with the same message are the same. -/
theorem message_inj {left right : SelectionError}
    (leftDisplayable : ∀ tree ∈ left.tree?, Displayable tree.labels tree.temps)
    (rightDisplayable : ∀ tree ∈ right.tree?, Displayable tree.labels tree.temps)
    (same : left.message = right.message)
    : left = right := by
  apply eq_of_message ?_ same
  cases about : left.tree? with
  | none => rw [no_tree_of_message same about]
  | some tree =>
      cases otherAbout : right.tree? with
      | none =>
          rw [no_tree_of_message same.symm otherAbout] at about
          cases about
      | some other =>
          obtain ⟨front, isMessage, frontEnds⟩ := message_ending about
          obtain ⟨others, isOther, othersEnd⟩ := message_ending otherAbout
          have ending
              : front.toList ++ ' ' :: tree.text.toList = others.toList ++ ' ' :: other.text.toList := by
            rw [← isMessage, ← isOther, same]
          obtain ⟨-, rfl⟩ :=
            Node.ending_inj (leftDisplayable tree about) (rightDisplayable other otherAbout)
              frontEnds othersEnd ending
          rfl

end SelectionError

/-- Lines about rules that fired end with the tree. -/
theorem Event.fired_ending (category : Category) (index : Nat) (pattern : Pattern) (tree : Node)
    : ∃ front : String,
        (fired category index pattern tree).text.toList = front.toList ++ ' ' :: tree.text.toList
        ∧ front.toList.getLast? ≠ some ',' := by
  have isText
      : (fired category index pattern tree).text
        = "TRACE" ++ " " ++ (category.text ++ " rule #" ++ index.repr ++ " " ++ pattern.text
            ++ " fires on " ++ tree.text) :=
    rfl
  refine ⟨"TRACE " ++ category.text ++ " rule #" ++ index.repr ++ " " ++ pattern.text
    ++ " fires on", ?_, ?_⟩
  · rw [isText]
    simp
  · simp [List.getLast?_cons]

theorem Event.fired_tree_inj {category otherCategory : Category} {index otherIndex : Nat}
    {pattern otherPattern : Pattern} {tree other : Node}
    (displayable : Displayable tree.labels tree.temps)
    (otherDisplayable : Displayable other.labels other.temps)
    (same
      : (fired category index pattern tree).text
        = (fired otherCategory otherIndex otherPattern other).text)
    : tree = other := by
  obtain ⟨front, isText, frontEnds⟩ := fired_ending category index pattern tree
  obtain ⟨others, isOther, othersEnd⟩ := fired_ending otherCategory otherIndex otherPattern other
  rw [same, isOther] at isText
  exact (Node.ending_inj displayable otherDisplayable frontEnds othersEnd isText.symm).2

/-- Trees whose labels are atoms and whose registers are virtual or the machine's have texts of
their own, and the messages and lines that end with such a tree tell which one it is. -/
theorem text_identifies_tree
    : (∀ left right : Exp,
        Displayable left.labels left.temps
        → Displayable right.labels right.temps
        → left.text = right.text
        → left = right)
      ∧ (∀ left right : Stm,
          Displayable left.labels left.temps
          → Displayable right.labels right.temps
          → left.text = right.text
          → left = right)
      ∧ (∀ left right : SelectionError,
          (∀ tree ∈ left.tree?, Displayable tree.labels tree.temps)
          → (∀ tree ∈ right.tree?, Displayable tree.labels tree.temps)
          → left.message = right.message
          → left = right)
      ∧ ∀ (category otherCategory : Category) (index otherIndex : Nat)
          (pattern otherPattern : Pattern) (tree other : Node),
          Displayable tree.labels tree.temps
          → Displayable other.labels other.temps
          → (Event.fired category index pattern tree).text
              = (Event.fired otherCategory otherIndex otherPattern other).text
          → tree = other := by
  refine ⟨?_, ?_, ?_, ?_⟩
  · intro left right leftDisplayable rightDisplayable same
    exact Exp.text_inj leftDisplayable rightDisplayable same
  · intro left right leftDisplayable rightDisplayable same
    exact Stm.text_inj leftDisplayable rightDisplayable same
  · intro left right leftDisplayable rightDisplayable same
    exact SelectionError.message_inj leftDisplayable rightDisplayable same
  · intro category otherCategory index otherIndex pattern otherPattern tree other displayable
      otherDisplayable same
    exact Event.fired_tree_inj displayable otherDisplayable same

/-- The place of the eighth argument, written out. -/
def eighthArgument : Exp :=
  .mem (.binop .plus (.temp X64.rsp) (.const 8))

/-- Jumps to labels that have the comma at different ends. -/
def commaBehind : Stm :=
  .cjump .eq (.const 1) (.name ⟨"t1"⟩) ⟨"a,"⟩ ⟨"b"⟩

def commaBefore : Stm :=
  .cjump .eq (.const 1) (.name ⟨"t1"⟩) ⟨"a"⟩ ⟨",b"⟩

theorem lookalikes_identified
    : (Displayable eighthArgument.labels eighthArgument.temps
        ∧ (X64.outArg 7).text = eighthArgument.text
        ∧ X64.outArg 7 = eighthArgument)
      ∧ commaBehind.text ≠ commaBefore.text
      ∧ (SelectionError.unsupported "SEQ() in EXP" (.stm commaBehind)).message
          ≠ (SelectionError.unsupported "SEQ()" (.exp eighthArgument)).message
      ∧ (Event.fired .value 0 (.exp .any) (.exp eighthArgument)).text
          ≠ (Event.fired .statement 0 (.exp .any) (.stm commaBefore)).text := by
  have argument : Displayable eighthArgument.labels eighthArgument.temps := by decide
  have behind : Displayable commaBehind.labels commaBehind.temps := by decide
  have before : Displayable commaBefore.labels commaBefore.temps := by decide
  have sameText : (X64.outArg 7).text = eighthArgument.text := by decide
  refine ⟨⟨argument, sameText, ?_⟩, ?_, ?_, ?_⟩
  · exact text_identifies_tree.1 _ _ (by decide) argument sameText
  · intro same
    have sameTree := text_identifies_tree.2.1 _ _ behind before same
    simp [commaBehind, commaBefore] at sameTree
  · intro same
    have sameError := text_identifies_tree.2.2.1 _ _ (by rintro _ ⟨⟩; exact behind)
      (by rintro _ ⟨⟩; exact argument) same
    simp at sameError
  · intro same
    have sameTree := text_identifies_tree.2.2.2 _ _ _ _ _ _ (.exp eighthArgument)
      (.stm commaBefore) argument before same
    cases sameTree

end TreeTiling
