import TreeTiling.Proofs.Instr.Rendering

/-!
Names that are spliced into a template.

A name in a template is cut into pieces of its own, if no place can go on behind it, and a piece
that asks for an operand of the instruction is replaced by it. So the name stands in the text as it
is if it asks for no operand that the instruction has; and only then, if no operand has a backtick.
-/

namespace TreeTiling

----------------------------------------------------------------------------------------------
-- Pieces of a template in parts
----------------------------------------------------------------------------------------------

namespace Template

/-- A template starts with nothing that a place in front of it could go on with. -/
def Separates (template : List Char) : Prop :=
  ∀ c ∈ template.head?, Slot.ofLetter? c = none ∧ c.isDigit = false

theorem Separates.endsDigits {template : List Char} (separates : Separates template)
    : EndsDigits template := by
  cases template with
  | nil => rfl
  | cons c rest => exact (separates c rfl).2

theorem digits_append {rest : List Char} (ends : EndsDigits rest) (chars : List Char)
    : (chars ++ rest).takeWhile Char.isDigit = chars.takeWhile Char.isDigit
      ∧ (chars ++ rest).dropWhile Char.isDigit = chars.dropWhile Char.isDigit ++ rest := by
  induction chars with
  | nil =>
      cases rest with
      | nil => exact ⟨rfl, rfl⟩
      | cons c others =>
          have notDigit : c.isDigit = false := ends
          simp [notDigit]
  | cons c chars ih =>
      rw [List.cons_append]
      by_cases isDigit : c.isDigit = true
      · simp [isDigit, ih]
      · simp [isDigit]

/-- A place at the start of a part is found in the whole. -/
theorem place?_append {rest : List Char} (separates : Separates rest) (c : Char)
    (chars : List Char)
    : place? (c :: (chars ++ rest))
      = (place? (c :: chars)).map fun found => (found.1, found.2.1, found.2.2 ++ rest) := by
  by_cases opens : c = '\x60'
  · subst opens
    cases chars with
    | nil =>
        cases rest with
        | nil => rfl
        | cons letter others => simp [place?, (separates letter rfl).1]
    | cons letter chars =>
        obtain ⟨taken, dropped⟩ := digits_append separates.endsDigits chars
        simp only [List.cons_append, place?, taken, dropped]
        split <;> rfl
  · have none (template : List Char) : place? (c :: template) = none := by
      unfold place?
      split
      · next same => exact absurd (List.cons.inj same).1 opens
      · rfl
    rw [none, none, Option.map_none]

theorem pieces_of_some {c : Char} {chars : List Char} {slot : Slot} {digits after : List Char}
    (found : place? (c :: chars) = some (slot, digits, after))
    : pieces (c :: chars) = .place slot digits :: pieces after := by
  rw [pieces]
  split
  · next other =>
      rw [found] at other
      obtain ⟨rfl, rfl, rfl⟩ := Option.some.inj other
      rfl
  · next missing => rw [found] at missing; cases missing

theorem pieces_of_none {c : Char} {chars : List Char} (missing : place? (c :: chars) = none)
    : pieces (c :: chars) = .text c :: pieces chars := by
  rw [pieces]
  split
  · next found => rw [missing] at found; cases found
  · rfl

/-- Parts of a template are cut apart from each other. -/
theorem pieces_append {rest : List Char} (separates : Separates rest) (chars : List Char)
    : pieces (chars ++ rest) = pieces chars ++ pieces rest := by
  fun_induction pieces chars with
  | case1 => rfl
  | case2 c chars slot digits after found _ ih =>
      have foundLater : place? (c :: (chars ++ rest)) = some (slot, digits, after ++ rest) := by
        rw [place?_append separates, found, Option.map_some]
      rw [List.cons_append, pieces_of_some foundLater, ih, List.cons_append]
  | case3 c chars missing ih =>
      have stillMissing : place? (c :: (chars ++ rest)) = none := by
        rw [place?_append separates, missing, Option.map_none]
      rw [List.cons_append, pieces_of_none stillMissing, ih, List.cons_append]

end Template

----------------------------------------------------------------------------------------------
-- Names in a template
----------------------------------------------------------------------------------------------

namespace Instr

open Template (Piece Slot Separates pieces pieces_append pieces_text source_pieces)

variable {instr : Instr} {naming : Temp → String}

/-- What a part of the instruction's template becomes. -/
def fill (instr : Instr) (naming : Temp → String) (template : List Char) : List Char :=
  (pieces template).flatMap (instr.pieceText naming)

theorem fill_append {rest : List Char} (separates : Separates rest) (template : List Char)
    : instr.fill naming (template ++ rest)
      = instr.fill naming template ++ instr.fill naming rest := by
  rw [fill, pieces_append separates, List.flatMap_append]
  rfl

/-- What opens no place stands for itself, whatever comes after it. -/
theorem fill_plain {front : List Char} (plain : '\x60' ∉ front) (template : List Char)
    : instr.fill naming (front ++ template) = front ++ instr.fill naming template := by
  induction front with
  | nil => rfl
  | cons c front ih =>
      rw [List.mem_cons, not_or] at plain
      rw [List.cons_append, fill, pieces_text (Ne.symm plain.1), List.flatMap_cons]
      exact congrArg (c :: ·) (ih plain.2)

theorem Shows.fill {template text : String} (shows : Shows instr naming template text)
    : instr.fill naming template.toList = text.toList := by
  have renders := shows [] [] rfl .nil
  rw [List.append_nil, List.append_nil] at renders
  exact renders.pieces.1

/-- A piece asks for an operand that the instruction has. -/
def Draws (instr : Instr) : Piece → Prop
  | .text _ => False
  | .place slot digits => Nat.ofDigitChars 10 digits 0 < instr.operandCount slot

/-- A name asks for no operand that the instruction has, so the instruction keeps it as it is. -/
def Keeps (instr : Instr) (name : String) : Prop :=
  ∀ piece ∈ pieces name.toList, ¬ instr.Draws piece

theorem exists_operandText? {slot : Slot} {index : Nat} (inRange : index < instr.operandCount slot)
    : ∃ operand, instr.operandText? naming slot index = some operand := by
  cases slot <;>
    · rw [operandText?, List.getElem?_eq_getElem inRange]
      exact ⟨_, rfl⟩

theorem pieceText_of_not_draws {piece : Piece} (undrawn : ¬ instr.Draws piece)
    : instr.pieceText naming piece = piece.source := by
  cases piece with
  | text c => rfl
  | place slot digits =>
      have missing : instr.operandText? naming slot (Nat.ofDigitChars 10 digits 0) = none :=
        Option.eq_none_iff_forall_ne_some.mpr fun _ found => undrawn (lt_operandCount found)
      rw [pieceText, missing]

/-- A name that asks for no operand stays as it is. -/
theorem Keeps.fill {name : String} (keeps : instr.Keeps name)
    : instr.fill naming name.toList = name.toList := by
  have pieceByPiece : ∀ piece ∈ pieces name.toList, instr.pieceText naming piece = piece.source :=
    fun piece member => pieceText_of_not_draws (keeps piece member)
  rw [Instr.fill, List.flatMap_congr pieceByPiece, source_pieces]

/-- No operand of the instruction has a backtick under a naming. -/
def PlainOperands (instr : Instr) (naming : Temp → String) : Prop :=
  ∀ slot index operand,
    instr.operandText? naming slot index = some operand → '\x60' ∉ operand.toList

namespace PlainOperands

/-- A piece that is replaced by an operand loses its backtick. -/
theorem count_lt (plain : instr.PlainOperands naming) {piece : Piece} (draws : instr.Draws piece)
    : (instr.pieceText naming piece).count '\x60' < piece.source.count '\x60' := by
  cases piece with
  | text c => exact draws.elim
  | place slot digits =>
      obtain ⟨operand, found⟩ := exists_operandText? draws
      rw [pieceText, found, List.count_eq_zero.mpr (plain _ _ _ found), Piece.source,
        List.count_cons_self]
      exact Nat.succ_pos _

theorem count_le (plain : instr.PlainOperands naming) (pieces : List Piece)
    : (pieces.flatMap (instr.pieceText naming)).count '\x60'
      ≤ (pieces.flatMap Piece.source).count '\x60' := by
  induction pieces with
  | nil => exact Nat.le_refl _
  | cons piece rest ih =>
      rw [List.flatMap_cons, List.flatMap_cons, List.count_append, List.count_append]
      by_cases draws : instr.Draws piece
      · exact Nat.add_le_add (Nat.le_of_lt (plain.count_lt draws)) ih
      · rw [pieceText_of_not_draws draws]
        exact Nat.add_le_add_left ih _

/-- A name that stays as it is asks for no operand: each operand takes a backtick away, and nothing
brings one back.
-/
theorem keeps_of_fill (plain : instr.PlainOperands naming) {name : String}
    (same : instr.fill naming name.toList = name.toList)
    : instr.Keeps name := by
  intro piece member draws
  obtain ⟨front, back, splits⟩ := List.append_of_mem member
  have sameCount := congrArg (List.count '\x60') same
  nth_rewrite 2 [← source_pieces name.toList] at sameCount
  rw [Instr.fill, splits, List.flatMap_append, List.flatMap_append, List.flatMap_cons,
    List.flatMap_cons, List.count_append, List.count_append, List.count_append,
    List.count_append] at sameCount
  have fewer := plain.count_lt draws
  have inFront := plain.count_le front
  have behind := plain.count_le back
  omega

end PlainOperands

/-- The text of an instruction with a name between plain text and a part that is shown apart from it
is the same text with the name as it is, exactly if the name is left as it is.
-/
theorem textWith_spliced {front name back backText : String}
    (isTemplate : instr.template = front ++ name ++ back) (plain : '\x60' ∉ front.toList)
    (separates : Separates back.toList) (shows : Shows instr naming back backText)
    : instr.textWith naming = front ++ name ++ backText
      ↔ instr.fill naming name.toList = name.toList := by
  have text : (instr.textWith naming).toList
      = front.toList ++ instr.fill naming name.toList ++ backText.toList := by
    rw [Instr.textWith, String.toList_ofList, ← Instr.fill, isTemplate, String.toList_append,
      String.toList_append, List.append_assoc, fill_plain plain, fill_append separates, shows.fill,
      List.append_assoc]
  rw [← String.toList_inj, text, String.toList_append, String.toList_append,
    List.append_left_inj, List.append_right_inj]

end Instr

end TreeTiling
