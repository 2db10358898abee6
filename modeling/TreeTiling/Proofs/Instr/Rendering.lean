import Mathlib.Data.List.Forall2
import TreeTiling.Instr

/-!
Templates all of whose places have an operand, and the texts that they stand for.

`Renders` spells a template and its text side by side, from left to right. Where it holds, cutting
the template into pieces finds exactly the places that were spelled, so the instruction's text is
the one that was spelled with it.
-/

namespace TreeTiling

----------------------------------------------------------------------------------------------
-- Characters that do not occur
----------------------------------------------------------------------------------------------

namespace Text

theorem notMem_toDigits {c : Char} (notDigit : c.isDigit = false) (number : Nat)
    : c ∉ Nat.toDigits 10 number := by
  intro member
  rw [Nat.isDigit_of_mem_toDigits (by decide) (by decide) member] at notDigit
  cases notDigit

/-- By induction on the texts that are joined. -/
theorem notMem_commaSeparated {c : Char} (notSeparator : c ∉ ", ".toList) {texts : List String}
    (each : ∀ text ∈ texts, c ∉ text.toList)
    : c ∉ (", ".intercalate texts).toList := by
  induction texts with
  | nil => exact List.not_mem_nil
  | cons text rest ih =>
      obtain ⟨here, later⟩ := List.forall_mem_cons.mp each
      cases rest with
      | nil =>
          rw [String.intercalate_singleton]
          exact here
      | cons =>
          rw [String.intercalate_cons_cons, String.toList_append, String.toList_append]
          simp only [List.mem_append, not_or]
          exact ⟨⟨here, notSeparator⟩, ih later⟩

end Text

----------------------------------------------------------------------------------------------
-- Pieces of a spelled template
----------------------------------------------------------------------------------------------

namespace Template

theorem Slot.ofLetter?_letter (slot : Slot) : Slot.ofLetter? slot.letter = some slot := by
  cases slot <;> rfl

/-- A template goes on with no digit, so that a run of digits in front of it ends there. -/
def EndsDigits (template : List Char) : Prop :=
  template.head?.any Char.isDigit = false

instance (template : List Char) : Decidable (EndsDigits template) :=
  inferInstanceAs (Decidable (template.head?.any Char.isDigit = false))

theorem EndsDigits.append {template rest : List Char} (ends : EndsDigits template)
    (restEnds : EndsDigits rest)
    : EndsDigits (template ++ rest) := by
  cases template with
  | nil => exact restEnds
  | cons character template => exact ends

/-- A character that opens no place stands for itself. -/
theorem pieces_text {character : Char} (plain : character ≠ '\x60') (template : List Char)
    : pieces (character :: template) = .text character :: pieces template := by
  have none : place? (character :: template) = none := by
    unfold place?
    split
    · next same => exact absurd (List.cons.inj same).1 plain
    · rfl
  rw [pieces]
  split
  · next found => rw [none] at found; cases found
  · rfl

/-- A place is cut off where its digits end. -/
theorem pieces_place (slot : Slot) {digits template : List Char} (isNumber : digits ≠ [])
    (allDigits : ∀ digit ∈ digits, digit.isDigit = true) (ends : EndsDigits template)
    : pieces ('\x60' :: slot.letter :: (digits ++ template))
      = .place slot digits :: pieces template := by
  have taken : (digits ++ template).takeWhile Char.isDigit = digits := by
    rw [List.takeWhile_append_of_pos allDigits]
    cases template with
    | nil => simp
    | cons character rest =>
        have isEnd : character.isDigit = false := ends
        simp [isEnd]
  have dropped : (digits ++ template).dropWhile Char.isDigit = template := by
    rw [List.dropWhile_append_of_pos allDigits]
    cases template with
    | nil => rfl
    | cons character rest =>
        have isEnd : character.isDigit = false := ends
        simp [isEnd]
  have found : place? ('\x60' :: slot.letter :: (digits ++ template))
      = some (slot, digits, template) := by
    obtain ⟨first, others, rfl⟩ := List.exists_cons_of_ne_nil isNumber
    simp only [place?, Slot.ofLetter?_letter, taken, dropped]
  rw [pieces]
  split
  · next other =>
      rw [found] at other
      obtain ⟨rfl, rfl, rfl⟩ := Option.some.inj other
      rfl
  · next missing => rw [found] at missing; cases missing

end Template

namespace Instr

open Template (Slot EndsDigits pieces pieces_text pieces_place)

----------------------------------------------------------------------------------------------
-- Places that are filled
----------------------------------------------------------------------------------------------

/-- How many operands an instruction has for the places of a slot. -/
def operandCount (instr : Instr) : Slot → Nat
  | .written => instr.defs.length
  | .read => instr.uses.length
  | .target => instr.jumps.length

/-- Every place of the instruction's template is in the range of the operands it draws from. -/
def Filled (instr : Instr) : Prop :=
  ∀ slot digits,
    .place slot digits ∈ pieces instr.template.toList
    → Nat.ofDigitChars 10 digits 0 < instr.operandCount slot

theorem lt_operandCount {instr : Instr} {naming : Temp → String} {slot : Slot} {index : Nat}
    {operand : String} (found : instr.operandText? naming slot index = some operand)
    : index < instr.operandCount slot := by
  cases slot <;>
    · obtain ⟨_, found, _⟩ := Option.map_eq_some_iff.mp found
      exact (List.getElem?_eq_some_iff.mp found).1

----------------------------------------------------------------------------------------------
-- Templates with their texts
----------------------------------------------------------------------------------------------

/-- A template all of whose places have an operand in the instruction, and its text. -/
inductive Renders (instr : Instr) (naming : Temp → String) : List Char → List Char → Prop where
  | nil : Renders instr naming [] []
  | text {character : Char} {template text : List Char} (plain : character ≠ '\x60')
    (rest : Renders instr naming template text)
    : Renders instr naming (character :: template) (character :: text)
  | place {slot : Slot} {index : Nat} {operand : String} {template text : List Char}
    (found : instr.operandText? naming slot index = some operand) (ends : EndsDigits template)
    (rest : Renders instr naming template text)
    : Renders instr naming ('\x60' :: slot.letter :: (Nat.toDigits 10 index ++ template))
        (operand.toList ++ text)

namespace Renders

variable {instr : Instr} {naming : Temp → String} {template text : List Char}

/-- Text that opens no place can stand in front. -/
theorem prepend {front : List Char} (plain : '\x60' ∉ front)
    (rest : Renders instr naming template text)
    : Renders instr naming (front ++ template) (front ++ text) := by
  induction front with
  | nil => exact rest
  | cons character front ih =>
      rw [List.mem_cons, not_or] at plain
      exact .text (Ne.symm plain.1) (ih plain.2)

/-- The pieces of the template are filled, and their texts make up the text; by induction on the
spelling.
-/
theorem pieces (renders : Renders instr naming template text)
    : (pieces template).flatMap (instr.pieceText naming) = text
      ∧ ∀ slot digits,
          .place slot digits ∈ Template.pieces template
          → Nat.ofDigitChars 10 digits 0 < instr.operandCount slot := by
  induction renders with
  | nil =>
      rw [Template.pieces]
      exact ⟨rfl, fun _ _ member => absurd member List.not_mem_nil⟩
  | text plain _ ih =>
      rw [pieces_text plain]
      refine ⟨by simp [pieceText, ih.1], ?_⟩
      intro slot digits member
      exact ih.2 slot digits (List.mem_of_ne_of_mem (by simp) member)
  | @place slot index operand template text found ends _ ih =>
      have allDigits : ∀ digit ∈ Nat.toDigits 10 index, digit.isDigit = true :=
        fun _ member => Nat.isDigit_of_mem_toDigits (by decide) (by decide) member
      rw [pieces_place slot Nat.toDigits_ne_nil allDigits ends]
      constructor
      · simp [pieceText, Nat.ofDigitChars_ten_toDigits, found, ih.1]
      · intro other digits member
        rcases List.mem_cons.mp member with same | later
        · obtain ⟨rfl, rfl⟩ := Template.Piece.place.inj same
          rw [Nat.ofDigitChars_ten_toDigits]
          exact lt_operandCount found
        · exact ih.2 other digits later

theorem filled (renders : Renders instr naming instr.template.toList text) : instr.Filled :=
  renders.pieces.2

/-- The instruction's text is the one that was spelled with its template. -/
theorem textWith (renders : Renders instr naming instr.template.toList text)
    : instr.textWith naming = String.ofList text := by
  rw [Instr.textWith, renders.pieces.1]

end Renders

----------------------------------------------------------------------------------------------
-- Parts of templates
----------------------------------------------------------------------------------------------

/-- A part of a template stands for a text, whatever comes after it. -/
def Shows (instr : Instr) (naming : Temp → String) (template text : String) : Prop :=
  ∀ rest restText,
    EndsDigits rest
    → Renders instr naming rest restText
    → Renders instr naming (template.toList ++ rest) (text.toList ++ restText)

namespace Shows

variable {instr : Instr} {naming : Temp → String} {template text : String}

/-- What opens no place stands for itself. -/
theorem plain (noPlace : '\x60' ∉ template.toList) : Shows instr naming template template :=
  fun _ _ _ rest => rest.prepend noPlace

theorem place (slot : Slot) (index : Nat) {operand : String}
    (found : instr.operandText? naming slot index = some operand)
    (spelled : template.toList = '\x60' :: slot.letter :: Nat.toDigits 10 index)
    : Shows instr naming template operand := by
  intro rest restText ends renders
  rw [spelled]
  exact .place found ends renders

theorem append {nextTemplate nextText : String} (first : Shows instr naming template text)
    (ends : EndsDigits nextTemplate.toList) (next : Shows instr naming nextTemplate nextText)
    : Shows instr naming (template ++ nextTemplate) (text ++ nextText) := by
  intro rest restText restEnds renders
  rw [String.toList_append, String.toList_append, List.append_assoc, List.append_assoc]
  exact first _ _ (ends.append restEnds) (next _ _ restEnds renders)

/-- Plain text in front may end in a digit. -/
theorem prepend {front : String} (noPlace : '\x60' ∉ front.toList)
    (shows : Shows instr naming template text)
    : Shows instr naming (front ++ template) (front ++ text) := by
  intro rest restText restEnds renders
  rw [String.toList_append, String.toList_append, List.append_assoc, List.append_assoc]
  exact (shows _ _ restEnds renders).prepend noPlace

/-- Plain text that ends digits can stand between parts. -/
theorem separated {nextTemplate nextText : String} (first : Shows instr naming template text)
    (separator : String) (noPlace : '\x60' ∉ separator.toList)
    (ends : separator ≠ "" ∧ EndsDigits separator.toList)
    (next : Shows instr naming nextTemplate nextText)
    : Shows instr naming (template ++ separator ++ nextTemplate)
        (text ++ separator ++ nextText) := by
  rw [String.append_assoc, String.append_assoc]
  refine first.append ?_ (next.prepend noPlace)
  rw [String.toList_append]
  obtain ⟨character, others, spelled⟩ :=
    List.exists_cons_of_ne_nil (mt String.toList_eq_nil_iff.mp ends.1)
  have isEnd := ends.2
  rw [spelled] at isEnd ⊢
  exact isEnd

/-- Parts separated by commas stand for their texts separated by commas. -/
theorem joined {templates texts : List String}
    (parts : List.Forall₂ (Shows instr naming) templates texts)
    : Shows instr naming (", ".intercalate templates) (", ".intercalate texts) := by
  induction parts with
  | nil => exact plain (by decide)
  | cons part parts ih =>
      cases parts with
      | nil => simpa only [String.intercalate_singleton] using part
      | cons =>
          rw [String.intercalate_cons_cons, String.intercalate_cons_cons]
          exact part.separated ", " (by decide) (by decide) ih

/-- An instruction whose whole template stands for a text has all places filled and that text. -/
theorem textWith (shows : Shows instr naming instr.template text)
    : instr.Filled ∧ instr.textWith naming = text := by
  have renders : Renders instr naming instr.template.toList text.toList := by
    simpa only [List.append_nil] using shows [] [] rfl .nil
  exact ⟨renders.filled, by rw [renders.textWith, String.ofList_toList]⟩

end Shows

end Instr

end TreeTiling
