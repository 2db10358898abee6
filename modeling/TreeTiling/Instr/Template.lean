/-!
Instruction templates: text with numbered places for operands.

A place is a backtick, one of the letters `d`, `s` and `j`, and a run of digits that is as long as
possible and not empty. Everything else in a template stands for itself. `pieces` cuts a template
into its places and the characters between them, and `source_pieces` says that nothing is lost.
-/

namespace TreeTiling.Template

/-- Which operand list a place draws from: registers written, registers read, or labels. -/
inductive Slot where
  | written
  | read
  | target
deriving DecidableEq

def Slot.letter : Slot → Char
  | written => 'd'
  | read => 's'
  | target => 'j'

def Slot.ofLetter? (letter : Char) : Option Slot :=
  if letter = 'd' then some .written
  else if letter = 's' then some .read
  else if letter = 'j' then some .target
  else none

/-- One step of a template: a character that stands for itself, or a place. -/
inductive Piece where
  | text (character : Char)
  | place (slot : Slot) (digits : List Char)
deriving DecidableEq

/-- The characters that a piece is written with. -/
def Piece.source : Piece → List Char
  | text character => [character]
  | place slot digits => '\x60' :: slot.letter :: digits

/-- The place at the start of a template, as its slot and its digits, and what follows it. -/
def place? : List Char → Option (Slot × List Char × List Char)
  | '\x60' :: letter :: rest =>
      match Slot.ofLetter? letter, rest.takeWhile Char.isDigit with
      | some slot, first :: digits => some (slot, first :: digits, rest.dropWhile Char.isDigit)
      | _, _ => none
  | _ => none

/-- A slot is found only under its own letter. -/
theorem Slot.letter_of_ofLetter? {letter : Char} {slot : Slot}
    (found : Slot.ofLetter? letter = some slot)
    : slot.letter = letter := by
  unfold Slot.ofLetter? at found
  cases slot <;> grind [Slot.letter]

/-- A place is spelled by its slot's letter and its digits. -/
theorem eq_of_place? {template : List Char} {slot : Slot} {digits rest : List Char}
    (found : place? template = some (slot, digits, rest))
    : template = '\x60' :: slot.letter :: digits ++ rest := by
  unfold place? at found
  split at found
  · split at found
    · next slotFound digitsEq =>
        simp only [Option.some.injEq, Prod.mk.injEq] at found
        obtain ⟨rfl, rfl, rfl⟩ := found
        rw [Slot.letter_of_ofLetter? slotFound, ← digitsEq, List.cons_append, List.cons_append,
          List.takeWhile_append_dropWhile]
    · simp at found
  · simp at found

/-- What follows a place is shorter than the template. -/
theorem length_lt_of_place? {template : List Char} {slot : Slot} {digits rest : List Char}
    (found : place? template = some (slot, digits, rest))
    : rest.length < template.length := by
  simp only [eq_of_place? found, List.length_append, List.length_cons]
  omega

/-- A template cut into places and single characters, from left to right. -/
def pieces : List Char → List Piece
  | [] => []
  | character :: rest =>
      match found : place? (character :: rest) with
      | some (slot, digits, after) =>
          have : after.length < (character :: rest).length := length_lt_of_place? found
          .place slot digits :: pieces after
      | none => .text character :: pieces rest
termination_by template => template.length
decreasing_by
  · assumption
  · exact Nat.lt_succ_self rest.length

/-- The pieces spell out the template. -/
theorem source_pieces (template : List Char)
    : (pieces template).flatMap Piece.source = template := by
  fun_induction pieces template with
  | case1 => rfl
  | case2 character rest slot digits after found _ ih =>
      simp [Piece.source, ih, eq_of_place? found]
  | case3 character rest _ ih => simp [Piece.source, ih]

end TreeTiling.Template
