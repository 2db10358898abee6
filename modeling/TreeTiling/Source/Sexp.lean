import TreeTiling.Source.Error
import TreeTiling.Text.Blank

/-!
Symbolic expressions: atoms and parenthesised lists.

A text is cut into parentheses and atoms first. A comment goes from a semicolon to the end of its
line, and an atom is a longest run of characters that are neither blank nor parentheses nor
semicolons. Each token carries its line, and a list the line of its opening parenthesis.
-/

namespace TreeTiling.Source

----------------------------------------------------------------------------------------------
-- Tokens
----------------------------------------------------------------------------------------------

/-- What a token can be. -/
inductive Lexeme where
  | openParen
  | closeParen
  | atom (text : String)
deriving DecidableEq

/-- A lexeme with the line it starts in. -/
structure Token where
  lexeme : Lexeme
  line : Nat
deriving DecidableEq

/-- Whether a character can be part of an atom. -/
def isAtomChar (c : Char) : Bool :=
  !(Text.isBlank c || c == '(' || c == ')' || c == ';')

/-- The tokens of a text that starts in a line. -/
def tokens (line : Nat) : List Char → List Token
  | [] => []
  | c :: rest =>
      if c = '\n' then tokens (line + 1) rest
      else if c = ';' then tokens line (rest.dropWhile (· != '\n'))
      else if c = '(' then ⟨.openParen, line⟩ :: tokens line rest
      else if c = ')' then ⟨.closeParen, line⟩ :: tokens line rest
      else if Text.isBlank c then tokens line rest
      else
        ⟨.atom (String.ofList (c :: rest.takeWhile isAtomChar)), line⟩
          :: tokens line (rest.dropWhile isAtomChar)
termination_by text => text.length
decreasing_by
  all_goals
    have := (List.dropWhile_sublist (· != '\n') (l := rest)).length_le
    have := (List.dropWhile_sublist isAtomChar (l := rest)).length_le
    simp only [List.length_cons]
    omega

----------------------------------------------------------------------------------------------
-- Lists
----------------------------------------------------------------------------------------------

/-- An atom or a list, with its line. -/
inductive Sexp where
  | atom (text : String) (line : Nat)
  | list (items : List Sexp) (line : Nat)

def Sexp.line : Sexp → Nat
  | atom _ line => line
  | list _ line => line

/-- A list that is not closed yet: the items before it in its parent, last first, and its line. -/
structure Opening where
  before : List Sexp
  line : Nat

/-- Groups tokens, given the items of the innermost open list, last first, and the lists that are
open, innermost first.
-/
def group : List Token → List Sexp → List Opening → Except Error (List Sexp)
  | [], items, [] => .ok items.reverse
  | [], _, opening :: _ => .error ⟨opening.line, .unclosed⟩
  | ⟨.atom text, line⟩ :: rest, items, openings =>
      group rest (.atom text line :: items) openings
  | ⟨.openParen, line⟩ :: rest, items, openings => group rest [] (⟨items, line⟩ :: openings)
  | ⟨.closeParen, line⟩ :: _, _, [] => .error ⟨line, .unexpectedClose⟩
  | ⟨.closeParen, _⟩ :: rest, items, opening :: openings =>
      group rest (.list items.reverse opening.line :: opening.before) openings

/-- The atoms and lists of a text. -/
def Sexp.parse (source : String) : Except Error (List Sexp) :=
  group (tokens 1 source.toList) [] []

end TreeTiling.Source
