import TreeTiling.Source.Sexp

/-!
Texts that spell given tokens, with any blanks and comments between them, and what they are parsed
to: the atoms and lists that the tokens spell, in lines that depend on the layout.
-/

namespace TreeTiling.Source

----------------------------------------------------------------------------------------------
-- Layout
----------------------------------------------------------------------------------------------

/-- A text that can stand as an atom: not empty, and without blanks, parentheses and semicolons. -/
structure IsAtom (text : String) : Prop where
  nonempty : text.toList ≠ []
  chars : ∀ c ∈ text.toList, isAtomChar c = true

instance (text : String) : Decidable (IsAtom text) :=
  decidable_of_iff (text.toList ≠ [] ∧ text.toList.all isAtomChar = true)
    ⟨fun both => ⟨both.1, List.all_eq_true.mp both.2⟩,
      fun isAtom => ⟨isAtom.nonempty, List.all_eq_true.mpr isAtom.chars⟩⟩

/-- Blanks and comments, each comment up to the end of its line. -/
inductive Gap : List Char → Prop where
  | nil : Gap []
  | blank {c : Char} {rest : List Char} (isBlank : Text.isBlank c = true) (gap : Gap rest)
    : Gap (c :: rest)
  | comment {words rest : List Char} (oneLine : '\n' ∉ words) (gap : Gap rest)
    : Gap (';' :: (words ++ '\n' :: rest))

/-- A text that spells lexemes. An atom ends where a character follows that cannot be part of it,
and the last comment may go to the end of the text.
-/
inductive Layout : List Lexeme → List Char → Prop where
  | done {gap : List Char} (isGap : Gap gap) : Layout [] gap
  | doneInComment {gap words : List Char} (isGap : Gap gap) (oneLine : '\n' ∉ words)
    : Layout [] (gap ++ ';' :: words)
  | openParen {gap text : List Char} {lexemes : List Lexeme} (isGap : Gap gap)
    (layout : Layout lexemes text)
    : Layout (.openParen :: lexemes) (gap ++ '(' :: text)
  | closeParen {gap text : List Char} {lexemes : List Lexeme} (isGap : Gap gap)
    (layout : Layout lexemes text)
    : Layout (.closeParen :: lexemes) (gap ++ ')' :: text)
  | atom {gap text : List Char} {atom : String} {lexemes : List Lexeme} (isGap : Gap gap)
    (isAtom : IsAtom atom) (ends : ∀ c ∈ text.head?, isAtomChar c = false)
    (layout : Layout lexemes text)
    : Layout (.atom atom :: lexemes) (gap ++ (atom.toList ++ text))

/-- A comment is passed over with its line. -/
theorem tokens_comment {words : List Char} (oneLine : '\n' ∉ words) (line : Nat) (text : List Char)
    : tokens line (';' :: (words ++ '\n' :: text)) = tokens (line + 1) text := by
  have inside : ∀ c ∈ words, (c != '\n') = true :=
    fun c member => bne_iff_ne.mpr fun same => oneLine (same ▸ member)
  rw [tokens, if_neg (by decide), if_pos rfl, List.dropWhile_append_of_pos inside,
    List.dropWhile_cons_of_neg (by decide), tokens, if_pos rfl]

/-- A comment may end with the text. -/
theorem tokens_comment_end {words : List Char} (oneLine : '\n' ∉ words) (line : Nat)
    : tokens line (';' :: words) = [] := by
  have inside : ∀ c ∈ words, (c != '\n') = true :=
    fun c member => bne_iff_ne.mpr fun same => oneLine (same ▸ member)
  rw [← List.append_nil words, tokens, if_neg (by decide), if_pos rfl,
    List.dropWhile_append_of_pos inside, List.dropWhile_nil, tokens]

/-- A gap is passed over, though it may change the line; by induction on the gap. -/
theorem tokens_gap {gap : List Char} (isGap : Gap gap) (line : Nat) (text : List Char)
    : ∃ later, tokens line (gap ++ text) = tokens later text := by
  induction isGap generalizing line with
  | nil => exact ⟨line, rfl⟩
  | @blank c rest isBlank gap ih =>
      have notSpecial : c ≠ ';' ∧ c ≠ '(' ∧ c ≠ ')' := by
        refine ⟨?_, ?_, ?_⟩ <;> (intro same; subst same; revert isBlank; decide)
      rw [List.cons_append, tokens, if_neg notSpecial.1, if_neg notSpecial.2.1,
        if_neg notSpecial.2.2, if_pos isBlank]
      split
      · exact ih (line + 1)
      · exact ih line
  | @comment words rest oneLine gap ih =>
      rw [List.cons_append, List.append_assoc, List.cons_append, tokens_comment oneLine]
      exact ih (line + 1)

theorem tokens_openParen (line : Nat) (text : List Char)
    : tokens line ('(' :: text) = ⟨.openParen, line⟩ :: tokens line text := by
  rw [tokens, if_neg (by decide), if_neg (by decide), if_pos rfl]

theorem tokens_closeParen (line : Nat) (text : List Char)
    : tokens line (')' :: text) = ⟨.closeParen, line⟩ :: tokens line text := by
  rw [tokens, if_neg (by decide), if_neg (by decide), if_neg (by decide), if_pos rfl]

/-- A character of an atom is none of those that mean something else. -/
theorem isAtomChar_iff {c : Char}
    : isAtomChar c = true ↔ Text.isBlank c = false ∧ c ≠ '(' ∧ c ≠ ')' ∧ c ≠ ';' := by
  simp [isAtomChar, and_assoc]

/-- An atom is read as far as its characters go. -/
theorem tokens_atom {atom : String} (isAtom : IsAtom atom) {text : List Char}
    (ends : ∀ c ∈ text.head?, isAtomChar c = false) (line : Nat)
    : tokens line (atom.toList ++ text) = ⟨.atom atom, line⟩ :: tokens line text := by
  have taken : text.takeWhile isAtomChar = [] ∧ text.dropWhile isAtomChar = text := by
    cases text with
    | nil => exact ⟨rfl, rfl⟩
    | cons c rest =>
        have notAtom := ends c rfl
        exact ⟨List.takeWhile_cons_of_neg (by simp [notAtom]),
          List.dropWhile_cons_of_neg (by simp [notAtom])⟩
  cases same : atom.toList with
  | nil => exact absurd same isAtom.nonempty
  | cons c rest =>
      have chars := isAtom.chars
      rw [same, List.forall_mem_cons] at chars
      obtain ⟨notBlank, notOpen, notClose, notComment⟩ := isAtomChar_iff.mp chars.1
      have notNewline : c ≠ '\n' := by
        intro isNewline
        subst isNewline
        revert notBlank
        decide
      rw [List.cons_append, tokens, if_neg notNewline, if_neg notComment, if_neg notOpen,
        if_neg notClose, if_neg (by simp [notBlank]), List.takeWhile_append_of_pos chars.2,
        List.dropWhile_append_of_pos chars.2, taken.1, taken.2, List.append_nil, ← same,
        String.ofList_toList]

/-- A text that spells lexemes is cut into them; by induction on the layout. -/
theorem Layout.tokens {lexemes : List Lexeme} {text : List Char} (layout : Layout lexemes text)
    (line : Nat)
    : (tokens line text).map Token.lexeme = lexemes := by
  induction layout generalizing line with
  | done isGap =>
      obtain ⟨later, same⟩ := tokens_gap isGap line []
      rw [List.append_nil] at same
      rw [same, Source.tokens]
      rfl
  | doneInComment isGap oneLine =>
      obtain ⟨later, same⟩ := tokens_gap isGap line (';' :: _)
      rw [same, tokens_comment_end oneLine]
      rfl
  | openParen isGap _ ih =>
      obtain ⟨later, same⟩ := tokens_gap isGap line ('(' :: _)
      rw [same, tokens_openParen, List.map_cons, ih]
  | closeParen isGap _ ih =>
      obtain ⟨later, same⟩ := tokens_gap isGap line (')' :: _)
      rw [same, tokens_closeParen, List.map_cons, ih]
  | atom isGap isAtom ends _ ih =>
      obtain ⟨later, same⟩ := tokens_gap isGap line (_ ++ _)
      rw [same, tokens_atom isAtom ends, List.map_cons, ih]

/-- The text of a lexeme. -/
def Lexeme.text : Lexeme → List Char
  | openParen => ['(']
  | closeParen => [')']
  | atom text => text.toList

/-- A text of lexemes with a space after each. -/
def spaced (lexemes : List Lexeme) : List Char :=
  lexemes.flatMap fun lexeme => lexeme.text ++ [' ']

/-- Lexemes can be written with spaces; by induction on them. -/
theorem layout_spaced {lexemes : List Lexeme} (atoms : ∀ text, .atom text ∈ lexemes → IsAtom text)
    : Layout lexemes (spaced lexemes) ∧ Layout lexemes (' ' :: spaced lexemes) := by
  have space : Gap [' '] := .blank (by decide) .nil
  induction lexemes with
  | nil => exact ⟨.done .nil, .done space⟩
  | cons lexeme rest ih =>
      obtain ⟨-, layout⟩ := ih fun text member => atoms text (List.mem_cons_of_mem _ member)
      have same : spaced (lexeme :: rest) = lexeme.text ++ ' ' :: spaced rest := by
        simp [spaced]
      rw [same]
      cases lexeme with
      | openParen => exact ⟨.openParen .nil layout, .openParen space layout⟩
      | closeParen => exact ⟨.closeParen .nil layout, .closeParen space layout⟩
      | atom text =>
          have isAtom := atoms text List.mem_cons_self
          have ends : ∀ c ∈ (' ' :: spaced rest).head?, isAtomChar c = false := by
            intro c isHead
            cases isHead
            decide
          exact ⟨.atom .nil isAtom ends layout, .atom space isAtom ends layout⟩

----------------------------------------------------------------------------------------------
-- Forms
----------------------------------------------------------------------------------------------

/-- An atom or a list, wherever it stands in a text. -/
inductive Form where
  | atom (text : String)
  | list (items : List Form)

namespace Form

mutual

/-- The lexemes that spell a form. -/
@[simp]
def lexemes : Form → List Lexeme
  | atom text => [.atom text]
  | list items => .openParen :: (lexemesAll items ++ [.closeParen])

/-- The lexemes that spell forms in order. -/
@[simp]
def lexemesAll : List Form → List Lexeme
  | [] => []
  | form :: rest => form.lexemes ++ lexemesAll rest

end

/-- Every atom of a form can stand as one. -/
def Proper (form : Form) : Prop :=
  ∀ text, .atom text ∈ form.lexemes → IsAtom text

def AllProper (forms : List Form) : Prop :=
  ∀ text, .atom text ∈ lexemesAll forms → IsAtom text

@[simp]
theorem proper_atom {text : String} : (atom text).Proper ↔ IsAtom text := by
  simp [Proper]

@[simp]
theorem proper_list {items : List Form} : (list items).Proper ↔ AllProper items := by
  simp [Proper, AllProper]

@[simp]
theorem allProper_nil : AllProper [] := by
  simp [AllProper]

@[simp]
theorem allProper_cons {form : Form} {rest : List Form}
    : AllProper (form :: rest) ↔ form.Proper ∧ AllProper rest := by
  simp [Proper, AllProper, or_imp, forall_and]

end Form

namespace Sexp

mutual

/-- The form of an atom or a list, without its line. -/
@[simp]
def form : Sexp → Form
  | atom text _ => .atom text
  | list items _ => .list (forms items)

@[simp]
def forms : List Sexp → List Form
  | [] => []
  | item :: rest => item.form :: forms rest

end

theorem form_eq_atom {item : Sexp} {text : String}
    : item.form = .atom text ↔ ∃ line, item = .atom text line := by
  cases item <;> simp

theorem form_eq_list {item : Sexp} {items : List Form}
    : item.form = .list items ↔ ∃ inner line, item = .list inner line ∧ forms inner = items := by
  cases item <;> simp

theorem forms_eq_nil {items : List Sexp} : forms items = [] ↔ items = [] := by
  cases items <;> simp

theorem forms_eq_cons {items : List Sexp} {first : Form} {rest : List Form}
    : forms items = first :: rest
      ↔ ∃ item others, items = item :: others ∧ item.form = first ∧ forms others = rest := by
  cases items with
  | nil => simp
  | cons item others => simp [and_assoc]

theorem forms_eq_singleton {items : List Sexp} {only : Form}
    : forms items = [only] ↔ ∃ item, items = [item] ∧ item.form = only := by
  simp [forms_eq_cons, forms_eq_nil]

theorem forms_eq_pair {items : List Sexp} {first second : Form}
    : forms items = [first, second]
      ↔ ∃ left right, items = [left, right] ∧ left.form = first ∧ right.form = second := by
  rw [forms_eq_cons]
  constructor
  · intro isPair
    obtain ⟨left, others, rfl, isFirst, isRest⟩ := isPair
    obtain ⟨right, rfl, isSecond⟩ := forms_eq_singleton.mp isRest
    exact ⟨left, right, rfl, isFirst, isSecond⟩
  · intro isPair
    obtain ⟨left, right, rfl, isFirst, isSecond⟩ := isPair
    exact ⟨left, [right], rfl, isFirst, forms_eq_singleton.mpr ⟨right, rfl, isSecond⟩⟩

/-- A list that starts with a keyword. -/
theorem form_eq_keyword {item : Sexp} {keyword : String} {rest : List Form}
    : item.form = .list (.atom keyword :: rest)
      ↔ ∃ start operands line,
          item = .list (.atom keyword start :: operands) line ∧ forms operands = rest := by
  rw [form_eq_list]
  constructor
  · intro isList
    obtain ⟨inner, line, rfl, isInner⟩ := isList
    obtain ⟨first, operands, rfl, isKeyword, isRest⟩ := forms_eq_cons.mp isInner
    obtain ⟨start, rfl⟩ := form_eq_atom.mp isKeyword
    exact ⟨start, operands, line, rfl, isRest⟩
  · intro isKeyword
    obtain ⟨start, operands, line, rfl, isRest⟩ := isKeyword
    exact ⟨_, line, rfl, forms_eq_cons.mpr ⟨_, operands, rfl, by simp, isRest⟩⟩

mutual

/-- The lexemes of an atom or a list with their lines; the line of a closing parenthesis is lost. -/
@[simp]
def flatten : Sexp → List (Lexeme × Option Nat)
  | atom text line => [(.atom text, some line)]
  | list items line => (.openParen, some line) :: (flattenAll items ++ [(.closeParen, none)])

@[simp]
def flattenAll : List Sexp → List (Lexeme × Option Nat)
  | [] => []
  | item :: rest => item.flatten ++ flattenAll rest

end

end Sexp

/-- What an atom or a list keeps of a token. -/
def Token.kept : Token → Lexeme × Option Nat
  | ⟨.closeParen, _⟩ => (.closeParen, none)
  | ⟨lexeme, line⟩ => (lexeme, some line)

mutual

/-- The tokens of a form are grouped to it, and grouping goes on behind it. -/
theorem group_form
    : ∀ (form : Form) {tokens : List Token},
        tokens.map Token.lexeme = form.lexemes
        → ∃ item : Sexp,
            item.form = form
            ∧ item.flatten = tokens.map Token.kept
            ∧ ∀ rest items openings,
                group (tokens ++ rest) items openings = group rest (item :: items) openings
  | .atom text, tokens, spelled => by
      rw [Form.lexemes] at spelled
      obtain ⟨⟨lexeme, line⟩, rfl, isAtom⟩ := List.map_eq_singleton_iff.mp spelled
      obtain rfl : lexeme = .atom text := isAtom
      refine ⟨.atom text line, by simp, by simp [Token.kept], ?_⟩
      intro rest items openings
      rw [List.singleton_append, group]
  | .list inner, tokens, spelled => by
      rw [Form.lexemes] at spelled
      obtain ⟨⟨lexeme, line⟩, others, rfl, isOpen, spelled⟩ := List.map_eq_cons_iff.mp spelled
      obtain ⟨middle, last, rfl, spelledInner, closes⟩ := List.map_eq_append_iff.mp spelled
      obtain ⟨⟨lastLexeme, lastLine⟩, rfl, isClose⟩ := List.map_eq_singleton_iff.mp closes
      obtain rfl : lexeme = .openParen := isOpen
      obtain rfl : lastLexeme = .closeParen := isClose
      obtain ⟨grouped, sameForms, keeps, groups⟩ := group_forms inner spelledInner
      refine ⟨.list grouped line, by simp [sameForms], by simp [keeps, Token.kept], ?_⟩
      intro rest items openings
      rw [List.cons_append, group, List.append_assoc, groups, List.singleton_append, group,
        List.append_nil, List.reverse_reverse]

/-- The tokens of forms are grouped to them in order. -/
theorem group_forms
    : ∀ (forms : List Form) {tokens : List Token},
        tokens.map Token.lexeme = Form.lexemesAll forms
        → ∃ items : List Sexp,
            Sexp.forms items = forms
            ∧ Sexp.flattenAll items = tokens.map Token.kept
            ∧ ∀ rest before openings,
                group (tokens ++ rest) before openings
                = group rest (items.reverse ++ before) openings
  | [], tokens, spelled => by
      rw [Form.lexemesAll] at spelled
      rw [List.map_eq_nil_iff.mp spelled]
      exact ⟨[], by simp, by simp, fun _ _ _ => rfl⟩
  | form :: others, tokens, spelled => by
      rw [Form.lexemesAll] at spelled
      obtain ⟨first, second, rfl, spelledFirst, spelledSecond⟩ := List.map_eq_append_iff.mp spelled
      obtain ⟨item, sameForm, keeps, groups⟩ := group_form form spelledFirst
      obtain ⟨items, sameForms, keepsAll, groupsAll⟩ := group_forms others spelledSecond
      refine ⟨item :: items, by simp [sameForm, sameForms], by simp [keeps, keepsAll], ?_⟩
      intro rest before openings
      rw [List.append_assoc, groups, groupsAll, List.reverse_cons, List.append_assoc,
        List.singleton_append]

end

/-- A text that spells forms is parsed to them. -/
theorem parse_layout {forms : List Form} {source : String}
    (layout : Layout (Form.lexemesAll forms) source.toList)
    : ∃ items, Sexp.parse source = .ok items ∧ Sexp.forms items = forms := by
  obtain ⟨items, sameForms, -, groups⟩ := group_forms forms (layout.tokens 1)
  refine ⟨items, ?_, sameForms⟩
  have grouped := groups [] [] []
  rw [List.append_nil, group, List.append_nil, List.reverse_reverse] at grouped
  exact grouped

end TreeTiling.Source
