import Mathlib.Data.List.Sort
import TreeTiling.Proofs.Source.Balance

/-!
Where the lexemes of a text stand, and what the text is parsed to.

A lexeme starts where a parenthesis stands or a longest run of atom characters begins, outside
comments. Main statement: a text is parsed exactly if its lexemes are balanced, to atoms and lists
that keep each of them with its line, and otherwise a parenthesis without a partner is reported.
-/

namespace TreeTiling.Source

----------------------------------------------------------------------------------------------
-- Lexemes of a text
----------------------------------------------------------------------------------------------

/-- The end of a text lies in a comment. -/
def InComment (before : List Char) : Prop :=
  ∃ earlier words, before = earlier ++ ';' :: words ∧ '\n' ∉ words

/-- The lexeme that starts between two parts of a text. -/
inductive Starts (before : List Char) : Lexeme → List Char → Prop where
  | openParen {after : List Char} (outside : ¬ InComment before)
    : Starts before .openParen ('(' :: after)
  | closeParen {after : List Char} (outside : ¬ InComment before)
    : Starts before .closeParen (')' :: after)
  | atom {text : String} {after : List Char} (outside : ¬ InComment before) (isAtom : IsAtom text)
    (begins : ∀ c ∈ before.getLast?, isAtomChar c = false)
    (ends : ∀ c ∈ after.head?, isAtomChar c = false)
    : Starts before (.atom text) (text.toList ++ after)

/-- The line in which a text goes on. -/
def lineAfter (before : List Char) : Nat :=
  1 + before.count '\n'

/-- A lexeme with the text in front of it. -/
structure Located where
  before : List Char
  lexeme : Lexeme

def Located.line (located : Located) : Nat :=
  lineAfter located.before

def Located.token (located : Located) : Token :=
  ⟨located.lexeme, located.line⟩

/-- A text has the lexeme where it is located. -/
def Located.In (text : List Char) (located : Located) : Prop :=
  ∃ after, text = located.before ++ after ∧ Starts located.before located.lexeme after

/-- The lexemes of a text that start at a position or behind it, in order. -/
structure CutFrom (start : Nat) (text : List Char) (cut : List Located) : Prop where
  ordered : cut.Pairwise fun first second => first.before.length < second.before.length
  mem_iff : ∀ located, located ∈ cut ↔ start ≤ located.before.length ∧ located.In text

/-- There is one way to cut a text, since lexemes with the same members and order are the same. -/
theorem CutFrom.unique {start : Nat} {text : List Char} {cut other : List Located}
    (first : CutFrom start text cut) (second : CutFrom start text other)
    : cut = other := by
  let Precedes (left right : Located) : Prop := left.before.length < right.before.length
  have : Std.Antisymm Precedes := ⟨fun _ _ less greater => absurd greater (Nat.lt_asymm less)⟩
  have : Std.Irrefl Precedes := ⟨fun _ => Nat.lt_irrefl _⟩
  refine List.Pairwise.eq_of_mem_iff first.ordered second.ordered fun located => ?_
  rw [first.mem_iff, second.mem_iff]

----------------------------------------------------------------------------------------------
-- Comments
----------------------------------------------------------------------------------------------

theorem not_inComment_nil : ¬ InComment [] := by
  rintro ⟨earlier, words, splits, _⟩
  exact absurd splits (by simp)

theorem inComment_append {before words : List Char} (oneLine : '\n' ∉ words)
    : InComment (before ++ ';' :: words) :=
  ⟨before, words, rfl, oneLine⟩

/-- A text without a semicolon starts no comment. -/
theorem not_inComment_append {before chunk : List Char} (outside : ¬ InComment before)
    (noComment : ';' ∉ chunk)
    : ¬ InComment (before ++ chunk) := by
  rintro ⟨earlier, words, splits, oneLine⟩
  rcases split_append splits with ⟨rest, rfl, rfl⟩ | ⟨rest, rfl, rfl⟩
  · exact outside ⟨earlier, rest, rfl, fun member => oneLine (List.mem_append_left _ member)⟩
  · exact noComment (List.mem_append_right _ List.mem_cons_self)

/-- A comment ends with its line. -/
theorem not_inComment_newline (before : List Char) : ¬ InComment (before ++ ['\n']) := by
  rintro ⟨earlier, words, splits, oneLine⟩
  rcases split_append splits with ⟨rest, _, rfl⟩ | ⟨rest, _, isLast⟩
  · exact oneLine (List.mem_append_right _ List.mem_cons_self)
  · cases rest <;> simp at isLast

theorem lineAfter_append {before chunk : List Char} (oneLine : '\n' ∉ chunk)
    : lineAfter (before ++ chunk) = lineAfter before := by
  rw [lineAfter, lineAfter, List.count_append, List.count_eq_zero.mpr oneLine, Nat.add_zero]

theorem lineAfter_newline (before : List Char)
    : lineAfter (before ++ ['\n']) = lineAfter before + 1 := by
  rw [lineAfter, lineAfter, List.count_append, List.count_singleton_self, Nat.add_assoc]

----------------------------------------------------------------------------------------------
-- What starts at a character
----------------------------------------------------------------------------------------------

namespace Starts

variable {before text : List Char} {lexeme : Lexeme} {c : Char}

theorem outside (starts : Starts before lexeme text) : ¬ InComment before := by
  cases starts <;> assumption

/-- A lexeme starts with a character of its own. -/
theorem first (starts : Starts before lexeme text)
    : ∃ c rest,
        text = c :: rest
        ∧ (c = '(' ∨ c = ')'
          ∨ isAtomChar c = true ∧ ∀ last ∈ before.getLast?, isAtomChar last = false) := by
  cases starts with
  | openParen => exact ⟨_, _, rfl, .inl rfl⟩
  | closeParen => exact ⟨_, _, rfl, .inr (.inl rfl)⟩
  | @atom atom after _ isAtom begins _ =>
      obtain ⟨c, rest, isText⟩ := List.exists_cons_of_ne_nil isAtom.nonempty
      have isChar : isAtomChar c = true := isAtom.chars c (isText ▸ List.mem_cons_self)
      exact ⟨c, rest ++ after, by rw [isText, List.cons_append], .inr (.inr ⟨isChar, begins⟩)⟩

theorem not_blank (isBlank : Text.isBlank c = true) : ¬ Starts before lexeme (c :: text) := by
  intro starts
  obtain ⟨_, _, same, isFirst⟩ := starts.first
  obtain ⟨rfl, rfl⟩ := List.cons.inj same
  rcases isFirst with rfl | rfl | ⟨isChar, _⟩
  · exact absurd isBlank (by decide)
  · exact absurd isBlank (by decide)
  · exact absurd isBlank (by simp [(isAtomChar_iff.mp isChar).1])

theorem not_semicolon : ¬ Starts before lexeme (';' :: text) := by
  intro starts
  obtain ⟨_, _, same, isFirst⟩ := starts.first
  obtain ⟨rfl, rfl⟩ := List.cons.inj same
  revert isFirst
  simp [isAtomChar]

/-- No lexeme starts inside an atom. -/
theorem not_within {last : Char} (isLast : last ∈ before.getLast?)
    (lastChar : isAtomChar last = true) (isChar : isAtomChar c = true)
    : ¬ Starts before lexeme (c :: text) := by
  intro starts
  obtain ⟨_, _, same, isFirst⟩ := starts.first
  obtain ⟨rfl, rfl⟩ := List.cons.inj same
  rcases isFirst with rfl | rfl | ⟨_, begins⟩
  · exact absurd isChar (by decide)
  · exact absurd isChar (by decide)
  · exact absurd lastChar (by simp [begins last isLast])

end Starts

/-- The only lexeme that can start with a text. -/
def leading : List Char → Lexeme
  | '(' :: _ => .openParen
  | ')' :: _ => .closeParen
  | text => .atom (String.ofList (text.takeWhile isAtomChar))

theorem leading_atom {text : String} (isAtom : IsAtom text) {after : List Char}
    (ends : ∀ c ∈ after.head?, isAtomChar c = false)
    : leading (text.toList ++ after) = .atom text := by
  have whole : (text.toList ++ after).takeWhile isAtomChar = text.toList := by
    rw [List.takeWhile_append_of_pos isAtom.chars]
    cases after with
    | nil => simp
    | cons c rest => rw [List.takeWhile_cons_of_neg (by simp [ends c rfl]), List.append_nil]
  obtain ⟨c, rest, isText⟩ := List.exists_cons_of_ne_nil isAtom.nonempty
  have isChar : isAtomChar c = true := isAtom.chars c (isText ▸ List.mem_cons_self)
  obtain ⟨_, notOpen, notClose, _⟩ := isAtomChar_iff.mp isChar
  rw [leading, whole, String.ofList_toList]
  · intro others same
    rw [isText] at same
    exact notOpen (List.cons.inj same).1
  · intro others same
    rw [isText] at same
    exact notClose (List.cons.inj same).1

theorem Starts.eq_leading {before text : List Char} {lexeme : Lexeme}
    (starts : Starts before lexeme text)
    : lexeme = leading text := by
  cases starts with
  | openParen => rfl
  | closeParen => rfl
  | atom _ isAtom _ ends => exact (leading_atom isAtom ends).symm

----------------------------------------------------------------------------------------------
-- Cutting from a position on
----------------------------------------------------------------------------------------------

/-- A lexeme behind some text starts at a character of what follows. -/
theorem Located.In.behind {before text : List Char} {located : Located}
    (isIn : located.In (before ++ text)) (behind : before.length ≤ located.before.length)
    : ∃ inside c after,
        located.before = before ++ inside
        ∧ text = inside ++ c :: after
        ∧ Starts (before ++ inside) located.lexeme (c :: after) := by
  obtain ⟨after, splits, starts⟩ := isIn
  obtain ⟨c, rest, rfl, _⟩ := starts.first
  rcases split_append splits with ⟨others, rfl, _⟩ | ⟨inside, isBefore, isText⟩
  · exact absurd behind (by simp)
  · exact ⟨inside, c, rest, isBefore, isText, isBefore ▸ starts⟩

namespace CutFrom

variable {before rest : List Char} {cut : List Located} {lexeme : Lexeme}

theorem nil (before : List Char) : CutFrom before.length before [] := by
  refine ⟨.nil, fun located => ⟨fun member => absurd member (by simp), fun isIn => ?_⟩⟩
  have isIn' : located.In (before ++ []) := by simpa using isIn.2
  obtain ⟨inside, c, after, _, isEnd, _⟩ := isIn'.behind isIn.1
  exact absurd isEnd (by simp)

/-- Characters at which nothing starts are passed over. -/
theorem skip {chunk : List Char}
    (nothing : ∀ inside c others lexeme,
      chunk = inside ++ c :: others → ¬ Starts (before ++ inside) lexeme (c :: (others ++ rest)))
    (later : CutFrom (before ++ chunk).length (before ++ chunk ++ rest) cut)
    : CutFrom before.length (before ++ chunk ++ rest) cut := by
  refine ⟨later.ordered, fun located => ?_⟩
  rw [later.mem_iff]
  refine ⟨fun isIn => ⟨?_, isIn.2⟩, fun isIn => ⟨?_, isIn.2⟩⟩
  · exact Nat.le_trans (by simp) isIn.1
  · have behind := isIn.2
    rw [List.append_assoc] at behind
    obtain ⟨inside, c, after, isBefore, splits, starts⟩ := behind.behind isIn.1
    rcases split_append splits with ⟨others, isChunk, rfl⟩ | ⟨more, rfl, _⟩
    · exact absurd starts (nothing inside c others _ isChunk)
    · rw [isBefore]
      simp

theorem skipChar {c : Char} (nothing : ∀ lexeme, ¬ Starts before lexeme (c :: rest))
    (later : CutFrom (before ++ [c]).length (before ++ [c] ++ rest) cut)
    : CutFrom before.length (before ++ c :: rest) cut := by
  rw [List.append_cons]
  refine later.skip fun inside first others lexeme isChunk => ?_
  obtain ⟨rfl, isFirst⟩ | ⟨_, isEnd⟩ := List.singleton_eq_append_iff.mp isChunk
  · obtain ⟨rfl, rfl⟩ := List.cons.inj isFirst
    simpa using nothing lexeme
  · exact absurd isEnd (by simp)

/-- A comment is passed over, as far as its line goes. -/
theorem comment {words : List Char} (oneLine : '\n' ∉ words)
    (later : CutFrom (before ++ ';' :: words).length (before ++ ';' :: words ++ rest) cut)
    : CutFrom before.length (before ++ ';' :: words ++ rest) cut := by
  refine later.skip fun inside c others lexeme isChunk => ?_
  cases inside with
  | nil =>
      obtain ⟨rfl, rfl⟩ := List.cons.inj isChunk
      exact Starts.not_semicolon
  | cons _ more =>
      obtain ⟨rfl, rfl⟩ := List.cons.inj isChunk
      have stillInside : InComment (before ++ ';' :: more) :=
        inComment_append fun member => oneLine (List.mem_append_left _ member)
      exact fun starts => starts.outside stillInside

/-- A lexeme that starts at a character comes before those behind the character. -/
theorem token {c : Char} (starts : Starts before lexeme (c :: rest))
    (later : CutFrom (before ++ [c]).length (before ++ [c] ++ rest) cut)
    : CutFrom before.length (before ++ c :: rest) (⟨before, lexeme⟩ :: cut) := by
  rw [← List.append_cons] at later
  refine ⟨List.pairwise_cons.mpr ⟨fun located member => ?_, later.ordered⟩, fun located => ?_⟩
  · have behind := ((later.mem_iff located).mp member).1
    rw [List.length_append] at behind
    exact behind
  · rw [List.mem_cons, later.mem_iff]
    constructor
    · intro member
      rcases member with rfl | ⟨behind, isIn⟩
      · exact ⟨Nat.le_refl _, c :: rest, rfl, starts⟩
      · exact ⟨Nat.le_trans (by simp) behind, isIn⟩
    · intro isIn
      obtain ⟨inside, first, after, isBefore, splits, startsHere⟩ := isIn.2.behind isIn.1
      cases inside with
      | nil =>
          rw [List.append_nil] at isBefore startsHere
          have same : located.lexeme = lexeme := by
            rw [startsHere.eq_leading, starts.eq_leading, splits, List.nil_append]
          exact .inl (by rw [← isBefore, ← same])
      | cons _ others => exact .inr ⟨by simp [isBefore], isIn.2⟩

/-- An atom is one lexeme, as far as its characters go. -/
theorem atom {c : Char} {word : List Char} (chars : ∀ char ∈ c :: word, isAtomChar char = true)
    (starts : Starts before lexeme (c :: (word ++ rest)))
    (later : CutFrom (before ++ c :: word).length (before ++ c :: word ++ rest) cut)
    : CutFrom before.length (before ++ c :: (word ++ rest)) (⟨before, lexeme⟩ :: cut) := by
  rw [List.append_cons] at later
  refine .token starts ?_
  rw [← List.append_assoc]
  refine later.skip fun inside first others other isChunk => ?_
  -- the character in front belongs to the atom too
  obtain ⟨last, isLast, isWord⟩
      : ∃ last ∈ (before ++ [c] ++ inside).getLast?, last ∈ c :: word := by
    rw [List.append_assoc, List.singleton_append, List.getLast?_append_cons]
    refine ⟨_, List.getLast?_eq_getLast_of_ne_nil (List.cons_ne_nil c inside), ?_⟩
    rw [isChunk, ← List.cons_append]
    exact List.mem_append_left _ (List.getLast_mem _)
  refine Starts.not_within isLast (chars last isWord) (chars first ?_)
  rw [isChunk]
  simp

end CutFrom

----------------------------------------------------------------------------------------------
-- Tokens are what a text is cut into
----------------------------------------------------------------------------------------------

/-- A text may go on with the rest: a comment in front ends its line first, and an atom in front has
ended.
-/
structure Resumes (before rest : List Char) : Prop where
  comment : InComment before → ∀ c ∈ rest.head?, c = '\n'
  atom : ∀ last ∈ before.getLast?, isAtomChar last = true
    → ∀ c ∈ rest.head?, isAtomChar c = false

namespace Resumes

variable {before rest : List Char} {c : Char}

theorem outside (resumes : Resumes before (c :: rest)) (notNewline : c ≠ '\n')
    : ¬ InComment before :=
  fun inside => notNewline (resumes.comment inside c rfl)

/-- Anything may follow a character that neither belongs to an atom nor starts a comment. -/
theorem next (resumes : Resumes before (c :: rest)) (notSemicolon : c ≠ ';')
    (notAtom : isAtomChar c = false) {others : List Char}
    : Resumes (before ++ [c]) others := by
  constructor
  · intro inside
    by_cases isNewline : c = '\n'
    · subst isNewline
      exact absurd inside (not_inComment_newline before)
    · have stillOutside : ¬ InComment (before ++ [c]) :=
        not_inComment_append (resumes.outside isNewline) (by simpa using Ne.symm notSemicolon)
      exact absurd inside stillOutside
  · intro last isLast isChar
    rw [List.getLast?_concat, Option.mem_some_iff] at isLast
    subst isLast
    exact absurd isChar (by simp [notAtom])

/-- The end of its line follows a comment. -/
theorem behindComment {words others : List Char} (newline : ∀ c ∈ others.head?, c = '\n')
    : Resumes (before ++ ';' :: words) others := by
  refine ⟨fun _ => newline, fun _ _ _ c isHead => ?_⟩
  rw [newline c isHead]
  decide

/-- Where the text goes on with a character of an atom, an atom starts. -/
theorem startsAtom {word others : List Char} (resumes : Resumes before (c :: (word ++ others)))
    (outside : ¬ InComment before) (chars : ∀ char ∈ c :: word, isAtomChar char = true)
    (ends : ∀ char ∈ others.head?, isAtomChar char = false)
    : Starts before (.atom (String.ofList (c :: word))) (c :: (word ++ others)) := by
  have isAtom : IsAtom (String.ofList (c :: word)) := ⟨by simp, by simpa using chars⟩
  have begins : ∀ last ∈ before.getLast?, isAtomChar last = false := by
    intro last isLast
    by_contra lastChar
    have fails := resumes.atom last isLast (by simpa using lastChar) c rfl
    exact absurd (chars c List.mem_cons_self) (by simp [fails])
  simpa using Starts.atom outside isAtom begins ends

end Resumes

/-- A text splits where a test first fails. -/
theorem split_at_test (test : Char → Bool) (text : List Char)
    : ∃ chunk rest,
        text = chunk ++ rest
        ∧ text.takeWhile test = chunk
        ∧ text.dropWhile test = rest
        ∧ (∀ c ∈ chunk, test c = true)
        ∧ ∀ c ∈ rest.head?, test c = false := by
  refine ⟨_, _, List.takeWhile_append_dropWhile.symm, rfl, rfl,
    List.all_eq_true.mp List.all_takeWhile, fun c isHead => ?_⟩
  have fails := List.head?_dropWhile_not test text
  rw [Option.mem_def.mp isHead] at fails
  exact fails

/-- Tokens are the lexemes of the text from where it goes on; by induction along its characters,
with the text in front growing by what has been read.
-/
theorem exists_cut {line : Nat} {before rest : List Char} (isLine : line = lineAfter before)
    (resumes : Resumes before rest)
    : ∃ cut,
        CutFrom before.length (before ++ rest) cut ∧ tokens line rest = cut.map Located.token := by
  fun_induction tokens line rest generalizing before with
  | case1 line => exact ⟨[], by simpa using CutFrom.nil before, rfl⟩
  | case2 line rest ih =>
      subst isLine
      obtain ⟨cut, isCut, same⟩ :=
        ih (lineAfter_newline before).symm (resumes.next (by decide) (by decide))
      exact ⟨cut, isCut.skipChar fun _ => Starts.not_blank (by decide), same⟩
  | case3 line rest _ ih =>
      obtain ⟨words, others, rfl, _, isRest, inLine, ends⟩ := split_at_test (· != '\n') rest
      rw [isRest] at ih ⊢
      have oneLine : '\n' ∉ words := fun member => absurd (inLine _ member) (by simp)
      have newline : ∀ c ∈ others.head?, c = '\n' := fun c isHead => by simpa using ends c isHead
      have sameLine : lineAfter (before ++ ';' :: words) = lineAfter before :=
        lineAfter_append (by simpa using oneLine)
      obtain ⟨cut, isCut, same⟩ := ih (isLine.trans sameLine.symm) (.behindComment newline)
      refine ⟨cut, ?_, same⟩
      rw [← List.cons_append, ← List.append_assoc]
      exact isCut.comment oneLine
  | case4 line rest _ _ ih =>
      have sameLine : lineAfter (before ++ ['(']) = lineAfter before := lineAfter_append (by decide)
      obtain ⟨cut, isCut, same⟩ :=
        ih (isLine.trans sameLine.symm) (resumes.next (by decide) (by decide))
      have outside := resumes.outside (by decide)
      exact ⟨_, isCut.token (.openParen outside), by rw [same, isLine]; rfl⟩
  | case5 line rest _ _ _ ih =>
      have sameLine : lineAfter (before ++ [')']) = lineAfter before := lineAfter_append (by decide)
      obtain ⟨cut, isCut, same⟩ :=
        ih (isLine.trans sameLine.symm) (resumes.next (by decide) (by decide))
      have outside := resumes.outside (by decide)
      exact ⟨_, isCut.token (.closeParen outside), by rw [same, isLine]; rfl⟩
  | case6 line c rest notNewline notSemicolon _ _ isBlank ih =>
      have sameLine : lineAfter (before ++ [c]) = lineAfter before :=
        lineAfter_append (by simpa using Ne.symm notNewline)
      have notAtom : isAtomChar c = false := by simp [isAtomChar, isBlank]
      obtain ⟨cut, isCut, same⟩ :=
        ih (isLine.trans sameLine.symm) (resumes.next notSemicolon notAtom)
      exact ⟨cut, isCut.skipChar fun _ => Starts.not_blank isBlank, same⟩
  | case7 line c rest notNewline notSemicolon notOpen notClose notBlank ih =>
      obtain ⟨word, others, rfl, isWord, isRest, inWord, ends⟩ := split_at_test isAtomChar rest
      rw [isRest] at ih ⊢
      rw [isWord]
      have isChar : isAtomChar c = true :=
        isAtomChar_iff.mpr ⟨by simpa using notBlank, notOpen, notClose, notSemicolon⟩
      have chars : ∀ char ∈ c :: word, isAtomChar char = true :=
        List.forall_mem_cons.mpr ⟨isChar, inWord⟩
      have noSemicolon : ';' ∉ c :: word := fun member => absurd (chars _ member) (by decide)
      have oneLine : '\n' ∉ c :: word := fun member => absurd (chars _ member) (by decide)
      have outside := resumes.outside notNewline
      have stillOutside := not_inComment_append outside noSemicolon
      have next : Resumes (before ++ c :: word) others :=
        ⟨fun inside => absurd inside stillOutside, fun _ _ _ => ends⟩
      obtain ⟨cut, isCut, same⟩ := ih (isLine.trans (lineAfter_append oneLine).symm) next
      have starts := resumes.startsAtom outside chars ends
      exact ⟨_, isCut.atom chars starts, by rw [same, isLine]; rfl⟩

----------------------------------------------------------------------------------------------
-- Parsing
----------------------------------------------------------------------------------------------

/-- An error is about the parenthesis without a partner that a text is to blame for: the first
closing one, or the innermost opening one if all closing ones have partners.
-/
inductive Blames (cut : List Located) (error : Error) : Prop where
  | unopened {before after : List Located} {here : Located} (splits : cut = before ++ here :: after)
    (closes : here.lexeme = .closeParen)
    (noPartner : ¬ Opened (before.map Located.lexeme))
    (first : AllOpened (before.map Located.lexeme))
    (line : error.line = here.line)
    (message : error.fault.message = "unexpected `)`")
  | unclosed {before after : List Located} {here : Located} (splits : cut = before ++ here :: after)
    (allOpened : AllOpened (cut.map Located.lexeme))
    (opens : here.lexeme = .openParen)
    (noPartner : ¬ Closed (after.map Located.lexeme))
    (innermost : AllClosed (after.map Located.lexeme))
    (line : error.line = here.line)
    (message : error.fault.message = "unclosed `(`")

theorem lexeme_token (cut : List Located)
    : (cut.map Located.token).map Token.lexeme = cut.map Located.lexeme := by
  rw [List.map_map]
  rfl

theorem kept_token (cut : List Located)
    : (cut.map Located.token).map Token.kept = cut.map fun located => located.token.kept := by
  rw [List.map_map]
  rfl

/-- A lexeme among those of a cut is located. -/
theorem exists_located {cut : List Located} {before after : List Lexeme} {lexeme : Lexeme}
    (splits : cut.map Located.lexeme = before ++ lexeme :: after)
    : ∃ front here back,
        cut = front ++ here :: back
        ∧ front.map Located.lexeme = before
        ∧ here.lexeme = lexeme
        ∧ back.map Located.lexeme = after := by
  obtain ⟨front, others, rfl, isFront, isOthers⟩ := List.map_eq_append_iff.mp splits
  obtain ⟨here, back, rfl, isHere, isBack⟩ := List.map_eq_cons_iff.mp isOthers
  exact ⟨front, here, back, rfl, isFront, isHere, isBack⟩

/-- Tokens that are not balanced are refused for a parenthesis without a partner. -/
theorem group_blames {cut : List Located} (unbalanced : ¬ Balanced (cut.map Located.lexeme))
    : ∃ error, group (cut.map Located.token) [] [] = .error error ∧ Blames cut error := by
  rcases pending_or_unopened (cut.map Located.lexeme) with
    pending | ⟨before, after, splits, inFront⟩
  · generalize spelled : cut.map Located.lexeme = lexemes at pending unbalanced
    have allOpened := pending.allOpened
    cases pending with
    | balanced balanced => exact absurd balanced unbalanced
    | opening outer items =>
        obtain ⟨front, here, back, rfl, rfl, opens, rfl⟩ := exists_located spelled
        refine ⟨⟨here.line, .unclosed⟩, ?_, ?_⟩
        · rw [List.map_append, List.map_cons, Located.token, opens]
          rw [← lexeme_token] at outer items
          exact group_unclosed outer items
        · rw [← spelled] at allOpened
          exact .unclosed rfl allOpened opens items.not_closed items.allClosed rfl rfl
  · obtain ⟨front, here, back, rfl, rfl, closes, rfl⟩ := exists_located splits
    refine ⟨⟨here.line, .unexpectedClose⟩, ?_, ?_⟩
    · rw [List.map_append, List.map_cons, Located.token, closes]
      rw [← lexeme_token] at inFront
      exact group_unopened inFront
    · exact .unopened rfl closes inFront.not_opened inFront.allOpened rfl rfl

/-- A text is cut into lexemes in one way, and is parsed exactly if these are balanced. The atoms
and lists are then spelled by them and keep their lines; otherwise a parenthesis without a partner
is reported.
-/
theorem parse_accepts_exactly_balanced (source : String)
    : ∃ cut,
        (∀ other, CutFrom 0 source.toList other ↔ other = cut)
        ∧ ((∃ forest, Sexp.parse source = .ok forest) ↔ Balanced (cut.map Located.lexeme))
        ∧ (∀ forest,
            Sexp.parse source = .ok forest
            → Sexp.flattenAll forest = cut.map fun located => located.token.kept)
        ∧ ∀ error, Sexp.parse source = .error error → Blames cut error := by
  have atStart : Resumes [] source.toList :=
    ⟨fun inside => absurd inside not_inComment_nil, fun _ isLast => absurd isLast (by simp)⟩
  have firstLine : 1 = lineAfter [] := rfl
  obtain ⟨cut, isCut, same⟩ := exists_cut firstLine atStart
  refine ⟨cut, fun other => ⟨fun isOther => isOther.unique isCut, fun isSame => ?_⟩, ?_⟩
  · rw [isSame]
    exact isCut
  rw [Sexp.parse, same]
  by_cases balanced : Balanced (cut.map Located.lexeme)
  · have spelled := balanced
    rw [← lexeme_token] at spelled
    obtain ⟨forest, grouped, keeps⟩ := group_balanced spelled
    rw [kept_token] at keeps
    rw [grouped]
    refine ⟨⟨fun _ => balanced, fun _ => ⟨forest, rfl⟩⟩, fun other isForest => ?_, ?_⟩
    · cases isForest
      exact keeps
    · exact fun error failed => absurd failed (by simp)
  · obtain ⟨error, failed, blames⟩ := group_blames balanced
    rw [failed]
    refine ⟨⟨fun parsed => ?_, fun isBalanced => absurd isBalanced balanced⟩, ?_, ?_⟩
    · obtain ⟨forest, isForest⟩ := parsed
      exact absurd isForest (by simp)
    · exact fun forest isForest => absurd isForest (by simp)
    · intro other isError
      cases isError
      exact blames

end TreeTiling.Source
