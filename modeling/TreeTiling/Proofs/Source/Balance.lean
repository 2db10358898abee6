import TreeTiling.Proofs.Source.Layout

/-!
Balanced parentheses, and what grouping makes of lexemes that are balanced or not.

Lexemes are balanced, or a balanced part of them is followed by a closing parenthesis, or all
closing parentheses have partners and a last open one has none. The partner of a parenthesis is the
one that stands on the other side of something balanced.
-/

namespace TreeTiling.Source

----------------------------------------------------------------------------------------------
-- Partners
----------------------------------------------------------------------------------------------

/-- Lexemes in which every parenthesis is matched. -/
inductive Balanced : List Lexeme → Prop where
  | nil : Balanced []
  | atom {lexemes : List Lexeme} (text : String) (rest : Balanced lexemes)
    : Balanced (.atom text :: lexemes)
  | list {inner lexemes : List Lexeme} (items : Balanced inner) (rest : Balanced lexemes)
    : Balanced (.openParen :: (inner ++ .closeParen :: lexemes))

/-- A closing parenthesis after these lexemes has an open partner among them. -/
def Opened (before : List Lexeme) : Prop :=
  ∃ outer inner, before = outer ++ .openParen :: inner ∧ Balanced inner

/-- An opening parenthesis in front of these lexemes has a closing partner among them. -/
def Closed (after : List Lexeme) : Prop :=
  ∃ inner outer, after = inner ++ .closeParen :: outer ∧ Balanced inner

/-- Every closing parenthesis has a partner. -/
def AllOpened (lexemes : List Lexeme) : Prop :=
  ∀ before after, lexemes = before ++ .closeParen :: after → Opened before

/-- Every opening parenthesis has a partner. -/
def AllClosed (lexemes : List Lexeme) : Prop :=
  ∀ before after, lexemes = before ++ .openParen :: after → Closed after

theorem Opened.prepend {before : List Lexeme} (front : List Lexeme) (opened : Opened before)
    : Opened (front ++ before) := by
  obtain ⟨outer, inner, rfl, balanced⟩ := opened
  exact ⟨front ++ outer, inner, by simp, balanced⟩

theorem Closed.append {after : List Lexeme} (back : List Lexeme) (closed : Closed after)
    : Closed (after ++ back) := by
  obtain ⟨inner, outer, rfl, balanced⟩ := closed
  exact ⟨inner, outer ++ back, by simp, balanced⟩

/-- A member of two lists in a row stands in one of them. -/
theorem split_append {α : Type} {first second before after : List α} {member : α}
    (splits : first ++ second = before ++ member :: after)
    : (∃ rest, first = before ++ member :: rest ∧ after = rest ++ second)
      ∨ ∃ rest, before = first ++ rest ∧ second = rest ++ member :: after := by
  rcases List.append_eq_append_iff.mp splits with second | ⟨rest, rfl, remains⟩
  · exact .inr second
  · rcases List.cons_eq_append_iff.mp remains with ⟨rfl, rfl⟩ | first
    · exact .inr ⟨[], by simp, rfl⟩
    · obtain ⟨others, rfl, rfl⟩ := first
      exact .inl ⟨others, rfl, rfl⟩

theorem AllOpened.append {first second : List Lexeme} (opened : AllOpened first)
    (secondOpened : AllOpened second)
    : AllOpened (first ++ second) := by
  intro before after splits
  rcases split_append splits with ⟨rest, rfl, _⟩ | ⟨rest, rfl, rfl⟩
  · exact opened before rest rfl
  · exact (secondOpened rest after rfl).prepend first

/-- A closing parenthesis may follow what has a partner for it. -/
theorem AllOpened.close {first second : List Lexeme} (opened : AllOpened first)
    (partner : Opened first) (secondOpened : AllOpened second)
    : AllOpened (first ++ .closeParen :: second) := by
  intro before after splits
  rcases split_append splits with ⟨rest, rfl, _⟩ | ⟨rest, rfl, remains⟩
  · exact opened before rest rfl
  · cases rest with
    | nil => simpa using partner
    | cons lexeme rest =>
        obtain ⟨rfl, rfl⟩ := List.cons.inj remains
        rw [List.append_cons]
        exact (secondOpened rest after rfl).prepend (first ++ [.closeParen])

theorem AllOpened.cons {lexeme : Lexeme} {lexemes : List Lexeme} (isOther : lexeme ≠ .closeParen)
    (opened : AllOpened lexemes)
    : AllOpened (lexeme :: lexemes) := by
  intro before after splits
  cases before with
  | nil => exact absurd (List.cons.inj splits).1 isOther
  | cons first rest =>
      obtain ⟨rfl, rfl⟩ := List.cons.inj splits
      exact (opened rest after rfl).prepend [lexeme]

theorem AllClosed.append {first second : List Lexeme} (closed : AllClosed first)
    (secondClosed : AllClosed second)
    : AllClosed (first ++ second) := by
  intro before after splits
  rcases split_append splits with ⟨rest, rfl, rfl⟩ | ⟨rest, rfl, rfl⟩
  · exact (closed before rest rfl).append second
  · exact secondClosed rest after rfl

theorem AllClosed.cons {lexeme : Lexeme} {lexemes : List Lexeme}
    (partner : lexeme = .openParen → Closed lexemes) (closed : AllClosed lexemes)
    : AllClosed (lexeme :: lexemes) := by
  intro before after splits
  cases before with
  | nil =>
      obtain ⟨rfl, rfl⟩ := List.cons.inj splits
      exact partner rfl
  | cons first rest => exact closed rest after (List.cons.inj splits).2

----------------------------------------------------------------------------------------------
-- Balanced lexemes
----------------------------------------------------------------------------------------------

namespace Balanced

variable {lexemes others : List Lexeme}

theorem append (balanced : Balanced lexemes) (next : Balanced others)
    : Balanced (lexemes ++ others) := by
  induction balanced with
  | nil => exact next
  | atom text _ ih => exact .atom text ih
  | list items _ _ ih => simpa using items.list ih

theorem allOpened (balanced : Balanced lexemes) : AllOpened lexemes := by
  induction balanced with
  | nil => exact fun before after splits => absurd splits (by simp)
  | atom text _ ih => exact ih.cons (by simp)
  | @list inner _ items _ itemsOpened ih =>
      have inside : AllOpened (.openParen :: inner) := itemsOpened.cons (by simp)
      exact inside.close ⟨[], inner, rfl, items⟩ ih

theorem allClosed (balanced : Balanced lexemes) : AllClosed lexemes := by
  induction balanced with
  | nil => exact fun before after splits => absurd splits (by simp)
  | atom text _ ih => exact ih.cons (by simp)
  | @list inner rest items _ itemsClosed ih =>
      refine .cons (fun _ => ⟨inner, rest, rfl, items⟩) ?_
      exact itemsClosed.append (ih.cons (by simp))

/-- No closing parenthesis of balanced lexemes closes more than they open. A shortest exception
would hold a shorter one: its closing parenthesis has a partner, which closes something in front.
-/
theorem not_closed (balanced : Balanced lexemes) : ¬ Closed lexemes := by
  induction isLength : lexemes.length using Nat.strongRecOn generalizing lexemes with
  | ind length ih =>
      intro closed
      obtain ⟨inner, outer, rfl, innerBalanced⟩ := closed
      obtain ⟨front, last, rfl, lastBalanced⟩ := balanced.allOpened inner outer rfl
      have shorter : last.length < length := by
        simp only [List.length_append, List.length_cons] at isLength
        omega
      exact ih last.length shorter lastBalanced rfl (innerBalanced.allClosed front last rfl)

theorem not_opened (balanced : Balanced lexemes) : ¬ Opened lexemes := by
  intro opened
  obtain ⟨outer, inner, rfl, innerBalanced⟩ := opened
  exact innerBalanced.not_closed (balanced.allClosed outer inner rfl)

end Balanced

----------------------------------------------------------------------------------------------
-- Lexemes that are not balanced
----------------------------------------------------------------------------------------------

/-- Lexemes that are balanced but for lists that are open at their end. -/
inductive Pending : List Lexeme → Prop where
  | balanced {lexemes : List Lexeme} (balanced : Balanced lexemes) : Pending lexemes
  | opening {before inner : List Lexeme} (outer : Pending before) (items : Balanced inner)
    : Pending (before ++ .openParen :: inner)

namespace Pending

variable {lexemes others : List Lexeme}

theorem allOpened (pending : Pending lexemes) : AllOpened lexemes := by
  induction pending with
  | balanced balanced => exact balanced.allOpened
  | opening _ items ih => exact ih.append (items.allOpened.cons (by simp))

theorem prepend (pending : Pending lexemes) (front : Balanced others)
    : Pending (others ++ lexemes) := by
  induction pending with
  | balanced balanced => exact .balanced (front.append balanced)
  | opening _ items ih => simpa using ih.opening items

theorem enclosed (pending : Pending lexemes) : Pending (.openParen :: lexemes) := by
  induction pending with
  | balanced balanced => exact (Pending.balanced .nil).opening balanced
  | opening _ items ih => simpa using ih.opening items

end Pending

/-- Lexemes go on to their end, or to a closing parenthesis after something balanced; by induction
on their number, since what follows a list is shorter.
-/
theorem pending_or_unopened (lexemes : List Lexeme)
    : Pending lexemes
      ∨ ∃ before after, lexemes = before ++ .closeParen :: after ∧ Balanced before := by
  induction isLength : lexemes.length using Nat.strongRecOn generalizing lexemes with
  | ind length ih =>
      cases lexemes with
      | nil => exact .inl (.balanced .nil)
      | cons lexeme rest =>
          have shorter : rest.length < length := by
            simp only [List.length_cons] at isLength
            omega
          cases lexeme with
          | closeParen => exact .inr ⟨[], rest, rfl, .nil⟩
          | atom text =>
              rcases ih rest.length shorter rest rfl with pending | ⟨before, after, rfl, balanced⟩
              · exact .inl (pending.prepend (Balanced.nil.atom text))
              · exact .inr ⟨.atom text :: before, after, rfl, balanced.atom text⟩
          | openParen =>
              rcases ih rest.length shorter rest rfl with pending | ⟨inner, others, rfl, items⟩
              · exact .inl pending.enclosed
              · have stillShorter : others.length < length := by
                  simp only [List.length_append, List.length_cons] at shorter
                  omega
                rcases ih others.length stillShorter others rfl with
                  pending | ⟨before, after, rfl, balanced⟩
                · exact .inl (by simpa using pending.prepend (items.list .nil))
                · exact .inr ⟨_, after, by simp, items.list balanced⟩

----------------------------------------------------------------------------------------------
-- Grouping
----------------------------------------------------------------------------------------------

theorem Balanced.exists_forms {lexemes : List Lexeme} (balanced : Balanced lexemes)
    : ∃ forms, Form.lexemesAll forms = lexemes := by
  induction balanced with
  | nil => exact ⟨[], by simp⟩
  | atom text _ ih =>
      obtain ⟨forms, rfl⟩ := ih
      exact ⟨.atom text :: forms, by simp⟩
  | list _ _ items ih =>
      obtain ⟨inner, rfl⟩ := items
      obtain ⟨forms, rfl⟩ := ih
      exact ⟨.list inner :: forms, by simp⟩

section

variable {tokens : List Token}

/-- Balanced tokens are grouped to items that keep them all, and grouping goes on behind them. -/
theorem Balanced.group (balanced : Balanced (tokens.map Token.lexeme))
    : ∃ grouped,
        Sexp.flattenAll grouped = tokens.map Token.kept
        ∧ ∀ rest items openings,
            Source.group (tokens ++ rest) items openings
            = Source.group rest (grouped.reverse ++ items) openings := by
  obtain ⟨forms, spelled⟩ := balanced.exists_forms
  obtain ⟨grouped, _, keeps, groups⟩ := group_forms forms spelled.symm
  exact ⟨grouped, keeps, groups⟩

/-- Grouping gets past tokens whose closing parentheses have partners. -/
theorem Pending.group (pending : Pending (tokens.map Token.lexeme)) (items : List Sexp)
    (openings : List Opening)
    : ∃ laterItems laterOpenings,
        ∀ rest,
          Source.group (tokens ++ rest) items openings
          = Source.group rest laterItems laterOpenings := by
  generalize spelled : tokens.map Token.lexeme = lexemes at pending
  induction pending generalizing tokens with
  | balanced balanced =>
      subst spelled
      obtain ⟨grouped, _, groups⟩ := balanced.group
      exact ⟨_, _, fun rest => groups rest items openings⟩
  | opening _ inside ih =>
      obtain ⟨outer, others, rfl, spelledOuter, spelledOthers⟩ := List.map_eq_append_iff.mp spelled
      obtain ⟨⟨lexeme, line⟩, inner, rfl, isOpen, rfl⟩ := List.map_eq_cons_iff.mp spelledOthers
      obtain rfl : lexeme = .openParen := isOpen
      obtain ⟨outerItems, outerOpenings, outerGroups⟩ := ih spelledOuter
      obtain ⟨grouped, _, groups⟩ := inside.group
      refine ⟨grouped.reverse ++ [], ⟨outerItems, line⟩ :: outerOpenings, fun rest => ?_⟩
      rw [List.append_assoc, outerGroups, List.cons_append, Source.group, groups]

theorem group_balanced (balanced : Balanced (tokens.map Token.lexeme))
    : ∃ forest,
        Source.group tokens [] [] = .ok forest
        ∧ Sexp.flattenAll forest = tokens.map Token.kept := by
  obtain ⟨grouped, keeps, groups⟩ := balanced.group
  refine ⟨grouped, ?_, keeps⟩
  have finished := groups [] [] []
  rw [List.append_nil, List.append_nil, Source.group, List.reverse_reverse] at finished
  exact finished

/-- The first closing parenthesis without a partner is reported. -/
theorem group_unopened {before after : List Token} {line : Nat}
    (balanced : Balanced (before.map Token.lexeme))
    : Source.group (before ++ ⟨.closeParen, line⟩ :: after) [] []
      = .error ⟨line, .unexpectedClose⟩ := by
  obtain ⟨grouped, _, groups⟩ := balanced.group
  rw [groups, Source.group]

/-- If all closing parentheses have partners, the last opening one without a partner is reported.
-/
theorem group_unclosed {before after : List Token} {line : Nat}
    (pending : Pending (before.map Token.lexeme)) (balanced : Balanced (after.map Token.lexeme))
    : Source.group (before ++ ⟨.openParen, line⟩ :: after) [] [] = .error ⟨line, .unclosed⟩ := by
  obtain ⟨items, openings, passes⟩ := pending.group [] []
  obtain ⟨grouped, _, groups⟩ := balanced.group
  rw [passes, Source.group, ← List.append_nil after, groups, Source.group]

end

end TreeTiling.Source
