import Mathlib.Algebra.GroupWithZero.Nat
import TreeTiling.Proofs.Instr.Splicing

/-!
Rendering with indices in machine words.

The index of a place is a number of any size. A renderer that counts it up in a word of 64 bits,
digit by digit, cannot go on where the count does not fit. It also counts digits that follow a
backtick without the letter of a slot, though nothing is asked for by that number.

Main statement: such a renderer gives the same text if all numbers behind backticks fit, and gives
none otherwise.
-/

namespace TreeTiling

----------------------------------------------------------------------------------------------
-- Counting in words
----------------------------------------------------------------------------------------------

namespace Template

/-- Counts digits up from a number, if no count on the way exceeds a word of 64 bits. -/
def countFrom? (count : Nat) : List Char → Option Nat
  | [] => some count
  | digit :: rest =>
      let next := 10 * count + (digit.toNat - '0'.toNat)
      if next < 2 ^ 64 then countFrom? next rest else none

theorem le_ofDigitChars (digits : List Char) (count : Nat)
    : count ≤ Nat.ofDigitChars 10 digits count := by
  induction digits generalizing count with
  | nil => exact Nat.le_refl count
  | cons digit rest ih =>
      rw [Nat.ofDigitChars_cons]
      exact Nat.le_trans (by omega) (ih _)

/-- The count comes to an end exactly if the whole number fits, since no count on the way is more.
-/
theorem countFrom?_eq (digits : List Char) {count : Nat} (small : count < 2 ^ 64)
    : countFrom? count digits
      = if Nat.ofDigitChars 10 digits count < 2 ^ 64 then some (Nat.ofDigitChars 10 digits count)
        else none := by
  induction digits generalizing count with
  | nil => rw [countFrom?, Nat.ofDigitChars_nil, if_pos small]
  | cons digit rest ih =>
      rw [countFrom?, Nat.ofDigitChars_cons]
      by_cases fits : 10 * count + (digit.toNat - '0'.toNat) < 2 ^ 64
      · rw [if_pos fits, ih fits]
      · have more := le_ofDigitChars rest (10 * count + (digit.toNat - '0'.toNat))
        rw [if_neg fits, if_neg (by omega)]

----------------------------------------------------------------------------------------------
-- What stands behind a backtick
----------------------------------------------------------------------------------------------

/-- What stands behind a backtick: the letter of a slot, if one comes first, then digits, and all
the rest.
-/
structure Opened where
  slot : Option Slot
  digits : List Char
  rest : List Char

namespace Opened

/-- What belongs to the backtick, as it is written. -/
def own (found : Opened) : List Char :=
  (found.slot.map Slot.letter).toList ++ found.digits

/-- The slot that is asked for an operand; there has to be a number, too. -/
def asked? (found : Opened) : Option Slot :=
  if found.digits = [] then none else found.slot

def number (found : Opened) : Nat :=
  Nat.ofDigitChars 10 found.digits 0

end Opened

/-- Takes what stands behind a backtick apart. -/
def opened : List Char → Opened
  | [] => ⟨none, [], []⟩
  | letter :: rest =>
      match Slot.ofLetter? letter with
      | some slot => ⟨some slot, rest.takeWhile Char.isDigit, rest.dropWhile Char.isDigit⟩
      | none =>
          ⟨none, (letter :: rest).takeWhile Char.isDigit, (letter :: rest).dropWhile Char.isDigit⟩

theorem own_append_rest (template : List Char)
    : (opened template).own ++ (opened template).rest = template := by
  unfold opened
  split
  · rfl
  · split
    · next slot found => simp [Opened.own, Slot.letter_of_ofLetter? found]
    · simp [Opened.own]

theorem length_rest_le (template : List Char)
    : (opened template).rest.length ≤ template.length := by
  have parts := congrArg List.length (own_append_rest template)
  rw [List.length_append] at parts
  omega

/-- Nothing that belongs to a backtick is one. -/
theorem plain_own (template : List Char) : '\x60' ∉ (opened template).own := by
  have plainDigits (chars : List Char) : '\x60' ∉ chars.takeWhile Char.isDigit := by
    intro member
    cases List.all_eq_true.mp List.all_takeWhile _ member
  unfold opened
  split
  · exact List.not_mem_nil
  · split
    · next slot _ =>
        have plainLetter : '\x60' ≠ slot.letter := by cases slot <;> decide
        simp [Opened.own, plainDigits, plainLetter]
    · simp only [Opened.own, Option.map_none, Option.toList_none, List.nil_append]
      exact plainDigits _

/-- A place begins with a backtick behind which a slot is asked for an operand. -/
theorem place?_backtick (template : List Char)
    : place? ('\x60' :: template)
      = (opened template).asked?.map fun slot =>
          (slot, (opened template).digits, (opened template).rest) := by
  cases template with
  | nil => rfl
  | cons letter rest =>
      rw [place?, opened]
      cases Slot.ofLetter? letter with
      | none => simp [Opened.asked?]
      | some slot => cases digits : rest.takeWhile Char.isDigit <;> simp [Opened.asked?]

----------------------------------------------------------------------------------------------
-- Numbers of a template
----------------------------------------------------------------------------------------------

/-- The numbers behind the backticks of a template, with or without the letter of a slot between. -/
def numbers : List Char → List Nat
  | [] => []
  | c :: rest => if c = '\x60' then (opened rest).number :: numbers rest else numbers rest

/-- No number behind a backtick exceeds a word of 64 bits. -/
def Fits (template : List Char) : Prop :=
  ∀ number ∈ numbers template, number < 2 ^ 64

instance (template : List Char) : Decidable (Fits template) :=
  inferInstanceAs (Decidable (∀ number ∈ numbers template, number < 2 ^ 64))

theorem numbers_plain {front : List Char} (plain : '\x60' ∉ front) (template : List Char)
    : numbers (front ++ template) = numbers template := by
  induction front with
  | nil => rfl
  | cons c front ih =>
      rw [List.mem_cons, not_or] at plain
      rw [List.cons_append, numbers, if_neg (Ne.symm plain.1), ih plain.2]

theorem numbers_rest (template : List Char)
    : numbers (opened template).rest = numbers template := by
  nth_rewrite 2 [← own_append_rest template]
  rw [numbers_plain (plain_own template)]

theorem fits_text {c : Char} (ordinary : c ≠ '\x60') (template : List Char)
    : Fits (c :: template) ↔ Fits template := by
  rw [Fits, Fits, numbers, if_neg ordinary]

theorem fits_backtick (template : List Char)
    : Fits ('\x60' :: template)
      ↔ (opened template).number < 2 ^ 64 ∧ Fits (opened template).rest := by
  rw [Fits, Fits, numbers, if_pos rfl, List.forall_mem_cons, numbers_rest]

theorem number_append {rest : List Char} (separates : Separates rest) (template : List Char)
    : (opened (template ++ rest)).number = (opened template).number := by
  cases template with
  | nil =>
      cases rest with
      | nil => rfl
      | cons c others =>
          obtain ⟨noLetter, noDigit⟩ := separates c rfl
          simp [opened, Opened.number, noLetter, noDigit]
  | cons letter template =>
      have taken := fun chars => (digits_append separates.endsDigits chars).1
      rw [List.cons_append, opened, opened, ← List.cons_append]
      cases Slot.ofLetter? letter <;> simp only [Opened.number, taken]

/-- The numbers of a template in parts. -/
theorem numbers_append {rest : List Char} (separates : Separates rest) (template : List Char)
    : numbers (template ++ rest) = numbers template ++ numbers rest := by
  induction template with
  | nil => rfl
  | cons c template ih =>
      rw [List.cons_append, numbers, numbers, ih, number_append separates]
      split <;> rfl

/-- A name between plain text and a part that no place goes on with fits if it does on its own. -/
theorem Fits.spliced {front name back : List Char} (plain : '\x60' ∉ front)
    (separates : Separates back) (nameFits : Fits name) (backFits : Fits back)
    : Fits (front ++ name ++ back) := by
  rw [Fits, List.append_assoc, numbers_plain plain, numbers_append separates]
  exact List.forall_mem_append.mpr ⟨nameFits, backFits⟩

end Template

----------------------------------------------------------------------------------------------
-- The renderer
----------------------------------------------------------------------------------------------

namespace Instr

open Template

variable {instr : Instr} {naming : Temp → String}

/-- What a backtick and what belongs to it become, if the number is an index. -/
def openedText (instr : Instr) (naming : Temp → String) (found : Opened) (index : Nat)
    : List Char :=
  match found.asked?.bind fun slot => instr.operandText? naming slot index with
  | some operand => operand.toList
  | none => '\x60' :: found.own

/-- What a part of the template becomes, from left to right, with every number behind a backtick
counted in a word.
-/
def fillInWords? (instr : Instr) (naming : Temp → String) : List Char → Option (List Char)
  | [] => some []
  | c :: rest =>
      if c = '\x60' then do
        let index ← countFrom? 0 (opened rest).digits
        let others ← fillInWords? instr naming (opened rest).rest
        return instr.openedText naming (opened rest) index ++ others
      else do
        let others ← fillInWords? instr naming rest
        return c :: others
termination_by template => template.length
decreasing_by
  · exact Nat.lt_succ_of_le (length_rest_le rest)
  · exact Nat.lt_succ_self rest.length

/-- The instruction's text with every register named by `naming`, if a renderer that counts in words
comes to an end.
-/
def textInWords? (instr : Instr) (naming : Temp → String) : Option String :=
  (instr.fillInWords? naming instr.template.toList).map String.ofList

/-- A backtick either begins a place or stands for itself with all that belongs to it. -/
theorem fill_backtick (template : List Char)
    : instr.fill naming ('\x60' :: template)
      = instr.openedText naming (opened template) (opened template).number
        ++ instr.fill naming (opened template).rest := by
  have place := place?_backtick template
  cases asked : (opened template).asked? with
  | none =>
      rw [asked, Option.map_none] at place
      rw [fill, pieces_of_none place, openedText, asked, Option.bind_none, List.flatMap_cons]
      nth_rewrite 1 [← own_append_rest template]
      exact congrArg ('\x60' :: ·) (fill_plain (plain_own template) _)
  | some slot =>
      rw [asked, Option.map_some] at place
      have spelled := eq_of_place? place
      have own : '\x60' :: (opened template).own
          = '\x60' :: slot.letter :: (opened template).digits := by
        nth_rewrite 1 [← own_append_rest template] at spelled
        exact List.append_cancel_right spelled
      rw [fill, pieces_of_some place, List.flatMap_cons, pieceText, openedText, asked,
        Option.bind_some, own]
      rfl

/-- Counting in words makes no difference where all numbers fit, and has no result where one does
not. By induction on the template, as the renderer takes it.
-/
theorem fillInWords?_eq (template : List Char)
    : instr.fillInWords? naming template
      = if Fits template then some (instr.fill naming template) else none := by
  fun_induction fillInWords? instr naming template with
  | case1 =>
      rw [if_pos (by decide), fill, pieces]
      rfl
  | case2 rest ih =>
      rw [countFrom?_eq _ (by decide), ← Opened.number, ih, fill_backtick]
      by_cases small : (opened rest).number < 2 ^ 64
      · rw [if_pos small]
        by_cases fits : Fits (opened rest).rest
        · rw [if_pos fits, if_pos ((fits_backtick rest).mpr ⟨small, fits⟩)]
          rfl
        · rw [if_neg fits, if_neg fun whole => fits ((fits_backtick rest).mp whole).2]
          rfl
      · rw [if_neg small, if_neg fun whole => small ((fits_backtick rest).mp whole).1]
        rfl
  | case3 c rest ordinary ih =>
      have same : instr.fill naming (c :: rest) = c :: instr.fill naming rest :=
        fill_plain (List.mem_singleton.not.mpr (Ne.symm ordinary)) rest
      rw [ih, same]
      by_cases fits : Fits rest <;> simp [fits_text ordinary, fits]

/-- A renderer that counts in words gives the text of an instruction if all numbers in its template
fit, and none otherwise.
-/
theorem textInWords?_eq (instr : Instr) (naming : Temp → String)
    : instr.textInWords? naming
      = if Fits instr.template.toList then some (instr.textWith naming) else none := by
  rw [textInWords?, fillInWords?_eq]
  split <;> rfl

-- The first number that is too large is counted also where no letter of a slot stands before it.
example : Fits "`18446744073709551615".toList ∧ ¬ Fits "`18446744073709551616".toList := by
  decide

end Instr

end TreeTiling
