import Mathlib.Data.List.Induction
import TreeTiling.Proofs.Instr.Splicing
import TreeTiling.Proofs.Source.Numerals

/-!
Rendering as substitution.

A template can be cut into places and other text in one way only, and each piece becomes one text.
An instruction's text is what its pieces become, in order. What a place becomes is not cut again,
so the names of registers and labels may hold anything.
-/

namespace TreeTiling

----------------------------------------------------------------------------------------------
-- Decimal numbers with leading zeros
----------------------------------------------------------------------------------------------

namespace Numeral

theorem ofDigitChars_padded (zeros number : Nat)
    : Nat.ofDigitChars 10 (padded 10 zeros number) 0 = number := by
  simp [padded, Nat.ofDigitChars_append, Nat.ofDigitChars_replicate_zero]

theorem exists_digitChar {c : Char} (isDigit : c.isDigit = true)
    : ∃ digit < 10, c = digit.digitChar := by
  have bounds : 48 ≤ c.toNat ∧ c.toNat ≤ 57 := by
    simpa [Char.isDigit, UInt32.le_iff_toNat_le] using isDigit
  have chars : ∀ digit < 10, Char.ofNat (digit + 48) = digit.digitChar := by decide
  refine ⟨c.toNat - 48, by omega, ?_⟩
  rw [← chars _ (by omega), Nat.sub_add_cancel bounds.1, Char.ofNat_toNat]

/-- A run of digits is a number with zeros before it; by induction on the run, the last digit off. -/
theorem exists_padded {digits : List Char} (isNumber : digits ≠ [])
    (allDigits : ∀ digit ∈ digits, digit.isDigit = true)
    : ∃ zeros number, digits = padded 10 zeros number := by
  induction digits using List.reverseRecOn with
  | nil => exact absurd rfl isNumber
  | append_singleton front last ih =>
      obtain ⟨frontDigits, lastDigit⟩ := List.forall_mem_append.mp allDigits
      obtain ⟨digit, small, rfl⟩ := exists_digitChar (lastDigit last List.mem_cons_self)
      have single : Nat.toDigits 10 digit = [digit.digitChar] := Nat.toDigits_of_lt_base small
      by_cases isEmpty : front = []
      · exact ⟨0, digit, by simp [isEmpty, padded, single]⟩
      · obtain ⟨zeros, number, rfl⟩ := ih isEmpty frontDigits
        rcases Nat.eq_zero_or_pos number with rfl | positive
        · refine ⟨zeros + 1, digit, ?_⟩
          simp [padded, single, List.replicate_succ']
        · refine ⟨zeros, 10 * number + digit, ?_⟩
          rw [padded, padded, ← Nat.toDigits_append_toDigits (by decide) positive small, single,
            List.append_assoc]

end Numeral

----------------------------------------------------------------------------------------------
-- The one way to cut a template
----------------------------------------------------------------------------------------------

namespace Template

/-- A place begins here: a backtick, the letter of a slot and a digit. -/
def OpensPlace (template : List Char) : Prop :=
  ∃ slot digit rest,
    Char.isDigit digit = true ∧ template = '\x60' :: Slot.letter slot :: digit :: rest

/-- A template is cut from left to right. A place has all the digits that follow its letter, at
least one; where no place begins, a character stands for itself.
-/
inductive Cut : List Char → List Piece → Prop where
  | nil : Cut [] []
  | place (slot : Slot) {digits template : List Char} {pieces : List Piece}
    (isNumber : digits ≠ []) (allDigits : ∀ digit ∈ digits, digit.isDigit = true)
    (ends : EndsDigits template) (rest : Cut template pieces)
    : Cut ('\x60' :: slot.letter :: (digits ++ template)) (.place slot digits :: pieces)
  | text {character : Char} {template : List Char} {pieces : List Piece}
    (plain : ¬ OpensPlace (character :: template)) (rest : Cut template pieces)
    : Cut (character :: template) (.text character :: pieces)

/-- A place that is found has digits, and all of them. -/
theorem digits_of_place? {template : List Char} {slot : Slot} {digits rest : List Char}
    (found : place? template = some (slot, digits, rest))
    : digits ≠ [] ∧ (∀ digit ∈ digits, digit.isDigit = true) ∧ EndsDigits rest := by
  unfold place? at found
  split at found
  · next letter after =>
      split at found
      · next first others _ taken =>
          simp only [Option.some.injEq, Prod.mk.injEq] at found
          obtain ⟨-, rfl, rfl⟩ := found
          refine ⟨List.cons_ne_nil _ _, ?_, ?_⟩
          · rw [← taken]
            exact List.all_eq_true.mp List.all_takeWhile
          · have stops := List.head?_dropWhile_not Char.isDigit after
            unfold EndsDigits
            cases next : (after.dropWhile Char.isDigit).head? with
            | none => rfl
            | some c =>
                rw [next] at stops
                simpa using stops
      · cases found
  · cases found

/-- No place is found exactly where none begins. -/
theorem place?_eq_none_iff {template : List Char}
    : place? template = none ↔ ¬ OpensPlace template := by
  constructor
  · rintro missing ⟨slot, digit, rest, isDigit, rfl⟩
    rw [place?, Slot.ofLetter?_letter, List.takeWhile_cons_of_pos isDigit] at missing
    cases missing
  · intro plain
    cases found : place? template with
    | none => rfl
    | some place =>
        obtain ⟨slot, digits, rest⟩ := place
        obtain ⟨isNumber, allDigits, -⟩ := digits_of_place? found
        obtain ⟨first, others, rfl⟩ := List.exists_cons_of_ne_nil isNumber
        have opens : OpensPlace template :=
          ⟨slot, first, others ++ rest, allDigits first List.mem_cons_self, eq_of_place? found⟩
        exact absurd opens plain

/-- The pieces of a template are a way to cut it. -/
theorem cut_pieces (template : List Char) : Cut template (pieces template) := by
  fun_induction pieces template with
  | case1 => exact .nil
  | case2 character rest slot digits after found _ ih =>
      obtain ⟨isNumber, allDigits, ends⟩ := digits_of_place? found
      rw [eq_of_place? found]
      exact .place slot isNumber allDigits ends ih
  | case3 character rest missing ih => exact .text (place?_eq_none_iff.mp missing) ih

/-- There is no other way to cut a template; by induction on the cut. -/
theorem Cut.eq_pieces {template : List Char} {cut : List Piece} (isCut : Cut template cut)
    : cut = pieces template := by
  induction isCut with
  | nil => rw [pieces]
  | place slot isNumber allDigits ends _ ih => rw [pieces_place slot isNumber allDigits ends, ih]
  | text plain _ ih => rw [pieces_of_none (place?_eq_none_iff.mpr plain), ih]

end Template

----------------------------------------------------------------------------------------------
-- What pieces become
----------------------------------------------------------------------------------------------

namespace Instr

open Template (Cut Piece cut_pieces pieces source_pieces)
open Numeral (padded)

variable {instr : Instr} {naming : Temp → String}

/-- What a piece becomes: text stays, and a place with a number becomes the operand with that number
in the list of its slot, or stays as it is written if the list ends before.
-/
inductive Becomes (instr : Instr) (naming : Temp → String) : Piece → List Char → Prop where
  | text (character : Char) : Becomes instr naming (.text character) [character]
  | written (zeros : Nat) {index : Nat} {register : Temp}
    (found : instr.defs[index]? = some register)
    : Becomes instr naming (.place .written (padded 10 zeros index)) (naming register).toList
  | read (zeros : Nat) {index : Nat} {register : Temp}
    (found : instr.uses[index]? = some register)
    : Becomes instr naming (.place .read (padded 10 zeros index)) (naming register).toList
  | target (zeros : Nat) {index : Nat} {label : Label}
    (found : instr.jumps[index]? = some label)
    : Becomes instr naming (.place .target (padded 10 zeros index)) label.name.toList
  | beyond (slot : Template.Slot) (zeros : Nat) {index : Nat}
    (outside : instr.operandCount slot ≤ index)
    : Becomes instr naming (.place slot (padded 10 zeros index))
        ('\x60' :: slot.letter :: padded 10 zeros index)

theorem operandText?_eq_none {slot : Template.Slot} {index : Nat}
    (outside : instr.operandCount slot ≤ index)
    : instr.operandText? naming slot index = none :=
  Option.eq_none_iff_forall_ne_some.mpr
    fun _ found => Nat.not_lt.mpr outside (lt_operandCount found)

/-- A piece becomes nothing but its text. -/
theorem Becomes.eq_pieceText {piece : Piece} {text : List Char}
    (becomes : instr.Becomes naming piece text)
    : text = instr.pieceText naming piece := by
  cases becomes with
  | text character => rfl
  | written _ found | read _ found | target _ found =>
      simp [pieceText, Numeral.ofDigitChars_padded, operandText?, found]
  | beyond slot _ outside =>
      simp [pieceText, Numeral.ofDigitChars_padded, operandText?_eq_none outside, Piece.source]

/-- A place becomes something, whatever its number. -/
theorem exists_becomes (instr : Instr) (naming : Temp → String) (slot : Template.Slot)
    (zeros index : Nat)
    : ∃ text, instr.Becomes naming (.place slot (padded 10 zeros index)) text := by
  by_cases inside : index < instr.operandCount slot
  · cases slot with
    | written => exact ⟨_, .written zeros (List.getElem?_eq_getElem inside)⟩
    | read => exact ⟨_, .read zeros (List.getElem?_eq_getElem inside)⟩
    | target => exact ⟨_, .target zeros (List.getElem?_eq_getElem inside)⟩
  · exact ⟨_, .beyond slot zeros (Nat.not_lt.mp inside)⟩

/-- Each piece of a cut becomes its text. -/
theorem becomes_of_cut {template : List Char} {cut : List Piece} (isCut : Cut template cut)
    : List.Forall₂ (instr.Becomes naming) cut (cut.map (instr.pieceText naming)) := by
  induction isCut with
  | nil => exact .nil
  | place slot isNumber allDigits _ _ ih =>
      obtain ⟨zeros, index, rfl⟩ := Numeral.exists_padded isNumber allDigits
      obtain ⟨text, becomes⟩ := instr.exists_becomes naming slot zeros index
      rw [becomes.eq_pieceText] at becomes
      exact .cons becomes ih
  | text _ _ ih => exact .cons (.text _) ih

theorem texts_eq {cut : List Piece} {texts : List (List Char)}
    (becomes : List.Forall₂ (instr.Becomes naming) cut texts)
    : texts = cut.map (instr.pieceText naming) := by
  induction becomes with
  | nil => rfl
  | cons first _ ih => rw [List.map_cons, ← ih, ← first.eq_pieceText]

----------------------------------------------------------------------------------------------
-- Rendering
----------------------------------------------------------------------------------------------

/-- An instruction without operands keeps every template as it is. -/
theorem keeps_of_no_operands (noDefs : instr.defs = []) (noUses : instr.uses = [])
    (noJumps : instr.jumps = []) (template : String)
    : instr.Keeps template := by
  intro piece _ draws
  cases piece with
  | text character => exact draws
  | place slot digits => cases slot <;> simp [Draws, operandCount, noDefs, noUses, noJumps] at draws

/-- The instruction with its registers renamed. -/
def rename (newName : Temp → Temp) : Instr → Instr
  | oper template defs uses jumps fallsThrough =>
      oper template (defs.map newName) (uses.map newName) jumps fallsThrough
  | move template dst src => move template (newName dst) (newName src)
  | label template name => label template name

@[simp]
theorem template_rename (newName : Temp → Temp) (instr : Instr)
    : (instr.rename newName).template = instr.template := by
  cases instr <;> rfl

@[simp]
theorem defs_rename (newName : Temp → Temp) (instr : Instr)
    : (instr.rename newName).defs = instr.defs.map newName := by
  cases instr <;> rfl

@[simp]
theorem uses_rename (newName : Temp → Temp) (instr : Instr)
    : (instr.rename newName).uses = instr.uses.map newName := by
  cases instr <;> rfl

@[simp]
theorem jumps_rename (newName : Temp → Temp) (instr : Instr)
    : (instr.rename newName).jumps = instr.jumps := by
  cases instr <;> rfl

/-- A renamed register has the name of its new name. -/
theorem operandText?_rename (newName : Temp → Temp) (instr : Instr) (naming : Temp → String)
    (slot : Template.Slot) (index : Nat)
    : (instr.rename newName).operandText? naming slot index
      = instr.operandText? (naming ∘ newName) slot index := by
  cases slot <;> simp [operandText?]

theorem pieceText_rename (newName : Temp → Temp) (instr : Instr) (naming : Temp → String)
    : (instr.rename newName).pieceText naming = instr.pieceText (naming ∘ newName) := by
  funext piece
  cases piece with
  | text character => rfl
  | place slot digits => rw [pieceText, pieceText, operandText?_rename]

/-- Rendering is substitution. There is one way to cut the template, each piece becomes one text, and
the instruction's text is those texts in order. So the text is the template if there are no operands,
and renaming the registers is the same as naming them by other names.
-/
theorem textWith_substitutes (instr : Instr) (naming : Temp → String)
    : (∃! cut, Cut instr.template.toList cut)
      ∧ (∀ cut,
          Cut instr.template.toList cut
          → (∃! texts, List.Forall₂ (instr.Becomes naming) cut texts)
            ∧ ∀ texts,
                List.Forall₂ (instr.Becomes naming) cut texts
                → instr.textWith naming = String.ofList texts.flatten)
      ∧ (instr.defs = []
          → instr.uses = []
          → instr.jumps = []
          → instr.textWith naming = instr.template)
      ∧ ∀ newName : Temp → Temp,
          (instr.rename newName).textWith naming = instr.textWith (naming ∘ newName) := by
  refine ⟨⟨_, cut_pieces _, fun _ => Cut.eq_pieces⟩, ?_, ?_, ?_⟩
  · intro cut isCut
    refine ⟨⟨_, becomes_of_cut isCut, fun _ => texts_eq⟩, ?_⟩
    intro texts becomes
    rw [texts_eq becomes, isCut.eq_pieces, textWith, List.flatMap_def]
  · intro noDefs noUses noJumps
    have kept : instr.fill naming instr.template.toList = instr.template.toList :=
      (keeps_of_no_operands noDefs noUses noJumps instr.template).fill
    rw [textWith, ← fill, kept, String.ofList_toList]
  · intro newName
    rw [textWith, textWith, template_rename, pieceText_rename]

/-- A template with places next to each other, in and out of range, and backticks that open none. The
second register read has the name of a place.
-/
def crowded : Instr :=
  .branch "``s0`s01,`j0`d7`s" [.virtual 2, .fixed "`s0"] [⟨"L"⟩]

def crowdedCut : List Piece :=
  [.text '\x60', .place .read ['0'], .place .read ['0', '1'], .text ',', .place .target ['0'],
    .place .written ['7'], .text '\x60', .text 's']

theorem crowded_substituted
    : Cut crowded.template.toList crowdedCut
      ∧ crowded.textWith Temp.text = "`t2`s0,L`d7`s"
      ∧ (crowded.rename fun _ => .virtual 5).textWith Temp.text = "`t5t5,L`d7`s"
      ∧ (Instr.leave "ret `d0" []).textWith Temp.text = "ret `d0" := by
  have isCut : Cut crowded.template.toList crowdedCut := by
    refine .text (Template.place?_eq_none_iff.mp rfl) ?_
    refine .place .read (List.cons_ne_nil '0' []) (List.all_eq_true.mp rfl) (by decide) ?_
    refine .place .read (List.cons_ne_nil '0' ['1']) (List.all_eq_true.mp rfl) (by decide) ?_
    refine .text (Template.place?_eq_none_iff.mp rfl) ?_
    refine .place .target (List.cons_ne_nil '0' []) (List.all_eq_true.mp rfl) (by decide) ?_
    refine .place .written (List.cons_ne_nil '7' []) (List.all_eq_true.mp rfl) (by decide) ?_
    refine .text (Template.place?_eq_none_iff.mp rfl) ?_
    refine .text (Template.place?_eq_none_iff.mp rfl) ?_
    exact .nil
  have becomes (naming : Temp → String)
      : List.Forall₂ (crowded.Becomes naming) crowdedCut
          [['\x60'], (naming (.virtual 2)).toList, (naming (.fixed "`s0")).toList, [','], ['L'],
            ['\x60', 'd', '7'], ['\x60'], ['s']] := by
    have first : crowded.uses[0]? = some (.virtual 2) := rfl
    have second : crowded.uses[1]? = some (.fixed "`s0") := rfl
    have label : crowded.jumps[0]? = some ⟨"L"⟩ := rfl
    have outside : crowded.operandCount .written ≤ 7 := Nat.zero_le 7
    refine .cons (.text _) (.cons (.read 0 first) (.cons (.read 1 second) (.cons (.text _) ?_)))
    refine .cons (.target 0 label) (.cons (.beyond .written 0 outside) (.cons (.text _) ?_))
    exact .cons (.text _) .nil
  refine ⟨isCut, ?_, ?_, ?_⟩
  · exact ((textWith_substitutes crowded Temp.text).2.1 _ isCut).2 _ (becomes _)
  · rw [(textWith_substitutes crowded Temp.text).2.2.2]
    exact ((textWith_substitutes crowded _).2.1 _ isCut).2 _ (becomes _)
  · exact (textWith_substitutes (.leave "ret `d0" []) Temp.text).2.2.1 rfl rfl rfl

end Instr

end TreeTiling
