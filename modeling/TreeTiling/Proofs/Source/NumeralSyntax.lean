import Mathlib.Algebra.GroupWithZero.Nat
import Mathlib.Data.Int.ModEq
import Mathlib.Data.List.Induction
import TreeTiling.Proofs.Source.Numerals

/-!
The syntax of numerals, and that exactly the numerals are read.

What digits denote is said from the left: each further digit multiplies the number before it by the
base and adds its own value. A decimal numeral stands for the integer it denotes or, where no signed
word is that integer, for nothing. A hexadecimal one stands for the word that is congruent to the
integer it denotes.
-/

namespace TreeTiling.Numeral

----------------------------------------------------------------------------------------------
-- Syntax
----------------------------------------------------------------------------------------------

/-- One or more digits of a base, with letters of either case, denote a number. -/
inductive Denotes (base : Nat) : List Char → Nat → Prop where
  | digit {c : Char} {value : Nat} (small : value < base) (spelt : c.toLower = value.digitChar)
    : Denotes base [c] value
  | append {digits : List Char} {number : Nat} {c : Char} {value : Nat}
    (front : Denotes base digits number) (small : value < base)
    (spelt : c.toLower = value.digitChar)
    : Denotes base (digits ++ [c]) (number * base + value)

/-- A decimal numeral for an integer: digits after a sign, which may be left out. -/
inductive IsDecimal : List Char → Int → Prop where
  | plain {digits : List Char} {number : Nat} (denotes : Denotes 10 digits number)
    : IsDecimal digits number
  | plus {digits : List Char} {number : Nat} (denotes : Denotes 10 digits number)
    : IsDecimal ('+' :: digits) number
  | minus {digits : List Char} {number : Nat} (denotes : Denotes 10 digits number)
    : IsDecimal ('-' :: digits) (-number)

/-- Hexadecimal digits after a plus sign, which may be left out, for a number of at most 64 bits. -/
inductive IsMagnitude : List Char → Nat → Prop where
  | plain {digits : List Char} {number : Nat} (denotes : Denotes 16 digits number)
    (fits : number < 2 ^ 64)
    : IsMagnitude digits number
  | plus {digits : List Char} {number : Nat} (denotes : Denotes 16 digits number)
    (fits : number < 2 ^ 64)
    : IsMagnitude ('+' :: digits) number

/-- A hexadecimal numeral for an integer: a magnitude after `0x` or `-0x`. -/
inductive IsHexadecimal : List Char → Int → Prop where
  | plain {text : List Char} {number : Nat} (magnitude : IsMagnitude text number)
    : IsHexadecimal ('0' :: 'x' :: text) number
  | minus {text : List Char} {number : Nat} (magnitude : IsMagnitude text number)
    : IsHexadecimal ('-' :: '0' :: 'x' :: text) (-number)

----------------------------------------------------------------------------------------------
-- Digits
----------------------------------------------------------------------------------------------

theorem isDigit_iff {c : Char} : c.isDigit = true ↔ 48 ≤ c.toNat ∧ c.toNat ≤ 57 := by
  simp [Char.isDigit, UInt32.le_iff_toNat_le]

/-- A hexadecimal digit is read as the value that it spells in either case. -/
theorem hexDigit?_eq_some_iff {c : Char} {value : Nat}
    : hexDigit? c = some value ↔ value < 16 ∧ c.toLower = value.digitChar := by
  constructor
  · intro read
    have ascii : c.toNat < 128 := by
      unfold hexDigit? at read
      split at read
      · next isDigit =>
          have bounds := isDigit_iff.mp isDigit
          omega
      · split at read
        · next range =>
            have le : c.toNat ≤ 102 := range.2
            omega
        · split at read
          · next range =>
              have le : c.toNat ≤ 70 := range.2
              omega
          · cases read
    have table : ∀ code < 128,
        (hexDigit? (Char.ofNat code)).all (fun value =>
          decide (value < 16) && (Char.ofNat code).toLower == value.digitChar) = true := by
      decide
    have here := table c.toNat ascii
    rw [Char.ofNat_toNat, read] at here
    simpa using here
  · rintro ⟨small, spelt⟩
    have digits : ∀ value < 16, hexDigit? value.digitChar = some value := by decide
    rw [← hexDigit?_toLower, spelt]
    exact digits value small

/-- A decimal digit is a hexadecimal one with a small value. -/
theorem decimalDigit?_eq_filter (c : Char)
    : decimalDigit? c = (hexDigit? c).filter fun value => decide (value < 10) := by
  unfold decimalDigit? hexDigit?
  split
  · next isDigit =>
      have bounds := isDigit_iff.mp isDigit
      have zero : '0'.toNat = 48 := rfl
      have small : c.toNat - '0'.toNat < 10 := by omega
      rw [Option.filter_some, if_pos (decide_eq_true small)]
  · split
    · rw [Option.filter_some_neg (by simp)]
    · split
      · rw [Option.filter_some_neg (by simp)]
      · rfl

theorem decimalDigit?_eq_some_iff {c : Char} {value : Nat}
    : decimalDigit? c = some value ↔ value < 10 ∧ c.toLower = value.digitChar := by
  rw [decimalDigit?_eq_filter, Option.filter_eq_some_iff, hexDigit?_eq_some_iff, decide_eq_true_eq]
  constructor
  · rintro ⟨⟨-, spelt⟩, small⟩
    exact ⟨small, spelt⟩
  · rintro ⟨small, spelt⟩
    exact ⟨⟨by omega, spelt⟩, small⟩

section

variable {base : Nat} {digit? : Char → Option Nat}

/-- One more digit on the right. -/
theorem digitsFrom?_concat (digits : List Char) (c : Char)
    : digitsFrom? base digit? 0 (digits ++ [c])
      = (digitsFrom? base digit? 0 digits).bind fun number =>
          (digit? c).map (number * base + ·) := by
  rw [digitsFrom?_append]
  congr 1
  funext number
  rw [digitsFrom?]
  cases digit? c with
  | none => rfl
  | some value => rfl

theorem digits?_eq_digitsFrom? {digits : List Char} (nonempty : digits ≠ [])
    : digits? base digit? digits = digitsFrom? base digit? 0 digits := by
  cases digits with
  | nil => exact absurd rfl nonempty
  | cons c rest => rfl

/-- Digits are read as the number that they denote, and texts that denote none are not read; by
induction on the digits, the last digit off.
-/
theorem digits?_eq_some_iff
    (digits
      : ∀ {c : Char} {value : Nat},
          digit? c = some value ↔ value < base ∧ c.toLower = value.digitChar)
    {text : List Char} {number : Nat}
    : digits? base digit? text = some number ↔ Denotes base text number := by
  constructor
  · intro read
    induction text using List.reverseRecOn generalizing number with
    | nil => cases read
    | append_singleton front c ih =>
        rw [digits?_eq_digitsFrom? (by simp), digitsFrom?_concat] at read
        obtain ⟨before, frontRead, last⟩ := Option.bind_eq_some_iff.mp read
        obtain ⟨value, isValue, rfl⟩ := Option.map_eq_some_iff.mp last
        obtain ⟨small, spelt⟩ := digits.mp isValue
        by_cases empty : front = []
        · subst front
          obtain rfl := Option.some.inj frontRead
          simpa using Denotes.digit small spelt
        · rw [← digits?_eq_digitsFrom? empty] at frontRead
          exact .append (ih frontRead) small spelt
  · intro denotes
    induction denotes with
    | @digit c value small spelt =>
        have isValue := digits.mpr ⟨small, spelt⟩
        simp [digits?, digitsFrom?, isValue]
    | @append front before c value denotes small spelt ih =>
        have isValue := digits.mpr ⟨small, spelt⟩
        have nonempty : front ≠ [] := by
          rintro rfl
          cases ih
        rw [digits?_eq_digitsFrom? nonempty] at ih
        rw [digits?_eq_digitsFrom? (by simp), digitsFrom?_concat, ih, isValue]
        rfl

end

theorem decimal_eq_some_iff {text : List Char} {number : Nat}
    : digits? 10 decimalDigit? text = some number ↔ Denotes 10 text number :=
  digits?_eq_some_iff decimalDigit?_eq_some_iff

theorem hex_eq_some_iff {text : List Char} {number : Nat}
    : digits? 16 hexDigit? text = some number ↔ Denotes 16 text number :=
  digits?_eq_some_iff hexDigit?_eq_some_iff

----------------------------------------------------------------------------------------------
-- Numerals
----------------------------------------------------------------------------------------------

/-- Digits for a number of a kind, read as an integer that depends on the number. -/
theorem signedDigits_eq_some_iff {digits : List Char} {fits : Nat → Bool} {sign : Int → Int}
    {number : Int}
    : (((digits? 10 decimalDigit? digits).filter fits : Option Nat) : Option Int).map sign
        = some number
      ↔ ∃ magnitude : Nat,
          Denotes 10 digits magnitude ∧ fits magnitude = true ∧ sign magnitude = number := by
  simp only [← decimal_eq_some_iff]
  cases digits? 10 decimalDigit? digits with
  | none => simp
  | some magnitude => cases holds : fits magnitude <;> simp [Option.filter_some, holds]

/-- A signed numeral is read if and only if a signed word can hold what it denotes. -/
theorem signed?_eq_some_iff {text : List Char} {number : Int}
    : signed? text = some number
      ↔ IsDecimal text number ∧ -2 ^ 63 ≤ number ∧ number < 2 ^ 63 := by
  have bound : signedBound = 2 ^ 63 := rfl
  constructor
  · intro read
    unfold signed? at read
    split at read
    · obtain ⟨magnitude, denotes, fits, rfl⟩ := signedDigits_eq_some_iff.mp read
      have le := of_decide_eq_true fits
      exact ⟨.minus denotes, by omega, by omega⟩
    · obtain ⟨magnitude, denotes, fits, rfl⟩ := signedDigits_eq_some_iff.mp read
      have lt := of_decide_eq_true fits
      exact ⟨.plus denotes, by omega, by omega⟩
    · obtain ⟨magnitude, denotes, fits, rfl⟩ := signedDigits_eq_some_iff.mp read
      have lt := of_decide_eq_true fits
      exact ⟨.plain denotes, by omega, by omega⟩
  · rintro ⟨isDecimal, lower, upper⟩
    cases isDecimal with
    | plain denotes => exact signed?_of_digits (decimal_eq_some_iff.mpr denotes) (by omega)
    | plus denotes =>
        exact signedDigits_eq_some_iff.mpr ⟨_, denotes, decide_eq_true (by omega), rfl⟩
    | minus denotes =>
        exact signedDigits_eq_some_iff.mpr ⟨_, denotes, decide_eq_true (by omega), rfl⟩

theorem magnitude?_eq_some_iff {text : List Char} {number : Nat}
    : magnitude? text = some number ↔ IsMagnitude text number := by
  constructor
  · intro read
    unfold magnitude? at read
    obtain ⟨digits, fits⟩ := Option.filter_eq_some_iff.mp read
    have small : number < 2 ^ 64 := of_decide_eq_true fits
    split at digits
    · exact .plus (hex_eq_some_iff.mp digits) small
    · exact .plain (hex_eq_some_iff.mp digits) small
  · intro magnitude
    cases magnitude with
    | plain denotes fits => exact magnitude?_of_hex (.inl rfl) (hex_eq_some_iff.mpr denotes) fits
    | plus denotes fits => exact magnitude?_of_hex (.inr rfl) (hex_eq_some_iff.mpr denotes) fits

/-- A word is the residue of an integer if and only if the two are congruent. -/
theorem ofInt_eq_iff_modEq {number : Int} {word : Word}
    : BitVec.ofInt 64 number = word ↔ word.toInt ≡ number [ZMOD 2 ^ 64] := by
  rw [← BitVec.toInt_inj, BitVec.toInt_ofInt]
  constructor
  · intro same
    rw [← same]
    exact Int.bmod_emod
  · intro congruent
    have lower : -2 ^ 63 ≤ word.toInt := BitVec.le_toInt word
    have upper : word.toInt < 2 ^ 63 := BitVec.toInt_lt
    have residue : word.toInt % (2 ^ 64 : Nat) = number % (2 ^ 64 : Nat) := congruent
    rw [← Int.emod_bmod, ← residue, Int.emod_bmod]
    exact Int.bmod_eq_of_le (by omega) (by omega)

/-- A text that is a decimal numeral is not taken for a hexadecimal one. -/
theorem word?_of_isDecimal {text : List Char} {number : Int} (isDecimal : IsDecimal text number)
    : word? text = (signed? text).map (BitVec.ofInt 64) := by
  cases isDecimal with
  | plain denotes => exact (word?_of_decimal (decimal_eq_some_iff.mpr denotes)).1
  | plus denotes => exact (word?_of_decimal (decimal_eq_some_iff.mpr denotes)).2.2
  | minus denotes => exact (word?_of_decimal (decimal_eq_some_iff.mpr denotes)).2.1

theorem word?_of_isHexadecimal {text : List Char} {number : Int}
    (isHexadecimal : IsHexadecimal text number)
    : word? text = some (BitVec.ofInt 64 number) := by
  cases isHexadecimal with
  | plain magnitude =>
      rw [word?, magnitude?_eq_some_iff.mpr magnitude, Option.map_some, BitVec.ofInt_natCast]
  | minus magnitude =>
      rw [word?, magnitude?_eq_some_iff.mpr magnitude, Option.map_some, BitVec.ofInt_neg,
        BitVec.ofInt_natCast]

/-- A text is read as a word if and only if it is a decimal numeral for the word's signed value, or
a hexadecimal numeral for an integer that is congruent to it.
-/
theorem word?_eq_some_iff {text : List Char} {word : Word}
    : word? text = some word
      ↔ IsDecimal text word.toInt
        ∨ ∃ number, IsHexadecimal text number ∧ word.toInt ≡ number [ZMOD 2 ^ 64] := by
  constructor
  · intro read
    unfold word? at read
    split at read
    · obtain ⟨number, isNumber, rfl⟩ := Option.map_eq_some_iff.mp read
      refine .inr ⟨number, .plain (magnitude?_eq_some_iff.mp isNumber), ?_⟩
      rw [← ofInt_eq_iff_modEq, BitVec.ofInt_natCast]
    · obtain ⟨number, isNumber, rfl⟩ := Option.map_eq_some_iff.mp read
      refine .inr ⟨-number, .minus (magnitude?_eq_some_iff.mp isNumber), ?_⟩
      rw [← ofInt_eq_iff_modEq, BitVec.ofInt_neg, BitVec.ofInt_natCast]
    · obtain ⟨number, isNumber, rfl⟩ := Option.map_eq_some_iff.mp read
      obtain ⟨isDecimal, lower, upper⟩ := signed?_eq_some_iff.mp isNumber
      rw [BitVec.toInt_ofInt_eq_self (by decide) lower upper]
      exact .inl isDecimal
  · rintro (isDecimal | ⟨number, isHexadecimal, congruent⟩)
    · have inRange := signed?_eq_some_iff.mpr
        ⟨isDecimal, BitVec.le_toInt word, BitVec.toInt_lt⟩
      rw [word?_of_isDecimal isDecimal, inRange, Option.map_some, BitVec.ofInt_toInt]
    · rw [word?_of_isHexadecimal isHexadecimal, ofInt_eq_iff_modEq.mpr congruent]

----------------------------------------------------------------------------------------------
-- Printing and reading back
----------------------------------------------------------------------------------------------

section

variable {base : Nat} {letters : Char → Char}

theorem Denotes.zero_cons {digits : List Char} {number : Nat} (positive : 0 < base)
    (denotes : Denotes base digits number)
    : Denotes base ('0' :: digits) number := by
  have zero : Denotes base ['0'] 0 := .digit positive (by decide)
  induction denotes with
  | digit small spelt => simpa using zero.append small spelt
  | append _ small spelt ih => exact ih.append small spelt

/-- The digits of a number denote it, with zeros before them and in letters of either case; by
induction on the number, the last digit off, and on the zeros.
-/
theorem denotes_padded (positional : 1 < base)
    (spells : ∀ value < base, (letters value.digitChar).toLower = value.digitChar)
    (zero : letters '0' = '0') (zeros number : Nat)
    : Denotes base ((padded base zeros number).map letters) number := by
  have positive := Nat.lt_of_succ_lt positional
  have digits : Denotes base ((base.toDigits number).map letters) number := by
    induction number using Nat.strongRecOn with
    | ind number ih =>
        by_cases small : number < base
        · rw [Nat.toDigits_of_lt_base small]
          exact .digit small (spells number small)
        · have le := Nat.not_lt.mp small
          have less := Nat.div_lt_self (Nat.lt_of_lt_of_le positive le) positional
          have lastSmall := Nat.mod_lt number positive
          rw [Nat.toDigits_of_base_le positional le, List.map_append]
          have all := (ih _ less).append lastSmall (spells _ lastSmall)
          rwa [Nat.div_add_mod'] at all
  induction zeros with
  | zero => exact digits
  | succ zeros ih =>
      rw [padded, List.replicate_succ, List.cons_append, List.map_cons, zero]
      exact ih.zero_cons positive

end

/-- The pattern of a word in hexadecimal, after `0x`, is read as the word. -/
theorem word?_hexadecimal {letters : Char → Char}
    (spells : ∀ value < 16, (letters value.digitChar).toLower = value.digitChar)
    (zero : letters '0' = '0') (word : Word) (zeros : Nat)
    : word? ('0' :: 'x' :: (padded 16 zeros word.toNat).map letters) = some word := by
  have denotes := denotes_padded (by decide) spells zero zeros word.toNat
  rw [word?_of_isHexadecimal (.plain (.plain denotes word.isLt)), BitVec.ofInt_natCast,
    BitVec.ofNat_toNat, BitVec.setWidth_eq]

/-- Exactly the numerals are read, each as the word that it stands for. So a word is read back from
its signed value in decimal, and from its pattern in hexadecimal with any number of leading zeros
and letters of either case.
-/
theorem numerals_read_exactly
    : (∀ text word,
        word? text = some word
        ↔ IsDecimal text word.toInt
          ∨ ∃ number, IsHexadecimal text number ∧ word.toInt ≡ number [ZMOD 2 ^ 64])
      ∧ ∀ word,
          word? (Word.text word).toList = some word
          ∧ ∀ zeros,
              word? ('0' :: 'x' :: padded 16 zeros word.toNat) = some word
              ∧ word? ('0' :: 'x' :: (padded 16 zeros word.toNat).map Char.toUpper) = some word := by
  refine ⟨fun text word => word?_eq_some_iff, fun word => ⟨?_, fun zeros => ⟨?_, ?_⟩⟩⟩
  · exact word?_of_spells (spells_text word)
  · have read := word?_hexadecimal (by decide : ∀ value < 16, (id value.digitChar).toLower = _)
      rfl word zeros
    rwa [List.map_id] at read
  · exact word?_hexadecimal (by decide) (by decide) word zeros

end TreeTiling.Numeral
