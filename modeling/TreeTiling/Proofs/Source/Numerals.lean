import TreeTiling.Proofs.Source.Layout
import TreeTiling.Source.Numeral

/-!
How words are written: in decimal or hexadecimal, with leading zeros and signs, and that each of
these numerals is read as its word.
-/

namespace TreeTiling.Numeral

----------------------------------------------------------------------------------------------
-- Digits
----------------------------------------------------------------------------------------------

/-- The digits of a number, with zeros before them. -/
def padded (base zeros number : Nat) : List Char :=
  List.replicate zeros '0' ++ base.toDigits number

theorem digitsFrom?_append (base : Nat) (digit? : Char → Option Nat) (value : Nat)
    (first second : List Char)
    : digitsFrom? base digit? value (first ++ second)
      = (digitsFrom? base digit? value first).bind (digitsFrom? base digit? · second) := by
  induction first generalizing value with
  | nil => rfl
  | cons c rest ih =>
      rw [List.cons_append, digitsFrom?, digitsFrom?]
      cases digit? c with
      | none => rfl
      | some digit => exact ih _

section

variable {base : Nat} {digit? : Char → Option Nat}

/-- The digits of a number are read back; by induction on the number, the last digit off. -/
theorem digitsFrom?_toDigits (positional : 1 < base)
    (digits : ∀ digit < base, digit? digit.digitChar = some digit) (number : Nat)
    : digitsFrom? base digit? 0 (base.toDigits number) = some number := by
  induction number using Nat.strongRecOn with
  | ind number ih =>
      by_cases small : number < base
      · rw [Nat.toDigits_of_lt_base small, digitsFrom?, digits number small]
        simp [digitsFrom?]
      · have le := Nat.not_lt.mp small
        have nonzero : 0 < number := Nat.lt_of_lt_of_le (Nat.lt_of_succ_lt positional) le
        have less := Nat.div_lt_self nonzero positional
        rw [Nat.toDigits_of_base_le positional le, digitsFrom?_append, ih _ less]
        have last := digits (number % base) (Nat.mod_lt _ (Nat.lt_of_succ_lt positional))
        simp [digitsFrom?, last, Nat.div_add_mod']

theorem digits?_padded (positional : 1 < base)
    (digits : ∀ digit < base, digit? digit.digitChar = some digit) (zeros number : Nat)
    : digits? base digit? (padded base zeros number) = some number := by
  have zero : digit? '0' = some 0 := digits 0 (Nat.lt_of_succ_lt positional)
  have read : digitsFrom? base digit? 0 (padded base zeros number) = some number := by
    induction zeros with
    | zero => exact digitsFrom?_toDigits positional digits number
    | succ zeros ih =>
        rw [padded, List.replicate_succ, List.cons_append, digitsFrom?, zero]
        simpa [padded] using ih
  cases same : padded base zeros number with
  | nil =>
      exact absurd (List.append_eq_nil_iff.mp same).2 Nat.toDigits_ne_nil
  | cons c rest =>
      rw [same] at read
      exact read

end

theorem decimal_padded (zeros number : Nat)
    : digits? 10 decimalDigit? (padded 10 zeros number) = some number :=
  digits?_padded (by decide) (by decide) zeros number

/-- The case of the letters in a hexadecimal number does not matter. -/
theorem hexDigit?_toLower (c : Char) : hexDigit? c.toLower = hexDigit? c := by
  have letters
      : ∀ code < 91,
          65 ≤ code → hexDigit? (Char.ofNat code).toLower = hexDigit? (Char.ofNat code) := by
    decide
  by_cases upper : 65 ≤ c.toNat ∧ c.toNat < 91
  · have same := letters c.toNat upper.2 upper.1
    rwa [Char.ofNat_toNat] at same
  · have same : c.toLower = c := by
      refine dif_neg fun isUpper => ?_
      have bounds : 65 ≤ c.val.toNat ∧ c.val.toNat ≤ 90 := isUpper
      exact upper ⟨bounds.1, Nat.lt_succ_of_le bounds.2⟩
    rw [same]

theorem hex_padded {digits : List Char} {zeros number : Nat}
    (letters : digits.map Char.toLower = padded 16 zeros number)
    : digits? 16 hexDigit? digits = some number := by
  have lower (value : Nat) (digits : List Char)
      : digitsFrom? 16 hexDigit? value (digits.map Char.toLower)
        = digitsFrom? 16 hexDigit? value digits := by
    induction digits generalizing value with
    | nil => rfl
    | cons c rest ih =>
        rw [List.map_cons, digitsFrom?, digitsFrom?, hexDigit?_toLower]
        cases hexDigit? c with
        | none => rfl
        | some digit => exact ih _
  have read : digits? 16 hexDigit? (padded 16 zeros number) = some number :=
    digits?_padded (by decide) (by decide) zeros number
  rw [← letters] at read
  cases digits with
  | nil => exact read
  | cons c rest => exact (lower 0 (c :: rest)).symm.trans read

----------------------------------------------------------------------------------------------
-- Numerals
----------------------------------------------------------------------------------------------

/-- How a word can be written. A decimal numeral stands for a signed word and a hexadecimal one for
any word; both may have a sign and begin with zeros, and hexadecimal letters are of either case.
-/
inductive Spells : List Char → Word → Prop where
  | decimal {sign : List Char} (zeros : Nat) {number : Nat} (positive : sign = [] ∨ sign = ['+'])
    (fits : number < signedBound)
    : Spells (sign ++ padded 10 zeros number) (BitVec.ofNat 64 number)
  | minusDecimal (zeros : Nat) {number : Nat} (fits : number ≤ signedBound)
    : Spells ('-' :: padded 10 zeros number) (-BitVec.ofNat 64 number)
  | hex {sign digits : List Char} {zeros number : Nat} (positive : sign = [] ∨ sign = ['+'])
    (letters : digits.map Char.toLower = padded 16 zeros number) (fits : number < wordCount)
    : Spells ('0' :: 'x' :: (sign ++ digits)) (BitVec.ofNat 64 number)
  | minusHex {sign digits : List Char} {zeros number : Nat} (positive : sign = [] ∨ sign = ['+'])
    (letters : digits.map Char.toLower = padded 16 zeros number) (fits : number < wordCount)
    : Spells ('-' :: '0' :: 'x' :: (sign ++ digits)) (-BitVec.ofNat 64 number)

/-- Digits alone are a signed numeral: they begin with no sign. -/
theorem signed?_of_digits {text : List Char} {number : Nat}
    (read : digits? 10 decimalDigit? text = some number) (fits : number < signedBound)
    : signed? text = some (number : Int) := by
  have filtered : (some number).filter (· < signedBound) = some number :=
    Option.filter_some_pos (decide_eq_true fits)
  unfold signed?
  split
  · cases read
  · cases read
  · rw [read, filtered]
    rfl

/-- A numeral is decimal if it has no `x`. -/
theorem word?_of_decimal {text : List Char} {number : Nat}
    (read : digits? 10 decimalDigit? text = some number)
    : word? text = (signed? text).map (BitVec.ofInt 64)
      ∧ word? ('-' :: text) = (signed? ('-' :: text)).map (BitVec.ofInt 64)
      ∧ word? ('+' :: text) = (signed? ('+' :: text)).map (BitVec.ofInt 64) := by
  unfold word?
  refine ⟨?_, ?_, ?_⟩
  · split
    · cases read
    · cases read
    · rfl
  · split
    · next same => cases same
    · next same =>
        obtain rfl := (List.cons.inj same).2
        cases read
    · rfl
  · split
    · next same => cases same
    · next same => cases same
    · rfl

theorem magnitude?_of_hex {sign digits : List Char} {number : Nat}
    (positive : sign = [] ∨ sign = ['+']) (read : digits? 16 hexDigit? digits = some number)
    (fits : number < wordCount)
    : magnitude? (sign ++ digits) = some number := by
  have filtered : (some number).filter (· < wordCount) = some number :=
    Option.filter_some_pos (decide_eq_true fits)
  rcases positive with rfl | rfl
  · unfold magnitude?
    split
    · next same =>
        rw [List.nil_append] at same
        rw [same] at read
        cases read
    · dsimp only
      rw [List.nil_append, read, filtered]
  · change (digits? 16 hexDigit? digits).filter _ = _
    rw [read, filtered]

theorem word?_of_spells {text : List Char} {value : Word} (spells : Spells text value)
    : word? text = some value := by
  cases spells with
  | @decimal sign zeros number positive fits =>
      have read := decimal_padded zeros number
      have filtered : (some number).filter (· < signedBound) = some number :=
        Option.filter_some_pos (decide_eq_true fits)
      obtain ⟨plain, -, plus⟩ := word?_of_decimal read
      rcases positive with rfl | rfl
      · rw [List.nil_append, plain, signed?_of_digits read fits]
        simp
      · rw [List.singleton_append, plus, signed?, read, filtered]
        simp
  | @minusDecimal zeros number fits =>
      have read := decimal_padded zeros number
      have filtered : (some number).filter (· ≤ signedBound) = some number :=
        Option.filter_some_pos (decide_eq_true fits)
      rw [(word?_of_decimal read).2.1, signed?, read, filtered]
      simp [BitVec.ofInt_neg]
  | hex positive letters fits =>
      rw [word?, magnitude?_of_hex positive (hex_padded letters) fits]
      rfl
  | minusHex positive letters fits =>
      rw [word?, magnitude?_of_hex positive (hex_padded letters) fits]
      rfl

----------------------------------------------------------------------------------------------
-- The text of a word
----------------------------------------------------------------------------------------------

/-- The text of a word is a numeral for it. -/
theorem spells_text (word : Word) : Spells (Word.text word).toList word := by
  have same : BitVec.ofInt 64 word.toInt = word := BitVec.ofInt_toInt
  have bounds : -2 ^ 63 ≤ word.toInt ∧ word.toInt < 2 ^ 63 :=
    ⟨BitVec.le_toInt word, BitVec.toInt_lt⟩
  unfold Word.text
  cases value : word.toInt with
  | ofNat number =>
      have isText : (Int.repr (.ofNat number)).toList = [] ++ padded 10 0 number := by
        simp [Int.repr, padded, Nat.repr]
      have isWord : BitVec.ofNat 64 number = word := by
        rw [← same, value]
        exact (BitVec.ofInt_natCast 64 number).symm
      rw [isText, ← isWord]
      refine .decimal 0 (.inl rfl) ?_
      rw [value] at bounds
      exact Int.ofNat_lt.mp bounds.2
  | negSucc number =>
      have isText : (Int.repr (.negSucc number)).toList = '-' :: padded 10 0 (number + 1) := by
        simp [Int.repr, padded, Nat.repr]
      have isWord : -BitVec.ofNat 64 (number + 1) = word := by
        rw [← same, value, Int.negSucc_eq, BitVec.ofInt_neg]
        exact congrArg _ (BitVec.ofInt_natCast 64 (number + 1)).symm
      rw [isText, ← isWord]
      refine .minusDecimal 0 ?_
      rw [value, Int.negSucc_eq] at bounds
      change number + 1 ≤ 2 ^ 63
      omega

/-- A decimal digit can be part of an atom. -/
theorem isAtomChar_of_isDigit {c : Char} (isDigit : c.isDigit = true)
    : Source.isAtomChar c = true := by
  have bounds : 48 ≤ c.toNat ∧ c.toNat ≤ 57 := by
    simpa [Char.isDigit, UInt32.le_iff_toNat_le] using isDigit
  have digits : ∀ code < 58, 48 ≤ code → Source.isAtomChar (Char.ofNat code) = true := by
    decide
  have atomChar := digits c.toNat (Nat.lt_succ_of_le bounds.2) bounds.1
  rwa [Char.ofNat_toNat] at atomChar

/-- The text of a word is an atom. -/
theorem isAtom_text (word : Word) : Source.IsAtom (Word.text word) := by
  have digits (number : Nat) : ∀ c ∈ Nat.toDigits 10 number, Source.isAtomChar c = true :=
    fun c member =>
      isAtomChar_of_isDigit (Nat.isDigit_of_mem_toDigits (by decide) (by decide) member)
  unfold Word.text
  cases word.toInt with
  | ofNat number =>
      have isText : (Int.repr (.ofNat number)).toList = Nat.toDigits 10 number := by
        simp [Int.repr, Nat.repr]
      refine ⟨?_, ?_⟩
      · rw [isText]
        exact Nat.toDigits_ne_nil
      · rw [isText]
        exact digits number
  | negSucc number =>
      have isText : (Int.repr (.negSucc number)).toList = '-' :: Nat.toDigits 10 (number + 1) := by
        simp [Int.repr, Nat.repr]
      refine ⟨?_, ?_⟩
      · rw [isText]
        exact List.cons_ne_nil _ _
      · rw [isText]
        exact List.forall_mem_cons.mpr ⟨by decide, digits (number + 1)⟩

end TreeTiling.Numeral
