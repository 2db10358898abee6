import TreeTiling.Word

/-!
Integer numerals.

A numeral is decimal, with an optional sign and a value that a signed word can hold; or
hexadecimal, after `0x` or `-0x`, with a magnitude of at most 64 bits that is taken modulo the
word. A hexadecimal magnitude may begin with a plus sign.
-/

namespace TreeTiling.Numeral

/-- The value of a decimal digit. -/
def decimalDigit? (c : Char) : Option Nat :=
  if c.isDigit then some (c.toNat - '0'.toNat) else none

/-- The value of a hexadecimal digit, of either case. -/
def hexDigit? (c : Char) : Option Nat :=
  if c.isDigit then some (c.toNat - '0'.toNat)
  else if 'a' ≤ c ∧ c ≤ 'f' then some (c.toNat - 'a'.toNat + 10)
  else if 'A' ≤ c ∧ c ≤ 'F' then some (c.toNat - 'A'.toNat + 10)
  else none

/-- The value of digits read after a number; nothing if one of them is no digit. -/
def digitsFrom? (base : Nat) (digit? : Char → Option Nat) : Nat → List Char → Option Nat
  | value, [] => some value
  | value, c :: rest =>
      match digit? c with
      | some digit => digitsFrom? base digit? (value * base + digit) rest
      | none => none

/-- The value of one or more digits. -/
def digits? (base : Nat) (digit? : Char → Option Nat) : List Char → Option Nat
  | [] => none
  | digits => digitsFrom? base digit? 0 digits

/-- The number of words. -/
def wordCount : Nat :=
  Nat.pow 2 64

/-- One more than the greatest signed word. -/
def signedBound : Nat :=
  Nat.pow 2 63

/-- A hexadecimal magnitude that fits a word. -/
def magnitude? (cs : List Char) : Option Nat :=
  let digits :=
    match cs with
    | '+' :: digits => digits
    | digits => digits
  (digits? 16 hexDigit? digits).filter (· < wordCount)

/-- A decimal numeral that a signed word can hold. -/
def signed? : List Char → Option Int
  | '-' :: digits =>
      ((digits? 10 decimalDigit? digits).filter (· ≤ signedBound)).map fun value => -(value : Int)
  | '+' :: digits =>
      ((digits? 10 decimalDigit? digits).filter (· < signedBound)).map fun value => (value : Int)
  | digits =>
      ((digits? 10 decimalDigit? digits).filter (· < signedBound)).map fun value => (value : Int)

/-- The word a numeral stands for. -/
def word? : List Char → Option Word
  | '0' :: 'x' :: digits => (magnitude? digits).map (BitVec.ofNat 64)
  | '-' :: '0' :: 'x' :: digits => (magnitude? digits).map fun value => -BitVec.ofNat 64 value
  | numeral => (signed? numeral).map (BitVec.ofInt 64)

end TreeTiling.Numeral
