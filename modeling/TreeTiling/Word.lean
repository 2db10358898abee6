/-! Machine words: the 64-bit integers that constants, registers and memory cells hold. -/

namespace TreeTiling

/-- A 64-bit word, read as two's complement where an operation is signed. -/
abbrev Word := BitVec 64

namespace Word

/-- The signed decimal spelling of a word. -/
def text (word : Word) : String :=
  word.toInt.repr

/-- Whether sign extension of the low 32 bits gives the word back. -/
def fitsImm32 (word : Word) : Bool :=
  decide (-2147483648 ≤ word.toInt) && decide (word.toInt ≤ 2147483647)

/-- Whether the word is an index scale that an address can hold. -/
def isScale (word : Word) : Bool :=
  word == 1#64 || word == 2#64 || word == 4#64 || word == 8#64

end Word

end TreeTiling
