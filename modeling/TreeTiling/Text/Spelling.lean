/-! Spellings that differ only in the case of ASCII letters. -/

namespace TreeTiling.Text

/-- Whether two texts agree up to the case of ASCII letters. -/
def sameLetters (left right : String) : Bool :=
  left.toList.map Char.toLower == right.toList.map Char.toLower

end TreeTiling.Text
