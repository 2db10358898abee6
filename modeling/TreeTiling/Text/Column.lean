/-! Texts padded with spaces to a column width, counted in characters. -/

namespace TreeTiling.Text

/-- Pads on the right; a text that is already wide enough stays as it is. -/
def alignLeft (width : Nat) (text : String) : String :=
  text.pushn ' ' (width - text.length)

/-- Pads on the left; a text that is already wide enough stays as it is. -/
def alignRight (width : Nat) (text : String) : String :=
  "".pushn ' ' (width - text.length) ++ text

end TreeTiling.Text
