/-!
Texts between double quotes. A quote, a backslash and the characters below the space are escaped,
and every other character stands for itself.
-/

namespace TreeTiling.Text

/-- A number below 65536 as four hexadecimal digits. -/
def fourHex (number : Nat) : List Char :=
  [number / 4096 % 16, number / 256 % 16, number / 16 % 16, number % 16].map Nat.digitChar

/-- A character as it stands between quotes. Five control characters have a letter of their own;
the rest are given by their number.
-/
def quoteChar (c : Char) : List Char :=
  if c = '"' ∨ c = '\\' then ['\\', c]
  else if c = '\x08' then ['\\', 'b']
  else if c = '\x0c' then ['\\', 'f']
  else if c = '\n' then ['\\', 'n']
  else if c = '\r' then ['\\', 'r']
  else if c = '\t' then ['\\', 't']
  else if c.toNat < 0x20 then '\\' :: 'u' :: fourHex c.toNat
  else [c]

/-- A text between double quotes. -/
def quote (text : String) : String :=
  String.ofList ('"' :: text.toList.flatMap quoteChar ++ ['"'])

/-- Texts between quotes, in brackets, with commas and no blanks. -/
def quoteList (texts : List String) : String :=
  "[" ++ ",".intercalate (texts.map quote) ++ "]"

end TreeTiling.Text
