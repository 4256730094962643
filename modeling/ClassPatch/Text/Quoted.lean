import ClassPatch.Text.Printable

/-!
# Quoted text

Text between double quotes. A quote, a backslash and the common controls are escaped by a backslash
and a sign, and any other character that is not printable by its code point.
-/

namespace ClassPatch.Text.Quoted

/-- The form of one character between the quotes. -/
def escape (c : Char) : List Char :=
  if c = '"' then ['\\', '"']
  else if c = '\\' then ['\\', '\\']
  else if c = '\n' then ['\\', 'n']
  else if c = '\r' then ['\\', 'r']
  else if c = '\t' then ['\\', 't']
  else if c = '\x00' then ['\\', '0']
  else if isPrintable c then [c]
  else ['\\', 'u', '\x7b'] ++ Nat.toDigits 16 c.toNat ++ ['\x7d']

/-- The quoted form of a text. -/
def quote (text : String) : String :=
  String.ofList ('"' :: text.toList.flatMap escape ++ ['"'])

end ClassPatch.Text.Quoted
