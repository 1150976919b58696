import ConfigTree.Text.Printable

/-!
# Quoted strings

How messages show a string: in quotes, with the quote, the backslash and the common controls
escaped by a letter and other characters that do not print by their number in hexadecimal.
-/

namespace ConfigTree.Text

/-- How a character stands in a quoted string. What prints stands for itself, in any script; it is
what cannot be seen that is written out. -/
def quoteChar (c : Char) : List Char :=
  if c = '\x00' then ['\\', '0']
  else if c = '\t' then ['\\', 't']
  else if c = '\r' then ['\\', 'r']
  else if c = '\n' then ['\\', 'n']
  else if c = '\\' then ['\\', '\\']
  else if c = '"' then ['\\', '"']
  else if isPrintable c then [c]
  else ['\\', 'u', '\x7b'] ++ Nat.toDigits 16 c.toNat ++ ['\x7d']

/-- A string in quotes. -/
def quoted (s : String) : String :=
  String.ofList ('"' :: (s.toList.flatMap quoteChar ++ ['"']))

end ConfigTree.Text
