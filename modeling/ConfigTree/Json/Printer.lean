import ConfigTree.Json.Basic
import ConfigTree.Text.Hexadecimal

/-!
# The text of a document

Documents are written without blanks, members in their order. In a string the quote, the backslash
and the control characters are escaped and all else stands for itself.
-/

namespace ConfigTree.Json

/-- How a character stands in a string. Characters that have a short escape are written by it, other
control characters by their number, and all else as it is. -/
def escapeChar (c : Char) : List Char :=
  if c = '"' then ['\\', '"']
  else if c = '\\' then ['\\', '\\']
  else if c = '\x08' then ['\\', 'b']
  else if c = '\t' then ['\\', 't']
  else if c = '\n' then ['\\', 'n']
  else if c = '\x0c' then ['\\', 'f']
  else if c = '\r' then ['\\', 'r']
  else if c.toNat < 32 then
    ['\\', 'u', '0', '0', Text.hexDigit (c.toNat / 16), Text.hexDigit (c.toNat % 16)]
  else [c]

/-- The characters of a string between its quotes. -/
def escapeChars : List Char → List Char
  | [] => []
  | c :: cs => escapeChar c ++ escapeChars cs

/-- A string in its quotes, followed by `rest`. That there is more text after it is part of the
definition, since a reader of it has to stop at the quote. -/
def quotedChars (s : String) (rest : List Char) : List Char :=
  '"' :: (escapeChars s.toList ++ '"' :: rest)

mutual

/-- The characters of a document. The first item of an array or object is written apart from the
others, as the grammar reads it: `itemsTailChars` and `membersTailChars` write what comes after an
item. -/
def chars : Json → List Char
  | .null => ['n', 'u', 'l', 'l']
  | .bool true => ['t', 'r', 'u', 'e']
  | .bool false => ['f', 'a', 'l', 's', 'e']
  | .num n => n.chars
  | .str s => quotedChars s []
  | .arr [] => ['[', ']']
  | .arr (x :: xs) => '[' :: (chars x ++ itemsTailChars xs)
  | .obj [] => ['{', '}']
  | .obj ((k, x) :: ms) => '{' :: quotedChars k (':' :: (chars x ++ membersTailChars ms))

/-- The characters of an array after an item of it. -/
def itemsTailChars : List Json → List Char
  | [] => [']']
  | x :: xs => ',' :: (chars x ++ itemsTailChars xs)

/-- The characters of an object after a member of it. -/
def membersTailChars : List (String × Json) → List Char
  | [] => ['}']
  | (k, x) :: ms => ',' :: quotedChars k (':' :: (chars x ++ membersTailChars ms))

end

/-- The text of a document, without blanks. Members stand in the order in which they are held. -/
def render (j : Json) : String := String.ofList j.chars

/-- The text of a document as UTF-8. -/
def bytes (j : Json) : ByteArray := j.render.toByteArray

end ConfigTree.Json
