import ConfigTree.Path.Basic

/-!
# The text of a path

Each element is written after a slash, its keys in brackets, as in `/a/list[k1=v1][k2=v2]/c`. In a
key's text a closing bracket and a backslash are written after a backslash.
-/

namespace ConfigTree.Path

/-- How a character of a key's text is written. Only the two characters that would end the text or
stand before another one need it; a slash does not, since it separates nothing in brackets. -/
def escapeChar (c : Char) : List Char :=
  if c = '\\' then ['\\', '\\'] else if c = ']' then ['\\', ']'] else [c]

/-- A key and its text in brackets. -/
def keyChars (key : String × String) : List Char :=
  '[' :: (key.1.toList ++ '=' :: (key.2.toList.flatMap escapeChar ++ [']']))

namespace Elem

def chars (e : Elem) : List Char := e.name.toList ++ e.keys.flatMap keyChars

/-- The text of an element. -/
def text (e : Elem) : String := String.ofList e.chars

end Elem

/-- The characters of a sequence of elements; the empty one is a slash. Every element brings its own
slash, so two sequences are written one after the other unless one is empty. -/
def charsOf (elems : List Elem) : List Char :=
  if elems.isEmpty then ['/'] else elems.flatMap fun e => '/' :: e.chars

/-- The text of a sequence of elements. -/
def textOf (elems : List Elem) : String := String.ofList (charsOf elems)

/-- The text of a path. Its origin is not part of it. -/
def text (p : Path) : String := textOf p.elems

end ConfigTree.Path
