/-!
# White space

The white space of text around names and numerals, and its removal at both ends.
-/

namespace ConfigTree.Text

/-- White space characters, in and beyond ASCII: those that Unicode gives the property White_Space.
A zero-width space is none of them. -/
def isBlank (c : Char) : Bool :=
  (0x9 ≤ c.toNat && c.toNat ≤ 0xD) || c.toNat = 0x20 || c.toNat = 0x85 || c.toNat = 0xA0
    || c.toNat = 0x1680 || (0x2000 ≤ c.toNat && c.toNat ≤ 0x200A) || c.toNat = 0x2028
    || c.toNat = 0x2029 || c.toNat = 0x202F || c.toNat = 0x205F || c.toNat = 0x3000

/-- Drops white space at the end. It is decided from the end on: a blank stays where anything that
stays comes after it. -/
def trimEnd : List Char → List Char
  | [] => []
  | c :: cs =>
    match trimEnd cs with
    | [] => if isBlank c then [] else [c]
    | rest => c :: rest

/-- Drops white space at both ends. Blanks between other characters stay. -/
def trim (cs : List Char) : List Char := trimEnd (cs.dropWhile isBlank)

/-- Drops white space at both ends of a string. -/
def trimmed (s : String) : String := String.ofList (trim s.toList)

end ConfigTree.Text
