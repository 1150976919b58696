import ConfigTree.Path.Basic
import ConfigTree.Text.Blank

/-!
# Reading paths

`Path.parse` reads the text of a path. White space around the text and one slash at its front are
dropped; of what is left, elements are separated by single slashes. In brackets a slash separates
nothing, and a backslash takes away the meaning of the character after it.
-/

namespace ConfigTree.Path

/-- Why a text is no path. -/
inductive Fault where
  | unexpectedInName (c : Char)
  | invalidName (name : String)
  | keyWithoutValue
  | invalidKey (key : String)
  | unterminatedEscape
  | unbalancedBrackets
  | emptyValue (key : String)
  | duplicateKey (key name : String)
  | endsWithSeparator
  | unexpectedAfterKeys (c : Char)
deriving DecidableEq, Repr

def Fault.message : Fault → String
  | .unexpectedInName c => s!"unexpected '{c}' in element name"
  | .invalidName name => s!"invalid element name '{name}'"
  | .keyWithoutValue => "key without value"
  | .invalidKey key => s!"invalid key name '{key}'"
  | .unterminatedEscape => "unterminated escape"
  | .unbalancedBrackets => "unbalanced brackets"
  | .emptyValue key => s!"empty value for key '{key}'"
  | .duplicateKey key name => s!"duplicate key '{key}' in element '{name}'"
  | .endsWithSeparator => "ends with separator"
  | .unexpectedAfterKeys c => s!"unexpected '{c}' after key list"

/-- A text that is no path, and why. The text is kept as it was given, with the white space around
it. -/
structure ParseError where
  text : String
  fault : Fault
deriving DecidableEq, Repr

def ParseError.message (e : ParseError) : String :=
  s!"Path '{e.text}' has invalid format: {e.fault.message}"

/-! ### Identifiers -/

def isIdentifierStart (c : Char) : Bool := c.isAlpha || c = '_'

def isIdentifierChar (c : Char) : Bool := c.isAlphanum || c = '_' || c = '.' || c = '-'

/-- A letter or underscore, then letters, digits, underscores, points and hyphens, all of ASCII. -/
def isPlainIdentifier : List Char → Bool
  | [] => false
  | c :: cs => isIdentifierStart c && cs.all isIdentifierChar

/-- An identifier, perhaps after another one and a colon. -/
def isIdentifier (cs : List Char) : Bool :=
  match cs.dropWhile (· != ':') with
  | [] => isPlainIdentifier cs
  | _ :: name => isPlainIdentifier (cs.takeWhile (· != ':')) && isPlainIdentifier name

/-! ### Parts of an element -/

/-- A name, up to a slash, an opening bracket or the end. -/
def takeName : List Char → Except Fault (List Char × List Char)
  | [] => .ok ([], [])
  | c :: cs =>
    if c = '/' ∨ c = '[' then .ok ([], c :: cs)
    else if c = ']' ∨ c = '=' then .error (.unexpectedInName c)
    else (takeName cs).map fun (name, rest) => (c :: name, rest)

/-- The name of a key, up to its equals sign. -/
def takeKey : List Char → Except Fault (List Char × List Char)
  | [] => .error .keyWithoutValue
  | c :: cs =>
    if c = '=' then .ok ([], cs)
    else if c = ']' then .error .keyWithoutValue
    else (takeKey cs).map fun (key, rest) => (c :: key, rest)

/-- The text of a key, up to the bracket that closes it. A backslash stands before any character
that is to be taken as it is, and is left out itself. -/
def takeValue : List Char → Except Fault (List Char × List Char)
  | [] => .error .unbalancedBrackets
  | ['\\'] => .error .unterminatedEscape
  | '\\' :: c :: cs => (takeValue cs).map fun (value, rest) => (c :: value, rest)
  | c :: cs =>
    if c = ']' then .ok ([], cs)
    else (takeValue cs).map fun (value, rest) => (c :: value, rest)

/-- A key and its text, after the opening bracket. -/
def takeKeyValue (s : List Char) : Except Fault ((String × String) × List Char) := do
  let (key, s) ← takeKey s
  -- blanks count in the text of a key, but not around its name
  let key := Text.trim key
  if !isIdentifier key then throw (.invalidKey (String.ofList key))
  let (value, s) ← takeValue s
  if value.isEmpty then throw (.emptyValue (String.ofList key))
  return ((String.ofList key, String.ofList value), s)

/-- The keys of an element in brackets, after those already read. The fuel bounds their count, and
is the number of characters that are left. -/
def takeKeys (name : String) : Nat → List (String × String) → List Char →
    Except Fault (List (String × String) × List Char)
  | fuel + 1, keys, '[' :: s => do
    let (key, s) ← takeKeyValue s
    if keys.any (·.1 == key.1) then throw (.duplicateKey key.1 name)
    takeKeys name fuel (keys ++ [key]) s
  | _, keys, s => .ok (keys, s)

/-- An element, and the text after it. The name is checked before the keys are read, so its fault is
reported first. -/
def takeElem (s : List Char) : Except Fault (Elem × List Char) := do
  let (name, s) ← takeName s
  if !isIdentifier name then throw (.invalidName (String.ofList name))
  let (keys, s) ← takeKeys (String.ofList name) s.length [] s
  return (Elem.ofKeys (String.ofList name) keys, s)

/-- Elements separated by slashes, up to the end. The fuel bounds their count. -/
def takeElems : Nat → List Char → Except Fault (List Elem)
  | 0, _ => .ok []
  | fuel + 1, s => do
    let (e, s) ← takeElem s
    match s with
    -- after an element there is the end, or a slash and another element
    | [] => return [e]
    | ['/'] => throw .endsWithSeparator
    | '/' :: s => return e :: (← takeElems fuel s)
    | c :: _ => throw (.unexpectedAfterKeys c)

/-- Drops a slash at the front, and one only: with two of them the first element would have no
name. -/
def dropSlash : List Char → List Char
  | '/' :: s => s
  | s => s

/-- The elements of a text. -/
def parseChars (cs : List Char) : Except Fault (List Elem) :=
  match dropSlash (Text.trim cs) with
  | [] => .ok []
  | body => takeElems (body.length + 1) body

/-- Reads the text of a path. A path that is read has no origin. Nothing is asked of a schema, so
that a path can be read that no tree has. -/
def parse (text : String) : Except ParseError Path :=
  match parseChars text.toList with
  | .ok elems => .ok (ofElems elems)
  | .error fault => .error ⟨text, fault⟩

end ConfigTree.Path
