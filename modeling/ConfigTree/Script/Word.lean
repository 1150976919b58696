/-!
# Words of scripts

A word of a script is a sequence of parts: characters, which may be quoted, and what stands for the
value of a parameter, the output of another script or the result of a calculation. `Word.read` takes
a word off a text.

The language is that of the shell of a machine, which `Script.programs` writes out.
-/

namespace ConfigTree.Script

/-- Why a text is no script. -/
inductive Fault where
  | openQuotes
  | openBackquotes
  | openBrace
  | openCalculation
  | loopVariable
  | functionName
  | unexpected (found : String) (expected : Option String)
deriving DecidableEq, Repr

def Fault.message : Fault → String
  | openQuotes => "Unterminated quoted string"
  | openBackquotes => "EOF in backquote substitution"
  | openBrace => "Missing '\x7d'"
  | openCalculation => "Missing '))'"
  | loopVariable => "Bad for loop variable"
  | functionName => "Bad function name"
  | unexpected found none => s!"{found} unexpected"
  | unexpected found (some expected) => s!"{found} unexpected (expecting {expected})"

/-- What is put in place of a parameter. With `orEmpty` an empty value counts as none. -/
inductive Change where
  | value
  | length
  | ifUnset (orEmpty : Bool)
  | assign (orEmpty : Bool)
  | fail (orEmpty : Bool)
  | ifSet (orEmpty : Bool)
  | trim (atEnd longest : Bool)
  | bad
deriving DecidableEq, Repr

/-- Whether the word of a change is a pattern, which the quotes around it do not quote. -/
def Change.isTrim : Change → Bool
  | trim .. => true
  | _ => false

inductive Part where
  | char (quoted : Bool) (c : Char)
  /-- Quotes, which make a word even of nothing. -/
  | quotes
  | parameter (quoted : Bool) (name : String) (change : Change) (word : List Part)
  /-- The output of a script, whose lines are counted anew if it stands in backquotes. -/
  | output (quoted backquoted : Bool) (script : List Char)
  | calculation (quoted : Bool) (expression : List Part)
deriving Inhabited

abbrev Word := List Part

/-! ### Characters -/

def isBlank (c : Char) : Bool := c = ' ' || c = '\t'

/-- Whether a character ends a word that is not quoted. -/
def endsWord (c : Char) : Bool := isBlank c || "\n;|&<>()".toList.contains c

def beginsName (c : Char) : Bool := c.isAlpha || c = '_'

def continuesName (c : Char) : Bool := c.isAlphanum || c = '_'

def isName : List Char → Bool
  | c :: cs => beginsName c && cs.all continuesName
  | [] => false

/-- Takes the name of a parameter off a text: a name, digits, or one of some signs. Outside of
braces there is but one digit. -/
def parameterName? (inBraces : Bool) : List Char → Option (List Char × List Char)
  | c :: rest =>
    if beginsName c then some ((c :: rest).span continuesName)
    else if c.isDigit then
      if inBraces then some ((c :: rest).span Char.isDigit) else some ([c], rest)
    else if "?$#@*!-".toList.contains c then some ([c], rest)
    else none
  | [] => none

/-! ### Enclosed texts -/

/-- The quotes around what is being read. -/
inductive Quotes where
  | none
  | single
  | double
deriving DecidableEq, Repr

namespace Quotes

/-- The quotes after a character. -/
def after (q : Quotes) (c : Char) : Quotes :=
  match q with
  | .none => if c = '\'' then .single else if c = '"' then .double else .none
  | .single => if c = '\'' then .none else .single
  | .double => if c = '"' then .none else .double

end Quotes

/-- The text up to the character that closes what has been opened `depth` times more, and the text
after it. Nothing is opened or closed in quotes, and braces are opened after a dollar sign only. -/
def enclosed (opening closing : Char) : Nat → Quotes → List Char → Option (List Char × List Char)
  | _, _, [] => none
  | depth, q, c :: d :: rest =>
    let next (depth : Nat) (q : Quotes) := (enclosed opening closing depth q (d :: rest)).map
      fun (cs, tail) => (c :: cs, tail)
    let nextTwo (depth : Nat) (q : Quotes) := (enclosed opening closing depth q rest).map
      fun (cs, tail) => (c :: d :: cs, tail)
    if c = '\\' && q != .single then nextTwo depth q
    else if q != .none then next depth (q.after c)
    else if c = '$' && d = opening then nextTwo (depth + 1) q
    else if c = opening && c = '(' then next (depth + 1) q
    else if c = closing then
      match depth with
      | 0 => some ([], d :: rest)
      | depth + 1 => next depth q
    else next depth (q.after c)
  | depth, q, [c] => if c = closing && depth = 0 && q = .none then some ([], []) else none

/-- The text up to a backquote, and the text after it. A backslash keeps a backquote, a backslash
or a dollar sign in it. -/
def backquoted : List Char → Option (List Char × List Char)
  | [] => none
  | '\x60' :: rest => some ([], rest)
  | '\\' :: c :: rest =>
    let kept := if c = '\x60' || c = '\\' || c = '$' then [c] else ['\\', c]
    (backquoted rest).map fun (cs, tail) => (kept ++ cs, tail)
  | c :: rest => (backquoted rest).map fun (cs, tail) => (c :: cs, tail)

/-- What follows a parameter's name in braces: the change, and the text of its word. -/
def change : List Char → Change × List Char
  | [] => (.value, [])
  | ':' :: '-' :: w => (.ifUnset true, w)
  | ':' :: '=' :: w => (.assign true, w)
  | ':' :: '?' :: w => (.fail true, w)
  | ':' :: '+' :: w => (.ifSet true, w)
  | '-' :: w => (.ifUnset false, w)
  | '=' :: w => (.assign false, w)
  | '?' :: w => (.fail false, w)
  | '+' :: w => (.ifSet false, w)
  | '%' :: '%' :: w => (.trim true true, w)
  | '%' :: w => (.trim true false, w)
  | '#' :: '#' :: w => (.trim false true, w)
  | '#' :: w => (.trim false false, w)
  | _ => (.bad, [])

/-- The name, the change and the text of the word of what stands in braces. -/
def braced (cs : List Char) : String × Change × List Char :=
  match cs with
  | '#' :: name@(_ :: _) =>
    match parameterName? true name with
    | some (name, []) => (String.ofList name, .length, [])
    | _ => ("#", change name)
  | cs =>
    match parameterName? true cs with
    | some (name, rest) => (String.ofList name, change rest)
    | none => ("", .bad, [])

/-! ### Words -/

namespace Word

/-- Takes a word off a text, up to a character for which `ends` holds or to the end. The fuel counts
characters. -/
def read (ends : Char → Bool) : Nat → Quotes → List Char → Except Fault (Word × List Char)
  | 0, _, rest => .ok ([], rest)
  | fuel + 1, q, cs =>
    let next (p : Part) (q : Quotes) (rest : List Char) : Except Fault (Word × List Char) :=
      (read ends fuel q rest).map fun (w, tail) => (p :: w, tail)
    let quoted := q != .none
    match q, cs with
    | .none, [] => .ok ([], [])
    | _, [] => .error .openQuotes
    | .single, c :: rest =>
      if c = '\'' then read ends fuel .none rest else next (.char true c) .single rest
    | q, '\\' :: '\n' :: rest => read ends fuel q rest
    | .none, '\\' :: c :: rest => next (.char true c) .none rest
    | .double, '\\' :: c :: rest =>
      if c = '"' || c = '\\' || c = '$' || c = '\x60' then next (.char true c) .double rest
      else next (.char true '\\') .double (c :: rest)
    | q, '\x60' :: rest =>
      match backquoted rest with
      | some (script, rest) => next (.output quoted true script) q rest
      | none => .error .openBackquotes
    | q, '$' :: '(' :: '(' :: rest =>
      match enclosed '(' ')' 1 .none rest with
      | some (inner, rest) =>
        if inner.getLast? != some ')' then .error .openCalculation
        else
          match read (fun _ => false) fuel .double (inner.dropLast ++ ['"']) with
          | .ok (expression, _) => next (.calculation quoted expression) q rest
          | .error fault => .error fault
      | none => .error .openCalculation
    | q, '$' :: '(' :: rest =>
      match enclosed '(' ')' 0 .none rest with
      | some (script, rest) => next (.output quoted false script) q rest
      | none => .error (.unexpected "end of file" (some "\")\""))
    | q, '$' :: '\x7b' :: rest =>
      match enclosed '\x7b' '\x7d' 0 .none rest with
      | some (inner, rest) =>
        let (name, change, word) := braced inner
        let isQuoted := quoted && !change.isTrim
        let word := if isQuoted then word ++ ['"'] else word
        match read (fun _ => false) fuel (if isQuoted then .double else .none) word with
        | .ok (word, _) => next (.parameter quoted name change word) q rest
        | .error fault => .error fault
      | none => .error .openBrace
    | q, '$' :: rest =>
      match parameterName? false rest with
      | some (name, rest) => next (.parameter quoted (String.ofList name) .value []) q rest
      | none => next (.char quoted '$') q rest
    | .double, c :: rest =>
      if c = '"' then read ends fuel .none rest else next (.char true c) .double rest
    | .none, c :: rest =>
      if ends c then .ok ([], c :: rest)
      else if c = '\'' then next .quotes .single rest
      else if c = '"' then next .quotes .double rest
      else next (.char false c) .none rest

/-- The text of a word that has characters only, none of them quoted. -/
def plain? : Word → Option (List Char)
  | [] => some []
  | .char false c :: rest => (plain? rest).map (c :: ·)
  | _ => none

/-- The name and the value that a word assigns, if it does. -/
def assignment? (w : Word) : Option (String × Word) :=
  let isNamePart : Part → Bool
    | .char false c => c != '='
    | _ => false
  match w.span isNamePart with
  | (name, .char false '=' :: value) =>
    (plain? name).bind fun cs => if isName cs then some (String.ofList cs, value) else none
  | _ => none

end Word

end ConfigTree.Script
