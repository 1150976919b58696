import ConfigTree.Script.Word

/-!
# Tokens of scripts

A script is cut into words, redirections and operators. Each token stands with the number of the
line at its end. A document for the input of a command stands in the lines below it and comes as a
word. A text that cannot be cut any further ends in a fault, so that what stands before it can still
be run.

The language is that of the shell of a machine, which `Script.programs` writes out.
-/

namespace ConfigTree.Script

/-- What a redirection does with its target. -/
inductive Mode where
  | read
  /-- Reads the target itself. -/
  | readText
  | write
  | duplicate
deriving DecidableEq, Repr

inductive Token where
  | word (w : Word)
  | redirect (stream : Nat) (mode : Mode)
  | operator (text : String)
  | finish
  | fault (f : Fault)
deriving Inhabited

namespace Token

def keywords : List String :=
  ["!", "\x7b", "\x7d", "case", "do", "done", "elif", "else", "esac", "fi", "for", "if", "in",
    "then", "until", "while"]

/-- The keyword that a token is where keywords may stand. -/
def keyword? : Token → Option String
  | word w => w.plain?.bind fun cs => keywords.find? (· == String.ofList cs)
  | _ => none

/-- How a token is called in a message. -/
def name (t : Token) : String :=
  match t.keyword?, t with
  | some k, _ => s!"\"{k}\""
  | none, word _ => "word"
  | none, redirect .. => "redirection"
  | none, operator "\n" => "newline"
  | none, operator text => s!"\"{text}\""
  | none, _ => "end of file"

end Token

/-- A redirection's mode, which its first characters give. -/
def redirection? : List Char → Option (Mode × List Char)
  | '<' :: '&' :: rest | '>' :: '&' :: rest => some (.duplicate, rest)
  | '<' :: '>' :: rest | '<' :: rest => some (.read, rest)
  | '>' :: '>' :: rest | '>' :: '|' :: rest | '>' :: rest => some (.write, rest)
  | _ => none

/-- An operator, which its first characters give. -/
def operator? : List Char → Option (String × List Char)
  | ';' :: ';' :: rest => some (";;", rest)
  | '&' :: '&' :: rest => some ("&&", rest)
  | '|' :: '|' :: rest => some ("||", rest)
  | c :: rest => if "\n;&|()".toList.contains c then some (String.singleton c, rest) else none
  | [] => none

/-- Takes a token off a text. -/
def Token.take (cs : List Char) : Token × List Char :=
  let (stream?, bare) : Option Nat × List Char := match cs with
    | d :: rest => if d.isDigit then (some (d.toNat - '0'.toNat), rest) else (none, cs)
    | [] => (none, [])
  match redirection? bare with
  | some (mode, rest) =>
    let usual := if bare.head? = some '<' then 0 else 1
    (.redirect (stream?.getD usual) mode, rest)
  | none =>
    match operator? cs with
    | some (text, rest) => (.operator text, rest)
    | none =>
      match cs with
      | [] => (.finish, [])
      | cs =>
        match Word.read endsWord (cs.length + 1) .none cs with
        | .ok (w, rest) => (.word w, rest)
        | .error f => (.fault f, [])

/-! ### Enclosed documents -/

/-- The lines of a text before the one that is `closing`, what follows that line, and the number of
lines taken. Tabs in front of lines are dropped if `stripped`. -/
def takeDocument (stripped : Bool) (closing : List Char) :
    Nat → List Char → List Char × List Char × Nat
  | 0, cs => ([], cs, 0)
  | _, [] => ([], [], 0)
  | fuel + 1, cs =>
    let (l, rest) := cs.span (· != '\n')
    let l := if stripped then l.dropWhile (· == '\t') else l
    if l = closing then ([], rest.tail, 1)
    else
      let (document, left, n) := takeDocument stripped closing fuel rest.tail
      (l ++ '\n' :: document, left, n + 1)

/-- The word of a document. Unless it is taken as it is, it is read as if it stood in quotes, except
that quotes in it mean nothing. -/
def documentWord (isRaw : Bool) (cs : List Char) : Except Fault Word :=
  if isRaw then .ok (cs.map (.char true))
  else
    let escaped := cs.flatMap fun c => if c = '"' then ['\\', '"'] else [c]
    (Word.read (fun _ => false) (escaped.length + 2) .double (escaped ++ ['"'])).map (·.1)

/-- Takes the name of a document off a text that follows its sign, and the document off the lines
below: its word, the rest, and the number of lines that are missing in the rest. -/
def document (cs : List Char) : Except Fault (Word × List Char × Nat) := do
  let (stripped, cs) := match cs with
    | '-' :: rest => (true, rest)
    | cs => (false, cs)
  if cs.head? = some '<' then throw (.unexpected "redirection" none)
  let (name, rest) ← Word.read endsWord (cs.length + 1) .none (cs.dropWhile isBlank)
  let chars := name.filterMap fun
    | .char _ c => some c
    | _ => none
  let (now, later) := rest.span (· != '\n')
  let (text, left, n) := takeDocument stripped chars (later.length + 1) later.tail
  return (← documentWord name.plain?.isNone text, now ++ '\n' :: left, n)

/-- The document that a text begins with, the number of its stream in front, if it does. -/
def beginsDocument? : List Char → Option (Nat × List Char)
  | '<' :: '<' :: rest => some (0, rest)
  | d :: '<' :: '<' :: rest => if d.isDigit then some (d.toNat - '0'.toNat, rest) else none
  | _ => none

abbrev Tokens := List (Nat × Token)

/-- The tokens of a text that begins in the given line, after which `missing` lines have been taken
out. The fuel counts characters. -/
def tokens : Nat → Nat → Nat → List Char → Tokens
  | 0, line, _, _ => [(line, .finish)]
  | fuel + 1, line, missing, cs =>
    match beginsDocument? cs, cs with
    | some (stream, rest), _ =>
      match document rest with
      | .ok (w, rest, n) =>
        (line, .redirect stream .readText) :: (line, .word w) :: tokens fuel line (missing + n) rest
      | .error f => [(line, .fault f)]
    | none, '\\' :: '\n' :: rest => tokens fuel (line + 1) missing rest
    | none, '#' :: rest => tokens fuel line missing (rest.dropWhile (· != '\n'))
    | none, c :: rest =>
      if isBlank c then tokens fuel line missing rest
      else if c = '\n' then
        (line + 1 + missing, .operator "\n") :: tokens fuel (line + 1 + missing) 0 rest
      else
        let (t, left) := Token.take cs
        let line := line + (cs.count '\n' - left.count '\n')
        match t with
        | .fault _ => [(line, t)]
        | t => (line, t) :: tokens fuel line missing left
    | none, [] => [(line, .finish)]

/-- The tokens of a script that begins in the given line. -/
def tokensOf (line : Nat) (text : List Char) : Tokens := tokens (text.length + 1) line 0 text

end ConfigTree.Script
