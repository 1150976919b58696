import ConfigTree.Json.Basic
import ConfigTree.Text.Hexadecimal

/-!
# The grammar of documents

`Term.parse?` reads a text by the grammar alone. The result, a `Term`, is a document in which
literals are not yet numbers, since a literal can be too large for one, and in which a string may
have no text, since an escape can name half of a pair of surrogates. Such parts, and arrays and
objects nested too deep, are refused only by those who use them: `Term.read?` makes a document of
all of a term, at most `room` arrays and objects deep. A text may end anywhere in blanks, but in
nothing else.

`value?` is the document in its normal form, at most `maxDepth` deep.
-/

namespace ConfigTree.Json

inductive Term where
  | null
  | bool (b : Bool)
  | number (literal : Literal)
  | string (text : Option String)
  | array (items : List Term)
  | object (members : List (Option String × Term))
deriving Inhabited

/-! ### Strings -/

/-- What stands for a character or a part of one in a string: itself, or a number of 16 bits. -/
inductive Piece where
  | char (c : Char)
  | unit (n : Nat)
deriving DecidableEq, Repr

namespace Piece

def isHighSurrogate (n : Nat) : Bool := 0xD800 ≤ n && n < 0xDC00

def isLowSurrogate (n : Nat) : Bool := 0xDC00 ≤ n && n < 0xE000

/-- The character that a pair of surrogates stands for. Whether the two are a high and a low one has
been asked before. -/
def ofSurrogates (high low : Nat) : Char :=
  Char.ofNat (0x10000 + (high - 0xD800) * 0x400 + (low - 0xDC00))

/-- The text of a string, unless a surrogate in it stands alone. -/
def text? : List Piece → Option (List Char)
  | [] => some []
  | .char c :: rest => (text? rest).map (c :: ·)
  | .unit high :: .unit low :: rest =>
    if isHighSurrogate high then
      if isLowSurrogate low then (text? rest).map (ofSurrogates high low :: ·) else none
    else if isLowSurrogate high then none
    else (text? (.unit low :: rest)).map (Char.ofNat high :: ·)
  | .unit n :: rest =>
    if isHighSurrogate n || isLowSurrogate n then none
    else (text? rest).map (Char.ofNat n :: ·)

end Piece

/-- The number of four hexadecimal digits. It need not be that of a character: it may be half of
one. -/
def hexUnit? (a b c d : Char) : Option Nat :=
  [a, b, c, d].foldlM (fun n x => do return 16 * n + (← Text.hexValue? x)) 0

/-- The character of an escape of one letter. -/
def shortEscape? (c : Char) : Option Char :=
  if c = '"' then some '"'
  else if c = '\\' then some '\\'
  else if c = '/' then some '/'
  else if c = 'b' then some '\x08'
  else if c = 'f' then some '\x0c'
  else if c = 'n' then some '\n'
  else if c = 'r' then some '\r'
  else if c = 't' then some '\t'
  else none

/-- A string after its opening quote: its pieces, and the text after the closing quote. -/
def stringPieces? : List Char → Option (List Piece × List Char)
  | [] => none
  | '"' :: rest => some ([], rest)
  | '\\' :: 'u' :: a :: b :: c :: d :: rest => do
    let n ← hexUnit? a b c d
    let (ps, tail) ← stringPieces? rest
    return (.unit n :: ps, tail)
  | '\\' :: c :: rest => do
    let e ← shortEscape? c
    let (ps, tail) ← stringPieces? rest
    return (.char e :: ps, tail)
  | c :: rest =>
    if c = '\\' || c.toNat < 32 then none
    else (stringPieces? rest).map fun (ps, tail) => (.char c :: ps, tail)

/-- A string after its opening quote, as far as its pieces have a text. -/
def string? (s : List Char) : Option (Option String × List Char) :=
  (stringPieces? s).map fun (ps, tail) => ((Piece.text? ps).map String.ofList, tail)

/-! ### Literals -/

/-- The digits of a whole part: no zero stands in front of others. -/
def wholeDigits? (s : List Char) : Option (List Digit × List Char) :=
  match Digit.takeDigits s with
  | ([], _) => none
  | (0 :: _ :: _, _) => none
  | found => some found

/-- A fraction, if a point follows: at least one digit. -/
def fraction? : List Char → Option (List Digit × List Char)
  | '.' :: rest =>
    match Digit.takeDigits rest with
    | ([], _) => none
    | found => some found
  | s => some ([], s)

/-- The sign in front of an exponent's digits: whether it is a minus. -/
def exponentSign : List Char → Bool × List Char
  | '-' :: rest => (true, rest)
  | '+' :: rest => (false, rest)
  | s => (false, s)

/-- An exponent, if its letter follows: at least one digit, perhaps after a sign. -/
def exponent? : List Char → Option (Option Int × List Char)
  | [] => some (none, [])
  | c :: rest =>
    if c = 'e' || c = 'E' then
      let (negative, s) := exponentSign rest
      match Digit.takeDigits s with
      | ([], _) => none
      | (ds, tail) =>
        let n : Int := Digit.value ds
        some (some (if negative then -n else n), tail)
    else some (none, c :: rest)

/-- A literal but for its sign. -/
def unsignedLiteral? (negative : Bool) (s : List Char) : Option (Literal × List Char) := do
  let (whole, s) ← wholeDigits? s
  let (fraction, s) ← fraction? s
  let (exponent, s) ← exponent? s
  return (⟨negative, whole, fraction, exponent⟩, s)

def literal? : List Char → Option (Literal × List Char)
  | '-' :: rest => unsignedLiteral? true rest
  | s => unsignedLiteral? false s

/-! ### Terms -/

def isBlank (c : Char) : Bool := c = ' ' || c = '\n' || c = '\r' || c = '\t'

def skipBlanks (s : List Char) : List Char := s.dropWhile isBlank

namespace Term

mutual

/-- The term that starts a text, and the text after it. -/
def parseAt? : Nat → List Char → Option (Term × List Char)
  | 0, _ => none
  | fuel + 1, s =>
    match s with
    | 'n' :: 'u' :: 'l' :: 'l' :: rest => some (.null, rest)
    | 't' :: 'r' :: 'u' :: 'e' :: rest => some (.bool true, rest)
    | 'f' :: 'a' :: 'l' :: 's' :: 'e' :: rest => some (.bool false, rest)
    | '"' :: rest => (string? rest).map fun (text, tail) => (.string text, tail)
    | '[' :: rest =>
      match skipBlanks rest with
      | ']' :: tail => some (.array [], tail)
      | first => do
        let (x, s) ← parseAt? fuel first
        let (xs, s) ← parseItems? fuel (skipBlanks s)
        return (.array (x :: xs), s)
    | '{' :: rest =>
      match skipBlanks rest with
      | '}' :: tail => some (.object [], tail)
      | first => do
        let (m, s) ← parseMember? fuel first
        let (ms, s) ← parseMembers? fuel (skipBlanks s)
        return (.object (m :: ms), s)
    | s => (literal? s).map fun (l, tail) => (.number l, tail)

/-- The rest of an array after an item. -/
def parseItems? : Nat → List Char → Option (List Term × List Char)
  | 0, _ => none
  | fuel + 1, s =>
    match s with
    | ']' :: tail => some ([], tail)
    | ',' :: rest => do
      let (x, s) ← parseAt? fuel (skipBlanks rest)
      let (xs, s) ← parseItems? fuel (skipBlanks s)
      return (x :: xs, s)
    | _ => none

/-- One member of an object. -/
def parseMember? : Nat → List Char → Option ((Option String × Term) × List Char)
  | 0, _ => none
  | fuel + 1, s =>
    match s with
    | '"' :: rest => do
      let (name, s) ← string? rest
      match skipBlanks s with
      | ':' :: s =>
        let (x, s) ← parseAt? fuel (skipBlanks s)
        return ((name, x), s)
      | _ => none
    | _ => none

/-- The rest of an object after a member. -/
def parseMembers? : Nat → List Char → Option (List (Option String × Term) × List Char)
  | 0, _ => none
  | fuel + 1, s =>
    match s with
    | '}' :: tail => some ([], tail)
    | ',' :: rest => do
      let (m, s) ← parseMember? fuel (skipBlanks rest)
      let (ms, s) ← parseMembers? fuel (skipBlanks s)
      return (m :: ms, s)
    | _ => none

end

/-- The term of a text. Every step takes a character at the latest after two more, so the fuel is
enough. That a text is read to its end is asked only here. -/
def parseChars? (s : List Char) : Option Term :=
  match parseAt? (3 * s.length + 3) (skipBlanks s) with
  | some (t, rest) => if (skipBlanks rest).isEmpty then some t else none
  | none => none

def parse? (text : String) : Option Term := parseChars? text.toList

/-- The term of a text in UTF-8. -/
def parseBytes? (bytes : ByteArray) : Option Term := (String.fromUTF8? bytes).bind parse?

/-! ### From terms to documents and back -/

mutual

/-- The document of a term, members as written. It is here that a number may be too large, a string
may have no text, and a place may be too deep. -/
def read? (r : Reader) (room : Nat) : Term → Option Json
  | .null => some .null
  | .bool b => some (.bool b)
  | .number l => (Number.ofLiteral? r l).map .num
  | .string text => text.map .str
  | .array xs =>
    match room with
    | 0 => none
    | room + 1 => (readItems? r room xs).map .arr
  | .object ms =>
    match room with
    | 0 => none
    | room + 1 => (readMembers? r room ms).map .obj

def readItems? (r : Reader) (room : Nat) : List Term → Option (List Json)
  | [] => some []
  | x :: xs => do return (← read? r room x) :: (← readItems? r room xs)

def readMembers? (r : Reader) (room : Nat) :
    List (Option String × Term) → Option (List (String × Json))
  | [] => some []
  | (name, x) :: ms => do return (← name, ← read? r room x) :: (← readMembers? r room ms)

end

mutual

/-- The term of a document. -/
def ofJson : Json → Term
  | .null => .null
  | .bool b => .bool b
  | .num n => .number n.literal
  | .str s => .string (some s)
  | .arr xs => .array (ofItems xs)
  | .obj ms => .object (ofMembers ms)

def ofItems : List Json → List Term
  | [] => []
  | x :: xs => ofJson x :: ofItems xs

def ofMembers : List (String × Json) → List (Option String × Term)
  | [] => []
  | (k, x) :: ms => (some k, ofJson x) :: ofMembers ms

end

/-- How deep arrays and objects may stand inside each other in a text. -/
def maxDepth : Nat := 127

/-- The document of a term in normal form. Repeated members of an object have become one then, of
which the last value counts. -/
def value? (r : Reader) (t : Term) : Option Json := (t.read? r maxDepth).map normalize

end Term

/-- The document of a text. -/
def parse? (r : Reader) (text : String) : Option Json := (Term.parse? text).bind (Term.value? r)

/-- The document of a text in UTF-8. -/
def parseBytes? (r : Reader) (bytes : ByteArray) : Option Json :=
  (Term.parseBytes? bytes).bind (Term.value? r)

end ConfigTree.Json
