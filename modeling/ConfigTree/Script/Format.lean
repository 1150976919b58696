/-!
# Formatted texts

Texts in which characters may stand as escapes, and formats, whose directives are replaced by
arguments. A format is used again as long as there are arguments left. They are those of the
commands `echo` and `printf` of a machine, which `Script.programs` writes out.
-/

namespace ConfigTree.Script

/-- The value of an octal digit. -/
def octal? (c : Char) : Option Nat :=
  if '0' ≤ c && c ≤ '7' then some (c.toNat - '0'.toNat) else none

/-- The number of up to so many octal digits that begin a text, and what follows them. -/
def octalNumber : Nat → Nat → List Char → Nat × List Char
  | more + 1, n, c :: rest =>
    match octal? c with
    | some d => octalNumber more (8 * n + d) rest
    | none => (n, c :: rest)
  | _, n, rest => (n, rest)

/-- The character that a letter after a backslash stands for. -/
def control? (c : Char) : Option Char :=
  [('n', '\n'), ('t', '\t'), ('\\', '\\'), ('r', '\r'), ('a', '\x07'), ('b', '\x08'),
    ('f', '\x0c'), ('v', '\x0b')].lookup c

/-- The character of an escape after its backslash, and what follows it. -/
def escape? : List Char → Option (Char × List Char)
  | [] => none
  | c :: rest =>
    match control? c, octal? c with
    | some d, _ => some (d, rest)
    | none, some _ =>
      let (n, rest) := octalNumber 3 0 (c :: rest)
      some (Char.ofNat (n % 256), rest)
    | none, none => none

/-- A text with its escapes replaced, and whether one of them has ended it. The fuel counts
characters. -/
def unescape : Nat → List Char → List Char × Bool
  | 0, _ => ([], false)
  | _, [] => ([], false)
  | fuel + 1, '\\' :: rest =>
    let octalStart := match rest with
      | '0' :: d :: more => if (octal? d).isSome then d :: more else rest
      | rest => rest
    match rest, escape? octalStart with
    | 'c' :: _, _ => ([], true)
    | _, some (c, rest) => let (cs, ended) := unescape fuel rest; (c :: cs, ended)
    | _, none => let (cs, ended) := unescape fuel rest; ('\\' :: cs, ended)
  | fuel + 1, c :: rest => let (cs, ended) := unescape fuel rest; (c :: cs, ended)

def unescaped (cs : List Char) : List Char × Bool := unescape (cs.length + 1) cs

namespace Format

/-- What a directive asks for besides its letter. -/
structure Shape where
  left : Bool
  plus : Bool
  blank : Bool
  zero : Bool
  alternate : Bool
  width : Nat
  precision : Option Nat
deriving DecidableEq, Repr

/-- Fills a text up to the width of a shape. -/
def pad (s : Shape) (cs : List Char) : List Char :=
  let fill := List.replicate (s.width - cs.length) ' '
  if s.left then cs ++ fill else fill ++ cs

/-- A number with its sign, at least as long as the shape says. -/
def number (s : Shape) (sign : List Char) (digits : List Char) : List Char :=
  let digits := match s.precision with
    | some n => List.replicate (n - digits.length) '0' ++ digits
    | none =>
      if s.zero && !s.left then
        List.replicate (s.width - sign.length - digits.length) '0' ++ digits
      else digits
  pad s (sign ++ digits)

def digits (base n : Nat) : List Char := Nat.toDigits base n

/-- The whole number that begins a text, and what follows it. -/
def takeNumber (cs : List Char) : Option (Int × List Char) :=
  let cs := cs.dropWhile Char.isWhitespace
  let (negative, cs) := match cs with
    | '-' :: rest => (true, rest)
    | '+' :: rest => (false, rest)
    | cs => (false, cs)
  let (base, cs) := match cs with
    | '0' :: 'x' :: rest | '0' :: 'X' :: rest => (16, rest)
    | '0' :: _ => (8, cs)
    | cs => (10, cs)
  let digit? (c : Char) : Option Nat :=
    let n := if c.isDigit then c.toNat - '0'.toNat else c.toLower.toNat - 'a'.toNat + 10
    if c.isAlphanum && n < base then some n else none
  let (ds, rest) := cs.span fun c => (digit? c).isSome
  let n : Int := ds.foldl (fun n d => base * n + (digit? d).getD 0) 0
  if ds.isEmpty then none else some (if negative then -n else n, rest)

/-- What a format has come to: what it has written, the faults it has reported, the arguments left,
whether a directive has been replaced, and whether the format has ended early or can be used no
further. -/
structure Progress where
  written : List Char
  faults : List String
  arguments : List String
  used : Bool
  ended : Bool
  broken : Bool

namespace Progress

def write (p : Progress) (cs : List Char) : Progress := { p with written := p.written ++ cs }

/-- Takes an argument. -/
def next (p : Progress) : String × Progress :=
  (p.arguments.headD "", { p with arguments := p.arguments.tail, used := true })

/-- Takes an argument that is a number. -/
def nextNumber (p : Progress) : Int × Progress :=
  match p.arguments with
  | [] => (0, { p with used := true })
  | text :: rest =>
    let p := { p with arguments := rest, used := true }
    let withFault (fault : String) : Progress :=
      { p with faults := p.faults ++ [text ++ ": " ++ fault] }
    match text.toList with
    | [] => (0, p)
    | '"' :: rest | '\'' :: rest => ((rest.headD '\x00').toNat, p)
    | cs =>
      match takeNumber cs with
      | some (n, rest) =>
        if n < -9223372036854775808 then
          (-9223372036854775808, withFault "Numerical result out of range")
        else if 9223372036854775807 < n then
          (9223372036854775807, withFault "Numerical result out of range")
        else (n, if rest.isEmpty then p else withFault "not completely converted")
      | none => (0, withFault "expected numeric value")

/-- Replaces a directive. -/
def directive (p : Progress) (s : Shape) (letter : Char) : Progress :=
  match letter with
  | 's' =>
    let (text, p) := p.next
    p.write (pad s ((s.precision.map text.toList.take).getD text.toList))
  | 'b' =>
    let (text, p) := p.next
    let (cs, ended) := unescaped text.toList
    { p.write (pad s ((s.precision.map cs.take).getD cs)) with ended }
  | 'c' => let (text, p) := p.next; p.write (pad s [text.toList.headD '\x00'])
  | 'd' | 'i' =>
    let (n, p) := p.nextNumber
    let sign := if n < 0 then ['-'] else if s.plus then ['+'] else if s.blank then [' '] else []
    p.write (number s sign (digits 10 n.natAbs))
  | letter =>
    let (n, p) := p.nextNumber
    let n := (n % 18446744073709551616).toNat
    let (base, sign) : Nat × List Char := match letter with
      | 'o' => (8, if s.alternate then ['0'] else [])
      | 'x' | 'X' => (16, if s.alternate && n != 0 then ['0', letter] else [])
      | _ => (10, [])
    let ds := digits base n
    p.write (number s sign (if letter = 'X' then ds.map Char.toUpper else ds))

end Progress

/-- Takes the shape of a directive off a format. -/
def shape (p : Progress) (cs : List Char) : Shape × Progress × List Char :=
  let (flags, cs) := cs.span fun c => "-+ #0".toList.contains c
  let size (p : Progress) (cs : List Char) : Option Nat × Progress × List Char :=
    match cs with
    | '*' :: rest => let (n, p) := p.nextNumber; (some n.toNat, p, rest)
    | cs =>
      let (ds, rest) := cs.span Char.isDigit
      let n := ds.foldl (fun n d => 10 * n + (d.toNat - '0'.toNat)) 0
      (if ds.isEmpty then none else some n, p, rest)
  let (width, p, cs) := size p cs
  let (precision, p, cs) := match cs with
    | '.' :: rest => let (n, p, rest) := size p rest; (some (n.getD 0), p, rest)
    | cs => (none, p, cs)
  (⟨flags.contains '-', flags.contains '+', flags.contains ' ', flags.contains '0',
    flags.contains '#', width.getD 0, precision⟩, p, cs)

/-- Goes through a format once. The fuel counts characters. -/
def pass : Nat → Progress → List Char → Progress
  | 0, p, _ => p
  | _, p, [] => p
  | fuel + 1, p, '%' :: '%' :: rest => pass fuel (p.write ['%']) rest
  | fuel + 1, p, '%' :: rest =>
    let (s, p, left) := shape p rest
    match left with
    | letter :: left =>
      if "sbcdiuoxX".toList.contains letter then
        let p := p.directive s letter
        if p.ended then p else pass fuel p left
      else
        let text := String.ofList ('%' :: rest.take (rest.length - left.length))
        { p with faults := p.faults ++ [s!"{text}: invalid directive"], broken := true }
    | [] => { p with faults := p.faults ++ ["missing format character"], broken := true }
  | fuel + 1, p, '\\' :: rest =>
    match escape? rest with
    | some (c, rest) => pass fuel (p.write [c]) rest
    | none => pass fuel (p.write ['\\']) rest
  | fuel + 1, p, c :: rest => pass fuel (p.write [c]) rest

/-- Goes through a format as long as there are arguments left, of which each turn takes one. -/
def passes : Nat → Progress → List Char → Progress
  | 0, p, _ => p
  | fuel + 1, p, format =>
    let p := pass (format.length + 1) { p with used := false } format
    if p.ended || p.broken || !p.used || p.arguments.isEmpty then p else passes fuel p format

/-- What a format comes to with its arguments. -/
def fill (format : String) (arguments : List String) : Progress :=
  passes (arguments.length + 1) ⟨[], [], arguments, false, false, false⟩ format.toList

end Format

end ConfigTree.Script
