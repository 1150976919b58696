import ConfigTree.Script.Run
import ConfigTree.Script.Tool
import ConfigTree.Text.Numeral

/-!
# Conditions

The conditions that a script can test. An operator at which an operand is expected stands for
itself. This is the command `test` of a machine, which `Script.programs` writes out.
-/

namespace ConfigTree.Script.Condition

/-- A condition's value and the words after it, or why it is none. -/
abbrev Result := Except String (Bool × List String)

def unary : List String :=
  ["-n", "-z", "-e", "-f", "-d", "-r", "-w", "-x", "-s", "-t", "-b", "-c", "-p", "-u", "-g", "-k",
    "-h", "-L", "-S", "-O", "-G"]

def binary : List String :=
  ["=", "!=", "<", ">", "-eq", "-ne", "-gt", "-ge", "-lt", "-le", "-nt", "-ot", "-ef"]

/-- Whether a word is an operand where an operator with one operand might stand. -/
def isOperand : List String → Bool
  | [] => true
  | [_] => false
  | s :: _ => binary.contains s || s == "-a" || s == "-o"

/-- Whether an operator of that name begins words. -/
def begins (operator : String) : List String → Bool
  | w :: rest => w == operator && (operator != "(" || !rest.isEmpty)
  | [] => false

/-- Whether an operator with one operand begins words. -/
def beginsUnary : List String → Bool
  | w :: rest => unary.contains w && !isOperand rest
  | [] => false

/-- The number of an operand. -/
def number (text : String) : Except String Int :=
  let cs := (text.toList.dropWhile Char.isWhitespace).reverse.dropWhile Char.isWhitespace
  match Text.signed (String.ofList cs.reverse) with
  | .ok n => .ok n
  | .error _ => .error s!"Illegal number: {text}"

/-- The value of an operator with one operand. -/
def test (operator operand : String) : Bool :=
  match operator with
  | "-n" => operand != ""
  | "-z" => operand == ""
  | "-e" | "-r" => Tool.isPresent operand
  | "-d" | "-x" => Tool.directories.contains operand
  | "-c" => operand == "/dev/null"
  | "-w" => Tool.isPresent operand
  | _ => false

/-- The value of an operator between two operands. -/
def compare (operator a b : String) : Except String Bool := do
  match operator with
  | "=" => return a == b
  | "!=" => return a != b
  | "<" => return a < b
  | ">" => return b < a
  | "-eq" => return (← number a) == (← number b)
  | "-ne" => return (← number a) != (← number b)
  | "-gt" => return decide ((← number a) > (← number b))
  | "-ge" => return decide ((← number a) ≥ (← number b))
  | "-lt" => return decide ((← number a) < (← number b))
  | "-le" => return decide ((← number a) ≤ (← number b))
  | _ => return false

mutual

def alternatives : Nat → List String → Result
  | 0, ws => .ok (false, ws)
  | fuel + 1, ws => do
    let (a, ws) ← conjunction fuel ws
    if begins "-o" ws then
      let (b, ws) ← alternatives fuel ws.tail
      return (a || b, ws)
    else return (a, ws)

def conjunction : Nat → List String → Result
  | 0, ws => .ok (false, ws)
  | fuel + 1, ws => do
    let (a, ws) ← negation fuel ws
    if begins "-a" ws then
      let (b, ws) ← conjunction fuel ws.tail
      return (a && b, ws)
    else return (a, ws)

def negation : Nat → List String → Result
  | 0, ws => .ok (false, ws)
  | fuel + 1, ws =>
    if begins "!" ws then (negation fuel ws.tail).map fun (a, ws) => (!a, ws) else primary fuel ws

def primary : Nat → List String → Result
  | 0, ws => .ok (false, ws)
  | fuel + 1, ws =>
    if begins "(" ws then
      match ws.tail with
      | ")" :: rest => .ok (false, rest)
      | inner => do
        match ← alternatives fuel inner with
        | (a, ")" :: rest) => return (a, rest)
        | _ => .error "closing paren expected"
    else if beginsUnary ws then
      match ws with
      | operator :: operand :: rest => .ok (test operator operand, rest)
      | operator :: _ => .error s!"{operator}: argument expected"
      | [] => .ok (false, [])
    else
      match ws with
      | [] => .ok (false, [])
      | a :: rest =>
        match rest with
        | operator :: b :: more =>
          if binary.contains operator then (compare operator a b).map fun value => (value, more)
          else .ok (a != "", rest)
        | [operator] =>
          if binary.contains operator then .error s!"{operator}: argument expected"
          else .ok (a != "", rest)
        | [] => .ok (a != "", rest)

end

/-- The value of a condition that takes all words. -/
def whole (ws : List String) : Except String Bool := do
  match ← alternatives (4 * ws.length + 4) ws with
  | (value, []) => return value
  | (_, rest) =>
    let last := (ws[ws.length - rest.length - 1]?).getD ""
    .error s!"{last}: unexpected operator"

/-- The value of a condition. Words of a known number are read first in the way that fits it. -/
def value : List String → Except String Bool
  | [] => .ok false
  | ["!", a, operator, b] =>
    if binary.contains operator then (compare operator a b).map (!·)
    else whole ["!", a, operator, b]
  | ["(", a, b, ")"] => whole [a, b]
  | [a, operator, b] =>
    if binary.contains operator then compare operator a b
    else if a = "(" && b = ")" then whole [operator]
    else if a = "!" then (whole [operator, b]).map (!·)
    else whole [a, operator, b]
  | ws => whole ws

end ConfigTree.Script.Condition
