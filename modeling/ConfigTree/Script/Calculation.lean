import ConfigTree.Script.Format
import ConfigTree.Script.Word

/-!
# Calculations

The value of an expression in whole numbers of 64 bits. Operators stand in levels, of which those
that bind less come first; names stand for numbers.

Scripts write them as `$((a + b))`. Like the rest of the language they stand for the shell of a
machine, as `Script.programs` says.
-/

namespace ConfigTree.Script.Calculation

/-- The binary operators, those that bind less before those that bind more. -/
def levels : List (List String) :=
  [["||"], ["&&"], ["|"], ["^"], ["&"], ["==", "!="], ["<=", ">=", "<", ">"], ["<<", ">>"],
    ["+", "-"], ["*", "/", "%"]]

def truth (b : Bool) : Int := if b then 1 else 0

/-- Why a text is no calculation. -/
inductive Fault where
  | noOperand
  | unfinished
  | division
  /-- The value of a variable is no number. -/
  | notNumber (text : String)
deriving DecidableEq, Repr

/-- What is said about a fault in an expression. -/
def Fault.message (expression : String) : Fault → String
  | noOperand => s!"arithmetic expression: expecting primary: \"{expression}\""
  | unfinished => s!"arithmetic expression: expecting EOF: \"{expression}\""
  | division => s!"arithmetic expression: division by zero: \"{expression}\""
  | notNumber text => s!"Illegal number: {text}"

abbrev Result (α : Type) := Except Fault α

/-- The value of a binary operation. -/
def operate (operator : String) (a b : Int) : Result Int :=
  match operator with
  | "||" => .ok (truth (a != 0 || b != 0))
  | "&&" => .ok (truth (a != 0 && b != 0))
  | "|" => .ok (Int64.ofInt a ||| Int64.ofInt b).toInt
  | "^" => .ok (Int64.ofInt a ^^^ Int64.ofInt b).toInt
  | "&" => .ok (Int64.ofInt a &&& Int64.ofInt b).toInt
  | "==" => .ok (truth (a == b))
  | "!=" => .ok (truth (a != b))
  | "<=" => .ok (truth (a ≤ b))
  | ">=" => .ok (truth (b ≤ a))
  | "<" => .ok (truth (a < b))
  | ">" => .ok (truth (b < a))
  | "<<" => .ok (Int64.ofInt a <<< Int64.ofInt b).toInt
  | ">>" => .ok (Int64.ofInt a >>> Int64.ofInt b).toInt
  | "+" => .ok (Int64.ofInt (a + b)).toInt
  | "-" => .ok (Int64.ofInt (a - b)).toInt
  | "*" => .ok (Int64.ofInt (a * b)).toInt
  | "/" => if b = 0 then .error .division else .ok (a.tdiv b)
  | "%" => if b = 0 then .error .division else .ok (a.tmod b)
  | _ => .error .noOperand

def skip (cs : List Char) : List Char := cs.dropWhile fun c => isBlank c || c == '\n'

/-- The value of the digits of a number: octal ones after a zero. -/
def number (ds : List Char) : Int :=
  let base := if ds.head? = some '0' then 8 else 10
  ds.foldl (fun n d => base * n + (d.toNat - '0'.toNat)) 0

/-- The operator among some that begins a text, the longest first. An operator that is part of a
longer one does not begin there. -/
def operator? (among : List String) (cs : List Char) : Option (String × List Char) :=
  let all := ["||", "&&", "==", "!=", "<=", ">=", "<<", ">>", "|", "^", "&", "<", ">", "+", "-",
    "*", "/", "%"]
  match all.find? fun o => o.toList.isPrefixOf cs with
  | some o => if among.contains o then some (o, cs.drop o.length) else none
  | none => none

mutual

/-- Takes an expression off a text whose operators are those of the given levels. -/
def binary (get : String → Result Int) :
    Nat → List (List String) → List Char → Result (Int × List Char)
  | 0, _, _ => .error .noOperand
  | fuel + 1, [], cs => unary get fuel (skip cs)
  | fuel + 1, operators :: more, cs => do
    let (a, cs) ← binary get fuel more cs
    operations get fuel operators more a (skip cs)

/-- Takes the operations of a level off a text that follow a value. -/
def operations (get : String → Result Int) :
    Nat → List String → List (List String) → Int → List Char → Result (Int × List Char)
  | 0, _, _, _, _ => .error .noOperand
  | fuel + 1, operators, more, a, cs =>
    match operator? operators cs with
    | some (o, rest) => do
      let (b, rest) ← binary get fuel more rest
      operations get fuel operators more (← operate o a b) (skip rest)
    | none => .ok (a, cs)

/-- Takes an operand off a text. -/
def unary (get : String → Result Int) : Nat → List Char → Result (Int × List Char)
  | 0, _ => .error .noOperand
  | fuel + 1, cs =>
    match cs with
    | '-' :: rest => (unary get fuel (skip rest)).map fun (n, rest) => (-n, rest)
    | '+' :: rest => unary get fuel (skip rest)
    | '!' :: rest => (unary get fuel (skip rest)).map fun (n, rest) => (truth (n == 0), rest)
    | '~' :: rest => (unary get fuel (skip rest)).map fun (n, rest) => (-n - 1, rest)
    | '(' :: rest => do
      match ← binary get fuel levels rest with
      | (n, ')' :: rest) => return (n, skip rest)
      | _ => throw .noOperand
    | c :: _ =>
      if c.isDigit then
        let (ds, rest) := cs.span Char.isDigit
        .ok (number ds, skip rest)
      else if beginsName c then
        let (name, rest) := cs.span continuesName
        (get (String.ofList name)).map fun n => (n, skip rest)
      else .error .noOperand
    | [] => .error .noOperand

end

/-- The value of an expression, in which names stand for numbers. -/
def value (get : String → Result Int) (cs : List Char) : Result Int :=
  match skip cs with
  | [] => .ok 0
  | cs => do
    match ← binary get (16 * (cs.length + 1)) levels cs with
    | (n, []) => return n
    | _ => throw .unfinished

/-- The value of the text of a variable, which is a number or nothing. -/
def ofText (text : String) : Result Int :=
  if text.isEmpty then .ok 0
  else
    match Format.takeNumber text.toList with
    | some (n, rest) => if rest.all Char.isWhitespace then .ok n else .error (.notNumber text)
    | none => .error (.notNumber text)

end ConfigTree.Script.Calculation
