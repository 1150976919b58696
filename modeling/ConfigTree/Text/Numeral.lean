import ConfigTree.Binary64.Decimal
import ConfigTree.Text.Digit

/-!
# Numerals

Numbers that users write as text: whole numbers of 64 bits with an optional sign, and binary64
numbers, which may leave out one side of the point, have an exponent, or be infinite or no number.
-/

namespace ConfigTree.Text

/-- Why a text is no whole number. -/
inductive NumeralFault where
  | empty
  | invalidDigit
  | tooLarge
  | tooSmall
deriving DecidableEq, Repr

def NumeralFault.message : NumeralFault → String
  | .empty => "cannot parse integer from empty string"
  | .invalidDigit => "invalid digit found in string"
  | .tooLarge => "number too large to fit in target type"
  | .tooSmall => "number too small to fit in target type"

/-- Appends digits to a number as long as it stays below `limit`. The first digit that takes it
there ends the reading, so what comes after that is not looked at, not even for being a digit. -/
def appendDigits (limit : Nat) (overflow : NumeralFault) : Nat → List Char → Except NumeralFault Nat
  | n, [] => .ok n
  | n, c :: cs =>
    match Digit.ofChar? c with
    | none => .error .invalidDigit
    | some d => if 10 * n + d < limit then appendDigits limit overflow (10 * n + d) cs
      else .error overflow

/-- The digits of a number below `limit`: at least one. -/
def someDigits (limit : Nat) (overflow : NumeralFault) : List Char → Except NumeralFault Nat
  | [] => .error .invalidDigit
  | cs => appendDigits limit overflow 0 cs

/-- `2 ^ 64`, the first number that is too large without a sign. -/
def unsignedBound : Nat := 18446744073709551616

/-- `2 ^ 63`, the first number that is too large with a sign. -/
def signedBound : Nat := 9223372036854775808

/-- A whole number from zero on that fits 64 bits. A plus may stand in front of it, a minus may not,
and a sign alone is no number. -/
def unsigned (s : String) : Except NumeralFault Nat :=
  match s.toList with
  | [] => .error .empty
  | '+' :: cs => someDigits unsignedBound .tooLarge cs
  | cs => someDigits unsignedBound .tooLarge cs

/-- A whole number that fits 64 bits with a sign. The negative numbers reach one further than the
positive ones, so each sign has its own bound. -/
def signed (s : String) : Except NumeralFault Int :=
  match s.toList with
  | [] => .error .empty
  | '+' :: cs => (someDigits signedBound .tooLarge cs).map fun n => (n : Int)
  | '-' :: cs => (someDigits (signedBound + 1) .tooSmall cs).map fun n => -(n : Int)
  | cs => (someDigits signedBound .tooLarge cs).map fun n => (n : Int)

/-- A truth value by its name, in lower case and without blanks around it. -/
def bool? (s : String) : Option Bool :=
  if s = "true" then some true else if s = "false" then some false else none

/-- The names of what is no finite number, in any case. -/
def special? (negative : Bool) (cs : List Char) : Option Binary64.Extended :=
  let name := String.ofList (cs.map Char.toLower)
  if name = "inf" || name = "infinity" then some (.infinity negative)
  else if name = "nan" then some .nan
  else none

/-- An exponent up to the end of the text: no characters, or a letter, a sign perhaps, and
digits. -/
def exponent? : List Char → Option Int
  | [] => some 0
  | c :: rest =>
    if c = 'e' || c = 'E' then
      let (negative, ds) := match rest with
        | '-' :: ds => (true, ds)
        | '+' :: ds => (false, ds)
        | ds => (false, ds)
      match Digit.takeDigits ds with
      | ([], _) => none
      | (ds, []) => some (if negative then -(Digit.value ds : Int) else Digit.value ds)
      | _ => none
    else none

/-- A number without its sign. Digits are needed on one side of the point at least. -/
def unsignedDecimal? (cs : List Char) : Option Decimal :=
  let (whole, cs) := Digit.takeDigits cs
  let (fraction, cs) := match cs with
    | '.' :: rest => Digit.takeDigits rest
    | cs => ([], cs)
  if whole.isEmpty && fraction.isEmpty then none
  else (exponent? cs).map fun e => ⟨Digit.value (whole ++ fraction), e - fraction.length⟩

/-- A binary64 number, the nearest one to a decimal; beyond the finite ones it is infinite. So a
text of many digits is still a number, and it is left to the reader of it whether an infinite one
will do. -/
def binary64? (s : String) : Option Binary64.Extended :=
  let (negative, cs) := match s.toList with
    | '-' :: cs => (true, cs)
    | '+' :: cs => (false, cs)
    | cs => (false, cs)
  match unsignedDecimal? cs with
  | some d =>
    match d.nearest? negative with
    | some x => some (.finite x)
    | none => some (.infinity negative)
  | none => special? negative cs

end ConfigTree.Text
