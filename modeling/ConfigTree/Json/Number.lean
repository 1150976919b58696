import ConfigTree.Binary64.Decimal
import ConfigTree.Text.Digit

/-!
# Numbers of a document

A number is written as a literal: digits, perhaps a fraction, perhaps an exponent. A literal
without fraction and exponent stands for a whole number if that fits 64 bits, with or without a
sign; every other literal, and minus zero, stands for a binary64 number.

Which binary64 number that is depends on the reader. `Reader.scaled` is the one that documents are
read with: it takes as many leading digits as fit 64 bits and scales them by powers of ten,
rounding at each step. `Reader.nearest` rounds once. What a document's writer relies on is
`Reader.ReadsBack`: each float that is written is read as the same float.
-/

namespace ConfigTree.Json

/-- A numeral as the grammar of documents has it. An empty fraction stands for none. -/
structure Literal where
  negative : Bool
  whole : List Digit
  fraction : List Digit
  exponent : Option Int
deriving DecidableEq, Repr

namespace Literal

/-- No fraction and no exponent. It is the writing that counts, not the value: `10.0` is not whole
here. -/
def isWhole (l : Literal) : Bool := l.fraction.isEmpty && l.exponent.isNone

/-- The value but for the sign. Whole part and fraction are one row of digits, which the exponent
shifts. -/
def decimal (l : Literal) : Decimal :=
  ⟨Digit.value (l.whole ++ l.fraction), l.exponent.getD 0 - l.fraction.length⟩

/-- The literal of a whole number: its digits, and a minus where it is negative. -/
def ofInt (n : Int) : Literal := ⟨n < 0, Digit.ofNat n.natAbs, [], none⟩

/-- Numbers from `10 ^ -5` up to below `10 ^ 16` are written positionally. -/
def isPositional (lead : Int) : Bool := -5 ≤ lead ∧ lead < 16

/-- The shortest digits of a number. Positional notation has at least one digit on each side of
the point; the other has one digit before the point and an exponent. -/
def ofBinary64 (x : Binary64) : Literal :=
  let d := x.shortest
  let ds := Digit.ofNat d.digits
  let point : Int := ds.length + d.exponent
  if x.isZero then ⟨x.negative, [Digit.zero], [Digit.zero], none⟩
  else if isPositional (point - 1) then
    let zeros (n : Int) : List Digit := List.replicate n.toNat Digit.zero
    -- the point stands before the digits, after them, or between two of them
    if point ≤ 0 then ⟨x.negative, [Digit.zero], zeros (-point) ++ ds, none⟩
    else if ds.length ≤ point then
      ⟨x.negative, ds ++ zeros (point - ds.length), [Digit.zero], none⟩
    else ⟨x.negative, ds.take point.toNat, ds.drop point.toNat, none⟩
  else ⟨x.negative, ds.take 1, ds.drop 1, some (point - 1)⟩

/-- The text of an exponent has its sign, also a plus. -/
def exponentChars : Option Int → List Char
  | none => []
  | some e => 'e' :: (if 0 ≤ e then '+' else '-') :: (Digit.ofNat e.natAbs).map Digit.char

def fractionChars : List Digit → List Char
  | [] => []
  | ds => '.' :: ds.map Digit.char

def chars (l : Literal) : List Char :=
  (if l.negative then ['-'] else []) ++ l.whole.map Digit.char ++ fractionChars l.fraction
    ++ exponentChars l.exponent

end Literal

/-- How literals are read as binary64 numbers; a literal may be too large for one. -/
structure Reader where
  float : Literal → Option Binary64

namespace Reader

/-- Every float is read back from its text. It is what the statements on stores ask of a reader:
`nearest` has it, and for trees without floats it is not needed. -/
def ReadsBack (r : Reader) : Prop := ∀ x, r.float (Literal.ofBinary64 x) = some x

/-- Reads the nearest number. Digits are not limited: all of them count, also beyond 64 bits. -/
def nearest : Reader := ⟨fun l => l.decimal.nearest? l.negative⟩

/-- `2 ^ 64`. -/
def significandBound : Nat := 18446744073709551616

/-- Appends digits to a number while the result fits 64 bits: the number then, and how many digits
it took. The digits that are left are not looked at any more, so the number is cut and not
rounded. -/
def absorb (significand : Nat) : List Digit → Nat × Nat
  | [] => (significand, 0)
  | d :: ds =>
    if 10 * significand + d < significandBound then
      let (s, n) := absorb (10 * significand + d) ds
      (s, n + 1)
    else (significand, 0)

/-- The number nearest to a power of ten up to `10 ^ 308`. -/
def powerOfTen (n : Nat) : Binary64 := (Binary64.ofNat? false (Nat.pow 10 n)).getD .zero

/-- Multiplies by a power of ten; beyond the largest one only zero has a product. -/
def scaleUp (x : Binary64) (n : Nat) : Option Binary64 :=
  if n ≤ 308 then x.mul? (powerOfTen n)
  else if x.isZero then some x
  else none

/-- Divides by a power of ten, in steps of at most the largest one. -/
def scaleDown (x : Binary64) (n : Nat) : Option Binary64 :=
  if n ≤ 308 then x.div? (powerOfTen n)
  else if x.isZero then some x
  else (x.div? (powerOfTen 308)).bind fun y => scaleDown y (n - 308)
termination_by n

/-- Reads the leading digits that fit 64 bits and scales them. Further digits of the whole part
count for the exponent only, further digits of the fraction not at all. -/
def scaled : Reader where
  float l :=
    let (s, n) := absorb 0 l.whole
    let (s, m) := absorb s l.fraction
    let exponent : Int := (l.whole.length - n : Nat) - m + l.exponent.getD 0
    (Binary64.ofNat? false s).bind fun x =>
      (if 0 ≤ exponent then scaleUp x exponent.toNat else scaleDown x (-exponent).toNat).map
        fun y => { y with negative := l.negative }

end Reader

/-- Whether a whole number fits 64 bits, with a sign or without one: it is at least `-2 ^ 63` and
below `2 ^ 64`. -/
abbrev Fits (n : Int) : Prop := -9223372036854775808 ≤ n ∧ n < 18446744073709551616

/-- A number: a whole one that fits 64 bits with or without a sign, or a float. The two kinds are
kept apart, `10` from `10.0`. -/
inductive Number where
  | whole (n : Int) (fits : Fits n)
  | float (x : Binary64)
deriving DecidableEq, Repr

namespace Number

/-- A whole number, where it fits. Nothing is rounded to make it fit. -/
def ofInt? (n : Int) : Option Number :=
  if h : Fits n then some (.whole n h) else none

/-- The whole number that a literal stands for. Minus zero is none. -/
def wholeOfLiteral? (l : Literal) : Option Number :=
  let n : Int := if l.negative then -Digit.value l.whole else Digit.value l.whole
  -- minus zero is a float, since no whole number has its sign
  if l.isWhole && !(l.negative && n == 0) then ofInt? n else none

/-- The number that a literal stands for: a float, where it is no whole number. -/
def ofLiteral? (r : Reader) (l : Literal) : Option Number :=
  match wholeOfLiteral? l with
  | some n => some n
  | none => (r.float l).map .float

def literal : Number → Literal
  | whole n _ => Literal.ofInt n
  | float x => Literal.ofBinary64 x

def chars (n : Number) : List Char := n.literal.chars

/-- The value as an integer of 64 bits with a sign; floats have none, also where their value is
whole. -/
def toInt64? : Number → Option Int64
  | whole n _ => if n < 9223372036854775808 then some (Int64.ofInt n) else none
  | float _ => none

/-- The value as an integer of 64 bits without a sign; floats have none, also where their value is
whole. -/
def toUInt64? : Number → Option UInt64
  | whole n _ => if 0 ≤ n then some (UInt64.ofNat n.toNat) else none
  | float _ => none

/-- The nearest binary64 number. A whole number that fits 64 bits is never too large for one, though
it may not be one itself. -/
def toBinary64 : Number → Binary64
  | whole n _ => (Binary64.ofNat? (n < 0) n.natAbs).getD .zero
  | float x => x

def ofInt64 (n : Int64) : Number :=
  .whole n.toInt ⟨n.le_toInt, by have := n.toInt_lt; omega⟩

def ofUInt64 (n : UInt64) : Number :=
  .whole n.toNat ⟨by omega, by have := n.toNat_lt; omega⟩

end Number

end ConfigTree.Json
