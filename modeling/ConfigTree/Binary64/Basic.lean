/-!
# Binary64 numbers

A finite binary64 number is held as a sign and a magnitude: the 63 bits below the sign bit of its
word, read as a natural number. Magnitudes have the order of the numbers, and the next number
up has the next magnitude. Every number is a whole multiple of the unit `2 ^ -1074`; `units` is
that multiple, so exact values are natural numbers.

`ofRatio?` rounds a fraction to the nearest number, to the even magnitude of two equally near
ones, and fails where the result would not be finite. Products and quotients are the exact
result, rounded once.
-/

namespace ConfigTree

namespace Binary64

/-- How many magnitudes have one exponent: `2 ^ 52`. -/
def binade : Nat := 4503599627370496

/-- The magnitude of the first number that is too large to be finite. -/
def infiniteMagnitude : Nat := 2047 * binade

end Binary64

/-- A finite binary64 number. Infinities and what is no number are kept out by the bound, so that
every value of this type has an exact value. -/
structure Binary64 where
  negative : Bool
  magnitude : Nat
  finite : magnitude < Binary64.infiniteMagnitude
deriving DecidableEq, Repr

namespace Binary64

def zero : Binary64 := ⟨false, 0, by decide⟩

instance : Inhabited Binary64 := ⟨zero⟩

def isZero (x : Binary64) : Bool := x.magnitude == 0

/-- The absolute value as a multiple of `2 ^ -1074`. Below `2 ^ 53` it is the magnitude itself;
above, the low 52 bits are the fraction after a leading one. -/
def units (x : Binary64) : Nat :=
  if x.magnitude < 2 * binade then x.magnitude
  else (binade + x.magnitude % binade) * Nat.pow 2 (x.magnitude / binade - 1)

/-- How many units make one. -/
def unitsPerOne : Nat := Nat.pow 2 1074

/-- The quotient to the nearest whole number; a half goes to the even neighbour. All rounding of
this arithmetic happens here. -/
def roundHalfEven (num den : Nat) : Nat :=
  let q := num / den
  let r := num % den
  if 2 * r < den then q
  else if den < 2 * r then q + 1
  else q + q % 2

/-- The magnitude nearest to a fraction, without a bound: the fraction is cut to 53 bits, or to
whole units where those are coarser. -/
def roundedMagnitude (num den : Nat) : Nat :=
  let scaled := num * unitsPerOne
  let shift := (scaled / den).log2 - 52
  shift * binade + roundHalfEven scaled (den * Nat.pow 2 shift)

/-- The number nearest to a fraction, unless that is infinite. The sign is given apart, since a
fraction that is rounded to zero keeps it. -/
def ofRatio? (negative : Bool) (num den : Nat) : Option Binary64 :=
  if h : roundedMagnitude num den < infiniteMagnitude then
    some ⟨negative, roundedMagnitude num den, h⟩
  else none

/-- The number nearest to a whole number. Up to `2 ^ 53` it is that number itself. -/
def ofNat? (negative : Bool) (n : Nat) : Option Binary64 := ofRatio? negative n 1

def mul? (x y : Binary64) : Option Binary64 :=
  ofRatio? (x.negative != y.negative) (x.units * y.units) (unitsPerOne * unitsPerOne)

/-- The quotient. The divisor must not be zero. -/
def div? (x y : Binary64) : Option Binary64 :=
  ofRatio? (x.negative != y.negative) x.units y.units

def neg (x : Binary64) : Binary64 := { x with negative := !x.negative }

/-- Numbers compare by value: the two zeros are equal. -/
def sameValue (x y : Binary64) : Bool := x == y || (x.isZero && y.isZero)

/-- The value, where it is a whole number. Minus zero is the whole number zero here. -/
def whole? (x : Binary64) : Option Int :=
  if x.units % unitsPerOne = 0 then
    let n : Int := x.units / unitsPerOne
    some (if x.negative then -n else n)
  else none

/-- A binary64 datum in full: a finite number, an infinity, or no number. -/
inductive Extended where
  | finite (x : Binary64)
  | infinity (negative : Bool)
  | nan
deriving DecidableEq, Repr

/-- Comparison by value; what is no number differs from itself. -/
def Extended.sameValue : Extended → Extended → Bool
  | .finite x, .finite y => x.sameValue y
  | .infinity a, .infinity b => a == b
  | _, _ => false

end Binary64

end ConfigTree
