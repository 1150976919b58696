import ConfigTree.Binary64.Basic

/-!
# Decimals and binary64 numbers

A decimal is a whole number times a power of ten. `Decimal.nearest?` reads one as the nearest
binary64 number. `shortest` goes the other way: of the decimals that read back as the number it
takes one with the fewest digits, and of two such the nearer.
-/

namespace ConfigTree

/-- `digits * 10 ^ exponent`. -/
structure Decimal where
  digits : Nat
  exponent : Int
deriving DecidableEq, Repr

namespace Decimal

/-- The number of decimal digits; zero has one. -/
def length (n : Nat) : Nat := (Nat.toDigits 10 n).length

/-- The nearest binary64 number. Exponents at which every number is infinite or zero are told
apart by the count of digits alone. -/
def nearest? (negative : Bool) (d : Decimal) : Option Binary64 :=
  if d.digits = 0 then some { Binary64.zero with negative }
  else if d.exponent + length d.digits > 310 then none
  else if d.exponent + length d.digits < -330 then some { Binary64.zero with negative }
  else if 0 ≤ d.exponent then
    Binary64.ofRatio? negative (d.digits * Nat.pow 10 d.exponent.toNat) 1
  else Binary64.ofRatio? negative d.digits (Nat.pow 10 (-d.exponent).toNat)

end Decimal

namespace Binary64

/-- The largest power of ten not above the absolute value of a number other than zero. -/
def leadingExponent (x : Binary64) : Int :=
  (Decimal.length (x.units * Nat.pow 10 400 / unitsPerOne) : Int) - 401

/-- The value in multiples of `10 ^ k`, rounded down, and what is left over, as a fraction of
that power: quotient, remainder and divisor. -/
def onGrid (x : Binary64) (k : Int) : Nat × Nat × Nat :=
  let num := if 0 ≤ k then x.units else x.units * Nat.pow 10 (-k).toNat
  let den := if 0 ≤ k then unitsPerOne * Nat.pow 10 k.toNat else unitsPerOne
  (num / den, num % den, den)

/-- Whether a decimal reads back as the number, which is what makes it a text of the number. Most of
the shortest ones are not its exact value. -/
def readsBack (x : Binary64) (d : Decimal) : Bool := d.nearest? x.negative == some x

/-- Of the two neighbours of the number among the multiples of `10 ^ k`, one that reads back: the
nearer if both do, the even one if they are equally near. Ten of the power are one of the next. -/
def neighbour? (x : Binary64) (k : Int) : Option Decimal :=
  let (q, r, den) := x.onGrid k
  let below : Decimal := ⟨q, k⟩
  let above : Decimal := if q = 9 then ⟨1, k + 1⟩ else ⟨q + 1, k⟩
  match x.readsBack below, x.readsBack above with
  | true, true =>
    if 2 * r < den ∨ (2 * r = den ∧ q % 2 = 0) then some below else some above
  | true, false => some below
  | false, true => some above
  | false, false => none

/-- The exact value as a decimal. It always reads back, and so is there for `shortest` to fall back
on; no number needs it. -/
def exact (x : Binary64) : Decimal := ⟨x.units * Nat.pow 5 1074, -1074⟩

/-- The shortest decimal that reads back as the number: grids are tried from the coarsest on.
Seventeen digits are always enough. -/
def shortest (x : Binary64) : Decimal :=
  if x.isZero then ⟨0, 0⟩
  else
    let lead := x.leadingExponent
    ((List.range 17).findSome? fun n : Nat => x.neighbour? (lead - n)).getD x.exact

end Binary64

end ConfigTree
