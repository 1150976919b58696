import ConfigTree.Text.Digit

/-!
# Durations

A duration is written in the largest unit of which it has at least one, seconds being the largest,
with as many decimal places as it needs.
-/

namespace ConfigTree.Text

/-- The decimal places of `n / 10 ^ places`, for a fraction below one, without zeros at the end. -/
def fractionDigits (places n : Nat) : List Digit :=
  let ds := Digit.ofNat n
  let padded := List.replicate (places - ds.length) Digit.zero ++ ds
  (padded.reverse.dropWhile (· == Digit.zero)).reverse

/-- The decimal of `n / 10 ^ places`. -/
def decimalChars (places n : Nat) : List Char :=
  let fraction := fractionDigits places (n % Nat.pow 10 places)
  (Digit.ofNat (n / Nat.pow 10 places)).map Digit.char
    ++ if fraction.isEmpty then [] else '.' :: fraction.map Digit.char

/-- The text of a number of nanoseconds. Nothing is rounded: all decimal places are written, up to
the last that is not zero. -/
def duration (nanoseconds : Nat) : String :=
  let (places, unit) :=
    if 1000000000 ≤ nanoseconds then (9, "s")
    else if 1000000 ≤ nanoseconds then (6, "ms")
    else if 1000 ≤ nanoseconds then (3, "µs")
    else (0, "ns")
  String.ofList (decimalChars places nanoseconds) ++ unit

end ConfigTree.Text
