import ConfigTree.Error
import ConfigTree.Path.Basic
import ConfigTree.Scalar.TypedValue
import ConfigTree.Text.Blank
import ConfigTree.Text.Numeral
import ConfigTree.Text.Utf8

/-!
# Scalars in the tree

Leaves are held as scalars of a document. Here are their relations to the other forms of a scalar:
the text of a key, the typed value of an update, and what a payload has. `canonicalScalar` brings
the scalar of a payload into the form it is held in, and `checkScalar` says whether what is held is
of its kind.
-/

namespace ConfigTree

open Json (Number)

/-! ### Keys -/

/-- The text of a held scalar, by which entries are matched: a string is its own text, all else has
that of a document. Different scalars may have one text, as `7` and `"7"` have. -/
def keyString : Json → String
  | .str s => s
  | j => j.render

/-- The number that the text of a key stands for, for keys of a numeric kind. The width of the kind
is not asked for here, so that a number too wide for it is a number still. -/
def keyNumber? (text : String) : ScalarKind → Option Number
  | .int _ => (Text.signed text).toOption.bind Number.ofInt?
  | .uint _ => (Text.unsigned text).toOption.bind fun n => Number.ofInt? n
  | .decimal =>
    match Text.binary64? text with
    | some (.finite x) => some (.float x)
    | _ => none
  | _ => none

/-- The form in which the key of a new entry is held: a number for a numeric kind, if the text is
one, and the text otherwise. The text of a number need not be the one that was given, since zeros in
front of it are not held. -/
def keyValue (text : String) (kind : Option ScalarKind) : Json :=
  match kind.bind (keyNumber? text) with
  | some n => .num n
  | none => .str text

/-! ### Typed values -/

mutual

/-- The held form of a typed scalar or of a list of them. -/
def TypedValue.toHeld (path : String) : TypedValue → Except TreeError Json
  | .string s => .ok (.str s)
  | .int n => .ok (.num (.ofInt64 n))
  | .uint n => .ok (.num (.ofUInt64 n))
  | .bool b => .ok (.bool b)
  | .bytes b => .ok (.str (Text.decodeLossy b))
  | .float (.finite x) => .ok (.num (.float x))
  | .float x => .error (.invalidValue path (.notFinite x))
  | .leafList items => (TypedValue.toHeldItems path items).map .arr
  | .json _ | .jsonIetf _ => .error (.invalidValue path .document)

def TypedValue.toHeldItems (path : String) : List TypedValue → Except TreeError (List Json)
  | [] => .ok []
  | v :: vs => do
    -- a list in a list has no held form
    if v.isLeafList then throw (.invalidValue path .nestedLeafList)
    let x ← TypedValue.toHeld path v
    return x :: (← TypedValue.toHeldItems path vs)

end

/-- The typed value of a held scalar of a kind; an array has none here. Bytes and enumerations come
back as strings, which is how they are held. -/
def typedScalar? : ScalarKind → Json → Option TypedValue
  | .string, j | .enumeration _, j | .binary, j => j.str?.map .string
  | .int _, j => (j.num?.bind Number.toInt64?).map .int
  | .uint _, j => (j.num?.bind Number.toUInt64?).map .uint
  | .bool, j => j.bool?.map .bool
  | .decimal, j => j.num?.map fun n => .float (.finite n.toBinary64)

mutual

/-- The typed value of a held scalar, or of an array of them. -/
def TypedValue.ofHeld (path : String) (kind : ScalarKind) : Json → Except TreeError TypedValue
  | .arr items => (TypedValue.ofHeldItems path kind items).map .leafList
  | j =>
    match typedScalar? kind j with
    | some v => .ok v
    | none => .error (.invalidValue path (.storedMismatch j kind))

def TypedValue.ofHeldItems (path : String) (kind : ScalarKind) :
    List Json → Except TreeError (List TypedValue)
  | [] => .ok []
  | j :: js => do
    let v ← TypedValue.ofHeld path kind j
    return v :: (← TypedValue.ofHeldItems path kind js)

end

/-! ### Payloads -/

/-- A whole number between `low` and `high`, at the nearer end if it lies outside. A number that is
cut off in this way is no failure. -/
def clamp (low high n : Int) : Int := max low (min high n)

/-- The least whole number with a sign, `-2 ^ 63`. -/
def leastSigned : Int := -9223372036854775808

/-- The greatest whole number with a sign, `2 ^ 63 - 1`. -/
def greatestSigned : Int := 9223372036854775807

/-- The greatest whole number without a sign, `2 ^ 64 - 1`. -/
def greatestUnsigned : Int := 18446744073709551615

/-- The value of a float that is whole and between `-2 ^ 63` and `2 ^ 64`. The upper bound is let
in, though no whole number of 64 bits has that value. -/
def wholeFloat? (x : Binary64) : Option Int :=
  x.whole?.filter fun n => decide (leastSigned ≤ n ∧ n ≤ greatestUnsigned + 1)

/-- A number as a whole one with a sign. One that does not fit as it stands goes through the nearest
float, and what that has beyond the bounds is cut off. -/
def signedNumber? (n : Number) : Option Number :=
  match n.toInt64? with
  | some i => some (.ofInt64 i)
  | none =>
    (wholeFloat? n.toBinary64).bind fun i => Number.ofInt? (clamp leastSigned greatestSigned i)

/-- A number as a whole one without a sign. One that does not fit as it stands goes through the
nearest float. -/
def unsignedNumber? (n : Number) : Option Number :=
  match n.toUInt64? with
  | some i => some (.ofUInt64 i)
  | none =>
    ((wholeFloat? n.toBinary64).filter fun i => decide (0 ≤ i)).bind fun i =>
      Number.ofInt? (clamp 0 greatestUnsigned i)

/-- The held form of a payload's scalar, if its shape is one that the kind accepts; the inner option
is empty where the shape is accepted and the value is not. -/
def coerce? : ScalarKind → Json → Option (Option Json)
  | .string, .str s => some (some (.str s))
  | .string, .num n => some (some (.str (String.ofList n.chars)))
  | .string, .bool b => some (some (.str (if b then "true" else "false")))
  | .int _, .num n => some ((signedNumber? n).map .num)
  | .int _, .str s =>
    some (((Text.signed (Text.trimmed s)).toOption.bind Number.ofInt?).map .num)
  | .uint _, .num n => some ((unsignedNumber? n).map .num)
  | .uint _, .str s =>
    some (((Text.unsigned (Text.trimmed s)).toOption.bind fun n => Number.ofInt? n).map .num)
  | .bool, .bool b => some (some (.bool b))
  | .bool, .str s => some ((Text.bool? s).map .bool)
  | .decimal, .num n => some (some (.num n))
  | .decimal, .str s =>
    some (match Text.binary64? (Text.trimmed s) with
      | some (.finite x) => some (.num (.float x))
      | _ => none)
  -- whether the name is one of the kind is checked later, of the form that is held
  | .enumeration _, .str s => some (some (.str (localName s)))
  | .binary, .str s => some (some (.str s))
  -- no other shape is accepted, whatever the value
  | _, _ => none

/-- Brings a payload's scalar into the form it is held in. Numeric kinds accept numerals as
strings; strings accept numbers and truth values; enumerations drop a module. -/
def canonicalScalar (path : String) (kind : ScalarKind) (raw : Json) : Except TreeError Json :=
  match coerce? kind raw with
  | some (some j) => .ok j
  | some none => .error (.invalidValue path (.inconvertible kind))
  | none => .error (.invalidValue path (.notOfKind raw kind))

/-! ### Ranges -/

/-- Whether a held scalar is of a kind: numbers within their width, enumerations by their names. It
looks at what is held, and so at the whole name of an enumeration. -/
def isOfKind : ScalarKind → Json → Bool
  | .string, j | .binary, j => j.str?.isSome
  | .int bits, j =>
    match j.num?.bind Number.toInt64? with
    | some i =>
      let half : Int := Nat.pow 2 (ScalarKind.width bits - 1)
      decide (-half ≤ i.toInt ∧ i.toInt < half)
    | none => false
  | .uint bits, j =>
    match j.num?.bind Number.toUInt64? with
    | some n => decide (n.toNat < Nat.pow 2 (ScalarKind.width bits))
    | none => false
  | .bool, j => j.bool?.isSome
  | .decimal, j => j.num?.isSome
  | .enumeration values, j =>
    match j.str? with
    | some s => values.contains s
    | none => false

/-- Refuses a held scalar that is not of its kind. It changes nothing, unlike `canonicalScalar`,
which is why both are needed: the one for the form, the other for the range. -/
def checkScalar (path : String) (kind : ScalarKind) (held : Json) : Except TreeError Unit :=
  if isOfKind kind held then .ok ()
  else .error (.invalidData path (.notOfKind held kind))

end ConfigTree
