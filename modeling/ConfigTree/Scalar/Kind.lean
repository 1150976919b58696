import ConfigTree.Text.Quoted

/-!
# Kinds of scalars

The type of a leaf's value. Whole numbers have a width in bits, which counts as at least one and at
most sixty-four.
-/

namespace ConfigTree

inductive ScalarKind where
  | string
  | int (bits : UInt8)
  | uint (bits : UInt8)
  | bool
  | decimal
  | enumeration (values : List String)
  | binary
deriving DecidableEq, Repr, Inhabited

namespace ScalarKind

/-- The width that a number of bits stands for. No width is refused: one that is out of bounds
counts as the nearest that is not. -/
def width (bits : UInt8) : Nat := max 1 (min 64 bits.toNat)

/-- How messages show a kind. A brace is part of the text here, and the names of an enumeration are
quoted. -/
def shown : ScalarKind → String
  | .string => "String"
  | .int bits => s!"Int \x7b bits: {bits.toNat} \x7d"
  | .uint bits => s!"Uint \x7b bits: {bits.toNat} \x7d"
  | .bool => "Bool"
  | .decimal => "Decimal"
  | .enumeration values =>
    let names := ", ".intercalate (values.map Text.quoted)
    s!"Enumeration \x7b values: [{names}] \x7d"
  | .binary => "Binary"

end ScalarKind

end ConfigTree
