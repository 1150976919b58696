import ConfigTree.Binary64.Basic

/-!
# Typed values

The value of an update: a scalar, a list of scalars, or a whole subtree as the text of a document.
A document names its members plainly (`json`) or with the modules they come from (`jsonIetf`).
-/

namespace ConfigTree

inductive TypedValue where
  | string (s : String)
  | int (n : Int64)
  | uint (n : UInt64)
  | bool (b : Bool)
  | bytes (b : ByteArray)
  | float (x : Binary64.Extended)
  | json (document : ByteArray)
  | jsonIetf (document : ByteArray)
  | leafList (items : List TypedValue)
deriving Inhabited

namespace TypedValue

/-- The text of a subtree, if the value is one. Which of the two namings it uses does not matter to
whoever reads it, since both are read alike. -/
def document? : TypedValue → Option ByteArray
  | .json d | .jsonIetf d => some d
  | _ => none

def isLeafList : TypedValue → Bool
  | .leafList _ => true
  | _ => false

mutual

/-- Equality of values, floats compared by value: the two zeros are equal, and what is no number
differs from itself. Values of different constructors are never equal, not even an integer and the
same integer without a sign. -/
def same : TypedValue → TypedValue → Bool
  | .string a, .string b => a == b
  | .int a, .int b => a == b
  | .uint a, .uint b => a == b
  | .bool a, .bool b => a == b
  | .bytes a, .bytes b => a == b
  | .float a, .float b => a.sameValue b
  | .json a, .json b => a == b
  | .jsonIetf a, .jsonIetf b => a == b
  | .leafList a, .leafList b => sameList a b
  | _, _ => false

def sameList : List TypedValue → List TypedValue → Bool
  | [], [] => true
  | a :: as, b :: bs => same a b && sameList as bs
  | _, _ => false

end

instance : BEq TypedValue := ⟨same⟩

end TypedValue

end ConfigTree
