import ConfigTree.Text.Hexadecimal
import ConfigTree.Text.Utf8

/-!
# Request targets

What a request is aimed at: a path, perhaps after a scheme and an authority and before a query and a
fragment. In the path a byte may be written as a percent sign and two hexadecimal digits. `path` is
the path alone, with such bytes decoded.
-/

namespace ConfigTree.Service.Target

/-- Whether a byte means something else in a path when it is decoded, and so is not. -/
def isReserved (b : UInt8) : Bool := "%/+".toUTF8.data.contains b

/-- The byte that a percent sign and two hexadecimal digits stand for, unless it is reserved. -/
def decoded? (sign high low : UInt8) : Option UInt8 := do
  guard (sign = 37)
  let high ← Text.hexValue? (Char.ofNat high.toNat)
  let low ← Text.hexValue? (Char.ofNat low.toNat)
  let b := UInt8.ofNat (16 * high + low)
  guard !isReserved b
  return b

/-- Replaces the bytes that are written as digits. What comes out is not decoded again. -/
def decode : List UInt8 → List UInt8
  | sign :: high :: low :: rest =>
    match decoded? sign high low with
    | some b => b :: decode rest
    | none => sign :: decode (high :: low :: rest)
  | bytes => bytes

/-- Whether a character may stand in a scheme. -/
def isSchemeChar (c : Char) : Bool := c.isAlphanum || c = '+' || c = '-' || c = '.'

/-- A target without its scheme and its authority, if it has them. -/
def dropAuthority (cs : List Char) : List Char :=
  match cs.dropWhile isSchemeChar with
  | ':' :: '/' :: '/' :: rest => rest.dropWhile fun c => c != '/' && c != '?' && c != '#'
  | _ => cs

/-- The path of a target. -/
def path (target : String) : String :=
  let cs := (dropAuthority target.toList).takeWhile fun c => c != '?' && c != '#'
  Text.decodeLossy ⟨(decode (String.ofList cs).toByteArray.data.toList).toArray⟩

end ConfigTree.Service.Target
