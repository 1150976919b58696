/-!
# UTF-8 with faults

`decodeLossy` reads bytes as UTF-8 and puts the replacement character where they are not: one for
each longest run that begins a character and is not continued to its end, and one for each byte
that begins none.
-/

namespace ConfigTree.Text

/-- The replacement character. -/
def replacement : Char := '\uFFFD'

/-- Where a decoder stands: between characters, or inside one, where a byte of `low` to `high` and
then `more` others are due and `code` is the number so far. -/
inductive DecoderState where
  | start
  | inside (more : Nat) (low high : UInt8) (code : Nat)
deriving DecidableEq, Repr

namespace DecoderState

/-- A byte between characters: the state after it, and the character it completes. The bounds for
the next byte leave out what would be longer than necessary, a surrogate, or beyond the last
character. -/
def begin (b : UInt8) : DecoderState × List Char :=
  if b < 0x80 then (.start, [Char.ofNat b.toNat])
  else if 0xC2 ≤ b && b ≤ 0xDF then (.inside 0 0x80 0xBF (b.toNat - 0xC0), [])
  else if b = 0xE0 then (.inside 1 0xA0 0xBF 0, [])
  else if b = 0xED then (.inside 1 0x80 0x9F 0xD, [])
  else if 0xE1 ≤ b && b ≤ 0xEF then (.inside 1 0x80 0xBF (b.toNat - 0xE0), [])
  else if b = 0xF0 then (.inside 2 0x90 0xBF 0, [])
  else if 0xF1 ≤ b && b ≤ 0xF3 then (.inside 2 0x80 0xBF (b.toNat - 0xF0), [])
  else if b = 0xF4 then (.inside 2 0x80 0x8F 4, [])
  else (.start, [replacement])

/-- The characters of the bytes that follow a state. A byte that does not continue a character ends
it and is read again as a first one, so that nothing but the broken character is replaced. -/
def run : DecoderState → List UInt8 → List Char
  | .start, [] => []
  | .inside .., [] => [replacement]
  | .start, b :: rest =>
    let (next, out) := begin b
    out ++ run next rest
  | .inside more low high code, b :: rest =>
    if low ≤ b && b ≤ high then
      let code := code * 64 + (b.toNat - 0x80)
      match more with
      | 0 => Char.ofNat code :: run .start rest
      | more + 1 => run (.inside more 0x80 0xBF code) rest
    else
      let (next, out) := begin b
      replacement :: (out ++ run next rest)

end DecoderState

/-- The text of bytes, with replacement characters where they are not UTF-8. Bytes that are UTF-8
are read as that, and the decoder is asked only for the others. -/
def decodeLossy (bytes : ByteArray) : String :=
  (String.fromUTF8? bytes).getD (String.ofList (DecoderState.run .start bytes.data.toList))

end ConfigTree.Text
