/-!
# Socket addresses

The literal addresses at which a service can listen: an IPv4 address or an IPv6 address in brackets,
a colon and a port. Each reader takes its part off the front of a text and gives what is left.
-/

namespace ConfigTree.Address

/-- The value of a digit of a base up to sixteen. -/
def digit? (base : Nat) (c : Char) : Option Nat :=
  let value :=
    if c.isDigit then c.toNat - '0'.toNat
    else if 'a' ≤ c && c ≤ 'f' then c.toNat - 'a'.toNat + 10
    else if 'A' ≤ c && c ≤ 'F' then c.toNat - 'A'.toNat + 10
    else base
  if value < base then some value else none

/-- Takes a number below a limit of at most so many digits. -/
def number? (base limit maxDigits : Nat) (cs : List Char) : Option (List Char × List Char) :=
  let (ds, rest) := cs.span fun c => (digit? base c).isSome
  let value := ds.foldl (fun n c => base * n + (digit? base c).getD 0) 0
  if ds.isEmpty || maxDigits < ds.length || limit ≤ value then none else some (ds, rest)

/-- Takes a character. -/
def char? (c : Char) : List Char → Option (List Char)
  | d :: rest => if d = c then some rest else none
  | [] => none

/-- Takes one number of an IPv4 address, without zeros in front. -/
def octet? (cs : List Char) : Option (List Char) :=
  match number? 10 256 3 cs with
  | some ('0' :: _ :: _, _) => none
  | some (_, rest) => some rest
  | none => none

def ipv4? (cs : List Char) : Option (List Char) := do
  let cs ← octet? cs
  let cs ← octet? (← char? '.' cs)
  let cs ← octet? (← char? '.' cs)
  octet? (← char? '.' cs)

/-- Takes up to `room` groups of an IPv6 address, an IPv4 address at the end standing for two: how
many they are, whether there was such an end, and what is left. A colon stands before each but the
first. -/
def groups (first : Bool) : Nat → List Char → Nat × Bool × List Char
  | 0, cs => (0, false, cs)
  | room + 1, cs =>
    match if first then some cs else char? ':' cs with
    | none => (0, false, cs)
    | some inner =>
      match if 0 < room then ipv4? inner else none with
      | some rest => (2, true, rest)
      | none =>
        match number? 16 65536 4 inner with
        | none => (0, false, cs)
        | some (_, rest) =>
          let (n, ended, rest) := groups false room rest
          (n + 1, ended, rest)

/-- Takes an IPv6 address. Two colons stand for at least one group of zeros. -/
def ipv6? (cs : List Char) : Option (List Char) :=
  let (n, ended, rest) := groups true 8 cs
  if n = 8 then some rest
  else if ended then none
  else
    match rest with
    | ':' :: ':' :: rest => some (groups true (7 - n) rest).2.2
    | _ => none

/-- Takes the number of a zone, if there is one. -/
def zone? (cs : List Char) : Option (List Char) :=
  match cs with
  | '%' :: rest => (number? 10 4294967296 rest.length rest).map (·.2)
  | cs => some cs

/-- Whether a text is a colon and a port. -/
def isPort (cs : List Char) : Bool :=
  match cs with
  | ':' :: rest =>
    match number? 10 65536 rest.length rest with
    | some (_, []) => true
    | _ => false
  | _ => false

/-- Whether a text is a literal address. -/
def isLiteral (text : String) : Bool :=
  match text.toList with
  | '[' :: rest =>
    match (ipv6? rest).bind zone? with
    | some (']' :: port) => isPort port
    | _ => false
  | cs =>
    match ipv4? cs with
    | some port => isPort port
    | none => false

end ConfigTree.Address
