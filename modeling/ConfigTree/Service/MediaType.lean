/-!
# Media types

The type of a request's body as its header gives it: a kind, a subtype, perhaps with a suffix after
a plus, and parameters.
-/

namespace ConfigTree

/-- What follows the slash of a media type. -/
structure MediaType where
  subtype : List Char
  suffix : Option (List Char)
deriving DecidableEq, Repr

namespace MediaType

/-- Whether a character may stand in a name. -/
def isNameChar (c : Char) : Bool :=
  c.isAlphanum || "!#$%&'*+-.^_\x60|~".toList.contains c

/-- Whether a character may stand in quotes. -/
def isQuotable (c : Char) : Bool := ' ' ≤ c && c ≤ '~'

/-- What follows a first character in quotes, if the quotes are closed. -/
def unquoted? : List Char → Option (List Char)
  | c :: rest =>
    if isQuotable c then
      match rest.dropWhile fun d => isQuotable d && d != '"' with
      | '"' :: tail => some tail
      | _ => none
    else none
  | [] => none

/-- Whether a text is a sequence of parameters, each a name and a value, separated by semicolons.
Each takes at least one character, which the fuel counts. -/
def areParameters : Nat → List Char → Bool
  | 0, _ => false
  | fuel + 1, cs =>
    match cs.dropWhile (· = ' ') with
    | [] => true
    | cs =>
      match cs.span isNameChar with
      | (_ :: _, '=' :: '"' :: rest) =>
        match (unquoted? rest).map fun tail => tail.dropWhile (· = ' ') with
        | some [] => true
        | some (';' :: next) => areParameters fuel next
        | _ => false
      | (_ :: _, '=' :: rest) =>
        match rest.span isNameChar with
        | (_, []) => true
        | (_ :: _, ';' :: next) => areParameters fuel next
        | _ => false
      | _ => false

/-- Takes a name apart at its last plus, which does not come first. -/
def ofName (name : List Char) : MediaType :=
  let back := name.reverse
  match back.dropWhile (· != '+') with
  | '+' :: front@(_ :: _) => ⟨front.reverse, some (back.takeWhile (· != '+')).reverse⟩
  | _ => ⟨name, none⟩

def parse? (text : String) : Option MediaType :=
  match text.toList.span isNameChar with
  | (_ :: _, '/' :: rest) =>
    match rest.span isNameChar with
    | (name, []) => some (ofName name)
    | (name@(_ :: _), ';' :: parameters) =>
      if areParameters (parameters.length + 1) parameters then some (ofName name) else none
    | _ => none
  | _ => none

/-- Whether a body of that type is a document. Case does not matter. -/
def isJson (m : MediaType) : Bool :=
  let json := ['j', 's', 'o', 'n']
  m.subtype.map Char.toLower == json || m.suffix.map (·.map Char.toLower) == some json

end MediaType

end ConfigTree
