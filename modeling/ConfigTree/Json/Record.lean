import ConfigTree.Json.Term

/-!
# Records in documents

How the parts of a message are read from a term: scalars of a fixed type, lists, maps, records and
choices. Each array and object takes up one level of the depth that is left, `room`; what a record
does not ask for may be of any depth and need not have a value.

A record is an object that has each of its fields at most once, or an array of the fields in their
order, cut off anywhere. A choice is an object of one member, whose name says what the value is.
-/

namespace ConfigTree.Json.Term

/-! ### Scalars -/

def asString? : Term → Option String
  | .string text => text
  | _ => none

def asBool? : Term → Option Bool
  | .bool b => some b
  | _ => none

/-- A whole number; a float is none, whatever its value. -/
def asWhole? : Term → Option Number
  | .number l => Number.wholeOfLiteral? l
  | _ => none

def asInt64? (t : Term) : Option Int64 := t.asWhole?.bind Number.toInt64?

def asUInt64? (t : Term) : Option UInt64 := t.asWhole?.bind Number.toUInt64?

def asUInt8? (t : Term) : Option UInt8 :=
  (t.asUInt64?.filter fun n => n < 256).map UInt64.toUInt8

/-- A float, or the float nearest to a whole number. -/
def asBinary64? (r : Reader) : Term → Option Binary64
  | .number l => (Number.ofLiteral? r l).map Number.toBinary64
  | _ => none

/-! ### Lists and maps -/

/-- A list; `item` reads an item, with the room that is left inside. -/
def list? {α : Type} (item : Nat → Term → Option α) : Nat → Term → Option (List α)
  | room + 1, .array xs => xs.mapM (item room)
  | _, _ => none

/-- A map by names; the last value of a name counts. A repeated name is no fault here, unlike in a
record. -/
def map? {α : Type} (value : Nat → Term → Option α) : Nat → Term → Option (List (String × α))
  | room + 1, .object ms =>
    (ms.mapM fun m : Option String × Term => do return (← m.1, ← value room m.2)).map Members.ofList
  | _, _ => none

/-! ### Records -/

/-- The fields of a record: those of the given names that an object has, or the items of an array
under the names in order. A field that is there twice makes the record unreadable, while a member
that is no field is passed over. -/
def fields? (names : List String) : Term → Option (List (String × Term))
  | .object ms => do
    let named ← ms.mapM fun m : Option String × Term => m.1.map (·, m.2)
    let known := named.filter fun m => names.contains m.1
    if (known.map Prod.fst).Nodup then some known else none
  | .array xs => if xs.length ≤ names.length then some (names.zip xs) else none
  | _ => none

/-- The fields of a record that stands at a place with that much room, and the room inside it. -/
def record? (names : List String) : Nat → Term → Option (Nat × List (String × Term))
  | room + 1, t => (t.fields? names).map (room, ·)
  | 0, _ => none

/-- A field that must be there. A null is there, and it is up to the reader of the value to refuse
it. -/
def required? {α : Type} (fields : List (String × Term)) (name : String)
    (value : Term → Option α) : Option α :=
  (Members.get? fields name).bind value

/-- A field that has a default. It stands for a field that is left out and for no other, so a null
is read as a value. -/
def defaulted? {α : Type} (fields : List (String × Term)) (name : String) (default : α)
    (value : Term → Option α) : Option α :=
  match Members.get? fields name with
  | none => some default
  | some t => value t

/-- A field that may be left out or be null. Both are read as nothing, so a field of this sort
cannot hold a null. -/
def optional? {α : Type} (fields : List (String × Term)) (name : String)
    (value : Term → Option α) : Option (Option α) :=
  match Members.get? fields name with
  | none | some .null => some none
  | some t => (value t).map some

/-! ### Choices -/

/-- The name and the value of a choice, and the room inside it. An object with a second member is no
choice, whatever that is. -/
def choice? : Nat → Term → Option (String × Term × Nat)
  | room + 1, .object [(some name, t)] => some (name, t, room)
  | _, _ => none

/-- The name of a choice that has no value: a string, or an object of that member with null. -/
def unitChoice? : Nat → Term → Option String
  | _, .string text => text
  | _ + 1, .object [(some name, .null)] => some name
  | _, _ => none

/-! ### Tagged records -/

/-- A tagged record without its tag, and the tag: the member of that name, of which there is one, or
the first item of an array. -/
def tagged? (tag : String) : Term → Option (Term × Term)
  | .object ms =>
    match ms.filter fun m => m.1 == some tag with
    | [(_, t)] => some (t, .object (ms.filter fun m => m.1 != some tag))
    | _ => none
  | .array (t :: rest) => some (t, .array rest)
  | _ => none

end ConfigTree.Json.Term
