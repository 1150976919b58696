import ConfigTree.Json.Printer
import ConfigTree.Scalar.Kind

/-!
# Errors of schemas and trees

What can be wrong with a schema, with a payload for a place in the tree, and with a tree itself.
Each error names the place by the text of its path. `TreeError.message` has the wording.
-/

namespace ConfigTree

/-- Why a node is not what navigation needs. -/
inductive NodeFault where
  | notKeyedList
  | entryNotObject
deriving DecidableEq, Repr

def NodeFault.message : NodeFault → String
  | .notKeyedList => "expected a keyed list"
  | .entryNotObject => "list entry is not an object"

/-- Why a value has no place in the tree. -/
inductive ValueFault where
  | notFinite (x : Binary64.Extended)
  | nestedLeafList
  | document
  | storedMismatch (stored : Json) (kind : ScalarKind)
  | notOfKind (raw : Json) (kind : ScalarKind)
  | inconvertible (kind : ScalarKind)
  | notList (raw : Json)
  | notLeafList (raw : Json)
  | notObject (raw : Json)
  | null

/-- The name of a number that is not finite. -/
def Binary64.Extended.name : Binary64.Extended → String
  | .finite x => String.ofList (Json.Literal.ofBinary64 x).chars
  | .infinity negative => if negative then "-inf" else "inf"
  | .nan => "NaN"

def ValueFault.message : ValueFault → String
  | .notFinite x => s!"float value {x.name} has no JSON form"
  | .nestedLeafList => "nested leaf-list value"
  | .document => "expected a scalar value, got a JSON document"
  | .storedMismatch stored kind => s!"stored value {stored.render} doesn't match type {kind.shown}"
  | .notOfKind raw kind => s!"{raw.render} is not a valid {kind.shown}"
  | .inconvertible kind => s!"value is not a valid {kind.shown}"
  | .notList raw => s!"expected a list, got {raw.render}"
  | .notLeafList raw => s!"expected a leaf-list, got {raw.render}"
  | .notObject raw => s!"expected an object, got {raw.render}"
  | .null => "null value"

/-- Why data does not meet its schema, or a schema its own rules. -/
inductive DataFault where
  | listWithoutKeys
  | keyNotLeaf (key : String)
  | notList
  | notLeafList
  | notObject
  | entryNotObject
  | missingKey (key : String)
  | duplicateKey
  | notOfKind (value : Json) (kind : ScalarKind)

def DataFault.message : DataFault → String
  | .listWithoutKeys => "schema list has no keys"
  | .keyNotLeaf key => s!"schema list key '{key}' is not a leaf of the list"
  | .notList => "expected a list"
  | .notLeafList => "expected a leaf-list"
  | .notObject => "expected an object"
  | .entryNotObject => "list entry is not an object"
  | .missingKey key => s!"list entry is missing key '{key}'"
  | .duplicateKey => "duplicate list key"
  | .notOfKind value kind => s!"{value.render} is not a valid {kind.shown}"

/-- What messages say in place of the position and nature of a fault in a document's text. -/
def malformedText : String := "<json error>"

/-- What messages say in place of the reason why the system cannot do what it is asked. -/
def systemFaultText : String := "<io error>"

/-- Errors of schemas, payloads and trees. -/
inductive TreeError where
  | schemaUnreadable (file : String)
  | schemaMalformed
  | schemaRoot
  | noSchemaNode (path : String)
  | wrongNode (path : String) (fault : NodeFault)
  | payloadMalformed
  | unknownMember (path member : String)
  | invalidValue (path : String) (fault : ValueFault)
  | invalidData (path : String) (fault : DataFault)

namespace TreeError

def message : TreeError → String
  | schemaUnreadable file => s!"Reading schema from '{file}' failed: {systemFaultText}"
  | schemaMalformed => s!"Schema document is invalid: {malformedText}"
  | schemaRoot => "Schema root must be a container"
  | noSchemaNode path => s!"No schema node for path '{path}'"
  | wrongNode path fault => s!"Wrong node type at '{path}': {fault.message}"
  | payloadMalformed => s!"Payload is not valid JSON: {malformedText}"
  | unknownMember path member => s!"Unknown field '{member}' under '{path}'"
  | invalidValue path fault => s!"Invalid value at '{path}': {fault.message}"
  | invalidData path fault => s!"Validation failed at '{path}': {fault.message}"

end TreeError

end ConfigTree
