import ConfigTree.Device.Basic
import ConfigTree.Message.Basic

/-!
# Errors of the store

Why an operation on the store fails, and the code that its caller gets. Places are given by the
texts of their paths.
-/

namespace ConfigTree

/-- Why a node is not what a write needs. These are faults of the tree that a write comes upon, and
not of the value that it brings. -/
inductive WriteFault where
  | notContainer (elem : String) (found : Json)
  | entryNotObject
  | notLeaf

def WriteFault.message : WriteFault → String
  | .notContainer elem found => s!"expected a container at '{elem}', found {found.render}"
  | .entryNotObject => "list entry is not an object"
  | .notLeaf => "not a leaf"

inductive StoreError where
  /-- An update was broken off, so the tree can no longer be relied on. -/
  | poisoned
  | unsupportedEncoding (encoding : Encoding)
  | unsupportedModel (model : Model)
  | unsupportedDataType (dataType : DataType)
  | modelFilter (path : String)
  | pathNotFound (path : String)
  | noSchemaNode (path : String)
  | elemNotFound (elem : String)
  | incompatibleElem (elem : String)
  | navigation (path : String) (cause : TreeError)
  | wrongNode (path : String) (fault : WriteFault)
  | invalidValue (path : String) (cause : TreeError)
  | notDocument (path : String)
  | notEntry (path : String)
  | keyConflict (path key : String)
  | rootUpdate
  | rootNotTree
  | invalidTree (cause : TreeError)
  | unreadable (path : String) (cause : TreeError)
  | invalidInitial (cause : TreeError)
  | initialRefused (cause : DeviceError)
  | refused (cause : DeviceError)
  /-- The device refused a candidate and then what it had before. -/
  | notRestored (refusal cause : DeviceError)

namespace StoreError

/-- How messages show a model. -/
def modelText (m : Model) : String :=
  s!"{m.name} (organization '{m.organization}', version '{m.version}')"

def message : StoreError → String
  | poisoned => "Another thread poisoned the config tree lock by panicking"
  | unsupportedEncoding encoding => s!"Unsupported encoding: {encoding.shown}"
  | unsupportedModel model => s!"Unsupported model: {modelText model}"
  | unsupportedDataType dataType => s!"Unsupported request type: {dataType.shown}"
  | modelFilter path => s!"Filtering using use_models is unsupported for '{path}'"
  | pathNotFound path => s!"Path '{path}' not found"
  | noSchemaNode path => s!"Path '{path}' is not found in the config structure"
  | elemNotFound elem => s!"Path elem not found: {elem}"
  | incompatibleElem elem => s!"Incompatible path elem: {elem}"
  | navigation path cause => s!"Unable to navigate to '{path}': {cause.message}"
  | wrongNode path fault => s!"Wrong node type at '{path}': {fault.message}"
  | invalidValue path cause => s!"Invalid value for '{path}': {cause.message}"
  | notDocument path => s!"Expected a JSON value for '{path}'"
  | notEntry path => s!"Expected a container value for list entry '{path}'"
  | keyConflict path key => s!"Invalid config data: {key} is a path attribute of '{path}'"
  | rootUpdate => "Update of the root of the config tree is unsupported"
  | rootNotTree => "Expected a tree to replace the root"
  | invalidTree cause => s!"Unable to build config from the config tree: {cause.message}"
  | unreadable path cause => s!"Unable to read value at '{path}': {cause.message}"
  | invalidInitial cause => s!"Invalid initial config: {cause.message}"
  | initialRefused cause => s!"Unable to apply initial config to device: {cause.message}"
  | refused cause => s!"Error in applying operation to device: {cause.message}"
  | notRestored refusal cause =>
    s!"Error in rollback the failed operation ({refusal.message}): {cause.message}"

/-- The code of an error: whether the caller asked for something wrong, missing or unsupported, the
device refused, or the store itself is at fault. A navigation that fails is the store's fault,
unless what is missing is a node of the schema. -/
def code : StoreError → Code
  | invalidValue .. | notDocument .. | notEntry .. | keyConflict .. | rootNotTree
  | invalidInitial .. => .invalidArgument
  | pathNotFound .. | noSchemaNode .. | elemNotFound .. | incompatibleElem .. => .notFound
  | navigation _ (.noSchemaNode _) => .notFound
  | unsupportedEncoding .. | unsupportedModel .. | unsupportedDataType .. | modelFilter ..
  | rootUpdate => .unimplemented
  | refused .. | initialRefused .. => .aborted
  | poisoned | navigation .. | wrongNode .. | invalidTree .. | unreadable .. | notRestored .. =>
    .internal

/-- What a caller is told. -/
def status (e : StoreError) : Status := ⟨e.code, e.message⟩

end StoreError

end ConfigTree
