import ConfigTree.Store.Edit

/-!
# The store

A store holds the committed tree of a schema and the device that is kept in step with it. Once an
update has been broken off halfway the store is poisoned, and everything that needs the tree fails.
-/

namespace ConfigTree

structure Store where
  schema : Schema
  /-- How the store reads documents. -/
  reader : Json.Reader
  device : Option Device
  /-- The committed tree. -/
  tree : Json
  /-- All configurations that the device has been shown, the first one first. -/
  shown : List Subtree
  poisoned : Bool

namespace Store

/-- Reads a configuration of the whole tree and checks it. This is the only way into a store: the
initial configuration and every candidate after it pass through here. -/
def readConfig (s : Schema) (r : Json.Reader) (text : ByteArray) : Except TreeError Subtree := do
  let c ← s.unmarshal r [] text
  s.validate c
  return c

/-- The configuration that a tree stands for, which is read from the text of the tree. So every
candidate takes the way that an initial configuration takes, and comes out in its held form. -/
def rederive (s : Schema) (r : Json.Reader) (tree : Json) : Except StoreError Subtree :=
  (readConfig s r tree.bytes).mapError .invalidTree

/-- A store with an initial configuration, which the device is shown, or with an empty tree. Also
gives what the device has been shown, which matters where the store could not be made. An empty tree
is not shown to it, so until the first set the device may hold something else. -/
def new (schema : Schema) (reader : Json.Reader) (device : Option Device)
    (initial : Option ByteArray) : Except StoreError Store × List Subtree :=
  match initial with
  | none => (.ok ⟨schema, reader, device, .obj [], [], false⟩, [])
  | some text =>
    match readConfig schema reader text, device with
    | .error e, _ => (.error (.invalidInitial e), [])
    | .ok c, none => (.ok ⟨schema, reader, none, c.data, [], false⟩, [])
    | .ok c, some d =>
      match d.offer [] c with
      | (.error e, shown) => (.error (.initialRefused e), shown)
      | (.ok (), shown) => (.ok ⟨schema, reader, some d, c.data, shown, false⟩, shown)

/-- The committed tree. After an update that was broken off there is none to give. -/
def config (st : Store) : Except StoreError Json :=
  if st.poisoned then .error .poisoned else .ok st.tree

/-- The version of the protocol that is served. -/
def protocolVersion : String := "0.7.0"

/-- The encodings that requests may ask for. -/
def encodings : List Encoding := [.json, .jsonIetf]

def capabilities (st : Store) : Capabilities := ⟨st.schema.models, encodings, protocolVersion⟩

/-- Refuses an encoding that is not served, or else the first model that is not known. A model is
known by its name, organization and version together. -/
def checkSupport (st : Store) (encoding : Encoding) (models : List Model) :
    Except StoreError Unit :=
  if !encodings.contains encoding then .error (.unsupportedEncoding encoding)
  else
    match models.find? fun m => !st.schema.supports m with
    | some m => .error (.unsupportedModel m)
    | none => .ok ()

end Store

end ConfigTree
