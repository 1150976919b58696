import ConfigTree.Script.Programs
import ConfigTree.Schema.Load
import ConfigTree.Service.Address
import ConfigTree.Service.Files
import ConfigTree.Store.Basic

/-!
# Starting the service

What a service needs to start: a schema, perhaps an initial configuration and a program that brings
configurations to the device, and an address. The first of them that fails is reported.
-/

namespace ConfigTree.Service

structure Settings where
  schemaFile : String
  configFile : Option String
  /-- The program that brings configurations to the device. -/
  applyProgram : Option String
  bindAddress : String

/-- Why the service does not start. -/
inductive StartError where
  | schema (e : TreeError)
  | configUnreadable (file : String)
  | store (e : StoreError)
  | address (text : String)

namespace StartError

def message : StartError → String
  | schema e => s!"Unable to load schema: {e.message}"
  | configUnreadable file => s!"Unable to read initial config from {file}: {systemFaultText}"
  | store e => e.message
  | address text => s!"Unable to bind to {text}: {systemFaultText}"

def code : StartError → Code
  | store e => e.code
  | schema _ | configUnreadable _ | address _ => .internal

end StartError

/-- Reads a schema from a file, which is to be text. -/
def readSchema (files : Files) (r : Json.Reader) (file : String) : Except TreeError Schema :=
  match (files.read? file).bind String.fromUTF8? with
  | some text => Schema.load r text
  | none => .error (.schemaUnreadable file)

/-- Reads the initial configuration, if there is to be one. -/
def readConfig (files : Files) : Option String → Except StartError (Option ByteArray)
  | none => .ok none
  | some file =>
    match files.read? file with
    | some text => .ok (some text)
    | none => .error (.configUnreadable file)

/-- The store with which a service starts. -/
def start (files : Files) (r : Json.Reader) (s : Settings) : Except StartError Store := do
  let schema ← (readSchema files r s.schemaFile).mapError .schema
  let initial ← readConfig files s.configFile
  let device := s.applyProgram.map fun name => (Device.Program.mk name []).device
  let store ← (Store.new schema r device initial).1.mapError .store
  if Address.isLiteral s.bindAddress then return store
  else throw (.address s.bindAddress)

end ConfigTree.Service
