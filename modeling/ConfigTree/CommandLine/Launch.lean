import ConfigTree.CommandLine.Arguments

/-!
# Launching the service

From the arguments and the files to the service, or to what the user is told and the code with which
the program ends: two if the arguments are wrong, and one if the service does not start with them.
-/

namespace ConfigTree.CommandLine

/-- How the program is used. -/
def usage (program : String) : String :=
  s!"Usage: {program}
            --schema PATH
            [ --config PATH ]
            [ --bind-address ADDRESS ]
            [ --apply-command PATH ]
            [ --subscribe-timeout SECONDS ]
            [ --threads COUNT ]
            [ --log-level trace|debug|info|warn|error ]

    Bind address defaults to {defaultAddress}
    Subscribe timeout defaults to 5 seconds
"

/-- Why the program ends. -/
inductive Failure where
  | arguments (fault : Fault)
  | noSchemaFile (file : String)
  | start (e : Service.StartError)

namespace Failure

def exitCode : Failure → Nat
  | arguments _ => 2
  | noSchemaFile _ | start _ => 1

/-- What the user is told. -/
def report (program : String) : Failure → String
  | arguments fault =>
    match fault.message? with
    | some message => s!"{message}\n\n" ++ usage program
    | none => usage program
  | noSchemaFile file => s!"Schema file {file} does not exist\n"
  | start e => s!"{e.message}\n"

end Failure

/-- Starts the service: the store it serves, and the timeout of subscriptions. -/
def launch (files : Service.Files) (r : Json.Reader) (args : List String) :
    Except Failure (Store × Nat) := do
  let a ← (Arguments.parse args).mapError .arguments
  if !files.isPresent a.settings.schemaFile then throw (.noSchemaFile a.settings.schemaFile)
  let store ← (Service.start files r a.settings).mapError .start
  return (store, a.timeout)

end ConfigTree.CommandLine
