import ConfigTree.CommandLine.Launch
import ConfigTree.Service.Http

/-!
# The program

Starts the service from the command line and then answers requests. They come on standard input,
each in a line with its method, its path and perhaps a body; for each the number of the response is
written, and after it the lines of its body.
-/

namespace ConfigTree.CommandLine

/-- The name by which the program calls itself. -/
def programName : String := "configtree"

/-- What is found under the name of a file: nothing, or the bytes of it if it can be read. -/
def findFile? (name : String) : IO (Option (Option ByteArray)) := do
  try return some (some (← IO.FS.readBinFile name))
  catch
    | .noFileOrDirectory .. => return none
    | _ => return some none

/-- The files that arguments name. -/
def findFiles (args : List String) : IO Service.Files := do
  let found ← args.mapM fun name => do return (name, ← findFile? name)
  let find? (name : String) : Option (Option ByteArray) := (found.lookup name).join
  return ⟨fun name => (find? name).isSome, fun name => (find? name).join⟩

/-- The request of a line. -/
def requestOfLine (line : String) : Service.Request :=
  let (method, rest) := line.toList.span (· != ' ')
  let (target, rest) := (rest.drop 1).span (· != ' ')
  ⟨String.ofList method, String.ofList target, some "application/json",
    (String.ofList (rest.drop 1)).toByteArray⟩

/-- Answers requests until the input ends. -/
partial def answerRequests (timeout : Nat) (store : Store) : IO Unit := do
  let line ← (← IO.getStdin).getLine
  if line.isEmpty then return
  let now := Int64.ofNat (← IO.monoNanosNow)
  let request := requestOfLine (Text.trimmed line)
  let (response, store) := Service.handle store now timeout request
  IO.println (toString response.status)
  for j in response.lines do IO.println j.render
  (← IO.getStdout).flush
  answerRequests timeout store

end ConfigTree.CommandLine

open ConfigTree in
def main (args : List String) : IO UInt32 := do
  match CommandLine.launch (← CommandLine.findFiles args) .scaled args with
  | .error failure =>
    IO.eprint (failure.report CommandLine.programName)
    return UInt32.ofNat failure.exitCode
  | .ok (store, timeout) =>
    CommandLine.answerRequests timeout store
    return 0
