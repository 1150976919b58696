import ConfigTree.Device.Program
import ConfigTree.Script.Evaluate

/-!
# Programs that are written out

The service starts programs and waits for them, but has no part in what they do: for it they are a
parameter, `Device.Programs`. The modules on scripts write out some programs that a Unix machine
has, the shell `sh` and the tools that scripts call in it, as far as scripts that check a
configuration use them. They stand for code outside of the service, so nothing is proved about them,
and no statement about stores or subscriptions depends on them: there a device is any function of
what it has been shown.

`Script.programs` are these programs, for those who run a service as a whole.
-/

namespace ConfigTree.Script

/-- Bytes as the characters of their numbers. -/
def charsOfBytes (bytes : ByteArray) : List Char :=
  bytes.data.toList.map fun b => Char.ofNat b.toNat

/-- The bytes whose numbers are those of characters. -/
def bytesOfChars (cs : List Char) : ByteArray :=
  ⟨(cs.map fun c => UInt8.ofNat c.toNat).toArray⟩

/-- A text whose characters are the bytes of a text. -/
def bytewise (s : String) : String := String.ofList (charsOfBytes s.toByteArray)

/-- The code that a run ends with, unless it is killed. -/
def Run.code (r : Run) : Option Nat :=
  match r.jump with
  | some (.killed _) => none
  | _ => some r.status

/-- The known program of a name, which may tell its directory. -/
def program? (name : String) : Option Action :=
  let plain := String.ofList (name.toList.reverse.takeWhile (· != '/')).reverse
  if plain = name || name = "/bin/" ++ plain || name = "/usr/bin/" ++ plain then
    if plain = "sh" then some fun r args => launch maxDepth r args
    else Tool.all.lookup plain <|> Builtin.programs.lookup plain
  else none

/-- The interpreter of scripts and the tools. No other program can be started. -/
def programs : Device.Programs where
  run? p input := (program? p.name).map fun run =>
    let r := run (Run.start (bytewise p.name) [] (charsOfBytes input)) (p.arguments.map bytewise)
    ⟨r.code, bytesOfChars r.report⟩

end ConfigTree.Script

namespace ConfigTree.Device

/-- The device to which a program that is written out brings configurations. -/
def Program.device (p : Program) : Device := Script.programs.device p

end ConfigTree.Device
