import ConfigTree.Device.Basic
import ConfigTree.Json.Printer
import ConfigTree.Text.Blank
import ConfigTree.Text.Utf8

/-!
# Device programs

A configuration can be brought to a device by a program, which gets the text of the configuration as
its input and takes it by ending with code zero. What it reports otherwise is the reason of its
refusal.

Which programs there are, and what one of them does with an input, is a matter of the machine on
which the service runs. So the programs are a parameter here: `Programs` is any of them, and
`Programs.device` the device that one of them makes. `Script.programs` are some that are written
out, so that a service can be run as a whole.
-/

namespace ConfigTree.Device

/-- A program and its arguments. -/
structure Program where
  name : String
  arguments : List String
deriving DecidableEq, Repr

/-- What is left of a program that has ended. -/
structure Ending where
  /-- The code that it has ended with, unless it was killed. -/
  code : Option Nat
  /-- The bytes of its report. -/
  report : ByteArray

/-- The programs of a machine: how each of them ends on an input, if it can be started. -/
structure Programs where
  run? : Program → ByteArray → Option Ending

namespace Programs

/-- What a program answers to the text of a configuration. The report of one that refuses is read
as text, whatever bytes it has, and blanks around it are left out. -/
def answer (known : Programs) (p : Program) (text : ByteArray) : Except DeviceError Unit :=
  match known.run? p text with
  | none => .error (.notStarted p.name)
  | some ending =>
    if ending.code = some 0 then .ok ()
    else .error (.failed ending.code (Text.trimmed (Text.decodeLossy ending.report)))

/-- The device to which a program brings configurations. It does not remember what it has been shown
before: the program is started anew for each of them. -/
def device (known : Programs) (p : Program) : Device := ⟨fun _ c => known.answer p c.data.bytes⟩

end Programs

end ConfigTree.Device
