import ConfigTree.Error
import ConfigTree.Schema.Conform

/-!
# Devices

A device is shown configurations and takes or refuses each of them. What it answers may depend on
what it has been shown before, so it is a function of that history.
-/

namespace ConfigTree

/-- Why a device has not taken a configuration. -/
inductive DeviceError where
  /-- The program that brings configurations to the device cannot be started. -/
  | notStarted (program : String)
  /-- The program ended with this code, or without any, and reported this text. -/
  | failed (code : Option Nat) (report : String)
  | rejected (reason : String)
deriving DecidableEq, Repr

def DeviceError.message : DeviceError → String
  | .notStarted program => s!"Unable to start {program}: {systemFaultText}"
  | .failed (some code) report => s!"Config applier exited with code {code}: {report}"
  | .failed none report => s!"Config applier exited with code unknown: {report}"
  | .rejected reason => s!"Device rejected config: {reason}"

/-- A device: its answer to a configuration, given those it was shown before. Nothing is asked of
the answers, so what is proved of a store holds for a device that is out of order too. -/
structure Device where
  answer : List Subtree → Subtree → Except DeviceError Unit

namespace Device

/-- Shows a configuration to a device: the answer, and all it has been shown then. A configuration
that is refused has been shown as well. -/
def offer (d : Device) (shown : List Subtree) (c : Subtree) :
    Except DeviceError Unit × List Subtree :=
  (d.answer shown c, shown ++ [c])

/-- A device that takes every configuration, whatever it has been shown before. -/
def accepting : Device := ⟨fun _ _ => .ok ()⟩

/-- A device that refuses what it is shown at the given turns, counted from zero. -/
def refusingAt (turns : List Nat) (d : Device) : Device where
  answer shown c :=
    if turns.contains shown.length then .error (.rejected s!"call {shown.length}")
    else d.answer shown c

end Device

end ConfigTree
