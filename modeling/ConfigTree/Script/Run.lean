import ConfigTree.Script.Command
import ConfigTree.Text.Digit

/-!
# Runs of scripts

The state of a script that runs. A script works on bytes; in texts each byte stands as the character
of its number. What it writes to a stream goes to a sink: the first two sinks are those of the whole
program, its output and its report, and others hold what one command writes for another one.

It is the state of a process of the machine, and no part of the state of the service: a script gets
a configuration as its input and leaves a code and a report, as `Script.programs` says.
-/

namespace ConfigTree.Script

/-- Why what comes next in a script is not run. -/
inductive Jump where
  | exit
  /-- Ends by a signal. -/
  | killed (signal : Nat)
  | return
  /-- Leaves so many loops, or goes on with the next turn of the last of them. -/
  | loop (leaves : Bool) (count : Nat)
deriving DecidableEq, Repr

/-- The state of a script that runs, its text apart. -/
structure Run where
  bindings : List (String × String)
  /-- The names of the variables that are given to other programs. -/
  exported : List String
  /-- In a function, the variables that it has made its own and their values outside. -/
  locals : Option (List (String × Option String))
  /-- The name by which the script calls itself. -/
  name : String
  arguments : List String
  functions : List (String × Command)
  input : List Char
  /-- The sinks of streams. A stream that is not here is closed, and one without a sink is lost. -/
  sinks : List (Nat × Option Nat)
  written : List (List Char)
  status : Nat
  /-- The status of the last script whose output has been put into a word. -/
  outputStatus : Nat
  jump : Option Jump
  /-- The letters of the options that are on. With "e" the script ends with the first command that
  fails, with "u" at a parameter that has no value. -/
  options : List Char
  /-- What is run at a signal, or at the end if the signal is zero. -/
  traps : List (Nat × List Char)
  /-- What a signal has asked to be run next. -/
  due : List Char
  line : Nat
  /-- What stands in front of messages on the text that is run. -/
  origin : String
  /-- The number of loops around what is run. -/
  depth : Nat

/-- What a command does when it is called with arguments. -/
abbrev Action := Run → List String → Run

namespace Run

/-- The state in which a script begins. -/
def start (name : String) (arguments : List String) (input : List Char) : Run where
  bindings := [("IFS", " \t\n"), ("OPTIND", "1")]
  exported := []
  locals := none
  name := name
  arguments := arguments
  functions := []
  input := input
  sinks := [(1, some 0), (2, some 1)]
  written := [[], []]
  status := 0
  outputStatus := 0
  jump := none
  options := []
  traps := []
  due := []
  line := 1
  origin := ""
  depth := 0

/-- The number of every script, which nothing but itself uses. -/
def processNumber : String := "32123"

def output (r : Run) : List Char := (r.written[0]?).getD []

def report (r : Run) : List Char := (r.written[1]?).getD []

/-- Writes to a stream. -/
def write (r : Run) (stream : Nat) (text : List Char) : Run :=
  match (r.sinks.lookup stream).join with
  | some sink => { r with written := r.written.modify sink (· ++ text) }
  | none => r

def withStatus (r : Run) (status : Nat) : Run := { r with status }

/-- Says something about a failure, after the name of the script and the number of the line. -/
def complain (r : Run) (text : String) : Run :=
  r.write 2 s!"{r.name}: {r.line}: {r.origin}{text}\n".toList

/-- Fails with a message. -/
def fail (r : Run) (status : Nat) (text : String) : Run := (r.complain text).withStatus status

def exit (r : Run) (status : Nat) : Run := { r with status, jump := some .exit }

/-- Fails and ends. -/
def abort (r : Run) (text : String) : Run := (r.complain text).exit 2

def get? (r : Run) (name : String) : Option String := r.bindings.lookup name

def set (r : Run) (name value : String) : Run :=
  { r with bindings := (name, value) :: r.bindings.filter (·.1 != name) }

def unset (r : Run) (name : String) : Run :=
  { r with bindings := r.bindings.filter (·.1 != name) }

/-- Gives a variable a value or takes its value away. -/
def put (r : Run) (name : String) : Option String → Run
  | some value => r.set name value
  | none => r.unset name

/-- The characters that separate words. -/
def separators (r : Run) : List Char := ((r.get? "IFS").getD " \t\n").toList

/-- The value of a parameter that stands for one text. -/
def parameter? (r : Run) (name : String) : Option String :=
  match name with
  | "?" => some (toString r.status)
  | "#" => some (toString r.arguments.length)
  | "$" => some processNumber
  | "-" => some (String.ofList r.options)
  | "!" => none
  | "0" => some r.name
  | "@" | "*" => if r.arguments.isEmpty then none else some (" ".intercalate r.arguments)
  | name =>
    match Digit.takeDigits name.toList with
    | (ds@(_ :: _), []) => r.arguments[Digit.value ds - 1]?
    | _ => r.get? name

/-- What is left when another script that works with the same streams has come to its end: nothing
of it but what it has read and written and its status, unless it has been killed. -/
def resume (r inner : Run) : Run :=
  { r with
    input := inner.input
    written := inner.written
    status := inner.status
    jump := match inner.jump with
      | some (.killed signal) => some (.killed signal)
      | _ => r.jump }

/-- Adds a sink and sends a stream to it. -/
def capture (r : Run) (stream : Nat) : Run :=
  { r with
    sinks := (stream, some r.written.length) :: r.sinks.filter (·.1 != stream)
    written := r.written ++ [[]] }

/-- What has been written to the last sink, and the state without that sink. -/
def captured (r : Run) : List Char × Run :=
  ((r.written.getLast?).getD [], { r with written := r.written.dropLast })

end Run

end ConfigTree.Script
