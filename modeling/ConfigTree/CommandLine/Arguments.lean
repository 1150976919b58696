import ConfigTree.Service.Startup
import ConfigTree.Subscription.Once
import ConfigTree.Text.Numeral

/-!
# Arguments

The options of the command line, each followed by its argument. They are read in their order, and
the first that is wrong is reported; of an option that is given twice the last argument counts. Only
the schema has no default.
-/

namespace ConfigTree.CommandLine

inductive LogLevel where
  | off
  | error
  | warn
  | info
  | debug
  | trace
deriving DecidableEq, Repr

namespace LogLevel

def all : List LogLevel := [.off, .error, .warn, .info, .debug, .trace]

def name : LogLevel → String
  | .off => "off"
  | .error => "error"
  | .warn => "warn"
  | .info => "info"
  | .debug => "debug"
  | .trace => "trace"

/-- The level of a name in any case. -/
def ofName? (s : String) : Option LogLevel :=
  all.find? fun level => level.name.toList == s.toList.map Char.toLower

end LogLevel

inductive Name where
  | schema
  | config
  | bindAddress
  | applyCommand
  | subscribeTimeout
  | threads
  | logLevel
deriving DecidableEq, Repr

namespace Name

def all : List Name :=
  [.schema, .config, .bindAddress, .applyCommand, .subscribeTimeout, .threads, .logLevel]

/-- How an option is written. -/
def text : Name → String
  | .schema => "--schema"
  | .config => "--config"
  | .bindAddress => "--bind-address"
  | .applyCommand => "--apply-command"
  | .subscribeTimeout => "--subscribe-timeout"
  | .threads => "--threads"
  | .logLevel => "--log-level"

def ofText? (s : String) : Option Name := all.find? (·.text == s)

end Name

/-- What is wrong with the arguments. -/
inductive Fault where
  | missingArgument (option : Name)
  | notPositive (option : Name)
  | invalidNumber (option : Name) (value : String) (fault : Text.NumeralFault)
  | invalidLevel (value : String)
  | unknownOption
  | noSchema
deriving DecidableEq, Repr

/-- What is said about a fault before the usage, which explains the others. -/
def Fault.message? : Fault → Option String
  | .missingArgument option => some s!"Did not give argument to {option.text}"
  | .notPositive option => some s!"Argument to {option.text} must be positive"
  | .invalidNumber option value fault =>
    some s!"Invalid value '{value}' given to {option.text}: {fault.message}"
  | .invalidLevel value => some s!"Invalid log level '{value}'"
  | .unknownOption | .noSchema => none

/-- The options that have been given. -/
structure Options where
  schema : Option String
  config : Option String
  bindAddress : Option String
  applyCommand : Option String
  /-- In seconds. -/
  subscribeTimeout : Option Nat
  threads : Option Nat
  logLevel : Option LogLevel

def Options.none : Options := ⟨.none, .none, .none, .none, .none, .none, .none⟩

/-- A positive number that fits 64 bits. -/
def positive (option : Name) (value : String) : Except Fault Nat :=
  match Text.unsigned value with
  | .error fault => .error (.invalidNumber option value fault)
  | .ok 0 => .error (.notPositive option)
  | .ok n => .ok n

/-- Sets one option. -/
def Options.set (o : Options) (value : String) : Name → Except Fault Options
  | .schema => .ok { o with schema := value }
  | .config => .ok { o with config := value }
  | .bindAddress => .ok { o with bindAddress := value }
  | .applyCommand => .ok { o with applyCommand := value }
  | .subscribeTimeout =>
    (positive .subscribeTimeout value).map fun n => { o with subscribeTimeout := n }
  | .threads => (positive .threads value).map fun n => { o with threads := n }
  | .logLevel =>
    match LogLevel.ofName? value with
    | some level => .ok { o with logLevel := level }
    | .none => .error (.invalidLevel value)

/-- Reads the arguments. -/
def Options.read (o : Options) : List String → Except Fault Options
  | [] => .ok o
  | option :: rest =>
    match Name.ofText? option, rest with
    | .none, _ => .error .unknownOption
    | some name, [] => .error (.missingArgument name)
    | some name, value :: rest => (o.set value name).bind fun o => o.read rest

/-- The address at which the service listens if none is given. -/
def defaultAddress : String := "[::]:32123"

/-- What the service is started with. -/
structure Arguments where
  settings : Service.Settings
  /-- In nanoseconds. -/
  timeout : Nat
  threads : Nat
  logLevel : LogLevel

def Arguments.parse (args : List String) : Except Fault Arguments := do
  let o ← Options.none.read args
  match o.schema with
  | .none => throw .noSchema
  | some schema =>
    return {
      settings := ⟨schema, o.config, o.applyCommand, o.bindAddress.getD defaultAddress⟩
      timeout := (o.subscribeTimeout.map (· * 1000000000)).getD Subscription.defaultTimeout
      threads := o.threads.getD 1
      logLevel := o.logLevel.getD .info }

end ConfigTree.CommandLine
