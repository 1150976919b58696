import ConfigTree.Script.Condition
import ConfigTree.Script.Expand
import ConfigTree.Script.Format

/-!
# Commands of the interpreter

The commands that are part of every script: they write, read, test, and change the state of the
script. If one of the special ones is used in a wrong way, the script ends.

They stand for the built-in commands of the shell of a machine, as `Script.programs` says.
-/

namespace ConfigTree.Script.Builtin

/-- Fails with a message that begins with the name of the command. -/
def refuse (r : Run) (name message : String) : Run := r.fail 2 s!"{name}: {message}"

/-- Writes its arguments in a line. -/
def echo (r : Run) (args : List String) : Run :=
  let (quiet, args) := match args with
    | "-n" :: rest => (true, rest)
    | args => (false, args)
  let (cs, ended) := unescaped (" ".intercalate args).toList
  (r.write 1 (if quiet || ended then cs else cs ++ ['\n'])).withStatus 0

/-- Writes its arguments in a format. -/
def printf (r : Run) (args : List String) : Run :=
  let args := if args.head? = some "--" then args.tail else args
  match args with
  | [] => refuse r "printf" "usage: printf format [arg ...]"
  | format :: rest =>
    match format.toList with
    | '-' :: c :: _ => refuse r "printf" s!"Illegal option -{String.singleton c}"
    | _ =>
      let p := Format.fill format rest
      let status := if p.broken then 2 else if p.faults.isEmpty then 0 else 1
      let r := p.faults.foldl (fun r fault => r.complain s!"printf: {fault}") r
      (r.write 1 p.written).withStatus status

def test (r : Run) (args : List String) : Run :=
  match Condition.value args with
  | .ok value => r.withStatus (if value then 0 else 1)
  | .error message => refuse r "test" message

/-- Tests a condition that is closed by a bracket. -/
def bracket (r : Run) (args : List String) : Run :=
  if args.getLast? = some "]" then
    match Condition.value args.dropLast with
    | .ok value => r.withStatus (if value then 0 else 1)
    | .error message => refuse r "[" message
  else refuse r "[" "missing ]"

/-! ### Reading -/

/-- A line of a text as pieces, whether it is closed, and what follows it. Unless the line is taken
as it is, a backslash quotes a character and joins lines. -/
def takeLine (raw : Bool) : List Char → List Piece × Bool × List Char
  | [] => ([], false, [])
  | '\\' :: c :: rest =>
    if raw then
      if c = '\n' then ([.loose '\\'], true, rest)
      else
        let (ps, closed, left) := takeLine raw rest
        (.loose '\\' :: .loose c :: ps, closed, left)
    else
      let (ps, closed, left) := takeLine raw rest
      (if c = '\n' then ps else .char c true :: ps, closed, left)
  | c :: rest =>
    if c = '\n' then ([], true, rest)
    else if c = '\\' && !raw then ([], false, rest)
    else let (ps, closed, left) := takeLine raw rest; (.loose c :: ps, closed, left)

/-- Whether a piece is a separator for which `f` holds. -/
def isSeparator (separators : List Char) (f : Char → Bool) : Piece → Bool
  | .loose c => separators.contains c && f c
  | _ => false

/-- The texts of so many names in a line. The last of them is all that is left. -/
def shares (separators : List Char) : Nat → List Piece → List String
  | 0, _ => []
  | n + 1, ps =>
    let isSpace := isSeparator separators fun c => isBlank c || c == '\n'
    let ps := ps.dropWhile isSpace
    if n = 0 then [Piece.text (ps.reverse.dropWhile isSpace).reverse]
    else
      let (here, rest) := ps.span (!isSeparator separators (fun _ => true) ·)
      let rest := rest.dropWhile isSpace
      let rest := match rest with
        | p :: more => if isSeparator separators (fun _ => true) p then more else rest
        | [] => []
      Piece.text here :: shares separators n rest

/-- Reads a line of the input into variables. -/
def read (r : Run) (args : List String) : Run :=
  let (raw, names) := options args
  if names.isEmpty then refuse r "read" "arg count"
  else
    match names.find? fun name => !isName name.toList with
    | some name =>
      match name.toList with
      | '-' :: c :: _ => refuse r "read" s!"Illegal option -{String.singleton c}"
      | _ => refuse r "read" s!"{name}: bad variable name"
    | none =>
      let (ps, closed, left) := takeLine raw r.input
      let values := shares r.separators names.length ps
      let r := (names.zip values).foldl (fun r (name, value) => r.set name value) r
      { r with input := left }.withStatus (if closed then 0 else 1)
where
  /-- Whether lines are taken as they are, and the arguments that are no options. -/
  options : List String → Bool × List String
    | "-r" :: rest => (true, (options rest).2)
    | "-p" :: _ :: rest => options rest
    | "--" :: rest => (false, rest)
    | rest => (false, rest)

/-! ### Control -/

/-- The number of an argument, if it is one that fits 31 bits. -/
def number? (text : String) : Option Nat :=
  (Tool.natural? (text.toList.dropWhile Char.isWhitespace)).filter (· < 2147483648)

/-- Leaves the script, or the function, with a status. -/
def leave (name : String) (jump : Jump) (r : Run) (args : List String) : Run :=
  match args with
  | [] => { r with jump := some jump }
  | text :: _ =>
    match number? text with
    | some n => { r with status := n % 256, jump := some jump }
    | none => r.abort s!"{name}: Illegal number: {text}"

/-- Leaves loops, or goes on with their next turn. -/
def jumpLoops (name : String) (leaves : Bool) (r : Run) (args : List String) : Run :=
  match args.head?.map number? with
  | some none | some (some 0) => r.abort (name ++ ": Illegal number: " ++ args.headD "")
  | count =>
    let count := min ((count.join).getD 1) r.depth
    if count = 0 then r.withStatus 0
    else { r with status := 0, jump := some (.loop leaves count) }

def shift (r : Run) (args : List String) : Run :=
  match args.head?.map number? with
  | some none => r.abort ("shift: Illegal number: " ++ args.headD "")
  | count =>
    let n := (count.join).getD 1
    if r.arguments.length < n then r.abort "shift: can't shift that many"
    else { r with arguments := r.arguments.drop n, status := 0 }

/-- The options that have a name, and their letters. -/
def optionNames : List (String × Char) :=
  [("errexit", 'e'), ("nounset", 'u'), ("noglob", 'f'), ("noexec", 'n'), ("xtrace", 'x'),
    ("verbose", 'v'), ("noclobber", 'C'), ("allexport", 'a'), ("notify", 'b'), ("monitor", 'm'),
    ("interactive", 'i'), ("stdin", 's'), ("ignoreeof", 'I'), ("vi", 'V'), ("emacs", 'E')]

/-- Turns options on or off, up to a letter that is none. -/
def turn (on : Bool) (options : List Char) : List Char → Except String (List Char)
  | [] => .ok options
  | c :: rest =>
    if (optionNames.map (·.2)).contains c then
      let others := options.filter (· != c)
      turn on (if on then others ++ [c] else others) rest
    else .error ("Illegal option " ++ String.ofList [if on then '-' else '+', c])

/-- Turns options on or off and sets the arguments of the script. -/
def setOptions : Nat → Run → List String → Run
  | 0, r, _ => r
  | _, r, [] => r.withStatus 0
  | fuel + 1, r, word :: rest =>
    match word.toList, rest with
    | ['-', '-'], rest | ['-'], rest => { r with arguments := rest, status := 0 }
    | [_, 'o'], [] => r.withStatus 0
    | [sign, 'o'], name :: rest =>
      if sign = '-' || sign = '+' then
        match optionNames.lookup name with
        | some c => turned r (sign == '-') [c] fuel rest
        | none => r.abort s!"set: Illegal option {String.singleton sign}o {name}"
      else { r with arguments := word :: name :: rest, status := 0 }
    | '-' :: cs@(_ :: _), rest =>
      match cs.getLast?, rest with
      | some 'o', name :: rest =>
        match turn true r.options cs.dropLast, optionNames.lookup name with
        | .ok options, some c => turned { r with options } true [c] fuel rest
        | .error message, _ => r.abort s!"set: {message}"
        | .ok _, none => r.abort s!"set: Illegal option -o {name}"
      | some 'o', [] => turned r true cs.dropLast fuel []
      | _, rest => turned r true cs fuel rest
    | '+' :: cs@(_ :: _), rest => turned r false cs fuel rest
    | _, _ => { r with arguments := word :: rest, status := 0 }
where
  turned (r : Run) (on : Bool) (cs : List Char) (fuel : Nat) (rest : List String) : Run :=
    match turn on r.options cs with
    | .ok options => setOptions fuel { r with options } rest
    | .error message => r.abort s!"set: {message}"

/-- Sets variables to the values that are given to them. -/
def declare (name : String) (r : Run) (args : List String) : Run :=
  let step (r : Run) (arg : String) : Run :=
    let (target, value) := arg.toList.span (· != '=')
    if r.jump.isSome || arg = "-p" then r
    else if !isName target then r.abort s!"{name}: {String.ofList target}: bad variable name"
    else
      let target := String.ofList target
      let r := if name = "export" then { r with exported := target :: r.exported } else r
      if value.isEmpty then r else r.set target (String.ofList value.tail)
  args.foldl step (r.withStatus 0)

/-- Makes variables those of the function that is run. -/
def makeLocal (r : Run) (args : List String) : Run :=
  match r.locals with
  | none => r.abort "local: not in a function"
  | some saved =>
    let names := args.map fun arg => String.ofList (arg.toList.takeWhile (· != '='))
    let here := names.map fun name => (name, r.get? name)
    declare "local" { r with locals := some (here ++ saved) } args

def unset (r : Run) (args : List String) : Run :=
  let step (r : Run) (arg : String) : Run :=
    if r.jump.isSome || arg = "-v" then r
    else if arg = "-f" then r
    else if !isName arg.toList then r.abort s!"unset: {arg}: bad variable name"
    else { r.unset arg with
      functions := if args.contains "-f" then r.functions.filter (·.1 != arg) else r.functions }
  args.foldl step (r.withStatus 0)

/-! ### Signals -/

/-- The signals by their numbers. -/
def signals : List String :=
  ["EXIT", "HUP", "INT", "QUIT", "ILL", "TRAP", "ABRT", "BUS", "FPE", "KILL", "USR1", "SEGV",
    "USR2", "PIPE", "ALRM", "TERM", "STKFLT", "CHLD", "CONT", "STOP", "TSTP", "TTIN", "TTOU",
    "URG", "XCPU", "XFSZ", "VTALRM", "PROF", "WINCH", "IO", "PWR", "SYS"]

def signal? (text : String) : Option Nat :=
  match number? text with
  | some n => if n < 65 then some n else none
  | none => signals.idxOf? (String.ofList (text.toList.map Char.toUpper))

/-- Whether a signal has no effect on a script. -/
def isHarmless (signal : Nat) : Bool := [0, 17, 18, 23, 28].contains signal

def killUsage : String :=
  "Usage: kill [-s sigspec | -signum | -sigspec] [pid | job]... or\nkill -l [exitstatus]"

/-- Sends a signal to processes, of which the script itself is the only one there is. -/
def send (r : Run) (signal : Nat) (targets : List String) : Run :=
  let step (r : Run) (target : String) : Run :=
    let ended := { r with jump := some (.killed signal) }
    if r.jump.isSome then r
    else if target = Run.processNumber then
      match r.traps.lookup signal with
      | some action => if signal = 9 then ended else { r with due := r.due ++ action ++ ['\n'] }
      | none => if isHarmless signal then r else ended
    else
      match number? target with
      | some _ => r.fail 1 "kill: No such process\n"
      | none => refuse r "kill" s!"Illegal number: {target}"
  if targets.isEmpty then refuse r "kill" killUsage else targets.foldl step (r.withStatus 0)

def kill (r : Run) (args : List String) : Run :=
  match args with
  | "-s" :: name :: targets =>
    match signal? name with
    | some n => send r n targets
    | none => refuse r "kill" s!"invalid signal number or name: {name}"
  | ["-l"] => (r.write 1 ("\n".intercalate signals.tail ++ "\n").toList).withStatus 0
  | "-l" :: text :: _ =>
    match (number? text).bind fun n => signals[n % 128]? with
    | some name => (r.write 1 (name.toList ++ ['\n'])).withStatus 0
    | none => refuse r "kill" s!"invalid signal number or name: {text}"
  | "--" :: targets => send r 15 targets
  | word :: targets =>
    match word.toList with
    | '-' :: cs@(c :: _) =>
      match signal? (String.ofList cs) with
      | some n => send r n targets
      | none => refuse r "kill" s!"Illegal option -{String.singleton c}"
    | _ => send r 15 (word :: targets)
  | [] => send r 15 []

/-- Sets what is run at signals and at the end. -/
def trap (r : Run) (args : List String) : Run :=
  match args with
  | [] => r.withStatus 0
  | action :: more =>
    let conditions := if more.isEmpty then [action] else more
    match conditions.find? fun c => (signal? c).isNone with
    | some c => (r.write 2 s!"trap: {c}: bad trap\n".toList).withStatus 1
    | none =>
      let numbers := conditions.filterMap signal?
      let others := r.traps.filter fun (n, _) => !numbers.contains n
      let isReset := more.isEmpty || action = "-"
      let here := if isReset then [] else numbers.map fun n => (n, action.toList)
      { r with traps := here ++ others, status := 0 }

/-- What is said of a program that a signal has ended. -/
def signalText (signal : Nat) : String :=
  match signal with
  | 1 => "Hangup"
  | 3 => "Quit"
  | 6 => "Aborted"
  | 9 => "Killed"
  | 10 => "User defined signal 1"
  | 12 => "User defined signal 2"
  | 14 => "Alarm clock"
  | 15 => "Terminated"
  | _ => ""

/-! ### The table -/

def succeed (r : Run) (_ : List String) : Run := r.withStatus 0

/-- Goes to a directory. -/
def changeDirectory (r : Run) (args : List String) : Run :=
  match args with
  | [] => r.withStatus 0
  | name :: _ =>
    if Tool.directories.contains name then r.withStatus 0
    else refuse r "cd" s!"can't cd to {name}"

/-- The special commands by their names. -/
def special : List (String × Action) :=
  [(":", succeed), ("exit", leave "exit" .exit), ("return", leave "return" .return),
    ("break", jumpLoops "break" true), ("continue", jumpLoops "continue" false),
    ("shift", shift), ("set", fun r args => setOptions (args.length + 1) r args),
    ("export", declare "export"), ("readonly", declare "readonly"), ("local", makeLocal),
    ("unset", unset), ("trap", trap), ("times", succeed)]

/-- The other commands by their names. -/
def regular : List (String × Action) :=
  [("true", succeed), ("false", fun r _ => r.withStatus 1), ("echo", echo), ("printf", printf),
    ("test", test), ("[", bracket), ("read", read), ("kill", kill), ("cd", changeDirectory),
    ("wait", fun r args => r.withStatus (if args.isEmpty then 0 else 127)), ("alias", succeed),
    ("hash", succeed), ("jobs", succeed), ("ulimit", succeed), ("umask", succeed)]

/-- Tells what names stand for. -/
def describe (r : Run) (names : List String) : Run :=
  names.foldl (fun r name =>
    let text? := if (special.lookup name).isSome then some "is a special shell builtin"
      else if (regular.lookup name).isSome then some "is a shell builtin"
      else if (r.functions.lookup name).isSome then some "is a shell function"
      else if (Tool.find? name).isSome then some s!"is /usr/bin/{name}"
      else none
    match text? with
    | some text => r.write 1 s!"{name} {text}\n".toList
    | none => (r.write 1 s!"{name}: not found\n".toList).withStatus 127) (r.withStatus 0)

/-- The commands that are programs of their own as well. -/
def programs : List (String × Action) :=
  regular.filter fun (name, _) => ["true", "false", "echo", "printf", "test", "["].contains name

/-- Tells where commands are found that are known by a name. -/
def locate (r : Run) (names : List String) : Run :=
  let known (name : String) : Option String :=
    if (special.lookup name).isSome || (regular.lookup name).isSome
        || ["eval", "exec", "command"].contains name || (r.functions.lookup name).isSome then
      some name
    else if name == "sh" || (Tool.find? name).isSome then
      some (if name.startsWith "/" then name else "/usr/bin/" ++ name)
    else none
  names.foldl (fun r name =>
    match known name with
    | some place => r.write 1 (place.toList ++ ['\n'])
    | none => r.withStatus 127) (r.withStatus 0)

end ConfigTree.Script.Builtin
