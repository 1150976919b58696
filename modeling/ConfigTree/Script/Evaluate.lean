import ConfigTree.Script.Builtin

/-!
# Evaluation

What a script does. `Command.run` runs a command in a state and gives the state after it; the depth
to which commands lead to others is bounded by the fuel. `launch` runs a whole script.

The interpreter stands for the shell `sh` of a machine, which the service starts and does not
contain; `Script.programs` says what follows from that.
-/

namespace ConfigTree.Script

/-! ### Redirections -/

/-- The sink of a file that is written to, or why there is none. -/
def sinkOf (r : Run) (name : String) : Except String (Option Nat) :=
  let directory := String.ofList ((name.toList.reverse.dropWhile (· != '/')).drop 1).reverse
  match name with
  | "/dev/null" => .ok none
  | "/dev/stdout" => .ok (r.sinks.lookup 1).join
  | "/dev/stderr" => .ok (r.sinks.lookup 2).join
  | name =>
    if Tool.directories.contains name then .error s!"cannot create {name}: Is a directory"
    else if name.isEmpty || (directory != "" && !Tool.directories.contains directory) then
      .error s!"cannot create {name}: Directory nonexistent"
    else .ok none

/-- Carries out redirections, up to one that fails. -/
def redirect (capture : Capture) (r : Run) : List Redirection → Except Run Run
  | [] => .ok r
  | ⟨stream, mode, target⟩ :: rest => do
    let (name, r) := expandText capture r target
    if r.jump.isSome then throw r
    let others := r.sinks.filter (·.1 != stream)
    let r ← match mode with
      | .readText => pure { r with input := name.toList }
      | .read =>
        match Tool.read r name with
        | (.text cs, _) => pure { r with input := cs }
        | (.directory, _) => pure { r with input := [] }
        | (.missing, _) => throw (r.fail 2 s!"cannot open {name}: No such file")
      | .write =>
        match sinkOf r name with
        | .ok sink => pure { r with sinks := (stream, sink) :: others }
        | .error message => throw (r.fail 2 message)
      | .duplicate =>
        match name, Builtin.number? name with
        | "-", _ => pure { r with sinks := others }
        | _, some n =>
          match r.sinks.lookup n with
          | some sink => pure { r with sinks := (stream, sink) :: others }
          | none => if n = 0 then pure r else throw (r.fail 2 s!"{n}: Bad file descriptor")
        | _, none => throw (r.abort "Syntax error: Bad fd number")
    redirect capture r rest

/-- Undoes redirections after a command. What it has read is gone unless it came from elsewhere. -/
def restore (before after : Run) (rs : List Redirection) : Run :=
  let comesFromElsewhere := rs.any fun r => r.mode == .read || r.mode == .readText
  { after with
    sinks := before.sinks
    input := if comesFromElsewhere then before.input else after.input }

/-! ### Commands -/

/-- Whether the value of a word comes from another script. -/
def hasOutput (w : Word) : Bool :=
  w.any fun
    | .output .. => true
    | _ => false

/-- Whether a word is all arguments in quotes, each for itself. -/
def isAllArguments (w : Word) : Bool :=
  match w with
  | [.quotes, .parameter true "@" .value []] => true
  | _ => false

/-- Ends the script after a command that failed, if it is to. -/
def checked (tested : Bool) (r : Run) : Run :=
  if r.status != 0 && !tested && r.jump.isNone && r.options.contains 'e' then r.exit r.status else r

/-- The state after a turn of a loop, and whether another turn follows. -/
def afterTurn (r : Run) : Run × Bool :=
  match r.jump with
  | none => (r, true)
  | some (.loop leaves n) =>
    if 1 < n then ({ r with jump := some (.loop leaves (n - 1)) }, false)
    else ({ r with jump := none }, !leaves)
  | some _ => (r, false)

/-- Reports a command before it is run, if that is asked for: what it has assigned and its words. -/
def trace (before r : Run) (assignments : List (String × Word)) (texts : List String) : Run :=
  let given := assignments.map fun (name, _) => s!"{name}=" ++ (r.get? name).getD ""
  let line := "+ " ++ " ".intercalate (given ++ texts) ++ "\n"
  if r.options.contains 'x' && r.jump.isNone && !(given ++ texts).isEmpty then
    { ({ r with sinks := before.sinks }.write 2 line.toList) with sinks := r.sinks }
  else r

/-- What happens if a command is called by a name that nothing has. -/
def missing (r : Run) (name : String) : Run :=
  if name.isEmpty then r.fail 127 ": Permission denied"
  else if Tool.isPresent name && name.contains '/' then r.fail 126 s!"{name}: Permission denied"
  else r.fail 127 s!"{name}: not found"

mutual

/-- Runs a command. One that is tested may fail. -/
def Command.run : Nat → Bool → Run → Command → Run
  | 0, _, r, _ => r.exit 2
  | fuel + 1, tested, r, c =>
    let capture : Capture := fun r text =>
      let inner := { r.capture 1 with traps := [] }
      let (text, inner) := (depart fuel (runText fuel r.line inner text)).captured
      (text, r.resume inner)
    match c with
    | .nothing => r
    | .simple line assignments words redirections =>
      let r := { r with line }
      let words := words.filter fun w => !(isAllArguments w && r.arguments.isEmpty)
      let (texts, expanded) := expandWords capture r words
      if expanded.jump.isSome then expanded
      else
        match texts with
        | [] =>
          match redirect capture expanded redirections with
          | .error failed => restore expanded failed redirections
          | .ok opened =>
            let done := trace expanded (assign capture opened assignments) assignments []
            let fromOutput := (assignments.any fun a => hasOutput a.2) || words.any hasOutput
            let status := if done.jump.isSome then done.status
              else if fromOutput then done.outputStatus else 0
            checked tested (restore expanded { done with status } redirections)
        | name :: args =>
          let isSpecial := (Builtin.special.lookup name).isSome
            || ["eval", "exec", "."].contains name
          match redirect capture expanded redirections with
          | .error failed =>
            let failed := restore expanded failed redirections
            checked tested (if isSpecial && failed.jump.isNone then failed.exit 2 else failed)
          | .ok opened =>
            let assigned := trace expanded (assign capture opened assignments) assignments texts
            if assigned.jump.isSome then restore expanded assigned redirections
            else
              let exported := assignments.map (·.1) ++ assigned.exported
              let done := call fuel tested { assigned with exported } name args
              let done := if done.due.isEmpty then done else attend fuel done
              let done :=
                if isSpecial then done
                else assignments.foldl (fun r (v, _) => r.put v (expanded.get? v))
                  { done with exported := expanded.exported }
              if name = "exec" && args.isEmpty then done
              else checked tested (restore expanded done redirections)
    | .redirected line body redirections =>
      let r := { r with line }
      match redirect capture r redirections with
      | .error failed => checked tested (restore r failed redirections)
      | .ok opened => restore r (body.run fuel tested opened) redirections
    | .sequence first second =>
      let r := first.run fuel tested r
      if r.jump.isSome then r else second.run fuel tested r
    | .both first second =>
      let r := first.run fuel true r
      if r.jump.isSome || r.status != 0 then r else second.run fuel tested r
    | .either first second =>
      let r := first.run fuel true r
      if r.jump.isSome || r.status = 0 then r else second.run fuel tested r
    | .negated body =>
      let r := body.run fuel true r
      if r.jump.isSome then r else r.withStatus (if r.status = 0 then 1 else 0)
    | .piped first second =>
      let inner := { r.capture 1 with traps := [], depth := 0 }
      let (text, inner) := (depart fuel (first.run fuel tested inner)).captured
      let after := r.resume inner
      if after.jump.isSome then after
      else
        let inner := { after with input := text, status := r.status, traps := [], depth := 0 }
        let inner := depart fuel (second.run fuel tested inner)
        checked tested { after.resume inner with input := after.input }
    | .background body =>
      let inner := depart fuel (body.run fuel true { r with input := [], traps := [], depth := 0 })
      { r.resume inner with input := r.input, status := 0 }
    | .subshell body =>
      let inner := depart fuel (body.run fuel tested { r with traps := [], depth := 0 })
      checked tested (r.resume inner)
    | .branch condition yes no =>
      let r := condition.run fuel true r
      if r.jump.isSome then r
      else
        let chosen := if r.status = 0 then yes else no
        chosen.run fuel tested { r with status := 0 }
    | .loop whileTrue condition body => loop fuel tested whileTrue condition body 0 r
    | .each line name words body =>
      let r := { r with line }
      let (texts, r) := match words with
        | some words =>
          let words := words.filter fun w => !(isAllArguments w && r.arguments.isEmpty)
          expandWords capture r words
        | none => (r.arguments, r)
      if r.jump.isSome then r else iterate fuel tested name body texts (r.withStatus 0)
    | .choice line subject cases =>
      let (text, r) := expandText capture { r with line } subject
      if r.jump.isSome then r else choose fuel tested text.toList cases r
    | .define name body =>
      { r with functions := (name, body) :: r.functions.filter (·.1 != name), status := 0 }

/-- Assigns values to variables one after another. -/
def assign (capture : Capture) (r : Run) : List (String × Word) → Run
  | [] => r
  | (name, value) :: rest =>
    let (text, r) := expandText capture r value
    if r.jump.isSome then r else assign capture (r.set name text) rest

/-- Runs turns of a loop. Its status is that of the last of them. -/
def loop : Nat → Bool → Bool → Command → Command → Nat → Run → Run
  | 0, _, _, _, _, _, r => r.exit 2
  | fuel + 1, tested, whileTrue, condition, body, last, r =>
    let depth := r.depth
    let r := condition.run fuel true { r with depth := depth + 1 }
    let (r, goesOn) := if r.jump.isSome then afterTurn r else (r, true)
    if !goesOn then { r with depth }
    else if (r.status == 0) != whileTrue then { r with depth, status := last }
    else
      let r := body.run fuel tested r
      match afterTurn r with
      | (r, true) => loop fuel tested whileTrue condition body r.status { r with depth }
      | (r, false) => { r with depth }

/-- Runs a body for each text. -/
def iterate : Nat → Bool → String → Command → List String → Run → Run
  | 0, _, _, _, _, r => r.exit 2
  | _, _, _, _, [], r => r
  | fuel + 1, tested, name, body, text :: rest, r =>
    let depth := r.depth
    let r := body.run fuel tested { r.set name text with depth := depth + 1 }
    match afterTurn r with
    | (r, true) => iterate fuel tested name body rest { r with depth }
    | (r, false) => { r with depth }

/-- Runs the first of some cases that fits a text. -/
def choose : Nat → Bool → List Char → List (List Word × Command) → Run → Run
  | 0, _, _, _, r => r.exit 2
  | _, _, _, [], r => r.withStatus 0
  | fuel + 1, tested, text, (patterns, body) :: rest, r =>
    let capture : Capture := fun r text =>
      let inner := { r.capture 1 with traps := [] }
      let (text, inner) := (depart fuel (runText fuel r.line inner text)).captured
      (text, r.resume inner)
    let (found, r) := patterns.foldl (fun (found, r) w =>
      if found then (found, r)
      else
        let (ps, r) := expand capture r w
        ((Glob.parse (Piece.chars ps)).fits text, r)) (false, r)
    if r.jump.isSome then r
    else if found then body.run fuel tested (r.withStatus 0)
    else choose fuel tested text rest r

/-- Runs what signals have asked for. -/
def attend : Nat → Run → Run
  | 0, r => r.exit 2
  | fuel + 1, r =>
    let after := runText fuel r.line { r with due := [] } r.due
    if after.jump.isSome then after else after.withStatus r.status

/-- Calls a command by its name. -/
def call : Nat → Bool → Run → String → List String → Run
  | 0, _, r, _, _ => r.exit 2
  | fuel + 1, tested, r, name, args =>
    match name, args with
    | "eval", args =>
      let done := runText fuel 1 { r with status := 0, origin := "eval: " }
        (" ".intercalate args).toList
      { done with origin := r.origin, line := r.line }
    | ".", name :: _ =>
      match Tool.read r name with
      | (.text cs, r) => runText fuel 1 (r.withStatus 0) cs
      | _ =>
        if name.contains '/' then r.abort s!".: cannot open {name}: No such file"
        else r.abort s!".: {name}: not found"
    | ".", [] => r.withStatus 0
    | "exec", [] => r.withStatus 0
    | "exec", name :: args =>
      let isKnown := (Builtin.regular.lookup name).isSome || (Tool.find? name).isSome
        || name == "sh" || name == "/bin/sh"
      if isKnown then
        let r := call fuel true r name args
        if r.jump.isSome then r else r.exit r.status
      else (missing r s!"exec: {name}").exit 127
    | "command", "-v" :: names => Builtin.locate r names
    | "type", names => Builtin.describe r names
    | "command", name :: args => call fuel tested { r with functions := [] } name args
    | name, args =>
      let found := [Builtin.special.lookup name, Builtin.regular.lookup name, Tool.find? name]
      match r.functions.lookup name, found.findSome? id with
      | some body, _ =>
        let done := body.run fuel tested { r with arguments := args, depth := 0, locals := some [] }
        let done := (done.locals.getD []).foldl (fun r (v, value) => r.put v value) done
        { done with
          arguments := r.arguments
          depth := r.depth
          locals := r.locals
          jump := if done.jump = some .return then none else done.jump }
      | none, some run => { run { r with origin := "" } args with origin := r.origin }
      | none, none =>
        if name = "sh" || name = "/bin/sh" || name = "/usr/bin/sh" then
          let inner := { Run.start name [] r.input with
            bindings := r.bindings.filter fun (v, _) => v == "IFS" || r.exported.contains v
            exported := r.exported
            sinks := r.sinks
            written := r.written }
          let inner := launch fuel inner args
          let r := r.resume { inner with jump := none }
          match inner.jump with
          | some (.killed n) =>
            (r.write 2 (Builtin.signalText n ++ "\n").toList).withStatus (128 + n)
          | _ => r
        else missing r name

/-- Runs what is to be run at the end, unless the script has been killed. -/
def depart : Nat → Run → Run
  | 0, r => r.exit 2
  | fuel + 1, r =>
    match r.traps.lookup 0, r.jump with
    | none, _ | _, some (.killed _) => r
    | some farewell, _ =>
      let after := runText fuel r.line { r with traps := [], jump := none } farewell
      if after.jump.isSome then after else { after with status := r.status, jump := r.jump }

/-- Runs the interpreter on its arguments: options, a script after "-c" or else the input, and the
arguments of the script. -/
def launch : Nat → Run → List String → Run
  | 0, r, _ => r.exit 2
  | fuel + 1, r, args =>
    let early := { r with line := 0 }
    let begin (text : List Char) (r : Run) : Run :=
      depart fuel (runText fuel 1 r text)
    let fromFile (file : String) (rest : List String) : Run :=
      match Tool.read r file with
      | (.text cs, _) => begin cs { r with name := file, arguments := rest }
      | _ => early.fail 2 s!"cannot open {file}: No such file"
    match args with
    | [] | ["-s"] | ["-"] | ["--"] => begin r.input { r with input := [] }
    | "--" :: file :: rest => fromFile file rest
    | "-c" :: text :: rest =>
      begin text.toList { r with name := rest.headD r.name, arguments := rest.tail }
    | ["-c"] => early.fail 2 "-c requires an argument"
    | word :: rest =>
      match word.toList with
      | '-' :: cs@(_ :: _) =>
        let script := cs.contains 'c'
        match Builtin.turn true r.options (cs.filter (· != 'c')) with
        | .ok options => launch fuel { r with options } (if script then "-c" :: rest else rest)
        | .error message => early.fail 2 message
      | '+' :: cs@(_ :: _) =>
        match Builtin.turn false r.options cs with
        | .ok options => launch fuel { r with options } rest
        | .error message => early.fail 2 message
      | _ => fromFile word rest

/-- Runs the lines of a script up to one that ends it or is no line. -/
def runLines : Nat → Run → Tokens → Run
  | 0, r, _ => r.exit 2
  | _, r, [] | _, r, [(_, .finish)] => r
  | fuel + 1, r, ts =>
    match Command.line ts with
    | .error (line, fault) => { r with line }.abort s!"Syntax error: {fault.message}"
    | .ok (c, rest) =>
      let r := c.run fuel false r
      if r.jump.isSome then r else runLines fuel r rest

/-- Runs a text as a script that begins in a line. -/
def runText : Nat → Nat → Run → List Char → Run
  | 0, _, r, _ => r.exit 2
  | fuel + 1, line, r, text => runLines fuel r (tokensOf line text)

end

/-- How deep commands lead to others at most. -/
def maxDepth : Nat := 10000

end ConfigTree.Script
