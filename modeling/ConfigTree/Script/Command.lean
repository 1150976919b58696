import ConfigTree.Script.Token

/-!
# Commands of scripts

A script is a sequence of lines, each of which is one command: a simple one, which has words to be
called, or a compound one. `Command.line` takes a line off the tokens of a script. How far a list of
commands goes is decided by its surroundings: a line ends with its last character, a block with a
token that belongs to what the block is part of.

The language is that of the shell of a machine, which `Script.programs` writes out.
-/

namespace ConfigTree.Script

structure Redirection where
  stream : Nat
  mode : Mode
  target : Word

inductive Command where
  | nothing
  | simple (line : Nat) (assignments : List (String × Word)) (words : List Word)
      (redirections : List Redirection)
  | redirected (line : Nat) (body : Command) (redirections : List Redirection)
  | sequence (first second : Command)
  /-- The second command is run if the first one succeeds. -/
  | both (first second : Command)
  /-- The second command is run if the first one fails. -/
  | either (first second : Command)
  | negated (body : Command)
  | piped (first second : Command)
  | background (body : Command)
  | subshell (body : Command)
  | branch (condition yes no : Command)
  /-- Runs the body as long as the condition succeeds, or else as long as it fails. -/
  | loop (whileTrue : Bool) (condition body : Command)
  /-- Runs the body for each of some words, or of the arguments if there are none. -/
  | each (line : Nat) (name : String) (words : Option (List Word)) (body : Command)
  | choice (line : Nat) (subject : Word) (cases : List (List Word × Command))
  | define (name : String) (body : Command)
deriving Inhabited

namespace Command

/-- A parser takes something off tokens, or fails in a line. -/
abbrev Parser (α : Type) := Tokens → Except (Nat × Fault) (α × Tokens)

def headToken (ts : Tokens) : Token := (ts.head?.map (·.2)).getD .finish

def headLine (ts : Tokens) : Nat := (ts.head?.map (·.1)).getD 1

/-- Fails at the first token. -/
def refuse {α : Type} (expected : Option String) : Parser α := fun ts =>
  match headToken ts with
  | .fault fault => .error (headLine ts, fault)
  | t => .error (headLine ts, .unexpected t.name expected)

def skipLines (ts : Tokens) : Tokens :=
  ts.dropWhile fun
    | (_, .operator "\n") => true
    | _ => false

/-- Whether the first token is an operator. -/
def atOperator (text : String) (ts : Tokens) : Bool :=
  match headToken ts with
  | .operator t => t == text
  | _ => false

/-- Whether the first token is a keyword. -/
def atKeyword (k : String) (ts : Tokens) : Bool := (headToken ts).keyword? == some k

def expectKeyword (k : String) : Parser Unit := fun ts =>
  if atKeyword k ts then .ok ((), ts.tail) else refuse (some s!"\"{k}\"") ts

/-- Whether a token ends a block. -/
def endsBlock : Token → Bool
  | .finish => true
  | .operator text => text == ")" || text == ";;"
  | t =>
    match t.keyword? with
    | some k => ["do", "done", "elif", "else", "esac", "fi", "then", "\x7d"].contains k
    | none => false

def andThen : Command → Command → Command
  | .nothing, c => c
  | c, d => .sequence c d

/-- Takes redirections off tokens. -/
def redirections : Nat → Parser (List Redirection)
  | 0, ts => .ok ([], ts)
  | fuel + 1, ts =>
    match ts with
    | (_, .redirect stream mode) :: rest =>
      match headToken rest with
      | .word target => do
        let (more, ts) ← redirections fuel rest.tail
        return (⟨stream, mode, target⟩ :: more, ts)
      | _ => refuse none rest
    | ts => .ok ([], ts)

/-- Takes the words of a loop off tokens, which end with their line or a semicolon. -/
def loopWords : Tokens → Except (Nat × Fault) (List Word × Tokens)
  | (_, .word w) :: rest => (loopWords rest).map fun (ws, ts) => (w :: ws, ts)
  | ts => if atOperator "\n" ts || atOperator ";" ts then .ok ([], ts.tail) else refuse none ts

/-- Takes the patterns of a case off tokens, up to the closing parenthesis. -/
def patterns : Tokens → Except (Nat × Fault) (List Word × Tokens)
  | (_, .word w) :: (_, .operator "|") :: rest => (patterns rest).map fun (ws, ts) => (w :: ws, ts)
  | (_, .word w) :: (_, .operator ")") :: rest => .ok ([w], rest)
  | (_, .word _) :: ts => refuse (some "\")\"") ts
  | ts => refuse (some "\")\"") (if ts.tail.isEmpty then ts else ts.tail)

/-- What a simple command has so far. -/
structure Simple where
  assignments : List (String × Word)
  words : List Word
  redirections : List Redirection

/-- Adds a word to a simple command. Words that assign come first. -/
def Simple.addWord (s : Simple) (w : Word) : Simple :=
  match if s.words.isEmpty then w.assignment? else none with
  | some a => { s with assignments := s.assignments ++ [a] }
  | none => { s with words := s.words ++ [w] }

/-- The name of the function whose definition begins with a simple command, if that has nothing but
one word. -/
def Simple.function? (s : Simple) : Option Word :=
  match s with
  | ⟨[], [w], []⟩ => some w
  | _ => none

mutual

/-- Takes a block off tokens. -/
def block : Nat → Bool → Command → Parser Command
  | 0, _, c, ts => .ok (c, ts)
  | fuel + 1, started, c, ts => do
    let ts := skipLines ts
    match headToken ts with
    | .finish => return (c, ts)
    | t =>
      if started && endsBlock t then return (c, ts)
      let (d, ts) ← chain fuel ts
      if atOperator "&" ts then block fuel true (andThen c (.background d)) ts.tail
      else if atOperator ";" ts || atOperator "\n" ts then
        block fuel true (andThen c d) ts.tail
      else return (andThen c d, ts)

/-- Takes pipelines off tokens that are linked by their success or failure. -/
def chain : Nat → Parser Command
  | 0, ts => .ok (.nothing, ts)
  | fuel + 1, ts => do
    let (c, ts) ← pipeline fuel ts
    links fuel c ts

def links : Nat → Command → Parser Command
  | 0, c, ts => .ok (c, ts)
  | fuel + 1, c, ts => do
    if atOperator "&&" ts then
      let (d, ts) ← pipeline fuel (skipLines ts.tail)
      links fuel (.both c d) ts
    else if atOperator "||" ts then
      let (d, ts) ← pipeline fuel (skipLines ts.tail)
      links fuel (.either c d) ts
    else return (c, ts)

def pipeline : Nat → Parser Command
  | 0, ts => .ok (.nothing, ts)
  | fuel + 1, ts => do
    if atKeyword "!" ts then
      let (c, ts) ← stages fuel ts.tail
      return (.negated c, ts)
    else stages fuel ts

def stages : Nat → Parser Command
  | 0, ts => .ok (.nothing, ts)
  | fuel + 1, ts => do
    let (c, ts) ← command fuel ts
    if atOperator "|" ts then
      let (d, ts) ← stages fuel (skipLines ts.tail)
      return (.piped c d, ts)
    else return (c, ts)

/-- Takes a command off tokens, with the redirections that follow it. -/
def command : Nat → Parser Command
  | 0, ts => .ok (.nothing, ts)
  | fuel + 1, ts => do
    let line := headLine ts
    match (headToken ts).keyword?, headToken ts with
    | none, .word _ | none, .redirect .. => call fuel line ⟨[], [], []⟩ ts
    | none, .operator "(" => do
      let (c, ts) ← block fuel false .nothing ts.tail
      if atOperator ")" ts then closed fuel line (.subshell c) ts.tail
      else refuse (some "\")\"") ts
    | some "\x7b", _ => do
      let (c, ts) ← block fuel false .nothing ts.tail
      let (_, ts) ← expectKeyword "\x7d" ts
      closed fuel line c ts
    | some "if", _ => do
      let (c, ts) ← conditional fuel ts.tail
      closed fuel line c ts
    | some "while", _ => looping fuel line true ts.tail
    | some "until", _ => looping fuel line false ts.tail
    | some "for", _ =>
      match headToken ts.tail with
      | .word w =>
        match w.plain?.filter isName with
        | some name => iteration fuel line (String.ofList name) (skipLines ts.tail.tail)
        | none => .error (headLine ts.tail, .loopVariable)
      | .fault fault => .error (headLine ts.tail, fault)
      | _ => .error (headLine ts.tail, .loopVariable)
    | some "case", _ =>
      match headToken ts.tail with
      | .word w => do
        let (_, ts) ← expectKeyword "in" (skipLines ts.tail.tail)
        let (cs, ts) ← cases fuel ts
        closed fuel line (.choice line w cs) ts
      | _ => refuse (some "word") ts.tail
    | _, _ => refuse none ts

/-- Takes the redirections off tokens that follow a compound command. -/
def closed : Nat → Nat → Command → Parser Command
  | 0, _, c, ts => .ok (c, ts)
  | fuel + 1, line, c, ts => do
    let (rs, ts) ← redirections fuel ts
    return (if rs.isEmpty then c else .redirected line c rs, ts)

/-- Takes what follows an "if" off tokens, up to the "fi". -/
def conditional : Nat → Parser Command
  | 0, ts => .ok (.nothing, ts)
  | fuel + 1, ts => do
    let (condition, ts) ← block fuel false .nothing ts
    let (_, ts) ← expectKeyword "then" ts
    let (yes, ts) ← block fuel false .nothing ts
    if atKeyword "elif" ts then
      let (no, ts) ← conditional fuel ts.tail
      return (.branch condition yes no, ts)
    else if atKeyword "else" ts then
      let (no, ts) ← block fuel false .nothing ts.tail
      let (_, ts) ← expectKeyword "fi" ts
      return (.branch condition yes no, ts)
    else
      let (_, ts) ← expectKeyword "fi" ts
      return (.branch condition yes .nothing, ts)

/-- Takes a body off tokens, between "do" and "done". -/
def doBody : Nat → Parser Command
  | 0, ts => .ok (.nothing, ts)
  | fuel + 1, ts => do
    let (_, ts) ← expectKeyword "do" ts
    let (c, ts) ← block fuel false .nothing ts
    let (_, ts) ← expectKeyword "done" ts
    return (c, ts)

def looping : Nat → Nat → Bool → Parser Command
  | 0, _, _, ts => .ok (.nothing, ts)
  | fuel + 1, line, whileTrue, ts => do
    let (condition, ts) ← block fuel false .nothing ts
    let (body, ts) ← doBody fuel ts
    closed fuel line (.loop whileTrue condition body) ts

/-- Takes what follows the name of a loop over words off tokens. -/
def iteration : Nat → Nat → String → Parser Command
  | 0, _, _, ts => .ok (.nothing, ts)
  | fuel + 1, line, name, ts => do
    if atKeyword "in" ts then
      let (ws, ts) ← loopWords ts.tail
      let (body, ts) ← doBody fuel (skipLines ts)
      closed fuel line (.each line name (some ws) body) ts
    else
      let ts := if atOperator ";" ts then ts.tail else ts
      let (body, ts) ← doBody fuel (skipLines ts)
      closed fuel line (.each line name none body) ts

/-- Takes cases off tokens, up to the "esac". -/
def cases : Nat → Parser (List (List Word × Command))
  | 0, ts => .ok ([], ts)
  | fuel + 1, ts => do
    let ts := skipLines ts
    if atKeyword "esac" ts then return ([], ts.tail)
    let ts := if atOperator "(" ts then ts.tail else ts
    let (ws, ts) ← patterns ts
    let (body, ts) ← block fuel true .nothing ts
    let ts := skipLines ts
    if atOperator ";;" ts then
      let (more, ts) ← cases fuel ts.tail
      return ((ws, body) :: more, ts)
    else if atKeyword "esac" ts then return ([(ws, body)], ts.tail)
    else refuse (some "\";;\"") ts

/-- Takes a simple command off tokens, or the definition of a function. -/
def call : Nat → Nat → Simple → Parser Command
  | 0, _, _, ts => .ok (.nothing, ts)
  | fuel + 1, line, s, ts => do
    match headToken ts, s.function? with
    | .word w, _ => call fuel line (s.addWord w) ts.tail
    | .redirect .., _ =>
      let (rs, ts) ← redirections fuel ts
      call fuel line { s with redirections := s.redirections ++ rs } ts
    | .operator "(", some w =>
      if !atOperator ")" ts.tail then refuse (some "\")\"") ts.tail
      else
        match w.plain?.filter isName with
        | some name =>
          let (body, ts) ← command fuel (skipLines ts.tail.tail)
          return (.define (String.ofList name) body, ts)
        | none => .error (headLine ts.tail, .functionName)
    | .fault _, _ => refuse none ts
    | _, _ => return (.simple line s.assignments s.words s.redirections, ts)

end

/-- Takes the commands of a line off tokens. -/
def lineFrom (parserFuel : Nat) : Nat → Command → Parser Command
  | 0, c, ts => .ok (c, ts)
  | fuel + 1, c, ts =>
    if atOperator "\n" ts then .ok (c, ts.tail)
    else
      match headToken ts with
      | .finish => .ok (c, ts)
      | _ => do
        let (d, ts) ← chain parserFuel ts
        if atOperator "&" ts then lineFrom parserFuel fuel (andThen c (.background d)) ts.tail
        else if atOperator ";" ts then lineFrom parserFuel fuel (andThen c d) ts.tail
        else if atOperator "\n" ts || endsScript ts then
          lineFrom parserFuel fuel (andThen c d) ts
        else refuse none ts
where
  endsScript (ts : Tokens) : Bool :=
    match headToken ts with
    | .finish => true
    | _ => false

/-- Takes a line off the tokens of a script: its command, which may be nothing. -/
def line (ts : Tokens) : Except (Nat × Fault) (Command × Tokens) :=
  lineFrom (8 * (ts.length + 1)) (ts.length + 1) .nothing ts

end Command

end ConfigTree.Script
