import ConfigTree.Script.Format
import ConfigTree.Script.Pattern
import ConfigTree.Script.Run
import ConfigTree.Text.Numeral

/-!
# Tools

The programs that a script can call: those that copy texts, cut them, count in them and search them.
The system in which they run has no files but the empty one and those that stand for streams.

They stand for the tools of a machine, such as `cat`, `grep`, `head` and `wc`, as `Script.programs`
says.
-/

namespace ConfigTree.Script.Tool

/-- What a file name stands for. -/
inductive Source where
  | text (cs : List Char)
  | directory
  | missing
deriving DecidableEq, Repr

def directories : List String :=
  ["/", ".", "..", "/bin", "/dev", "/etc", "/home", "/lib", "/opt", "/proc", "/root", "/run",
    "/sbin", "/sys", "/tmp", "/usr", "/usr/bin", "/var"]

/-- Whether a file is there. -/
def isPresent (name : String) : Bool :=
  directories.contains name
    || ["/dev/null", "/dev/stdin", "/dev/stdout", "/dev/stderr"].contains name

/-- Reads a file, of which the input is one. -/
def read (r : Run) (name : String) : Source × Run :=
  match name with
  | "-" | "/dev/stdin" => (.text r.input, { r with input := [] })
  | "/dev/null" => (.text [], r)
  | name => (if directories.contains name then .directory else .missing, r)

/-- How a name stands in a message of a tool. -/
def shown (name : String) : String :=
  let isSafe (c : Char) : Bool := c.isAlphanum || "_-./:@%+,^=".toList.contains c
  if name.isEmpty || !name.toList.all isSafe then s!"'{name}'" else name

/-- Says why a file cannot be read, for a tool. -/
def refusal? (tool name : String) : Source → Option String
  | .text _ => none
  | .directory => some s!"{tool}: {shown name}: Is a directory\n"
  | .missing => some s!"{tool}: {shown name}: No such file or directory\n"

/-- Fails with a message of a tool and a hint. -/
def misused (r : Run) (tool message : String) (status : Nat) : Run :=
  (r.write 2 s!"{tool}: {message}\nTry '{tool} --help' for more information.\n".toList).withStatus
    status

/-! ### Options -/

/-- The options of a call, each with its argument if it takes one, and the other words. -/
structure Call where
  options : List (Char × String)
  words : List String

/-- Takes the options off a word that begins with a dash. -/
def letters (valued : List Char) : List Char → List String → Except String (Call × List String)
  | [], rest => .ok (⟨[], []⟩, rest)
  | c :: cs, rest =>
    if !valued.contains c then
      (letters valued cs rest).map fun (call, rest) =>
        ({ call with options := (c, "") :: call.options }, rest)
    else
      match cs, rest with
      | [], [] => .error s!"option requires an argument -- '{String.singleton c}'"
      | [], value :: rest => .ok (⟨[(c, value)], []⟩, rest)
      | cs, rest => .ok (⟨[(c, String.ofList cs)], []⟩, rest)

/-- Reads the words of a call, of which options may stand anywhere before two dashes. -/
def parse (flags valued : List Char) : Nat → List String → Except String Call
  | 0, _ => .ok ⟨[], []⟩
  | _, [] => .ok ⟨[], []⟩
  | fuel + 1, word :: rest =>
    match word.toList with
    | ['-', '-'] => .ok ⟨[], rest⟩
    | '-' :: '-' :: _ => .error s!"unrecognized option '{word}'"
    | '-' :: cs@(_ :: _) =>
      match letters valued cs rest with
      | .error message => .error message
      | .ok (found, rest) =>
        match found.options.find? fun (c, _) => !flags.contains c && !valued.contains c with
        | some (c, _) => .error s!"invalid option -- '{String.singleton c}'"
        | none =>
          (parse flags valued fuel rest).map fun call =>
            { call with options := found.options ++ call.options }
    | _ =>
      (parse flags valued fuel rest).map fun call => { call with words := word :: call.words }

namespace Call

def has (c : Call) (option : Char) : Bool := c.options.any (·.1 == option)

/-- The arguments of an option. -/
def values (c : Call) (option : Char) : List String :=
  c.options.filterMap fun (o, value) => if o = option then some value else none

/-- The files of a call that has at least one of them, or the input. -/
def files (c : Call) : List String := if c.words.isEmpty then ["-"] else c.words

end Call

/-- Runs a tool on a call that is well formed. -/
def withCall (tool : String) (flags valued : String) (status : Nat) (words : List String) (r : Run)
    (f : Call → Run) : Run :=
  if words.contains "--help" || words.contains "--version" then r.withStatus 0
  else
    match parse flags.toList valued.toList (words.length + 1) words with
    | .ok call => f call
    | .error message => misused r tool message status

/-! ### Lines -/

/-- The lines of a text. The last one need not be closed. -/
def lines (cs : List Char) : List (List Char) :=
  let step (c : Char) (ls : List (List Char)) : List (List Char) :=
    if c = '\n' then [] :: ls
    else
      match ls with
      | [] => [[c]]
      | l :: ls => (c :: l) :: ls
  cs.foldr step []

/-- Lines, all of them closed. -/
def closedLines (ls : List (List Char)) : List Char := (ls.map (· ++ ['\n'])).flatten

/-- The first so many lines as they stand, and the rest of the text. -/
def splitLines : Nat → List Char → List Char × List Char
  | 0, cs => ([], cs)
  | n + 1, cs =>
    match cs.span (· != '\n') with
    | (l, c :: rest) =>
      let (ls, rest) := splitLines n rest
      (l ++ c :: ls, rest)
    | (l, []) => (l, [])

/-! ### The tools -/

/-- Writes files one after another. -/
def cat (r : Run) (words : List String) : Run :=
  withCall "cat" "AbeEnstTuv" "" 1 words r fun call =>
    let numbered := call.has 'n'
    let step (r : Run) (name : String) : Run :=
      let (source, r) := read r name
      match source, refusal? "cat" name source with
      | .text cs, _ =>
        let number (line : List Char × Nat) : List Char :=
          let digits := (toString (line.2 + 1)).toList
          List.replicate (6 - digits.length) ' ' ++ digits ++ ['\t'] ++ line.1
        let cs := if numbered then
            let closed := if cs.getLast? = some '\n' then ['\n'] else []
            ['\n'].intercalate ((lines cs).zipIdx.map number) ++ closed
          else cs
        r.write 1 cs
      | _, message => (r.write 2 (message.getD "").toList).withStatus 1
    call.files.foldl step (r.withStatus 0)

/-- A number of lines or bytes, as the options of a call give it. -/
def amount? (call : Call) (option : Char) : Option (List Char) :=
  ((call.values option).getLast?).map String.toList

/-- A call in which an amount may stand for itself as an option. -/
def withAmount (words : List String) : List String :=
  words.map fun word =>
    match word.toList with
    | '-' :: d :: rest => if d.isDigit then String.ofList ('-' :: 'n' :: d :: rest) else word
    | _ => word

def natural? (cs : List Char) : Option Nat :=
  match Digit.takeDigits cs with
  | (ds@(_ :: _), []) => some (Digit.value ds)
  | _ => none

/-- Writes the beginning of each file. -/
def head (r : Run) (words : List String) : Run :=
  withCall "head" "qv" "nc" 1 (withAmount words) r fun call =>
    let bytes := amount? call 'c'
    match natural? ((bytes <|> amount? call 'n').getD ['1', '0']) with
    | none =>
      let what := if bytes.isSome then "bytes" else "lines"
      let text := String.ofList ((bytes <|> amount? call 'n').getD [])
      (r.write 2 s!"head: invalid number of {what}: '{text}'\n".toList).withStatus 1
    | some n =>
      let step (r : Run) (name : String) : Run :=
        let (source, after) := read r name
        match source, refusal? "head" name source with
        | .text cs, _ =>
          if bytes.isSome then
            let left := if after.input.length < r.input.length then cs.drop n else after.input
            { after with input := left }.write 1 (cs.take n)
          else after.write 1 (splitLines n cs).1
        | _, message =>
          (r.write 2 s!"head: cannot open '{name}' for reading: {reason message}\n".toList)
            |>.withStatus 1
      call.files.foldl step (r.withStatus 0)
where
  /-- The last part of a message. -/
  reason (message : Option String) : String :=
    if ((message.getD "").splitOn "Is a directory").length == 2 then "Is a directory"
    else "No such file or directory"

/-- Writes the end of the input. -/
def tail (r : Run) (words : List String) : Run :=
  withCall "tail" "qv" "nc" 1 (withAmount words) r fun call =>
    let bytes := amount? call 'c'
    let r' := { r with input := [] }.withStatus 0
    match (bytes <|> amount? call 'n').getD ['1', '0'] with
    | '+' :: cs =>
      let n := (natural? cs).getD 1 - 1
      r'.write 1 (if bytes.isSome then r.input.drop n else (splitLines n r.input).2)
    | cs =>
      let n := (natural? cs).getD 10
      let drop := if bytes.isSome then r.input.length - n else (lines r.input).length - n
      r'.write 1 (if bytes.isSome then r.input.drop drop else (splitLines drop r.input).2)

/-- Counts the lines, the words and the bytes of a file. -/
def wc (r : Run) (words : List String) : Run :=
  withCall "wc" "clmwL" "" 1 words r fun call =>
    let name := call.words.headD "-"
    let (source, after) := read r name
    match source, refusal? "wc" name source with
    | .text cs, _ =>
      let isSpace (c : Char) : Bool := isBlank c || ('\n' ≤ c && c ≤ '\r')
      let starts := (cs.zip (' ' :: cs)).countP fun (c, before) => !isSpace c && isSpace before
      let all := !(call.has 'l' || call.has 'w' || call.has 'c' || call.has 'm')
      let counts := (if all || call.has 'l' then [cs.count '\n'] else []) ++
        (if all || call.has 'w' then [starts] else []) ++
        (if all || call.has 'c' || call.has 'm' then [cs.length] else [])
      let width := if counts.length = 1 || name != "-" then 0 else 7
      let column (n : Nat) : List Char :=
        let digits := (toString n).toList
        List.replicate (width - digits.length) ' ' ++ digits
      let label := if call.words.isEmpty then [] else [name.toList]
      let line := [' '].intercalate (counts.map column ++ label) ++ ['\n']
      (after.withStatus 0).write 1 line
    | _, message => (r.write 2 (message.getD "").toList).withStatus 1

/-- The expressions of a search, one for each line of its patterns. -/
def searched (call : Call) (patterns : List String) : List Regex :=
  let texts := patterns.flatMap fun p => lines (p.toList ++ ['\n'])
  texts.map fun cs =>
    let cs := if call.has 'i' then cs.map Char.toLower else cs
    let r := if call.has 'F' then Regex.ofText cs else Regex.parse (call.has 'E') cs
    if call.has 'x' then .append .first (.append r .last) else r

/-- What a search finds in a text, and how many lines that are. -/
def found (call : Call) (any : Regex) (cs : List Char) : List Char × Nat :=
  let fold (cs : List Char) : List Char := if call.has 'i' then cs.map Char.toLower else cs
  let isFound (l : List Char) : Bool :=
    if call.has 'w' then any.occursAsWord (fold l) else any.occursIn (fold l)
  let here := (lines cs).zipIdx.filter fun (l, _) => isFound l != call.has 'v'
  let number (i : Nat) : List Char :=
    if call.has 'n' then (toString (i + 1)).toList ++ [':'] else []
  let parts (l : List Char) : List (List Char) :=
    (any.occurrences (fold l).toArray (l.length + 1) 0).map fun (i, j) => (l.drop i).take (j - i)
  let text := if call.has 'q' then []
    else if call.has 'l' then if here.isEmpty then [] else "(standard input)\n".toList
    else if call.has 'c' then (toString here.length).toList ++ ['\n']
    else if call.has 'o' then
      closedLines (here.flatMap fun (l, i) => (parts l).map (number i ++ ·))
    else closedLines (here.map fun (l, i) => number i ++ l)
  (text, here.length)

/-- Searches files for lines. -/
def grep (r : Run) (words : List String) : Run :=
  withCall "grep" "qivcnxwFEGshHloaz" "em" 2 words r fun call =>
    let (patterns, files) := match call.values 'e', call.words with
      | [], p :: files => ([p], files)
      | ps, files => (ps, files)
    if patterns.isEmpty then
      (r.write 2 ("Usage: grep [OPTION]... PATTERNS [FILE]...\n" ++
        "Try 'grep --help' for more information.\n").toList).withStatus 2
    else
      let any := (searched call patterns).foldr Regex.either (.char fun _ => false)
      let step (state : Run × Nat × Bool) (name : String) : Run × Nat × Bool :=
        let (r, count, failed) := state
        let (source, after) := read r name
        match source, refusal? "grep" name source with
        | .text cs, _ =>
          let (text, n) := found call any cs
          (after.write 1 text, count + n, failed)
        | _, message =>
          (if call.has 's' then r else r.write 2 (message.getD "").toList, count, true)
      let (r, count, failed) :=
        (if files.isEmpty then ["-"] else files).foldl step (r, 0, false)
      r.withStatus (if failed && !(call.has 'q' && count != 0) then 2
        else if count = 0 then 1 else 0)

/-- The characters of a set, which may have ranges, classes and escapes. -/
def members : Nat → List Char → List Char
  | 0, _ => []
  | _, [] => []
  | fuel + 1, cs =>
    let range (a b : Char) : List Char :=
      (List.range (b.toNat + 1 - a.toNat)).map fun i => Char.ofNat (a.toNat + i)
    match cs with
    | '[' :: ':' :: rest =>
      match rest.span (· != ':') with
      | (name, ':' :: ']' :: rest) =>
        (CharSet.named (String.ofList name)).flatMap (fun (a, b) => range a b) ++ members fuel rest
      | _ => '[' :: members fuel (':' :: rest)
    | '\\' :: rest =>
      match escape? rest with
      | some (c, rest) => c :: members fuel rest
      | none => '\\' :: members fuel rest
    | a :: '-' :: b :: rest => range a b ++ members fuel rest
    | c :: rest => c :: members fuel rest
    | [] => []

/-- Deletes characters of the input or puts others in their place. -/
def tr (r : Run) (words : List String) : Run :=
  withCall "tr" "cCdst" "" 1 words r fun call =>
    let set (i : Nat) : List Char :=
      let cs := (call.words[i]?.getD "").toList
      members (cs.length + 1) cs
    let isMember (c : Char) : Bool := (set 0).contains c != (call.has 'c' || call.has 'C')
    let place (c : Char) : Char :=
      match (set 0).idxOf? c with
      | some i => ((set 1)[i]? <|> (set 1).getLast?).getD c
      | none => c
    let text := if call.has 'd' then r.input.filter fun c => !isMember c else r.input.map place
    { r with input := [] }.withStatus 0 |>.write 1 text

/-- Writes the input to more than one stream. -/
def tee (r : Run) (words : List String) : Run :=
  let cs := r.input
  let r := ({ r with input := [] }.withStatus 0).write 1 cs
  if words.contains "/dev/stderr" then r.write 2 cs else r

/-- Waits. -/
def sleep (r : Run) (words : List String) : Run :=
  match words with
  | [] => misused r "sleep" "missing operand" 1
  | words =>
    match words.find? fun w => !(w.toList.all fun c => c.isDigit || ".smhd".toList.contains c) with
    | some w => misused r "sleep" s!"invalid time interval '{w}'" 1
    | none => r.withStatus 0

/-- The tools by their names. -/
def all : List (String × Action) :=
  [("cat", cat), ("grep", grep), ("head", head), ("tail", tail), ("wc", wc), ("tr", tr),
    ("tee", tee), ("sleep", sleep)]

/-- The tool of a name, which may tell its directory. -/
def find? (name : String) : Option Action :=
  (all.find? fun (tool, _) => ["", "/bin/", "/usr/bin/"].any fun d => name == d ++ tool).map (·.2)

end ConfigTree.Script.Tool
