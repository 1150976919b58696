import ConfigTree.Script.Calculation
import ConfigTree.Script.Pattern
import ConfigTree.Script.Run

/-!
# Expansion

What a word stands for when its command is run. `expand` gives the pieces of a word and `fields` the
texts into which they fall: what comes from a parameter or from another script and is not quoted is
cut at separators. The rules are those of the shell of a machine, which `Script.programs` writes
out.
-/

namespace ConfigTree.Script

/-- Runs a script in a state and gives what it writes. -/
abbrev Capture := Run → List Char → List Char × Run

/-! ### Pieces -/

inductive Piece where
  | char (c : Char) (quoted : Bool)
  /-- A character at which a word may be cut. -/
  | loose (c : Char)
  | quotes
  | cut
deriving DecidableEq, Repr

namespace Piece

/-- The pieces of a text that has been put in place of something. -/
def ofText (quoted : Bool) (text : String) : List Piece :=
  text.toList.map fun c => if quoted then char c true else loose c

/-- The characters of pieces that are not cut, and whether each is quoted. -/
def chars (ps : List Piece) : List (Char × Bool) :=
  ps.filterMap fun
    | char c quoted => some (c, quoted)
    | loose c => some (c, false)
    | quotes => none
    | cut => some (' ', true)

def text (ps : List Piece) : String := String.ofList ((chars ps).map (·.1))

end Piece

/-- The texts of the arguments as pieces, each cut off from the next one. -/
def argumentPieces (quoted : Bool) (r : Run) : List Piece :=
  ((r.arguments.map fun a => (if quoted then [Piece.quotes] else []) ++ Piece.ofText quoted a)
    |>.intersperse [.cut]).flatten

/-- The last lines of an output are dropped as far as they are empty. -/
def dropLastLines (cs : List Char) : List Char := (cs.reverse.dropWhile (· == '\n')).reverse

mutual

/-- The pieces of a part of a word, and the state after it. -/
def expandPart (capture : Capture) (r : Run) : Part → List Piece × Run
  | .char quoted c => ([.char c quoted], r)
  | .quotes => ([.quotes], r)
  | .output quoted backquoted script =>
    let (text, after) := capture (if backquoted then { r with line := 1 } else r) script
    let text := dropLastLines (text.filter (· != '\x00'))
    (Piece.ofText quoted (String.ofList text),
      { after with line := r.line, status := r.status, outputStatus := after.status })
  | .calculation quoted expression =>
    let (ps, r) := expand capture r expression
    let get (name : String) := Calculation.ofText ((r.get? name).getD "")
    match Calculation.value get (Piece.text ps).toList with
    | .ok n => (Piece.ofText quoted (toString n), r)
    | .error fault => ([], r.abort (fault.message (Piece.text ps)))
  | .parameter quoted name change word =>
    let (replacement, inner) := expand capture r word
    let replacement := replacement.map fun
      | .char c false => .loose c
      | p => p
    let value? := r.parameter? name
    let all := name == "@" || (name == "*" && !quoted)
    let value := if all then argumentPieces quoted r else Piece.ofText quoted (value?.getD "")
    let isMissing (orEmpty : Bool) : Bool := value?.isNone || (orEmpty && value? == some "")
    let isRequired := r.options.contains 'u' && value?.isNone && name != "@" && name != "*"
    match change with
    | .value => if isRequired then ([], r.abort s!"{name}: parameter not set") else (value, r)
    | .length => (Piece.ofText quoted (toString (value?.getD "").length), r)
    | .ifUnset orEmpty => if isMissing orEmpty then (replacement, inner) else (value, r)
    | .ifSet orEmpty => if isMissing orEmpty then ([], r) else (replacement, inner)
    | .assign orEmpty =>
      if isMissing orEmpty then
        let text := Piece.text replacement
        (Piece.ofText quoted text, inner.set name text)
      else (value, r)
    | .fail orEmpty =>
      if isMissing orEmpty then
        let usual := if orEmpty then "parameter not set or null" else "parameter not set"
        let text := if word.isEmpty then usual else Piece.text replacement
        ([], inner.abort s!"{name}: {text}")
      else (value, r)
    | .trim atEnd longest =>
      let glob := Glob.parse (Piece.chars replacement)
      let cs := (value?.getD "").toList
      let cs := if atEnd then glob.trimEnd longest cs else glob.trimStart longest cs
      (Piece.ofText quoted (String.ofList cs), inner)
    | .bad => ([], r.abort "Bad substitution")

/-- The pieces of a word, and the state after it. -/
def expand (capture : Capture) (r : Run) : List Part → List Piece × Run
  | [] => ([], r)
  | p :: rest =>
    let (ps, r) := expandPart capture r p
    if r.jump.isSome then (ps, r)
    else
      let (qs, r) := expand capture r rest
      (ps ++ qs, r)

end

/-- The text of a word that is not cut, and the state after it. -/
def expandText (capture : Capture) (r : Run) (w : Word) : String × Run :=
  let (ps, r) := expand capture r w
  (Piece.text ps, r)

/-! ### Fields -/

/-- The texts into which pieces fall at separators, after what is begun, if anything is. A separator
that is no blank ends a text even if there is none, unless blanks have just ended one. -/
def fieldsFrom (separators : List Char) : Option (List Char) → Bool → List Piece → List String
  | none, _, [] => []
  | some field, _, [] => [String.ofList field.reverse]
  | field, ended, p :: rest =>
    let add (c : Char) := fieldsFrom separators (some (c :: field.getD [])) false rest
    let finish (ended : Bool) :=
      match field with
      | some cs => String.ofList cs.reverse :: fieldsFrom separators none ended rest
      | none => fieldsFrom separators none ended rest
    match p with
    | .char c _ => add c
    | .quotes => fieldsFrom separators (some (field.getD [])) false rest
    | .cut => finish false
    | .loose c =>
      if !separators.contains c then add c
      else if isBlank c || c = '\n' then finish (field.isSome || ended)
      else
        match field with
        | some cs => String.ofList cs.reverse :: fieldsFrom separators none false rest
        | none =>
          if ended then fieldsFrom separators none false rest
          else "" :: fieldsFrom separators none false rest

def fields (separators : List Char) (ps : List Piece) : List String :=
  fieldsFrom separators none false ps

/-- The texts of words, and the state after them. -/
def expandWords (capture : Capture) (r : Run) : List Word → List String × Run
  | [] => ([], r)
  | w :: ws =>
    let (ps, r) := expand capture r w
    if r.jump.isSome then ([], r)
    else
      let here := fields r.separators ps
      let (more, r) := expandWords capture r ws
      (here ++ more, r)

end ConfigTree.Script
