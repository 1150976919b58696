/-!
# Patterns

Patterns for texts, in two notations: `Glob` is that of cases and of the ends that are cut off a
parameter's value, and `Regex` that in which lines are searched for. Both are matched by the places
in a text to which they lead from others. Places are numbered from the beginning of the text and
stand in increasing order.

They stand for the patterns of the shell and of `grep` of a machine, as `Script.programs` says.
-/

namespace ConfigTree.Script

/-! ### Sets of characters -/

/-- A set of characters in brackets. -/
structure CharSet where
  negated : Bool
  ranges : List (Char × Char)
deriving DecidableEq, Repr

namespace CharSet

def contains (s : CharSet) (c : Char) : Bool :=
  s.ranges.any (fun (low, high) => low ≤ c && c ≤ high) != s.negated

/-- The ranges of a class that has a name. -/
def named (name : String) : List (Char × Char) :=
  match name with
  | "alpha" => [('A', 'Z'), ('a', 'z')]
  | "digit" => [('0', '9')]
  | "alnum" => [('0', '9'), ('A', 'Z'), ('a', 'z')]
  | "upper" => [('A', 'Z')]
  | "lower" => [('a', 'z')]
  | "space" => [('\t', '\r'), (' ', ' ')]
  | "blank" => [('\t', '\t'), (' ', ' ')]
  | "punct" => [('!', '/'), (':', '@'), ('[', '\x60'), ('\x7b', '~')]
  | "print" => [(' ', '~')]
  | "graph" => [('!', '~')]
  | "cntrl" => [('\x00', '\x1f'), ('\x7f', '\x7f')]
  | "xdigit" => [('0', '9'), ('A', 'F'), ('a', 'f')]
  | _ => []

/-- Takes the ranges up to a closing bracket, which may be the first character in them. -/
def ranges? : Nat → Bool → List Char → Option (List (Char × Char) × List Char)
  | 0, _, _ => none
  | fuel + 1, first, cs =>
    let next (found : List (Char × Char)) (rest : List Char) :=
      (ranges? fuel false rest).map fun (more, tail) => (found ++ more, tail)
    match cs with
    | [] => none
    | '[' :: ':' :: rest =>
      match rest.span (· != ':') with
      | (name, ':' :: ']' :: rest) => next (named (String.ofList name)) rest
      | _ => next [('[', '[')] (':' :: rest)
    | low :: '-' :: high :: rest =>
      if low = ']' && !first then some ([], '-' :: high :: rest)
      else if high = ']' then next [(low, low), ('-', '-')] (high :: rest)
      else next [(low, high)] rest
    | c :: rest => if c = ']' && !first then some ([], rest) else next [(c, c)] rest

/-- Takes a set off a text that follows an opening bracket. -/
def take? (cs : List Char) : Option (CharSet × List Char) :=
  let (negated, cs) := match cs with
    | '!' :: rest | '^' :: rest => (true, rest)
    | cs => (false, cs)
  (ranges? (cs.length + 1) true cs).map fun (rs, rest) => (⟨negated, rs⟩, rest)

end CharSet

/-! ### Places -/

abbrev Places := List Nat

namespace Places

/-- The places in a text from a given one on, the end among them. -/
def onward (text : Array Char) (i : Nat) : Places :=
  (List.range (text.size + 1 - i)).map (i + ·)

/-- The places after a character for which `f` holds. -/
def after (text : Array Char) (f : Char → Bool) (ps : Places) : Places :=
  ps.filterMap fun i => if (text[i]?.map f).getD false then some (i + 1) else none

def union (ps qs : Places) : Places := (ps.merge qs).eraseReps

/-- The places to which up to so many steps lead from those in `found`, of which the last step has
led to those in `fresh`. -/
def closure (step : Places → Places) : Nat → Places → Places → Places
  | 0, _, found => found
  | n + 1, fresh, found =>
    let fresh := (step fresh).filter (!found.contains ·)
    if fresh.isEmpty then found else closure step n fresh (union found fresh)

end Places

/-! ### Globs -/

inductive GlobItem where
  | char (c : Char)
  | any
  | many
  | set (s : CharSet)
deriving DecidableEq, Repr

abbrev Glob := List GlobItem

namespace Glob

/-- The glob of characters, of which those that are quoted stand for themselves. -/
def ofChars : Nat → List (Char × Bool) → Glob
  | 0, _ => []
  | _, [] => []
  | fuel + 1, (c, quoted) :: rest =>
    if quoted then .char c :: ofChars fuel rest
    else if c = '*' then .many :: ofChars fuel rest
    else if c = '?' then .any :: ofChars fuel rest
    else if c = '[' then
      match CharSet.take? (rest.map (·.1)) with
      | some (s, left) => .set s :: ofChars fuel (rest.drop (rest.length - left.length))
      | none => .char c :: ofChars fuel rest
    else .char c :: ofChars fuel rest

def parse (cs : List (Char × Bool)) : Glob := ofChars (cs.length + 1) cs

/-- The places to which an item leads. -/
def itemPlaces (text : Array Char) (ps : Places) : GlobItem → Places
  | .char c => ps.after text (· == c)
  | .any => ps.after text fun _ => true
  | .set s => ps.after text s.contains
  | .many => (ps.head?.map (Places.onward text)).getD []

/-- The places to which a glob leads from a given one. -/
def places (g : Glob) (text : Array Char) (i : Nat) : Places := g.foldl (itemPlaces text) [i]

/-- Whether a text as a whole is as a glob says. -/
def fits (g : Glob) (cs : List Char) : Bool := (g.places cs.toArray 0).contains cs.length

/-- Cuts a beginning off a text, the longest or the shortest that fits. -/
def trimStart (g : Glob) (longest : Bool) (cs : List Char) : List Char :=
  let ends := g.places cs.toArray 0
  cs.drop ((if longest then ends.getLast? else ends.head?).getD 0)

/-- Cuts an end off a text. -/
def trimEnd (g : Glob) (longest : Bool) (cs : List Char) : List Char :=
  let text := cs.toArray
  let starts := (Places.onward text 0).filter fun i => (g.places text i).contains text.size
  cs.take ((if longest then starts.head? else starts.getLast?).getD text.size)

end Glob

/-! ### Regular expressions -/

inductive Regex where
  | empty
  | char (f : Char → Bool)
  /-- The beginning of the line. -/
  | first
  /-- The end of the line. -/
  | last
  | append (r s : Regex)
  | either (r s : Regex)
  /-- At least so many times, and at most so many times more if there is a limit. -/
  | times (r : Regex) (least : Nat) (more : Option Nat)

namespace Regex

/-- Applies a function so many times. -/
def repeated {α : Type} (f : α → α) : Nat → α → α
  | 0, a => a
  | n + 1, a => repeated f n (f a)

/-- The places in a line to which an expression leads. -/
def places (text : Array Char) : Regex → Places → Places
  | empty, ps => ps
  | char f, ps => ps.after text f
  | first, ps => ps.filter (· == 0)
  | last, ps => ps.filter (· == text.size)
  | append r s, ps => s.places text (r.places text ps)
  | either r s, ps => (r.places text ps).union (s.places text ps)
  | times r least more, ps =>
    let start := repeated (r.places text) least ps
    Places.closure (r.places text) (more.getD (text.size + 1)) start start

/-- Whether an expression matches a part of a line. -/
def occursIn (r : Regex) (line : List Char) : Bool :=
  let text := line.toArray
  !(r.places text (Places.onward text 0)).isEmpty

/-- Whether an expression matches a part of a line that is no part of a longer word. -/
def occursAsWord (r : Regex) (line : List Char) : Bool :=
  let text := line.toArray
  let isWord (i : Nat) : Bool := (text[i]?.map fun c => c.isAlphanum || c == '_').getD false
  (Places.onward text 0).any fun i =>
    (i = 0 || !isWord (i - 1)) && (r.places text [i]).any fun j => !isWord j

/-- The parts of a line from a place on that an expression matches, by their ends: each is the
longest at the first place where there is one. Empty ones are left out. -/
def occurrences (r : Regex) (text : Array Char) : Nat → Nat → List (Nat × Nat)
  | 0, _ => []
  | fuel + 1, i =>
    match if i < text.size then (r.places text [i]).getLast? else none with
    | some j =>
      if i < j then (i, j) :: r.occurrences text fuel j else r.occurrences text fuel (i + 1)
    | none => if i < text.size then r.occurrences text fuel (i + 1) else []

/-- A sign of an expression. -/
inductive Sign where
  | one (f : Char → Bool)
  | first
  | last
  | opening
  | closing
  | bar
  | times (least : Nat) (more : Option Nat)

/-- A number, and what follows it. -/
def count (cs : List Char) : Option Nat × List Char :=
  let (ds, rest) := cs.span Char.isDigit
  (if ds.isEmpty then none
    else some (ds.foldl (fun n d => 10 * n + (d.toNat - '0'.toNat)) 0), rest)

/-- The bounds of a repetition up to its closing brace, and what follows it. -/
def bounds? (extended : Bool) (cs : List Char) : Option (Nat × Option Nat × List Char) :=
  let close? (cs : List Char) : Option (List Char) :=
    match extended, cs with
    | true, '\x7d' :: rest | false, '\\' :: '\x7d' :: rest => some rest
    | _, _ => none
  match count cs with
  | (least, ',' :: rest) =>
    let (most, rest) := count rest
    (close? rest).map fun rest => (least.getD 0, most.map (· - least.getD 0), rest)
  | (some n, rest) => (close? rest).map fun rest => (n, some 0, rest)
  | _ => none

/-- The sign that a character is after a backslash if it is none without one, or the other way
round. -/
def special? : Char → Option Sign
  | '(' => some .opening
  | ')' => some .closing
  | '|' => some .bar
  | '+' => some (.times 1 none)
  | '?' => some (.times 0 (some 1))
  | _ => none

/-- The class of characters that a letter stands for after a backslash. -/
def letterClass? (c : Char) : Option (Char → Bool) :=
  let word (c : Char) : Bool := c.isAlphanum || c == '_'
  let space : CharSet := ⟨false, CharSet.named "space"⟩
  match c with
  | 'w' => some word
  | 'W' => some fun c => !word c
  | 's' => some space.contains
  | 'S' => some fun c => !space.contains c
  | _ => none

/-- The signs of an expression in the extended notation or the basic one, `start` telling that none
stands before in its group. -/
def signs (extended : Bool) : Nat → Bool → List Char → List Sign
  | 0, _, _ => []
  | fuel + 1, start, cs =>
    let char (c : Char) (rest : List Char) := Sign.one (· == c) :: signs extended fuel false rest
    let sign (s : Sign) (rest : List Char) :=
      let opens := match s with
        | .opening | .bar => true
        | _ => false
      s :: signs extended fuel opens rest
    let brace (rest : List Char) : List Sign :=
      match bounds? extended rest with
      | some (least, more, rest) => sign (.times least more) rest
      | none => char '\x7b' rest
    match cs with
    | [] => []
    | '\\' :: c :: rest =>
      match if extended then none else special? c, letterClass? c with
      | some s, _ => sign s rest
      | none, some f => .one f :: signs extended fuel false rest
      | none, none => if c = '\x7b' && !extended then brace rest else char c rest
    | '[' :: rest =>
      match CharSet.take? rest with
      | some (s, rest) => .one s.contains :: signs extended fuel false rest
      | none => char '[' rest
    | c :: rest =>
      if c = '.' then .one (fun _ => true) :: signs extended fuel false rest
      else if c = '*' && !start then sign (.times 0 none) rest
      else if c = '^' && (start || extended) then .first :: signs extended fuel true rest
      else if c = '$' && (extended || endsGroup rest) then sign .last rest
      else if c = '\x7b' && extended && !start then brace rest
      else
        match if extended then special? c else none with
        | some s => sign s rest
        | none => char c rest
where
  /-- Whether a group ends before a text in the basic notation. -/
  endsGroup : List Char → Bool
    | [] | '\\' :: ')' :: _ | '\\' :: '|' :: _ => true
    | _ => false

/-- Applies the repetitions that follow an expression. -/
def withTimes (r : Regex) : List Sign → Regex × List Sign
  | .times least more :: rest => withTimes (.times r least more) rest
  | rest => (r, rest)

/-- The expression of signs up to a closing sign that was not opened, after what comes first in
it. -/
def ofSigns : Nat → Regex → List Sign → Regex × List Sign
  | 0, r, rest => (r, rest)
  | fuel + 1, r, signs =>
    let next (s : Regex) (rest : List Sign) :=
      let (s, rest) := withTimes s rest
      ofSigns fuel (.append r s) rest
    match signs with
    | [] => (r, [])
    | .closing :: _ => (r, signs)
    | .bar :: rest =>
      let (s, rest) := ofSigns fuel .empty rest
      (.either r s, rest)
    | .opening :: rest =>
      let (s, rest) := ofSigns fuel .empty rest
      next s rest.tail
    | .one f :: rest => next (.char f) rest
    | .first :: rest => next .first rest
    | .last :: rest => next .last rest
    | .times .. :: rest => ofSigns fuel r rest

def parse (extended : Bool) (cs : List Char) : Regex :=
  let signs := signs extended (cs.length + 1) true cs
  (ofSigns (2 * signs.length + 2) .empty signs).1

/-- The expression of a text that stands for itself. -/
def ofText (cs : List Char) : Regex := cs.foldr (fun c r => .append (.char (· == c)) r) .empty

end Regex

end ConfigTree.Script
