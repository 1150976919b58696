/-!
# Files

What the service finds under the name of a file. `Entry.files` are the files of a tree of
directories as they are seen from one of them: a name is followed component by component, from the
root if it begins with a slash.
-/

namespace ConfigTree.Service

/-- The files that the service finds by name. A file that is there need not be readable. -/
structure Files where
  isPresent : String → Bool
  read? : String → Option ByteArray

/-- A file or a directory, whose members have names. -/
inductive Entry where
  | file (content : ByteArray)
  | directory (members : List (String × Entry))

namespace Entry

/-- The content of a file. A directory cannot be read. -/
def content? : Entry → Option ByteArray
  | file content => some content
  | directory _ => none

/-- Follows components from an entry on, which lies in the directories `above` it, the innermost
first. A component without characters stands for the directory itself, as a dot does, and the root
is its own parent. -/
def follow? (e : Entry) (above : List Entry) : List String → Option Entry
  | [] => some e
  | c :: rest =>
    match e with
    | file _ => none
    | directory members =>
      if c = "" || c = "." then e.follow? above rest
      else if c = ".." then (above.headD e).follow? above.tail rest
      else (members.lookup c).bind fun inner => inner.follow? (e :: above) rest

/-- The components of a name. -/
def components : List Char → List (List Char)
  | [] => [[]]
  | c :: cs =>
    if c = '/' then [] :: components cs
    else
      match components cs with
      | [] => [[c]]
      | first :: rest => (c :: first) :: rest

/-- Finds the entry of a name in a tree, seen from the directory with the components `place`. -/
def find? (root : Entry) (place : List String) (name : String) : Option Entry :=
  let below := (components name.toList).map String.ofList
  match name.toList with
  | [] => none
  | '/' :: _ => root.follow? [] below
  | _ => root.follow? [] (place ++ below)

/-- The files of a tree, seen from one of its directories. -/
def files (root : Entry) (place : List String) : Files where
  isPresent name := (root.find? place name).isSome
  read? name := (root.find? place name).bind content?

end Entry

end ConfigTree.Service
