import Bitemporal.Identity

/-!
Trees of files and directories.

A file is known by its location, the names from the root down to it. A path is a text that leads
to a location through directories that exist; what it leads to need not exist. Names and paths
have greatest lengths.
-/

namespace Bitemporal

/-- What stands at a location. -/
inductive FileNode where
  /-- A file with its bytes. -/
  | file (content : ByteArray)
  /-- A directory. -/
  | directory

/-- Files and directories by location. The root is always a directory. -/
structure FileTree where
  /-- What stands at a location below the root. -/
  nodes : List String → Option FileNode

namespace FileTree

/-- The tree that has only its root. -/
def empty : FileTree := ⟨fun _ => none⟩

instance : Inhabited FileTree := ⟨empty⟩

/-- What stands at a location. -/
def node? (t : FileTree) (location : List String) : Option FileNode :=
  if location.isEmpty then some .directory else t.nodes location

/-- Whether there is a directory at a location. -/
def isDirectory (t : FileTree) (location : List String) : Bool :=
  match t.node? location with
  | some .directory => true
  | _ => false

/-- The tree with something else at a location. -/
def put (t : FileTree) (location : List String) (node : FileNode) : FileTree :=
  ⟨fun other => if other = location then some node else t.nodes other⟩

/-- Whether a text may name a file: it has at most 255 bytes, none of them zero. -/
def isFileName (name : String) : Bool := name.utf8ByteSize ≤ 255 && !name.toList.contains '\x00'

/-- The location that the parts of a path lead to from a location. Only directories
are passed through. -/
def follow? (t : FileTree) : List String → List String → Option (List String)
  | location, [] => some location
  | location, part :: rest =>
    if t.isDirectory location then
      if part = "" ∨ part = "." then t.follow? location rest
      else if part = ".." then t.follow? location.dropLast rest
      else if isFileName part then t.follow? (location ++ [part]) rest
      else none
    else none

/-- The most bytes that the text of a path has. -/
def maxPathBytes : Nat := 4095

/-- The names that a path is made of, unless its text is too long to lead anywhere. -/
def pathParts? (path : String) : Option (List String) :=
  if path.utf8ByteSize ≤ maxPathBytes then
    some ((separatedFields '/' path.toList).map String.ofList)
  else none

/-- The location that a path leads to. -/
def locate? (t : FileTree) (path : String) : Option (List String) :=
  (pathParts? path).bind (t.follow? [])

/-- Whether there is something at a path. -/
def has (t : FileTree) (path : String) : Bool :=
  ((t.locate? path).bind t.node?).isSome

/-- The bytes of the file at a path. -/
def bytes? (t : FileTree) (path : String) : Option ByteArray :=
  match (t.locate? path).bind t.node? with
  | some (.file content) => some content
  | _ => none

/-- The text of the file at a path, if its bytes are UTF-8. -/
def text? (t : FileTree) (path : String) : Option String := (t.bytes? path).bind String.fromUTF8?

/-- The tree after a file is written at a path, unless the path leads nowhere or to a
directory. -/
def write? (t : FileTree) (path : String) (content : ByteArray) : Option FileTree :=
  match t.locate? path with
  | some location =>
    if t.isDirectory location then none else some (t.put location (.file content))
  | none => none

/-- The tree after the directories along the parts of a path are made, unless something
else is in the way. -/
def extend? (t : FileTree) : List String → List String → Option FileTree
  | _, [] => some t
  | location, part :: rest =>
    if part = "" ∨ part = "." then t.extend? location rest
    else if part = ".." then t.extend? location.dropLast rest
    else
      match t.node? (location ++ [part]) with
      | some .directory => t.extend? (location ++ [part]) rest
      | some (.file _) => none
      | none =>
        if isFileName part then (t.put (location ++ [part]) .directory).extend?
          (location ++ [part]) rest
        else none

/-- The tree after a directory is made at a path, with the directories that lead to it. -/
def makeDirectory? (t : FileTree) (path : String) : Option FileTree :=
  (pathParts? path).bind (t.extend? [])

end FileTree

end Bitemporal
