import JackCompiler.Files.Path

/-!
# Trees of files

A tree of directories and files, with the operations that a program asks of the file system. Paths
are looked up from the top of the tree, and above the top there is nothing, so `..` at the top
stays there. An operation that cannot be done names the reason.
-/

set_option autoImplicit false

namespace JackCompiler

/-- Why the file system refuses an operation. -/
inductive FileError where
  | notFound
  | notDirectory
  | isDirectory
  | alreadyExists
  /-- A path or a name in it has too many bytes. -/
  | nameTooLong
  /-- A path holds a character that ends texts in the system's interface. -/
  | nulInName
  /-- The content of a file is no text in UTF-8. -/
  | invalidText
  /-- Any other reason, in the system's own words. -/
  | other (words : String)
  deriving DecidableEq, Repr

/-- The system's words for a refusal. -/
def FileError.message : FileError → String
  | notFound => "No such file or directory (os error 2)"
  | notDirectory => "Not a directory (os error 20)"
  | isDirectory => "Is a directory (os error 21)"
  | alreadyExists => "File exists (os error 17)"
  | nameTooLong => "File name too long (os error 36)"
  | nulInName => "file name contained an unexpected NUL byte"
  | invalidText => "stream did not contain valid UTF-8"
  | other words => words

/-- How many bytes a name may have. -/
def maxNameBytes : Nat := 255

/-- How many bytes a path may have. -/
def maxPathBytes : Nat := 4095

/-- Whether a path has more bytes than the file system takes. -/
def Path.isTooLong (path : Path) : Bool := maxPathBytes < path.text.utf8ByteSize

/-- The pieces of a path that the file system is ready to look up. -/
def Path.admitted (path : Path) : Except FileError (List String) :=
  if path.text.toList.contains '\x00' then .error .nulInName
  else if path.text = "" then .error .notFound
  else if path.isTooLong then .error .nameTooLong
  else .ok path.pieces

/-- A file or a directory with everything beneath it. -/
inductive FileTree where
  | file (content : ByteArray)
  | directory (entries : List (String × FileTree))

/-- A place in a tree and what stands there. The way to it is given backwards, each name with the
directory that holds it. -/
structure Place where
  way : List (String × FileTree)
  here : FileTree

namespace Place

/-- The names that lead to a place. -/
def names (place : Place) : List String := (place.way.map (·.1)).reverse

/-- The directory around a place; at the top it is the place itself. -/
def above (place : Place) : Place :=
  match place.way with
  | [] => place
  | (_, outer) :: way => ⟨way, outer⟩

/-- The place of an entry of a directory. -/
def entry (place : Place) (entries : List (String × FileTree)) (name : String) :
    Except FileError Place :=
  if maxNameBytes < name.utf8ByteSize then .error .nameTooLong
  else
    match entries.lookup name with
    | some found => .ok ⟨(name, place.here) :: place.way, found⟩
    | none => .error .notFound

/-- The place that the pieces of a path lead to. Only directories can be passed through, also by a
piece that leads nowhere else. -/
def follow (place : Place) : List String → Except FileError Place
  | [] => .ok place
  | piece :: later =>
    match place.here with
    | .file _ => .error .notDirectory
    | .directory entries =>
      if piece = "" ∨ piece = "." then place.follow later
      else if piece = ".." then place.above.follow later
      else do
        let next ← place.entry entries piece
        next.follow later

end Place

namespace FileTree

/-- A directory without entries. -/
def empty : FileTree := directory []

/-- Whether a tree is a directory. -/
def isDirectory : FileTree → Bool
  | file _ => false
  | directory _ => true

/-- Changes what stands where some names lead, if there is anything. -/
def modify (change : FileTree → FileTree) : List String → FileTree → FileTree
  | [], tree => change tree
  | _ :: _, file content => file content
  | name :: later, directory entries =>
    directory (entries.map fun entry =>
      if entry.1 = name then (entry.1, modify change later entry.2) else entry)

/-- Puts an entry into a directory, in the place of one of the same name. -/
def setEntry (name : String) (entry : FileTree) : FileTree → FileTree
  | file content => file content
  | directory entries =>
    if (entries.lookup name).isSome then
      directory (entries.map fun old => if old.1 = name then (name, entry) else old)
    else directory (entries ++ [(name, entry)])

/-- What stands at a path. -/
def find (tree : FileTree) (path : Path) : Except FileError FileTree := do
  let pieces ← path.admitted
  let place ← Place.follow ⟨[], tree⟩ pieces
  pure place.here

/-- Whether a directory stands at a path. -/
def hasDirectory (tree : FileTree) (path : Path) : Bool :=
  match tree.find path with
  | .ok found => found.isDirectory
  | .error _ => false

/-- The place of the directory that holds what a path leads to, with its entries, and the last piece
of the path. -/
def findHolder (tree : FileTree) (path : Path) :
    Except FileError (Place × List (String × FileTree) × String) := do
  let pieces ← path.admitted
  let place ← Place.follow ⟨[], tree⟩ pieces.dropLast
  match place.here with
  | file _ => .error .notDirectory
  | directory entries => pure (place, entries, pieces.getLast?.getD "")

/-- Whether a piece of a path leads to a directory by itself. -/
def isDots (piece : String) : Bool := piece = "" || piece = "." || piece = ".."

/-- Writes a file, in the place of the old one if there is one. -/
def write (tree : FileTree) (path : Path) (content : ByteArray) : Except FileError FileTree := do
  let (holder, entries, name) ← tree.findHolder path
  if isDots name then .error .isDirectory
  else
    match holder.entry entries name with
    | .ok ⟨_, directory _⟩ => .error .isDirectory
    | .ok _ => .ok (tree.modify (setEntry name (file content)) holder.names)
    | .error .notFound => .ok (tree.modify (setEntry name (file content)) holder.names)
    | .error error => .error error

/-- Makes a directory, whose parent must exist. -/
def makeDirectory (tree : FileTree) (path : Path) : Except FileError FileTree := do
  let (holder, entries, name) ← tree.findHolder path
  if isDots name then .error .alreadyExists
  else
    match holder.entry entries name with
    | .ok _ => .error .alreadyExists
    | .error .notFound => .ok (tree.modify (setEntry name empty) holder.names)
    | .error error => .error error

/-- Something that a walk through a tree comes to. -/
inductive Stop where
  | file (path : Path) (content : ByteArray)
  | directory (path : Path)

mutual

/-- A walk through a tree that stands at a path: depth first, a directory before its entries, and
the entries in the order of their names. -/
def walk (path : Path) : FileTree → List Stop
  | file content => [.file path content]
  | directory entries =>
    .directory path ::
      ((walkEntries path entries).mergeSort fun a b => decide (a.1 ≤ b.1)).flatMap (·.2)

/-- The walks through the entries of a directory that stands at a path. -/
def walkEntries (path : Path) : List (String × FileTree) → List (String × List Stop)
  | [] => []
  | (name, entry) :: later => (name, walk (path.join ⟨name⟩) entry) :: walkEntries path later

end

/-- All files of a tree with their paths from the top. -/
def files (tree : FileTree) : List (Path × ByteArray) :=
  (tree.walk ⟨""⟩).filterMap fun
    | .file path content => some (path, content)
    | .directory _ => none

end FileTree

end JackCompiler
