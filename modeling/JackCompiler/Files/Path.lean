/-!
# Paths

A path is a text in which a slash separates names. Doubled slashes, slashes at the end and names
`.` after the beginning carry no meaning for its components, but the text is what messages show and
what the file system is asked for, so it is kept as written.
-/

set_option autoImplicit false

namespace JackCompiler

/-- A path, as written. -/
structure Path where
  text : String
  deriving DecidableEq, Repr

/-- One step of a path. -/
inductive Component where
  | root
  | current
  | parent
  | normal (name : String)
  deriving DecidableEq, Repr

/-- What stands between the slashes of a text, empty pieces included. -/
def splitAtSlashes : List Char → List (List Char)
  | [] => [[]]
  | c :: rest =>
    if c = '/' then [] :: splitAtSlashes rest
    else
      match splitAtSlashes rest with
      | [] => [[c]]
      | piece :: later => (c :: piece) :: later

/-- A piece of a path as a step, unless it means nothing behind the beginning of the path. -/
def Component.ofPiece? (piece : String) : Option Component :=
  if piece = "" ∨ piece = "." then none
  else if piece = ".." then some .parent
  else some (.normal piece)

/-- A step as it is written in a path. -/
def Component.piece : Component → String
  | root => ""
  | current => "."
  | parent => ".."
  | normal name => name

/-- Steps are ordered by their kind and names by their characters. -/
def Component.le : Component → Component → Bool
  | root, _ => true
  | current, root => false
  | current, _ => true
  | parent, root => false
  | parent, current => false
  | parent, _ => true
  | normal a, normal b => decide (a ≤ b)
  | normal _, _ => false

/-- The lexicographic order of lists of steps; a path comes before what lies beneath it. -/
def Component.listLe : List Component → List Component → Bool
  | [], _ => true
  | _ :: _, [] => false
  | a :: as, b :: bs => if a = b then Component.listLe as bs else a.le b

namespace Path

/-- The pieces of a path between its slashes. -/
def pieces (path : Path) : List String :=
  (splitAtSlashes path.text.toList).map String.ofList

/-- Whether a path begins at the root. -/
def isAbsolute (path : Path) : Bool := path.text.toList.head? = some '/'

/-- The steps of a path. A name `.` counts at the very beginning only. -/
def components (path : Path) : List Component :=
  let steps := path.pieces.filterMap Component.ofPiece?
  if path.isAbsolute then .root :: steps
  else if path.pieces.head? = some "." then .current :: steps
  else steps

/-- The order of paths: step by step, not character by character. -/
def le (a b : Path) : Bool := Component.listLe a.components b.components

/-- The path of an entry of the directory at `path`; an absolute entry stands for itself. -/
def join (path entry : Path) : Path :=
  if entry.isAbsolute then entry
  else if path.text.toList.getLast? = none ∨ path.text.toList.getLast? = some '/' then
    ⟨path.text ++ entry.text⟩
  else ⟨path.text ++ "/" ++ entry.text⟩

/-- A path made of steps below some directory. -/
def ofSteps (steps : List Component) : Path :=
  ⟨"/".intercalate (steps.map Component.piece)⟩

/-- The last step of a path, if it is a name. -/
def fileName? (path : Path) : Option String :=
  match path.components.getLast? with
  | some (.normal name) => some name
  | _ => none

/-- What remains of `path` behind the steps of `base`, if `path` begins with all of them. -/
def relativeTo? (path base : Path) : Option Path :=
  (base.components.isPrefixOf? path.components).map ofSteps

/-- Drops slashes and names `.` from the end of a text that is given backwards. -/
def dropTrailing : List Char → List Char
  | '/' :: rest => dropTrailing rest
  | '.' :: '/' :: rest => dropTrailing rest
  | rest => rest

/-- The text of a path up to the end of its last step. -/
def trimmed (path : Path) : List Char := (dropTrailing path.text.toList.reverse).reverse

/-- The part of a path's text before its last step, with the slash. -/
def base (path : Path) : List Char :=
  (path.trimmed.reverse.dropWhile (· ≠ '/')).reverse

/-- The directory that holds the last step of a path. The root and the empty path have none. -/
def parent? (path : Path) : Option Path :=
  if path.trimmed = [] then none
  else
    let directory := (dropTrailing path.base.reverse).reverse
    if directory = [] ∧ path.isAbsolute then some ⟨"/"⟩ else some ⟨String.ofList directory⟩

/-- A path and the directories that lead to it, from the inside out, at most `count` of them. -/
def ancestorsUpTo (count : Nat) (path : Path) : List Path :=
  match count with
  | 0 => []
  | count + 1 =>
    path :: match path.parent? with
      | none => []
      | some directory => ancestorsUpTo count directory

/-- A path and the directories that lead to it, from the inside out: one for each step. -/
def ancestors (path : Path) : List Path := ancestorsUpTo path.components.length path

/-- Cuts a text at its last dot, which goes to neither part. -/
def cutAtLastDot? : List Char → Option (List Char × List Char)
  | [] => none
  | c :: rest =>
    match cutAtLastDot? rest with
    | some (before, after) => some (c :: before, after)
    | none => if c = '.' then some ([], rest) else none

/-- The stem and the extension of a file name. A dot at the very beginning starts no extension. -/
def splitExtension (name : List Char) : List Char × Option (List Char) :=
  match cutAtLastDot? name with
  | some (c :: stem, extension) => (c :: stem, some extension)
  | _ => (name, none)

/-- The extension of a path's file name. -/
def extension? (path : Path) : Option String :=
  path.fileName?.bind fun name => (splitExtension name.toList).2.map String.ofList

/-- The path with another extension; what follows the file name is dropped, and so is the dot when
the new extension is empty. A path without a file name stays as it is. A name that is cut at its
old extension and then reads `..` is a file name no more, so nothing is added to it. -/
def withExtension (path : Path) (extension : String) : Path :=
  match path.fileName? with
  | none => path
  | some name =>
    match splitExtension name.toList with
    | (stem, old?) =>
      if stem = ['.'] ∧ old?.isSome ∧ path.trimmed = path.text.toList then
        ⟨String.ofList (path.base ++ ['.', '.'])⟩
      else if extension = "" then ⟨String.ofList (path.base ++ stem)⟩
      else ⟨String.ofList (path.base ++ stem ++ '.' :: extension.toList)⟩

end Path

example : (Path.mk "a/b.jack/.").withExtension "vm" = ⟨"a/b.vm"⟩ := by decide +kernel

example : (Path.mk "./a//b").components = [.current, .normal "a", .normal "b"] := by decide +kernel

example : (Path.mk "/a//b/.").ancestors = [⟨"/a//b/."⟩, ⟨"/a"⟩, ⟨"/"⟩] := by decide +kernel

example : (Path.mk "./a/b").ancestors = [⟨"./a/b"⟩, ⟨"./a"⟩, ⟨"."⟩] := by decide +kernel

end JackCompiler
