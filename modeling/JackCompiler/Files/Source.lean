import JackCompiler.Files.FileTree
import JackCompiler.Logged

/-!
# Source files

A source file is a file whose name has the extension of the language. `collectSources` gathers the
source files at a path: the file itself, or all of them at any depth beneath a directory, in the
order of their paths. Files that are no sources are reported, not read.
-/

set_option autoImplicit false

namespace JackCompiler

/-- A source file that has been read. -/
structure SourceFile where
  path : Path
  contents : String
  deriving DecidableEq, Repr

/-- Why sources cannot be collected. -/
inductive SourceError where
  /-- What stands at a path cannot be found or read. -/
  | reading (cause : FileError)
  /-- A directory beneath the searched one cannot be opened. -/
  | opening (directory : Path) (cause : FileError)
  deriving DecidableEq, Repr

namespace SourceError

/-- What led to an error, the nearest cause first. -/
def causes : SourceError → List String
  | reading cause => [cause.message]
  | opening directory cause =>
    [s!"IO error for operation on {directory.text}: {cause.message}", cause.message]

/-- The wording of an error. -/
def message (error : SourceError) : String :=
  "failed to read source: " ++ error.causes.head?.getD ""

end SourceError

/-- The extension of source files. -/
def sourceExtension : String := "jack"

/-- Whether the file name of a path has the extension of source files. -/
def Path.isSource (path : Path) : Bool := path.extension? = some sourceExtension

/-- Reads a source file. -/
def SourceFile.ofContent (path : Path) (content : ByteArray) : Except SourceError SourceFile :=
  if path.isTooLong then .error (.reading .nameTooLong)
  else
    match String.fromUTF8? content with
    | some contents => .ok ⟨path, contents⟩
    | none => .error (.reading .invalidText)

/-- The source files that a walk comes to, in its order. The first file that cannot be read or
directory that cannot be opened is the error. -/
def sourcesAlong : List FileTree.Stop → Logged SourceError (List SourceFile)
  | [] => pure []
  | .directory path :: later =>
    if path.isTooLong then .fail (.opening path .nameTooLong) else sourcesAlong later
  | .file path content :: later =>
    if path.isSource then do
      let source ← SourceFile.ofContent path content
      let more ← sourcesAlong later
      pure (source :: more)
    else do
      Logged.report (.skipped path)
      sourcesAlong later

/-- The source files at a path, given what was found there. -/
def collectSources (path : Path) (found : Except FileError FileTree) :
    Logged SourceError (List SourceFile) := do
  match found with
  | .error error => .fail (.reading error)
  | .ok (.file content) =>
    if path.isSource then
      let source ← SourceFile.ofContent path content
      pure [source]
    else
      Logged.report (.noSource path)
      pure []
  | .ok tree =>
    let sources ← sourcesAlong (tree.walk path)
    pure (sources.mergeSort fun a b => a.path.le b.path)

end JackCompiler
