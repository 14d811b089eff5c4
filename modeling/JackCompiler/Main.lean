import JackCompiler.Command.Run

/-!
# The command

The system's own file system as a disk, and the command that runs on it. Events go to standard
error, one on each line.
-/

set_option autoImplicit false

namespace JackCompiler

/-- The reason for which the system refused an operation. -/
def FileError.ofSystem : IO.Error → FileError
  | .noFileOrDirectory _ _ _ => .notFound
  | .alreadyExists _ _ _ => .alreadyExists
  | .inappropriateType _ code _ => if code = 21 then .isDirectory else .notDirectory
  | .invalidArgument _ 36 _ => .nameTooLong
  | error => .other error.toString

/-- An operation whose refusal is an outcome. -/
def refusable {α : Type} (operation : IO α) : IO (Except FileError α) := do
  try
    return .ok (← operation)
  catch error => return .error (.ofSystem error)

/-- What stands at a path. Files that are no sources are taken without their content. -/
partial def capture (path : Path) : IO FileTree := do
  let place := (← IO.currentDir) / path.text
  match (← place.metadata).type with
  | .dir =>
    let names := (← place.readDir).toList.map (·.fileName)
    return .directory (← names.mapM fun name => return (name, ← capture (path.join ⟨name⟩)))
  | _ => return .file (← if path.isSource then IO.FS.readBinFile place else pure .empty)

/-- The system's file system. -/
def systemDisk : Disk IO where
  find path := refusable (capture path)
  hasDirectory path := do
    ((← IO.currentDir) / path.text).isDir
  makeDirectory path := refusable do
    IO.FS.createDir ((← IO.currentDir) / path.text)
  write path content := refusable do
    IO.FS.writeBinFile ((← IO.currentDir) / path.text) content

end JackCompiler

/-- Runs the command and answers with its exit code. -/
def main (arguments : List String) : IO UInt32 := do
  let answer ← JackCompiler.systemDisk.run arguments
  IO.print answer.output
  for line in answer.log do
    IO.eprintln s!"[{line.severity.name}] {line.text}"
  IO.eprint answer.complaint
  return answer.code.toUInt32
