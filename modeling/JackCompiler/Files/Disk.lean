import JackCompiler.Files.FileTree

/-!
# Disks

A disk is anything that can look up a path, make a directory and write a file, with effects of some
type `m`. What a program does there is written once, for every disk: `Disk.makeDirectories` makes a
directory with those that lead to it. `FileTree.disk` is the disk whose state is a tree of files.
-/

set_option autoImplicit false

namespace JackCompiler

/-- What a program needs of a file system, with effects of type `m`. -/
structure Disk (m : Type → Type) where
  /-- What stands at a path. -/
  find : Path → m (Except FileError FileTree)
  /-- Whether a directory stands at a path. -/
  hasDirectory : Path → m Bool
  /-- Makes one directory, whose parent must exist. -/
  makeDirectory : Path → m (Except FileError Unit)
  /-- Writes a file, in the place of the old one if there is one. -/
  write : Path → ByteArray → m (Except FileError Unit)

namespace Disk

variable {m : Type → Type} [Monad m]

/-- An operation that failed is forgiven if a directory stands where it should have made one. -/
def forgive (disk : Disk m) (path : Path) (error : FileError) : m (Except FileError Unit) := do
  return if ← disk.hasDirectory path then .ok () else .error error

/-- Makes the first of some directories, each of which holds the one before it. A directory that
holds others is made only if they cannot be made without it. -/
def makeFirst (disk : Disk m) : List Path → m (Except FileError Unit)
  | [] => pure (.ok ())
  | path :: outer => do
    match ← disk.makeDirectory path with
    | .ok () => pure (.ok ())
    | .error .notFound =>
      match ← makeFirst disk outer with
      | .error error => pure (.error error)
      | .ok () =>
        match ← disk.makeDirectory path with
        | .ok () => pure (.ok ())
        | .error error => disk.forgive path error
    | .error error => disk.forgive path error

/-- Makes the directory at a path and those that lead to it, as far as they are missing. -/
def makeDirectories (disk : Disk m) (path : Path) : m (Except FileError Unit) :=
  disk.makeFirst path.ancestors

end Disk

namespace FileTree

/-- Keeps the tree that an operation gives back, if it succeeds. -/
def keeping (operation : FileTree → Except FileError FileTree) :
    StateM FileTree (Except FileError Unit) := fun tree =>
  match operation tree with
  | .ok changed => (.ok (), changed)
  | .error error => (.error error, tree)

/-- A tree of files as a disk. -/
def disk : Disk (StateM FileTree) where
  find path := fun tree => (tree.find path, tree)
  hasDirectory path := fun tree => (tree.hasDirectory path, tree)
  makeDirectory path := keeping fun tree => tree.makeDirectory path
  write path content := keeping fun tree => tree.write path content

end FileTree

end JackCompiler
