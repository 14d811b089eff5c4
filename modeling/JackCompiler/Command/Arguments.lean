import JackCompiler.Files.Path

/-!
# Arguments of the command

The command takes one path and some options. Arguments are read from left to right; the first one
that is not acceptable ends the reading, and so does a request for the version. An option that
takes a value takes it from behind `=` or from the next argument, which must not look like an
option; a lone `-` does not. Behind `--` everything is a path.
-/

set_option autoImplicit false

namespace JackCompiler

/-- What to compile, and how. -/
structure Options where
  path : Path
  /-- Write the markup of the syntax tree and not the code. -/
  markup : Bool
  /-- Print the output and write no files. -/
  toOutput : Bool
  /-- Where output files go; beside their sources without it. -/
  outDir? : Option Path
  /-- How often more events were asked for. -/
  verbosity : Nat
  deriving DecidableEq, Repr

/-- What the arguments ask for. -/
inductive Request where
  | refused
  | version
  | compile (options : Options)
  deriving DecidableEq, Repr

/-- What has been read of the arguments. -/
structure ArgumentsSoFar where
  path? : Option Path
  markup : Bool
  toOutput : Bool
  outDir? : Option Path
  verbosity : Nat

namespace ArgumentsSoFar

/-- Before the first argument. -/
def none : ArgumentsSoFar := ⟨.none, false, false, .none, 0⟩

/-- Takes the path, which may be given once and not be empty. -/
def takePath (soFar : ArgumentsSoFar) (text : String) : Option ArgumentsSoFar :=
  if soFar.path?.isSome ∨ text = "" then .none else some { soFar with path? := some ⟨text⟩ }

/-- Takes the directory for output files, which may be given once and not be empty. -/
def takeOutDir (soFar : ArgumentsSoFar) (text : String) : Option ArgumentsSoFar :=
  if soFar.outDir?.isSome ∨ text = "" then .none else some { soFar with outDir? := some ⟨text⟩ }

/-- Takes the choice of markup, which may be given once. -/
def takeMarkup (soFar : ArgumentsSoFar) : Option ArgumentsSoFar :=
  if soFar.markup then .none else some { soFar with markup := true }

/-- Takes the choice of printing, which may be given once. -/
def takeToOutput (soFar : ArgumentsSoFar) : Option ArgumentsSoFar :=
  if soFar.toOutput then .none else some { soFar with toOutput := true }

/-- Takes a request for more events, which may be repeated. -/
def takeVerbose (soFar : ArgumentsSoFar) : ArgumentsSoFar :=
  { soFar with verbosity := soFar.verbosity + 1 }

/-- What the arguments ask for once all are read: a path is needed. -/
def request (soFar : ArgumentsSoFar) : Request :=
  match soFar.path? with
  | .none => .refused
  | some path => .compile ⟨path, soFar.markup, soFar.toOutput, soFar.outDir?, soFar.verbosity⟩

end ArgumentsSoFar

/-- What a group of one-letter options behind a dash does: it ends the reading with a request, or
reading goes on. -/
def readLetters (soFar : ArgumentsSoFar) : List Char → Request ⊕ ArgumentsSoFar
  | [] => .inr soFar
  | 'v' :: rest => readLetters soFar.takeVerbose rest
  | 'V' :: _ => .inl .version
  | _ :: _ => .inl .refused

/-- Whether an argument looks like an option. -/
def looksLikeOption (argument : String) : Bool :=
  argument.toList.head? = some '-' && argument != "-"

/-- What the arguments behind `--` ask for: all of them are paths. -/
def readPaths (soFar : ArgumentsSoFar) : List String → Request
  | [] => soFar.request
  | argument :: later =>
    match soFar.takePath argument with
    | none => .refused
    | some soFar => readPaths soFar later

/-- How the option for the output directory begins when its value is attached. -/
def outDirOpening : List Char := "--out-dir=".toList

/-- What arguments ask for, behind those read already. -/
def readArguments (soFar : ArgumentsSoFar) : List String → Request
  | [] => soFar.request
  | argument :: later =>
    if argument = "--" then readPaths soFar later
    else if argument = "--version" then .version
    else if argument = "--verbose" then readArguments soFar.takeVerbose later
    else if argument = "--xml" then
      match soFar.takeMarkup with
      | none => .refused
      | some soFar => readArguments soFar later
    else if argument = "--stdout" then
      match soFar.takeToOutput with
      | none => .refused
      | some soFar => readArguments soFar later
    else if argument = "--out-dir" then
      match later with
      | [] => .refused
      | value :: later =>
        if looksLikeOption value then .refused
        else
          match soFar.takeOutDir value with
          | none => .refused
          | some soFar => readArguments soFar later
    else if !looksLikeOption argument then
      match soFar.takePath argument with
      | none => .refused
      | some soFar => readArguments soFar later
    else if argument.toList.take 2 = ['-', '-'] then
      match outDirOpening.isPrefixOf? argument.toList with
      | none => .refused
      | some value =>
        match soFar.takeOutDir (String.ofList value) with
        | none => .refused
        | some soFar => readArguments soFar later
    else
      match readLetters soFar (argument.toList.drop 1) with
      | .inl request => request
      | .inr soFar => readArguments soFar later

/-- What the arguments of a run ask for. -/
def Request.ofArguments (arguments : List String) : Request := readArguments .none arguments

end JackCompiler
