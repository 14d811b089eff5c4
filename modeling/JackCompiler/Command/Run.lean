import JackCompiler.Command.Plan
import JackCompiler.Files.Disk
import JackCompiler.Text.Terminal

/-!
# Runs of the command

A run looks for its sources on a disk and carries out its plan there (`Disk.run`). On the disk whose
state is a tree of files, a run is a function of its arguments and the tree (`run`).
-/

set_option autoImplicit false

namespace JackCompiler

/-- What came of carrying out a plan. -/
structure Report where
  output : String
  events : List Event
  failure? : Option Failure

/-- The report of a run that first did something else. -/
def Report.behind (report : Report) (output : String) (events : List Event) : Report :=
  { report with output := output ++ report.output, events := events ++ report.events }

/-- An event as the log shows it. -/
structure LogLine where
  severity : Severity
  text : String
  deriving DecidableEq, Repr

/-- An event as the log shows it: further lines of its wording are moved in, and nothing in it can
steer a terminal. -/
def LogLine.ofEvent (event : Event) : LogLine :=
  ⟨event.severity, visibleText (Failure.indented "" 4 event.message)⟩

/-- What a run answers. -/
structure Answer where
  code : Nat
  output : String
  complaint : String
  log : List LogLine

/-- Down to which severity events are shown when so much more was asked for. -/
def shownSeverity (verbosity : Nat) : Severity :=
  match verbosity with
  | 0 => .warn
  | 1 => .info
  | 2 => .debug
  | _ => .trace

/-- The answer that a report gives. -/
def Report.answer (report : Report) (verbosity : Nat) : Answer where
  code := if report.failure?.isNone then 0 else 1
  output := report.output
  complaint := (report.failure?.map Failure.message).getD ""
  log := (Event.shownAt (some (shownSeverity verbosity)) report.events).map LogLine.ofEvent

/-- The answer to arguments that are not acceptable. -/
def Answer.refusal : Answer := ⟨2, "", "", []⟩

/-- The answer to a request for the version. -/
def Answer.version : Answer := ⟨0, "jack-cli 0.1.0\n", "", []⟩

namespace Disk

variable {m : Type → Type} [Monad m]

/-- Makes the directory at a path, unless the path is empty. -/
def prepare (disk : Disk m) (directory : Path) : m (Except Failure Unit) :=
  if directory.text = "" then pure (.ok ())
  else do
    match ← disk.makeDirectories directory with
    | .ok () => pure (.ok ())
    | .error error => pure (.error (.creating directory error))

/-- Writes a text into a file, after making the directory that is to hold it. -/
def store (disk : Disk m) (path : Path) (text : String) : m (Except Failure Unit) := do
  match ← disk.prepare (path.parent?.getD ⟨""⟩) with
  | .error failure => pure (.error failure)
  | .ok () =>
    match ← disk.write path text.toUTF8 with
    | .ok () => pure (.ok ())
    | .error error => pure (.error (.storing path error))

/-- Carries out steps in order and stops at the first one that fails; `ending` is the report behind
the last one. -/
def perform (disk : Disk m) (ending : Report) : List Step → m Report
  | [] => pure ending
  | ⟨events, .print text⟩ :: later => do
    let report ← perform disk ending later
    pure (report.behind text events)
  | ⟨events, .store source destination text⟩ :: later => do
    match ← disk.store destination text with
    | .error failure => pure ⟨"", events, some failure⟩
    | .ok () =>
      let report ← perform disk ending later
      pure (report.behind "" (events ++ [.written source destination]))

/-- Carries out a plan. -/
def carryOut (disk : Disk m) (plan : Plan) : m Report := do
  let report ← disk.perform ⟨"", plan.closing, plan.failure?⟩ plan.steps
  pure (report.behind "" plan.opening)

/-- A run of the command. -/
def run (disk : Disk m) (arguments : List String) : m Answer := do
  match Request.ofArguments arguments with
  | .refused => pure .refusal
  | .version => pure .version
  | .compile options =>
    let found ← disk.find options.path
    let report ← disk.carryOut (.ofFound options found)
    pure (report.answer options.verbosity)

end Disk

/-- A run of the command in the directory that a tree stands for: its answer, and the tree behind
it. -/
def run (arguments : List String) (tree : FileTree) : Answer × FileTree :=
  FileTree.disk.run arguments tree

end JackCompiler
