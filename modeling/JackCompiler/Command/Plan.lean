import JackCompiler.Compile
import JackCompiler.Text.Quoted
import JackCompiler.Files.Source
import JackCompiler.Command.Arguments

/-!
# The plan of a run

All sources are read before anything is written, so what a run will do follows from its options and
from what stands at its path. A plan lists what to do for each source, in order, up to the first
source that does not compile, and how the run ends after that.
-/

set_option autoImplicit false

namespace JackCompiler

/-- Why a run fails. -/
inductive Failure where
  | collecting (path : Path) (cause : SourceError)
  | nothingFound (path : Path)
  | compiling (path : Path) (cause : CompileError)
  | creating (directory : Path) (cause : FileError)
  | storing (path : Path) (cause : FileError)
  deriving DecidableEq, Repr

namespace Failure

/-- What the run was about when it failed. -/
def context : Failure → String
  | collecting path _ => s!"failed to collect sources from {path.text}"
  | nothingFound path => s!"no .jack files found at {path.text}"
  | compiling path _ => s!"failed to compile {path.text}"
  | creating directory _ => s!"failed to create directory {quoted directory.text}"
  | storing path _ => s!"failed to write output file {path.text}"

/-- What led to a failure, the nearest cause first. -/
def causes : Failure → List String
  | collecting _ cause => cause.message :: cause.causes
  | nothingFound _ => []
  | compiling _ cause => [cause.message]
  | creating _ cause => [cause.message]
  | storing _ cause => [cause.message]

/-- A cause behind what opens its first line; further lines are moved in by so many blanks. -/
def indented (opening : String) (width : Nat) (cause : String) : String :=
  let margin := String.ofList ('\n' :: List.replicate width ' ')
  opening ++ String.join (cause.toList.map fun c => if c = '\n' then margin else c.toString)

/-- Causes on lines of their own, numbered if there are several. -/
def causeLines : List String → List String
  | [] => []
  | [cause] => [indented "    " 4 cause]
  | causes => causes.zipIdx.map fun (cause, index) => indented s!"    {index}: " 7 cause

/-- The complaint about a failure: its context, and below it the causes if there are any. -/
def message (failure : Failure) : String :=
  let lines :=
    match failure.causes with
    | [] => [s!"Error: {failure.context}"]
    | causes => s!"Error: {failure.context}" :: "" :: "Caused by:" :: causeLines causes
  String.join (lines.map (· ++ "\n"))

end Failure

/-- What to do with the output of one source. -/
inductive Action where
  | print (text : String)
  | store (source destination : Path) (text : String)

/-- One source's part of a plan: what there is to tell about its compilation, and what to do with the
output. -/
structure Step where
  events : List Event
  action : Action

/-- What a run will do. -/
structure Plan where
  /-- What there is to tell about the search for sources. -/
  opening : List Event
  steps : List Step
  /-- What there is to tell behind the last step. -/
  closing : List Event
  failure? : Option Failure

/-- The extension of output files. -/
def Options.extension (options : Options) : String := if options.markup then "xml" else "vm"

/-- Where the output of a source goes: beside the source, or below the output directory at the place
that the source has below the searched path. -/
def Options.destination (options : Options) (source : Path) : Path :=
  match options.outDir? with
  | none => source.withExtension options.extension
  | some directory =>
    let bare : Path := ⟨source.fileName?.getD ""⟩
    let place :=
      match source.relativeTo? options.path with
      | some place => if place.text = "" then bare else place
      | none => bare
    (directory.join place).withExtension options.extension

/-- The output of a source text. -/
def Options.outputOf (options : Options) (contents : String) : Logged CompileError String :=
  if options.markup then parseToMarkup contents else compileToText contents

/-- What to do with the output of a source. -/
def Options.action (options : Options) (source : Path) (text : String) : Action :=
  if options.toOutput then .print text
  else .store source (options.destination source) text

namespace Plan

/-- The plan for some sources that have been read. -/
def ofSources (options : Options) : List SourceFile → Plan
  | [] => ⟨[], [], [], none⟩
  | source :: later =>
    let output := options.outputOf source.contents
    match output.result with
    | .error error => ⟨[], [], output.events, some (.compiling source.path error)⟩
    | .ok text =>
      let plan := ofSources options later
      { plan with steps := ⟨output.events, options.action source.path text⟩ :: plan.steps }

/-- The plan of a run, given what was found at its path. -/
def ofFound (options : Options) (found : Except FileError FileTree) : Plan :=
  let sources := collectSources options.path found
  match sources.result with
  | .error error => ⟨sources.events, [], [], some (.collecting options.path error)⟩
  | .ok [] => ⟨sources.events, [], [], some (.nothingFound options.path)⟩
  | .ok files => { ofSources options files with opening := sources.events }

end Plan

end JackCompiler
