import JackCompiler.CompileError
import JackCompiler.Files.Path

/-!
# What a run has to tell

A computation reports events on its way. An event is kept as what happened; its severity and its
wording are functions of it, so that a reader of the log can choose how much to see.
-/

set_option autoImplicit false

namespace JackCompiler

/-- How important an event is, the most important first. -/
inductive Severity where
  | error
  | warn
  | info
  | debug
  | trace
  deriving DecidableEq, Repr

namespace Severity

/-- The place of a severity, counted from the most important one. -/
def rank : Severity → Nat
  | error => 0
  | warn => 1
  | info => 2
  | debug => 3
  | trace => 4

/-- A severity as the log writes it. -/
def name : Severity → String
  | error => "ERROR"
  | warn => "WARN"
  | info => "INFO"
  | debug => "DEBUG"
  | trace => "TRACE"

end Severity

/-- Something that happened on the way to a result. -/
inductive Event where
  | tokenized (count : Nat)
  | candidateFailed (candidate position : Nat) (error : CompileError)
  | missingReceiver (scope name : String)
  | subroutineCompiled (name : String) (locals instructions : Nat)
  | classGenerated (name : String) (instructions : Nat)
  | classCompiled (name : String) (instructions : Nat)
  | noSource (path : Path)
  | skipped (path : Path)
  | written (source destination : Path)
  deriving DecidableEq, Repr

namespace Event

/-- How important an event is. -/
def severity : Event → Severity
  | tokenized _ => .trace
  | candidateFailed _ _ _ => .trace
  | missingReceiver _ _ => .warn
  | subroutineCompiled _ _ _ => .debug
  | classGenerated _ _ => .debug
  | classCompiled _ _ => .debug
  | noSource _ => .warn
  | skipped _ => .debug
  | written _ _ => .info

/-- The wording of an event. -/
def message : Event → String
  | tokenized count => s!"tokenized {count} tokens"
  | candidateFailed candidate position error =>
    s!"alternative {candidate} failed at token {position}: {error.message}"
  | missingReceiver scope name =>
    s!"{scope}: unqualified call to `{name}` inside a function passes a receiver that does not " ++
      "exist"
  | subroutineCompiled name locals instructions =>
    s!"compiled {name}: {locals} locals, {instructions} instructions"
  | classGenerated name instructions => s!"generated {instructions} instructions for class {name}"
  | classCompiled name instructions => s!"compiled class {name} into {instructions} instructions"
  | noSource path => s!"{path.text} does not have a .jack extension, skipping"
  | skipped path => s!"skipping {path.text}"
  | written source destination => s!"{source.text} -> {destination.text}"

/-- The events that a log shows down to a severity; without one it shows none. -/
def shownAt (threshold? : Option Severity) (events : List Event) : List Event :=
  match threshold? with
  | none => []
  | some threshold => events.filter fun event => event.severity.rank ≤ threshold.rank

end Event

end JackCompiler
