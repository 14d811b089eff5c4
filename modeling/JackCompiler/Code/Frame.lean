import JackCompiler.Scope
import JackCompiler.Logged
import JackCompiler.Program.Class

/-!
# What code generation knows of its surroundings

Code for expressions and statements is generated for a subroutine of a class: its kind decides
whether there is a receiver, and its scope where variables live.
-/

set_option autoImplicit false

namespace JackCompiler

/-- Generated instructions, with the events reported on the way. -/
abbrev Generated (α : Type) : Type := Logged CompileError α

/-- The surroundings of a piece of code. -/
structure Frame where
  className : String
  kind : SubroutineKind
  scope : Scope

namespace Frame

/-- Where a variable in reach lives. -/
def slot (frame : Frame) (name : String) : Except CompileError (Segment × Nat) := do
  let found ← frame.scope.require name
  pure (found.kind.segment, found.index)

end Frame

end JackCompiler
