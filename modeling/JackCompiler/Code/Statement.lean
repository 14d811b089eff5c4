import JackCompiler.Code.Expression

/-!
# Code of statements

The code of a statement leaves the stack as it found it. Labels are numbered through a subroutine:
a statement is given the next free number and gives back the one behind its own labels, which it
takes before those of the statements inside it.
-/

set_option autoImplicit false

namespace JackCompiler

/-- The word of temporary memory that keeps the value of an assignment to an array element. -/
def elementTemp : Nat := 0

/-- The word of temporary memory that takes the value of a call made for its effect. -/
def dropTemp : Nat := 7

namespace Statement

mutual

/-- The code of a statement whose first label has the number `next`, and the next free number. -/
def code (frame : Frame) (next : Nat) : Statement → Generated (List Instruction × Nat)
  | assign name value => do
    let value ← value.code frame
    let (segment, index) ← frame.slot name
    pure (value ++ [.pop segment index], next)
  | assignElement array index value => do
    let (segment, offset) ← frame.slot array
    let position ← index.code frame
    let value ← value.code frame
    pure (.push segment offset :: position ++ .operate .add :: value ++
      [.pop .temp elementTemp, .pop .pointer 1, .push .temp elementTemp, .pop .that 0], next)
  | when condition block => do
    let test ← condition.code frame
    let behind := frame.scope.label next
    let (inner, free) ← codeOfBlock frame (next + 1) block
    pure (test ++ [.operate .not, .ifGoto behind] ++ inner ++ [.label behind], free)
  | choose condition yes no => do
    let test ← condition.code frame
    let onYes := frame.scope.label next
    let onNo := frame.scope.label (next + 1)
    let behind := frame.scope.label (next + 2)
    let (first, middle) ← codeOfBlock frame (next + 3) yes
    let (second, free) ← codeOfBlock frame middle no
    pure (test ++ [.ifGoto onYes, .goto onNo, .label onYes] ++ first ++
      [.goto behind, .label onNo] ++ second ++ [.goto behind, .label behind], free)
  | loop condition block => do
    let again := frame.scope.label next
    let behind := frame.scope.label (next + 1)
    let test ← condition.code frame
    let (inner, free) ← codeOfBlock frame (next + 2) block
    pure (.label again :: test ++ [.operate .not, .ifGoto behind] ++ inner ++
      [.goto again, .label behind], free)
  | perform call => do
    let value ← call.code frame
    pure (value ++ [.pop .temp dropTemp], next)
  | leave (some value) => do
    let value ← value.code frame
    pure (value ++ [.ret], next)
  | leave none => pure ([.push .constant 0, .ret], next)
  | flaw error => .fail error

/-- The code of a block, and the next free number. -/
def codeOfBlock (frame : Frame) (next : Nat) :
    List Statement → Generated (List Instruction × Nat)
  | [] => pure ([], next)
  | statement :: later => do
    let (first, middle) ← code frame next statement
    let (more, free) ← codeOfBlock frame middle later
    pure (first ++ more, free)

end

end Statement

end JackCompiler
