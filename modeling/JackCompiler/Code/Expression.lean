import JackCompiler.Code.Frame

/-!
# Code of expressions

The code of an expression leaves the value of the expression on the stack. Operands come before
their operator, from left to right. An argument list leaves the values of its expressions in
order, on top of the receiver where the call has one.
-/

set_option autoImplicit false

namespace JackCompiler

/-- The instruction of an operator in front of its operand. -/
def UnaryOperator.instruction : UnaryOperator → Instruction
  | negate => .operate .neg
  | complement => .operate .not

/-- The instruction of an operator between its operands. The machine has no multiplication and no
division, so these are calls. -/
def BinaryOperator.instruction : BinaryOperator → Instruction
  | add => .operate .add
  | sub => .operate .sub
  | mul => .call "Math.multiply" 2
  | div => .call "Math.divide" 2
  | and => .operate .and
  | or => .operate .or
  | lt => .operate .lt
  | gt => .operate .gt
  | eq => .operate .eq

/-- The largest number that an instruction can hold. -/
def maxWord : Nat := 65535

/-- Code that appends characters to the string on top of the stack. -/
def appendCode : List Char → Except CompileError (List Instruction)
  | [] => .ok []
  | c :: rest =>
    if c.toNat ≤ maxWord then do
      let code ← appendCode rest
      pure (.push .constant c.toNat :: .call "String.appendChar" 2 :: code)
    else .error (.malformed (.rule .term) (.unsupportedCharacter c))

/-- Code that builds a string object. -/
def stringCode (value : String) : Except CompileError (List Instruction) :=
  if value.length ≤ maxWord then do
    let code ← appendCode value.toList
    pure (.push .constant value.length :: .call "String.new" 1 :: code)
  else .error (.malformed (.rule .term) .stringTooLong)

namespace Expression

mutual

/-- The code of an expression. -/
def code (frame : Frame) : Expression → Generated (List Instruction)
  | integer value => pure [.push .constant value]
  | string value => Logged.ofExcept (stringCode value)
  | truth => pure [.push .constant 0, .operate .not]
  | zero => pure [.push .constant 0]
  | receiver => pure [.push .pointer 0]
  | named name => do
    let (segment, index) ← frame.slot name
    pure [.push segment index]
  | element array index => do
    let (segment, offset) ← frame.slot array
    let position ← code frame index
    pure (.push segment offset :: position ++
      [.operate .add, .pop .pointer 1, .push .that 0])
  | unary operator operand => do
    let value ← code frame operand
    let operator ← operator
    pure (value ++ [operator.instruction])
  | binary left operator right => do
    let first ← code frame left
    let second ← code frame right
    let operator ← operator
    pure (first ++ second ++ [operator.instruction])
  | call (.own name) arguments => do
    if frame.kind = .function then
      Logged.report (.missingReceiver frame.scope.qualifiedName name)
    let values ← codeOfList frame arguments
    pure (.push .pointer 0 :: values ++
      [.call s!"{frame.className}.{name}" (arguments.length + 1)])
  | call (.qualified context name) arguments =>
    match frame.scope.resolve? context with
    | some object => do
      let values ← codeOfList frame arguments
      pure (.push object.kind.segment object.index :: values ++
        [.call s!"{object.type}.{name}" (arguments.length + 1)])
    | none => do
      let values ← codeOfList frame arguments
      pure (values ++ [.call s!"{context}.{name}" arguments.length])
  | flaw error => .fail error

/-- The code of consecutive expressions. -/
def codeOfList (frame : Frame) : List Expression → Generated (List Instruction)
  | [] => pure []
  | expression :: later => do
    let first ← code frame expression
    let more ← codeOfList frame later
    pure (first ++ more)

end

end Expression

end JackCompiler
