/-!
# The stack machine's code

Instructions of the stack machine and their text form: one instruction on a line, each line ended
by a newline.
-/

set_option autoImplicit false

namespace JackCompiler

/-- A region of the machine's memory. -/
inductive Segment where
  | constant
  | argument
  | localVar
  | static
  | this
  | that
  | pointer
  | temp
  deriving DecidableEq, Repr

/-- A segment as instructions name it. -/
def Segment.name : Segment → String
  | constant => "constant"
  | argument => "argument"
  | localVar => "local"
  | static => "static"
  | this => "this"
  | that => "that"
  | pointer => "pointer"
  | temp => "temp"

/-- All segments. -/
def Segment.all : List Segment :=
  [constant, argument, localVar, static, this, that, pointer, temp]

/-- An operation on the topmost words of the stack. -/
inductive Operation where
  | add
  | sub
  | neg
  | eq
  | gt
  | lt
  | and
  | or
  | not
  deriving DecidableEq, Repr

/-- An operation as an instruction. -/
def Operation.name : Operation → String
  | add => "add"
  | sub => "sub"
  | neg => "neg"
  | eq => "eq"
  | gt => "gt"
  | lt => "lt"
  | and => "and"
  | or => "or"
  | not => "not"

/-- All operations. -/
def Operation.all : List Operation := [add, sub, neg, eq, gt, lt, and, or, not]

/-- An instruction of the stack machine. -/
inductive Instruction where
  | push (segment : Segment) (index : Nat)
  | pop (segment : Segment) (index : Nat)
  | operate (operation : Operation)
  | label (name : String)
  | goto (target : String)
  | ifGoto (target : String)
  | function (name : String) (locals : Nat)
  | call (name : String) (arguments : Nat)
  | ret
  deriving DecidableEq, Repr

/-- An instruction as text. -/
def Instruction.text : Instruction → String
  | push segment index => s!"push {segment.name} {index}"
  | pop segment index => s!"pop {segment.name} {index}"
  | operate operation => operation.name
  | label name => s!"label {name}"
  | goto target => s!"goto {target}"
  | ifGoto target => s!"if-goto {target}"
  | function name locals => s!"function {name} {locals}"
  | call name arguments => s!"call {name} {arguments}"
  | ret => "return"

/-- A list of instructions as text, one on each line. -/
def render (code : List Instruction) : String :=
  String.join (code.map fun instruction => instruction.text ++ "\n")

end JackCompiler
