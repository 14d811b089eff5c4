import JackCompiler.Code.Statement

/-!
# Code of classes

The code of a class is that of its subroutines in order. A subroutine begins with a header that
counts its locals; a constructor then makes room for the fields, and a method takes its receiver
from its first argument. Variables are declared where they stand, so their order decides which of
two errors is found.
-/

set_option autoImplicit false

namespace JackCompiler

/-- Declares names of one type and kind, in order. -/
def Scope.declareAll (scope : Scope) (type : String) (kind : VariableKind) :
    List String → Except CompileError Scope
  | [] => .ok scope
  | name :: later => do
    let (_, scope) ← scope.declare name type kind
    declareAll scope type kind later

/-- Declares the parameters of a subroutine, in order. -/
def Scope.declareParameters (scope : Scope) :
    List (Except CompileError Parameter) → Except CompileError Scope
  | [] => .ok scope
  | parameter :: later => do
    let parameter ← parameter
    let (_, scope) ← scope.declare parameter.name parameter.type .argument
    declareParameters scope later

/-- Declares the variables of a class, in order. -/
def Scope.declareVariables (scope : Scope) :
    List (Except CompileError (VariableKind × Declaration)) → Except CompileError Scope
  | [] => .ok scope
  | declaration :: later => do
    let (kind, declaration) ← declaration
    let scope ← scope.declareAll declaration.type kind declaration.names
    declareVariables scope later

namespace BodyPart

/-- The code of the parts of a body and the scope behind them. -/
def codeOfList (frame : Frame) (next : Nat) :
    List BodyPart → Generated (List Instruction × Scope)
  | [] => pure ([], frame.scope)
  | declare declaration :: later => do
    let scope ← frame.scope.declareAll declaration.type .localVar declaration.names
    codeOfList { frame with scope := scope } next later
  | statements block :: later => do
    let (first, free) ← Statement.codeOfBlock frame next block
    let (more, scope) ← codeOfList frame free later
    pure (first ++ more, scope)
  | flaw error :: _ => .fail error

end BodyPart

namespace Subroutine

/-- What a subroutine does before its body, in a class with so many fields. -/
def prologue (fields : Nat) : SubroutineKind → List Instruction
  | .constructor => [.push .constant fields, .call "Memory.alloc" 1, .pop .pointer 0]
  | .function => []
  | .method => [.push .argument 0, .pop .pointer 0]

/-- The scope of a subroutine's parameters. The receiver of a method is its first argument. -/
def scope (className : String) (classScope : Scope) (name : String) (subroutine : Subroutine) :
    Except CompileError Scope := do
  let scope := Scope.child name classScope
  if subroutine.kind = .method then
    let (_, scope) ← scope.declare "this" className .argument
    scope.declareParameters subroutine.parameters
  else scope.declareParameters subroutine.parameters

/-- The code of a subroutine. -/
def code (className : String) (classScope : Scope) (name : String) (subroutine : Subroutine) :
    Generated (List Instruction) := do
  let scope ← subroutine.scope className classScope name
  let frame : Frame := ⟨className, subroutine.kind, scope⟩
  let (body, inner) ← BodyPart.codeOfList frame scope.inner.nextLabel subroutine.body
  let locals := inner.count .localVar
  let whole := .function scope.qualifiedName locals ::
    prologue (classScope.count .field) subroutine.kind ++ body
  Logged.report (.subroutineCompiled scope.qualifiedName locals whole.length)
  pure whole

end Subroutine

namespace Member

/-- The code of subroutines, none of which may have one of the names `seen` before. -/
def codeOfList (className : String) (classScope : Scope) (seen : List String) :
    List (Except CompileError Member) → Generated (List Instruction)
  | [] => pure []
  | member :: later => do
    let member ← member
    if seen.contains member.name then
      .fail (.duplicateDeclaration className member.name)
    else
      let subroutine ← member.subroutine
      let first ← subroutine.code className classScope member.name
      let more ← codeOfList className classScope (member.name :: seen) later
      pure (first ++ more)

end Member

/-- The code of a class. -/
def Class.code (definition : Class) : Generated (List Instruction) := do
  let scope ← (Scope.root definition.name).declareVariables definition.declarations
  let code ← Member.codeOfList definition.name scope [] definition.members
  Logged.report (.classGenerated definition.name code.length)
  pure code

/-- The code of the class that a syntax tree stands for. -/
def generate (tree : Tree) : Generated (List Instruction) := do
  let definition ← Class.ofTree tree
  definition.code

end JackCompiler
