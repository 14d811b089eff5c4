import JackCompiler.CompileError
import JackCompiler.Machine

/-!
# Scopes

A scope holds the variables declared at one level of nesting and knows the levels around it. The
variables of one kind are numbered from zero in the order of their declaration. A name is looked up
from the inside out. Labels count up within their level and carry the names of the level and of
the one directly around it.
-/

set_option autoImplicit false

namespace JackCompiler

/-- What a variable is declared as. -/
inductive VariableKind where
  | static
  | field
  | argument
  | localVar
  deriving DecidableEq, Repr

/-- A kind of variable by its name. -/
def VariableKind.name : VariableKind → String
  | static => "static"
  | field => "field"
  | argument => "argument"
  | localVar => "local"

/-- All kinds of variables. -/
def VariableKind.all : List VariableKind := [static, field, argument, localVar]

/-- The memory segment that holds the variables of a kind. -/
def VariableKind.segment : VariableKind → Segment
  | static => .static
  | field => .this
  | argument => .argument
  | localVar => .localVar

/-- What is known of a declared variable. -/
structure Variable where
  type : String
  kind : VariableKind
  index : Nat
  deriving DecidableEq, Repr

/-- One level of nesting: its name, its variables with the latest first, and how many labels were
given out. -/
structure Level where
  name : String
  entries : List (String × Variable)
  nextLabel : Nat
  deriving DecidableEq, Repr

/-- A level of nesting and the levels around it, the nearest first. -/
structure Scope where
  inner : Level
  outer : List Level
  deriving DecidableEq, Repr

namespace Level

/-- A level without variables. -/
def empty (name : String) : Level := ⟨name, [], 0⟩

/-- How many variables of a kind a level declares. -/
def count (level : Level) (kind : VariableKind) : Nat :=
  level.entries.countP fun entry => entry.2.kind = kind

/-- The variable that a level declares under a name. -/
def find? (level : Level) (name : String) : Option Variable := level.entries.lookup name

end Level

namespace Scope

/-- The outermost scope, with nothing around it. -/
def root (name : String) : Scope := ⟨.empty name, []⟩

/-- A scope without variables directly inside another one. -/
def child (name : String) (parent : Scope) : Scope :=
  ⟨.empty name, parent.inner :: parent.outer⟩

/-- The scope around a scope. -/
def leave? (scope : Scope) : Option Scope :=
  match scope.outer with
  | [] => none
  | level :: outer => some ⟨level, outer⟩

/-- The name of a scope behind the name of the one directly around it. -/
def qualifiedName (scope : Scope) : String :=
  match scope.outer with
  | [] => scope.inner.name
  | level :: _ => s!"{level.name}.{scope.inner.name}"

/-- How many variables of a kind the innermost level declares. -/
def count (scope : Scope) (kind : VariableKind) : Nat := scope.inner.count kind

/-- Declares a variable at the innermost level, with the next number of its kind. A name that this
level has already is refused; one of a level around it is hidden. -/
def declare (scope : Scope) (name type : String) (kind : VariableKind) :
    Except CompileError (Variable × Scope) :=
  match scope.inner.find? name with
  | some _ => .error (.duplicateDeclaration scope.qualifiedName name)
  | none =>
    let declared : Variable := ⟨type, kind, scope.count kind⟩
    let inner := { scope.inner with entries := (name, declared) :: scope.inner.entries }
    .ok (declared, { scope with inner := inner })

/-- The nearest declaration of a name. -/
def resolve? (scope : Scope) (name : String) : Option Variable :=
  (scope.inner :: scope.outer).findSome? fun level => level.find? name

/-- The nearest declaration of a name, which must exist. -/
def require (scope : Scope) (name : String) : Except CompileError Variable :=
  match scope.resolve? name with
  | some declared => .ok declared
  | none => .error (.undeclaredVariable scope.qualifiedName name)

/-- The label of a scope with a given number. -/
def label (scope : Scope) (number : Nat) : String :=
  match scope.outer with
  | [] => s!"{scope.inner.name}_{number}"
  | level :: _ => s!"{level.name}_{scope.inner.name}_{number}"

/-- The next label of a scope, which is not given out again. -/
def freshLabel (scope : Scope) : String × Scope :=
  (scope.label scope.inner.nextLabel,
    { scope with inner := { scope.inner with nextLabel := scope.inner.nextLabel + 1 } })

end Scope

end JackCompiler
