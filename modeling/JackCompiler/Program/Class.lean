import JackCompiler.Scope
import JackCompiler.Program.Statement

/-!
# Classes

A class as the compiler sees it: its variables and its subroutines, in source order, and how it is
read from a syntax tree. A part that cannot be read is kept as its error, so that an earlier fault
of another sort is found first.
-/

set_option autoImplicit false

namespace JackCompiler

/-- What a subroutine is declared as. -/
inductive SubroutineKind where
  | constructor
  | function
  | method
  deriving DecidableEq, Repr

/-- Names declared together with one type. -/
structure Declaration where
  type : String
  names : List String
  deriving DecidableEq, Repr

/-- One parameter of a subroutine. -/
structure Parameter where
  type : String
  name : String
  deriving DecidableEq, Repr

/-- A part of a subroutine's body. -/
inductive BodyPart where
  | declare (declaration : Declaration)
  | statements (block : List Statement)
  | flaw (error : CompileError)

/-- A subroutine without its name. Parameters behind one that cannot be read are left out. -/
structure Subroutine where
  kind : SubroutineKind
  parameters : List (Except CompileError Parameter)
  body : List BodyPart

/-- A subroutine with its name. -/
structure Member where
  name : String
  subroutine : Except CompileError Subroutine

/-- A class. -/
structure Class where
  name : String
  declarations : List (Except CompileError (VariableKind × Declaration))
  members : List (Except CompileError Member)

/-- The names that a declaration introduces: the identifiers behind its type. -/
def Declaration.ofTree (tree : Tree) : Except CompileError Declaration := do
  let type ← tree.terminal 1
  let tokens := (tree.children.drop 2).filterMap Tree.token?
  pure ⟨type.text, (tokens.filter (·.kind = .identifier)).map (·.text)⟩

/-- The kind of variable that a keyword declares in a class. -/
def VariableKind.ofKeyword (text : String) : Except CompileError VariableKind :=
  match text with
  | "static" => .ok static
  | "field" => .ok field
  | _ => .error (.malformed (.rule .classVarDec) (.unknownVariableKind text))

/-- The kind of subroutine that a keyword declares. -/
def SubroutineKind.ofKeyword (text : String) : Except CompileError SubroutineKind :=
  match text with
  | "constructor" => .ok .constructor
  | "function" => .ok .function
  | "method" => .ok .method
  | _ => .error (.malformed (.rule .subroutineDec) (.unknownSubroutineKind text))

namespace Parameter

/-- Types and names in turn, as parameters. -/
def ofTokens : List Token → List (Except CompileError Parameter)
  | [] => []
  | [_] => [.error (.malformed (.rule .parameterList) .parameterWithoutName)]
  | type :: name :: rest => .ok ⟨type.text, name.text⟩ :: ofTokens rest

/-- The parameters of a list: its tokens without the commas are types and names in turn. -/
def listOfTree (tree : Tree) : List (Except CompileError Parameter) :=
  ofTokens ((tree.children.filterMap Tree.token?).filter fun token => !token.is .symbol ",")

end Parameter

namespace BodyPart

/-- A part of a body. Tokens, which are its braces, are no parts. -/
def ofTree? : Tree → Option BodyPart
  | .leaf _ => none
  | .node .varDec children =>
    match Declaration.ofTree (.node .varDec children) with
    | .ok declaration => some (declare declaration)
    | .error error => some (flaw error)
  | .node .statements children => some (statements (Statement.blockOfTree (.node .statements children)))
  | .node rule _ => some (flaw (.malformed (.rule .subroutineBody) (.unexpectedPart rule)))

end BodyPart

/-- The kind, the parameters and the body of a subroutine. -/
def Subroutine.ofTree (tree : Tree) : Except CompileError Subroutine := do
  let keyword ← tree.terminal 0
  let kind ← SubroutineKind.ofKeyword keyword.text
  let parameters ← tree.group 4 .parameterList
  let body ← tree.group 6 .subroutineBody
  pure ⟨kind, Parameter.listOfTree parameters, body.children.filterMap BodyPart.ofTree?⟩

/-- A subroutine with its name, which is looked at before the rest. -/
def Member.ofTree (tree : Tree) : Except CompileError Member := do
  let name ← tree.terminal 2
  pure ⟨name.text, Subroutine.ofTree tree⟩

namespace Class

/-- The variables that a declaration introduces in a class. -/
def variablesOfTree (tree : Tree) : Except CompileError (VariableKind × Declaration) := do
  let keyword ← tree.terminal 0
  let kind ← VariableKind.ofKeyword keyword.text
  let declaration ← Declaration.ofTree tree
  pure (kind, declaration)

/-- The name of the class that a tree stands for. -/
def nameOfTree (tree : Tree) : Except CompileError String := do
  let tree ← tree.expect .classDec
  let name ← tree.terminal 1
  pure name.text

/-- The class that a tree stands for. -/
def ofTree (tree : Tree) : Except CompileError Class := do
  let name ← nameOfTree tree
  pure ⟨name, (tree.groups .classVarDec).map variablesOfTree,
    (tree.groups .subroutineDec).map Member.ofTree⟩

end Class

end JackCompiler
