import JackCompiler.Token.Lexer
import JackCompiler.Syntax.Parse
import JackCompiler.Syntax.Markup
import JackCompiler.Code.Class

/-!
# Compilation of a source text

A source text holds one class. It is parsed and then either compiled to stack-machine code or
written out as the markup of its syntax tree.
-/

set_option autoImplicit false

namespace JackCompiler

/-- A compiled class. -/
structure Artifact where
  className : String
  code : List Instruction
  deriving DecidableEq, Repr

/-- The syntax tree of a source text. -/
def parse (source : String) : Logged CompileError Tree := do
  let tokens ← tokenize source
  parseTokens tokens

/-- The class that a source text holds, compiled. -/
def compile (source : String) : Logged CompileError Artifact := do
  let tree ← parse source
  let name ← Class.nameOfTree tree
  let code ← generate tree
  Logged.report (.classCompiled name code.length)
  pure ⟨name, code⟩

/-- The text of the code of a source text. -/
def compileToText (source : String) : Logged CompileError String := do
  let artifact ← compile source
  pure (render artifact.code)

/-- The markup of the syntax tree of a source text. -/
def parseToMarkup (source : String) : Logged CompileError String := do
  let tree ← parse source
  pure tree.markup

end JackCompiler
