import JackCompiler.Token.Basic
import JackCompiler.Syntax.Rule

/-!
# Why a compilation fails

Every stage stops at the first problem it meets, so a failed compilation has exactly one error. An
error is kept as its cause; `CompileError.message` is the one place that words it.
-/

set_option autoImplicit false

namespace JackCompiler

/-- Why a piece of text is no token. -/
inductive LexicalFlaw where
  | integerTooLarge
  | unterminatedString
  | unrecognized
  deriving DecidableEq, Repr

/-- The wording of a lexical flaw. -/
def LexicalFlaw.message : LexicalFlaw → String
  | integerTooLarge => s!"integer constant exceeds {maxIntegerConstant}"
  | unterminatedString => "unterminated string constant"
  | unrecognized => "unrecognized character sequence"

/-- What the parser was looking for. -/
inductive Expectation where
  /-- A token of a class, restricted to some texts unless the list is empty. -/
  | token (kind : TokenKind) (texts : List String)
  | endOfInput
  deriving DecidableEq, Repr

/-- The wording of an expectation: the class when every text will do, else the texts. -/
def Expectation.message : Expectation → String
  | token kind [] => kind.describe
  | token _ [text] => s!"`{text}`"
  | token _ texts => "one of " ++ ", ".intercalate (texts.map fun text => s!"`{text}`")
  | endOfInput => "end of input"

/-- The construct that a malformed piece of syntax belongs to. -/
inductive Construct where
  | rule (rule : Rule)
  | token (text : String)
  | alternatives
  deriving DecidableEq, Repr

/-- The wording of a construct. -/
def Construct.message : Construct → String
  | rule r => r.name
  | token text => s!"token `{text}`"
  | alternatives => "alternatives"

/-- What is wrong with a construct. -/
inductive Flaw where
  | noCandidates
  | missingChild (index : Nat)
  | childIsNoToken (index : Nat)
  | childIsNot (index : Nat) (rule : Rule)
  | found (construct : Construct)
  | unknownVariableKind (text : String)
  | unknownSubroutineKind (text : String)
  | parameterWithoutName
  | unexpectedPart (rule : Rule)
  | noStatement
  | noElse
  | badInteger (text : String)
  | noConstant (text : String)
  | stringTooLong
  | unsupportedCharacter (char : Char)
  | noOperator (text : String) (arity : Nat)
  deriving DecidableEq, Repr

/-- The wording of a flaw. -/
def Flaw.message : Flaw → String
  | noCandidates => "no candidates given"
  | missingChild index => s!"missing child {index}"
  | childIsNoToken index => s!"child {index} is not a token"
  | childIsNot index rule => s!"child {index} is not a {rule.name}"
  | found construct => s!"found {construct.message}"
  | unknownVariableKind text => s!"unknown variable kind `{text}`"
  | unknownSubroutineKind text => s!"unknown subroutine kind `{text}`"
  | parameterWithoutName => "parameter without a name"
  | unexpectedPart rule => s!"unexpected {rule.name}"
  | noStatement => "child is not a statement"
  | noElse => "expected `else` after the first block"
  | badInteger text => s!"bad integer `{text}`"
  | noConstant text => s!"`{text}` is not a constant"
  | stringTooLong => "string constant is too long"
  | unsupportedCharacter char => s!"unsupported character `{char}`"
  | noOperator text arity => s!"`{text}` is not an operator of arity {arity}"

/-- Why a compilation fails. -/
inductive CompileError where
  | invalidToken (line : Nat) (text : String) (flaw : LexicalFlaw)
  | unexpectedToken (line : Nat) (found : String) (expected : Expectation)
  | unexpectedEnd (expected : Expectation)
  | duplicateDeclaration (scope name : String)
  | undeclaredVariable (scope name : String)
  | malformed (construct : Construct) (flaw : Flaw)
  deriving DecidableEq, Repr

/-- The wording of an error. -/
def CompileError.message : CompileError → String
  | invalidToken line text flaw => s!"invalid token `{text}` on line {line}: {flaw.message}"
  | unexpectedToken line found expected =>
    s!"unexpected token `{found}` on line {line}, expected {expected.message}"
  | unexpectedEnd expected => s!"unexpected end of input, expected {expected.message}"
  | duplicateDeclaration scope name =>
    s!"identifier `{name}` has already been declared in scope `{scope}`"
  | undeclaredVariable scope name =>
    s!"identifier `{name}` is not declared (referenced in `{scope}`)"
  | malformed construct flaw => s!"malformed {construct.message}: {flaw.message}"

end JackCompiler
