/-!
# Tokens

A token is a piece of source text together with its lexical class and the line it stands on. Its
text is kept as written, so a string constant still has its quotes.
-/

set_option autoImplicit false

namespace JackCompiler

/-- The lexical class of a token. -/
inductive TokenKind where
  | keyword
  | symbol
  | identifier
  | integerConstant
  | stringConstant
  deriving DecidableEq, Repr

/-- The class as diagnostics name it. -/
def TokenKind.describe : TokenKind → String
  | keyword => "keyword"
  | symbol => "symbol"
  | identifier => "identifier"
  | integerConstant => "integer constant"
  | stringConstant => "string constant"

/-- The class as a tag of the tree's markup. -/
def TokenKind.tag : TokenKind → String
  | keyword => "keyword"
  | symbol => "symbol"
  | identifier => "identifier"
  | integerConstant => "integerConstant"
  | stringConstant => "stringConstant"

/-- All lexical classes. -/
def TokenKind.all : List TokenKind :=
  [keyword, symbol, identifier, integerConstant, stringConstant]

/-- A classified piece of source text. Lines count from one and serve diagnostics only. -/
structure Token where
  kind : TokenKind
  text : String
  line : Nat
  deriving DecidableEq, Repr

/-- Whether a token has this class and this text, whatever its line. -/
def Token.is (token : Token) (kind : TokenKind) (text : String) : Bool :=
  token.kind = kind && token.text = text

/-- The characters a token stands for: a string constant loses its first and its last character,
the quotes, and every other token stands for its own text. -/
def Token.stringValue (token : Token) : String :=
  match token.kind with
  | .stringConstant => String.ofList (token.text.toList.drop 1).dropLast
  | _ => token.text

/-- The reserved words of the language. -/
def keywords : List String :=
  ["class", "constructor", "function", "method", "field", "static", "var", "int", "char",
    "boolean", "void", "true", "false", "null", "this", "let", "do", "if", "else", "while",
    "return"]

/-- The symbols of the language. Each is one character and needs no blank around it. -/
def symbols : List Char :=
  ['{', '}', '(', ')', '[', ']', '.', ',', ';', '+', '-', '*', '/', '&', '|', '<', '>', '=', '~']

/-- Whether a character is one of the symbols. -/
def isSymbol (c : Char) : Bool := symbols.contains c

/-- The largest integer constant that the source language admits. -/
def maxIntegerConstant : Nat := 32767

end JackCompiler
