import JackCompiler.Syntax.Grammar

/-!
# The grammar of the language and its parser

`Rule.production` is the grammar, one production for each rule. `Rule.parse` follows it from a
cursor. Rules refer to each other, so the parser is built for a given depth of nested rules first
(`Rule.parseWithin`); `Rule.depth` is enough for any input, since no rule can be entered more than
a few times before a token is read.
-/

set_option autoImplicit false

namespace JackCompiler

namespace Grammar

variable {ν : Type}

/-- One of some keywords. -/
def keyword (texts : List String) : Grammar ν := terminal .keyword texts

/-- One of some symbols. -/
def symbol (texts : List String) : Grammar ν := terminal .symbol texts

/-- Any identifier. -/
def identifier : Grammar ν := terminal .identifier []

/-- A construct between two symbols. -/
def between (opening closing : String) (part : Grammar ν) : Grammar ν :=
  sequence [symbol [opening], part, symbol [closing]]

/-- The name of a type. -/
def typeName : Grammar ν := alternatives [keyword ["int", "char", "boolean"], identifier]

/-- Further names after a first one, each behind a comma. -/
def furtherNames : Grammar ν := many (sequence [symbol [","], identifier])

end Grammar

namespace Rule

open Grammar

/-- The parts of a construct, rule by rule. -/
def production : Rule → Grammar Rule
  | classDec => .sequence [keyword ["class"], identifier, symbol ["\x7b"],
      .many (.rule classVarDec), .many (.rule subroutineDec), symbol ["\x7d"]]
  | classVarDec => .sequence [keyword ["static", "field"], typeName, identifier, furtherNames,
      symbol [";"]]
  | subroutineDec => .sequence [keyword ["constructor", "function", "method"],
      .alternatives [keyword ["void"], typeName], identifier, symbol ["("], .rule parameterList,
      symbol [")"], .rule subroutineBody]
  | parameterList => .maybe (.sequence [.sequence [typeName, identifier],
      .many (.sequence [symbol [","], typeName, identifier])])
  | subroutineBody => .sequence [symbol ["\x7b"], .many (.rule varDec), .rule statements,
      symbol ["\x7d"]]
  | varDec => .sequence [keyword ["var"], typeName, identifier, furtherNames, symbol [";"]]
  | statements => .many (.alternatives [.rule letStatement, .rule ifStatement,
      .rule whileStatement, .rule doStatement, .rule returnStatement])
  | letStatement => .sequence [keyword ["let"], identifier,
      .maybe (between "[" "]" (.rule expression)), symbol ["="], .rule expression, symbol [";"]]
  | ifStatement => .sequence [keyword ["if"], symbol ["("], .rule expression, symbol [")"],
      symbol ["\x7b"], .rule statements, symbol ["\x7d"],
      .maybe (.sequence [keyword ["else"], symbol ["\x7b"], .rule statements, symbol ["\x7d"]])]
  | whileStatement => .sequence [keyword ["while"], symbol ["("], .rule expression, symbol [")"],
      symbol ["\x7b"], .rule statements, symbol ["\x7d"]]
  | doStatement => .sequence [keyword ["do"], .rule subroutineCall, symbol [";"]]
  | returnStatement => .sequence [keyword ["return"], .maybe (.rule expression), symbol [";"]]
  | expression => .sequence [.rule term,
      .many (.sequence [symbol ["+", "-", "*", "/", "&", "|", "<", ">", "="], .rule term])]
  | term => .alternatives [.terminal .integerConstant [], .terminal .stringConstant [],
      keyword ["true", "false", "null", "this"], between "(" ")" (.rule expression),
      .sequence [symbol ["-", "~"], .rule term], .rule subroutineCall,
      .sequence [identifier, symbol ["["], .rule expression, symbol ["]"]], identifier]
  | subroutineCall => .alternatives [
      .sequence [identifier, symbol ["("], .rule expressionList, symbol [")"]],
      .sequence [identifier, symbol ["."], identifier, symbol ["("], .rule expressionList,
        symbol [")"]]]
  | expressionList => .maybe (.sequence [.rule expression,
      .many (.sequence [symbol [","], .rule expression])])

/-- Reads a construct whose rules are nested no deeper than a bound. Beyond the bound no production
is left to try. -/
def parseWithin : Nat → Rule → Cursor → Logged CompileError (Tree × Cursor)
  | 0, _, _ => .fail (.malformed .alternatives .noCandidates)
  | depth + 1, outer, cursor =>
    Prod.map (.node outer) id <$>
      outer.production.parser (fun inner => .single (parseWithin depth inner)) cursor

/-- A nesting depth that no input with so many tokens exceeds: between two tokens at most eight
rules are entered. -/
def depth (tokens : Nat) : Nat := 8 * (tokens + 1)

/-- Reads a construct. -/
def parse (outer : Rule) (cursor : Cursor) : Logged CompileError (Tree × Cursor) :=
  parseWithin (depth cursor.ahead.length) outer cursor

end Rule

/-- The syntax tree of a list of tokens, which must be exactly one class. -/
def parseTokens (tokens : List Token) : Logged CompileError Tree := do
  let (tree, behind) ← Rule.classDec.parse (.start tokens)
  match behind.ahead with
  | [] => pure tree
  | token :: _ => .fail (.unexpectedToken token.line token.text .endOfInput)

end JackCompiler
