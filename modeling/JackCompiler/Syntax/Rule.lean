/-!
# Grammar rules

The rules of the grammar that leave a node in the syntax tree. The choice of a type name and the
choice of a statement have no node of their own and so are no rules here.
-/

set_option autoImplicit false

namespace JackCompiler

/-- A grammar rule that leaves a node in the syntax tree. -/
inductive Rule where
  | classDec
  | classVarDec
  | subroutineDec
  | parameterList
  | subroutineBody
  | varDec
  | statements
  | letStatement
  | ifStatement
  | whileStatement
  | doStatement
  | returnStatement
  | expression
  | term
  | subroutineCall
  | expressionList
  deriving DecidableEq, Repr

/-- The name of a rule, as diagnostics and the tree's markup write it. -/
def Rule.name : Rule → String
  | classDec => "class"
  | classVarDec => "classVarDec"
  | subroutineDec => "subroutineDec"
  | parameterList => "parameterList"
  | subroutineBody => "subroutineBody"
  | varDec => "varDec"
  | statements => "statements"
  | letStatement => "letStatement"
  | ifStatement => "ifStatement"
  | whileStatement => "whileStatement"
  | doStatement => "doStatement"
  | returnStatement => "returnStatement"
  | expression => "expression"
  | term => "term"
  | subroutineCall => "subroutineCall"
  | expressionList => "expressionList"

/-- All rules, in the order of their declaration. -/
def Rule.all : List Rule :=
  [classDec, classVarDec, subroutineDec, parameterList, subroutineBody, varDec, statements,
    letStatement, ifStatement, whileStatement, doStatement, returnStatement, expression, term,
    subroutineCall, expressionList]

/-- The rule with a given name, if there is one. -/
def Rule.ofName? (name : String) : Option Rule := Rule.all.find? fun rule => rule.name = name

end JackCompiler
