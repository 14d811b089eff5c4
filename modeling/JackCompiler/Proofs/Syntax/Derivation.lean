import JackCompiler.Syntax.Tree

/-!
# Derivation trees

The grammar of the language as a relation, stated without any parser: `Tree.Derivation` holds of a
tree when every node in it is made up as the production of its rule says. There is one constructor
for each form of a production. A repetition is a list of any length, an optional part gives two
constructors, and nothing is said about the order in which forms are tried.

Leaves are written with `Tree.keyword`, `Tree.symbol` and `Tree.identifier`, which fix the class
and the text of a token and leave its line open.
-/

set_option autoImplicit false

namespace JackCompiler

namespace Tree

/-- The leaf of a keyword. -/
abbrev keyword (text : String) (line : Nat) : Tree := .leaf ⟨.keyword, text, line⟩

abbrev symbol (text : String) (line : Nat) : Tree := .leaf ⟨.symbol, text, line⟩

abbrev identifier (text : String) (line : Nat) : Tree := .leaf ⟨.identifier, text, line⟩

/-- A type is one of three keywords or the name of a class. -/
inductive IsType : Tree → Prop
  | primitive (text : String) (line : Nat) (among : text ∈ ["int", "char", "boolean"]) :
      IsType (keyword text line)
  | class (text : String) (line : Nat) : IsType (identifier text line)

/-- A subroutine gives back nothing or a value of some type. -/
inductive IsResult : Tree → Prop
  | void (line : Nat) : IsResult (keyword "void" line)
  | type {tree : Tree} (type : IsType tree) : IsResult tree

/-- Names that follow a first one, each behind a comma. -/
inductive FurtherNames : List Tree → Prop
  | nil : FurtherNames []
  | cons {later : List Tree} (comma : Nat) (text : String) (line : Nat)
      (names : FurtherNames later) :
      FurtherNames (symbol "," comma :: identifier text line :: later)

/-- Parameters that follow a first one, each behind a comma. -/
inductive FurtherParameters : List Tree → Prop
  | nil : FurtherParameters []
  | cons {type : Tree} {later : List Tree} (comma : Nat) (isType : IsType type) (text : String)
      (line : Nat) (parameters : FurtherParameters later) :
      FurtherParameters (symbol "," comma :: type :: identifier text line :: later)

/-- A statement is a node of one of five rules. -/
def IsStatement (tree : Tree) : Prop :=
  tree.rule? ∈ [some .letStatement, some .ifStatement, some .whileStatement, some .doStatement,
    some .returnStatement]

/-- The symbols that stand between two terms. -/
def binarySymbols : List String := ["+", "-", "*", "/", "&", "|", "<", ">", "="]

/-- The symbols that stand in front of a term. -/
def unarySymbols : List String := ["-", "~"]

/-- The keywords that are terms. -/
def constantKeywords : List String := ["true", "false", "null", "this"]

/-- A first part and further ones, each behind a symbol of its own. -/
def chain (first : Tree) (later : List (String × Nat × Tree)) : List Tree :=
  first :: later.flatMap fun part => [symbol part.1 part.2.1, part.2.2]

/-- A tree in which every node is made up as the production of its rule says. -/
inductive Derivation : Tree → Prop
  | classDec {declared subroutines : List Tree} (text : String) (l₁ l₂ l₃ l₄ : Nat)
      (areVariables : ∀ tree ∈ declared, tree.rule? = some .classVarDec)
      (areSubroutines : ∀ tree ∈ subroutines, tree.rule? = some .subroutineDec)
      (variablesDerive : ∀ tree ∈ declared, Derivation tree)
      (subroutinesDerive : ∀ tree ∈ subroutines, Derivation tree) :
      Derivation (.node .classDec ([keyword "class" l₁, identifier text l₂, symbol "\x7b" l₃] ++
        declared ++ subroutines ++ [symbol "\x7d" l₄]))
  | classVarDec {type : Tree} {names : List Tree} (kind text : String) (l₁ l₂ l₃ : Nat)
      (isKind : kind ∈ ["static", "field"]) (isType : IsType type)
      (further : FurtherNames names) :
      Derivation (.node .classVarDec ([keyword kind l₁, type, identifier text l₂] ++ names ++
        [symbol ";" l₃]))
  | subroutineDec {result : Tree} {parameters body : List Tree} (kind text : String)
      (l₁ l₂ l₃ l₄ : Nat) (isKind : kind ∈ ["constructor", "function", "method"])
      (isResult : IsResult result) (parametersDerive : Derivation (.node .parameterList parameters))
      (bodyDerives : Derivation (.node .subroutineBody body)) :
      Derivation (.node .subroutineDec [keyword kind l₁, result, identifier text l₂,
        symbol "(" l₃, .node .parameterList parameters, symbol ")" l₄,
        .node .subroutineBody body])
  | noParameters : Derivation (.node .parameterList [])
  | parameters {type : Tree} {later : List Tree} (text : String) (l : Nat) (isType : IsType type)
      (further : FurtherParameters later) :
      Derivation (.node .parameterList ([type, identifier text l] ++ later))
  | subroutineBody {declared block : List Tree} (l₁ l₂ : Nat)
      (areVariables : ∀ tree ∈ declared, tree.rule? = some .varDec)
      (variablesDerive : ∀ tree ∈ declared, Derivation tree)
      (blockDerives : Derivation (.node .statements block)) :
      Derivation (.node .subroutineBody ([symbol "\x7b" l₁] ++ declared ++
        [.node .statements block, symbol "\x7d" l₂]))
  | varDec {type : Tree} {names : List Tree} (text : String) (l₁ l₂ l₃ : Nat)
      (isType : IsType type) (further : FurtherNames names) :
      Derivation (.node .varDec ([keyword "var" l₁, type, identifier text l₂] ++ names ++
        [symbol ";" l₃]))
  | statements {block : List Tree} (areStatements : ∀ tree ∈ block, tree.IsStatement)
      (derive : ∀ tree ∈ block, Derivation tree) : Derivation (.node .statements block)
  | letVariable {value : List Tree} (text : String) (l₁ l₂ l₃ l₄ : Nat)
      (valueDerives : Derivation (.node .expression value)) :
      Derivation (.node .letStatement [keyword "let" l₁, identifier text l₂, symbol "=" l₃,
        .node .expression value, symbol ";" l₄])
  | letElement {index value : List Tree} (text : String) (l₁ l₂ l₃ l₄ l₅ l₆ : Nat)
      (indexDerives : Derivation (.node .expression index))
      (valueDerives : Derivation (.node .expression value)) :
      Derivation (.node .letStatement [keyword "let" l₁, identifier text l₂, symbol "[" l₃,
        .node .expression index, symbol "]" l₄, symbol "=" l₅, .node .expression value,
        symbol ";" l₆])
  | ifThen {condition yes : List Tree} (l₁ l₂ l₃ l₄ l₅ : Nat)
      (conditionDerives : Derivation (.node .expression condition))
      (yesDerives : Derivation (.node .statements yes)) :
      Derivation (.node .ifStatement [keyword "if" l₁, symbol "(" l₂,
        .node .expression condition, symbol ")" l₃, symbol "\x7b" l₄, .node .statements yes,
        symbol "\x7d" l₅])
  | ifElse {condition yes no : List Tree} (l₁ l₂ l₃ l₄ l₅ l₆ l₇ l₈ : Nat)
      (conditionDerives : Derivation (.node .expression condition))
      (yesDerives : Derivation (.node .statements yes))
      (noDerives : Derivation (.node .statements no)) :
      Derivation (.node .ifStatement [keyword "if" l₁, symbol "(" l₂,
        .node .expression condition, symbol ")" l₃, symbol "\x7b" l₄, .node .statements yes,
        symbol "\x7d" l₅, keyword "else" l₆, symbol "\x7b" l₇, .node .statements no,
        symbol "\x7d" l₈])
  | whileStatement {condition block : List Tree} (l₁ l₂ l₃ l₄ l₅ : Nat)
      (conditionDerives : Derivation (.node .expression condition))
      (blockDerives : Derivation (.node .statements block)) :
      Derivation (.node .whileStatement [keyword "while" l₁, symbol "(" l₂,
        .node .expression condition, symbol ")" l₃, symbol "\x7b" l₄, .node .statements block,
        symbol "\x7d" l₅])
  | doStatement {call : List Tree} (l₁ l₂ : Nat)
      (callDerives : Derivation (.node .subroutineCall call)) :
      Derivation (.node .doStatement [keyword "do" l₁, .node .subroutineCall call,
        symbol ";" l₂])
  | returnNothing (l₁ l₂ : Nat) :
      Derivation (.node .returnStatement [keyword "return" l₁, symbol ";" l₂])
  | returnValue {value : List Tree} (l₁ l₂ : Nat)
      (valueDerives : Derivation (.node .expression value)) :
      Derivation (.node .returnStatement [keyword "return" l₁, .node .expression value,
        symbol ";" l₂])
  | expression {first : Tree} {later : List (String × Nat × Tree)}
      (firstIsTerm : first.rule? = some .term) (firstDerives : Derivation first)
      (areOperators : ∀ part ∈ later, part.1 ∈ binarySymbols)
      (areTerms : ∀ part ∈ later, part.2.2.rule? = some .term)
      (derive : ∀ part ∈ later, Derivation part.2.2) :
      Derivation (.node .expression (chain first later))
  | integer (text : String) (l : Nat) :
      Derivation (.node .term [.leaf ⟨.integerConstant, text, l⟩])
  | string (text : String) (l : Nat) :
      Derivation (.node .term [.leaf ⟨.stringConstant, text, l⟩])
  | constant (text : String) (l : Nat) (isConstant : text ∈ constantKeywords) :
      Derivation (.node .term [keyword text l])
  | variable (text : String) (l : Nat) : Derivation (.node .term [identifier text l])
  | element {index : List Tree} (text : String) (l₁ l₂ l₃ : Nat)
      (indexDerives : Derivation (.node .expression index)) :
      Derivation (.node .term [identifier text l₁, symbol "[" l₂, .node .expression index,
        symbol "]" l₃])
  | call {call : List Tree} (callDerives : Derivation (.node .subroutineCall call)) :
      Derivation (.node .term [.node .subroutineCall call])
  | parenthesized {inner : List Tree} (l₁ l₂ : Nat)
      (innerDerives : Derivation (.node .expression inner)) :
      Derivation (.node .term [symbol "(" l₁, .node .expression inner, symbol ")" l₂])
  | unary {operand : List Tree} (text : String) (l : Nat) (isOperator : text ∈ unarySymbols)
      (operandDerives : Derivation (.node .term operand)) :
      Derivation (.node .term [symbol text l, .node .term operand])
  | ownCall {arguments : List Tree} (name : String) (l₁ l₂ l₃ : Nat)
      (argumentsDerive : Derivation (.node .expressionList arguments)) :
      Derivation (.node .subroutineCall [identifier name l₁, symbol "(" l₂,
        .node .expressionList arguments, symbol ")" l₃])
  | qualifiedCall {arguments : List Tree} (context name : String) (l₁ l₂ l₃ l₄ l₅ : Nat)
      (argumentsDerive : Derivation (.node .expressionList arguments)) :
      Derivation (.node .subroutineCall [identifier context l₁, symbol "." l₂,
        identifier name l₃, symbol "(" l₄, .node .expressionList arguments, symbol ")" l₅])
  | noArguments : Derivation (.node .expressionList [])
  | arguments {first : Tree} {later : List (String × Nat × Tree)}
      (firstIsExpression : first.rule? = some .expression) (firstDerives : Derivation first)
      (areCommas : ∀ part ∈ later, part.1 = ",")
      (areExpressions : ∀ part ∈ later, part.2.2.rule? = some .expression)
      (derive : ∀ part ∈ later, Derivation part.2.2) :
      Derivation (.node .expressionList (chain first later))

end Tree

end JackCompiler
