import JackCompiler.Text.Decimal
import JackCompiler.Syntax.Tree

/-!
# Expressions

An expression as the compiler sees it, and how it is read from a syntax tree. There is no
precedence: `a + b * c` is read as `(a + b) * c`. A tree of the wrong shape is read as well; where a
part is missing or wrong, the expression holds the error, which counts only when that place is
reached.
-/

set_option autoImplicit false

namespace JackCompiler

/-- An operator in front of its operand. -/
inductive UnaryOperator where
  | negate
  | complement
  deriving DecidableEq, Repr

/-- An operator between its operands. -/
inductive BinaryOperator where
  | add
  | sub
  | mul
  | div
  | and
  | or
  | lt
  | gt
  | eq
  deriving DecidableEq, Repr

/-- What a call names: a subroutine of the class itself, or one behind a class or a variable. -/
inductive Callee where
  | own (name : String)
  | qualified (context name : String)
  deriving DecidableEq, Repr

/-- An expression. -/
inductive Expression where
  | integer (value : Nat)
  | string (value : String)
  /-- The constant `true`. -/
  | truth
  /-- The constants `false` and `null`. -/
  | zero
  /-- The object that the subroutine works on. -/
  | receiver
  | named (name : String)
  | element (array : String) (index : Expression)
  | unary (operator : Except CompileError UnaryOperator) (operand : Expression)
  | binary (left : Expression) (operator : Except CompileError BinaryOperator)
      (right : Expression)
  | call (callee : Callee) (arguments : List Expression)
  | flaw (error : CompileError)

/-- The operator that a symbol denotes in front of a term. -/
def UnaryOperator.ofSymbol (text : String) : Except CompileError UnaryOperator :=
  match text with
  | "-" => .ok negate
  | "~" => .ok complement
  | _ => .error (.malformed (.rule .expression) (.noOperator text 1))

/-- The operator that a symbol denotes between two terms. -/
def BinaryOperator.ofSymbol (text : String) : Except CompileError BinaryOperator :=
  match text with
  | "+" => .ok add
  | "-" => .ok sub
  | "*" => .ok mul
  | "/" => .ok div
  | "&" => .ok and
  | "|" => .ok or
  | "<" => .ok lt
  | ">" => .ok gt
  | "=" => .ok eq
  | _ => .error (.malformed (.rule .expression) (.noOperator text 2))

namespace Expression

/-- An expression that could be read, or the error in its place. -/
def orFlaw : Except CompileError Expression → Expression
  | .ok expression => expression
  | .error error => .flaw error

/-- The constant that a keyword denotes. -/
def ofKeyword (text : String) : Expression :=
  match text with
  | "true" => truth
  | "false" => zero
  | "null" => zero
  | "this" => receiver
  | _ => flaw (.malformed (.rule .term) (.noConstant text))

/-- The constant that an integer token denotes. -/
def ofInteger (text : String) : Expression :=
  match wordValue? text.toList with
  | some value => integer value
  | none => flaw (.malformed (.rule .term) (.badInteger text))

/-- What is read from a tree: the expression it stands for, and the expressions among its parts. -/
structure Reading where
  expression : Expression
  arguments : List Expression

/-- The reading of the part at a position, which must be a node of a rule. -/
def readingAt (tree : Tree) (readings : List Reading) (index : Nat) (rule : Rule) :
    Except CompileError Reading := do
  let _ ← tree.group index rule
  partAt tree.construct readings index

/-- The expression at a position, which must be a node of a rule. -/
def expressionAt (tree : Tree) (readings : List Reading) (index : Nat) (rule : Rule) :
    Expression :=
  orFlaw ((readingAt tree readings index rule).map (·.expression))

/-- Goes on from `left` with the operators and terms that stand from position `index` on. -/
def operations (tree : Tree) (readings : List Reading) (left : Expression) (index : Nat) :
    List Tree → Expression
  | [] => left
  | _ :: later =>
    match tree.terminal index with
    | .error error => binary left (.error error) (flaw error)
    | .ok token =>
      let right := expressionAt tree readings (index + 1) .term
      let whole := binary left (BinaryOperator.ofSymbol token.text) right
      match later with
      | [] => whole
      | _ :: rest => operations tree readings whole (index + 2) rest

/-- A call, from the parts of its node. -/
def callOf (tree : Tree) (readings : List Reading) : Except CompileError Expression := do
  let second ← tree.child 1
  if second.isSymbol "." then
    let context ← tree.terminal 0
    let name ← tree.terminal 2
    let list ← readingAt tree readings 4 .expressionList
    pure (call (.qualified context.text name.text) list.arguments)
  else
    let name ← tree.terminal 0
    let list ← readingAt tree readings 2 .expressionList
    pure (call (.own name.text) list.arguments)

/-- A term that begins with a token, from the parts of its node. -/
def termOf (tree : Tree) (readings : List Reading) (token : Token) : Expression :=
  match token.kind with
  | .integerConstant => ofInteger token.text
  | .stringConstant => string token.stringValue
  | .keyword => ofKeyword token.text
  | .symbol =>
    if token.text = "(" then expressionAt tree readings 1 .expression
    else unary (UnaryOperator.ofSymbol token.text) (expressionAt tree readings 1 .term)
  | .identifier =>
    if tree.children.length > 1 then
      element token.text (expressionAt tree readings 2 .expression)
    else named token.text

/-- The expression that a node stands for, from the readings of its parts. -/
def assemble (tree : Tree) (readings : List Reading) : Expression :=
  match tree.rule? with
  | some .expression =>
    operations tree readings (expressionAt tree readings 0 .term) 1 (tree.children.drop 1)
  | some .term =>
    match tree.child 0 with
    | .error error => flaw error
    | .ok (.leaf token) => termOf tree readings token
    | .ok first =>
      orFlaw do
        let _ ← first.expect .subroutineCall
        let reading ← partAt tree.construct readings 0
        pure reading.expression
  | some .subroutineCall => orFlaw (callOf tree readings)
  | _ => flaw (.malformed (.rule .expression) (.found tree.construct))

mutual

/-- What is read from a tree. -/
def read : Tree → Reading
  | .leaf token => ⟨assemble (.leaf token) [], []⟩
  | .node rule children =>
    let readings := readAll children
    ⟨assemble (.node rule children) readings,
      (children.zip readings).filterMap fun part =>
        if part.1.isRule .expression then some part.2.expression else none⟩

/-- What is read from consecutive trees. -/
def readAll : List Tree → List Reading
  | [] => []
  | tree :: later => read tree :: readAll later

end

/-- The expression that a tree stands for. The tree is a node of an expression, a term or a
subroutine call; any other tree is a flaw. -/
def ofTree (tree : Tree) : Expression := (read tree).expression

@[simp] theorem readAll_eq_map (trees : List Tree) : readAll trees = trees.map read := by
  induction trees with
  | nil => rfl
  | cons tree later ih => simp [readAll, ih]

end Expression

end JackCompiler
