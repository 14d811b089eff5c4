import JackCompiler.Code.Frame
import JackCompiler.Proofs.Code.StackMachine
import JackCompiler.Proofs.Syntax.Derivation

/-!
# The value of an expression and the effect of an assignment

What a syntax tree says should be computed, read off the tree directly and without any code. The
terms of an expression are combined strictly from left to right. Products, quotients and strings are
what the subroutines of the runtime make of them. The receiver of a call comes before its arguments,
and an element of an array is the word behind the array's address by the index.

Evaluation has no result on a tree of the wrong shape.
-/

set_option autoImplicit false

namespace JackCompiler

namespace StackMachine

variable {Word : Type} (machine : StackMachine Word)

/-- A call, as a value and the memory it leaves behind. -/
def result (name : String) (words : List Word) (store : Store Word) : Word × Store Word :=
  ((machine.call name words store).value, (machine.call name words store).store)

def variableValue (activation : Activation Word) (store : Store Word) (declared : Variable) :
    Word :=
  match declared.kind with
  | .static => store.statics declared.index
  | .field => store.heap (machine.offset activation.this declared.index)
  | .argument => activation.arguments declared.index
  | .localVar => activation.locals declared.index

/-- A string object: a new one of the right length, to which the characters are appended. -/
def stringValue (text : String) (store : Store Word) : Word × Store Word :=
  text.toList.foldl
    (fun made c => machine.result "String.appendChar" [made.1, machine.constant c.toNat] made.2)
    (machine.result "String.new" [machine.constant text.length] store)

/-- What a symbol in front of a term makes of the term's value. -/
def unaryValue (symbol : String) (value : Word) : Option Word :=
  match symbol with
  | "-" => some (machine.negate value)
  | "~" => some (machine.complement value)
  | _ => none

/-- What a symbol between two terms makes of their values. -/
def binaryValue (symbol : String) (left right : Word) (store : Store Word) :
    Option (Word × Store Word) :=
  match symbol with
  | "+" => some (machine.add left right, store)
  | "-" => some (machine.subtract left right, store)
  | "*" => some (machine.result "Math.multiply" [left, right] store)
  | "/" => some (machine.result "Math.divide" [left, right] store)
  | "&" => some (machine.both left right, store)
  | "|" => some (machine.either left right, store)
  | "<" => some (machine.less left right, store)
  | ">" => some (machine.greater left right, store)
  | "=" => some (machine.equal left right, store)
  | _ => none

variable (frame : Frame) (activation : Activation Word)

/-- The value of a term that is a single token. -/
def tokenValue (token : Token) (store : Store Word) : Option (Word × Store Word) :=
  match token.kind with
  | .integerConstant => do
    let number ← wordValue? token.text.toList
    some (machine.constant number, store)
  | .stringConstant => some (machine.stringValue token.stringValue store)
  | .keyword =>
    match token.text with
    | "true" => some (machine.complement (machine.constant 0), store)
    | "false" => some (machine.constant 0, store)
    | "null" => some (machine.constant 0, store)
    | "this" => some (activation.this, store)
    | _ => none
  | .identifier => do
    let declared ← frame.scope.resolve? token.text
    some (machine.variableValue activation store declared, store)
  | .symbol => none

mutual

/-- The value of an expression, a term or a call, and the memory it leaves behind. -/
def evaluate : Tree → Store Word → Option (Word × Store Word)
  | .node .expression (first :: later), store => do
    let (value, store) ← evaluate first store
    evaluateLater value later store
  | .node .term [.leaf token], store => machine.tokenValue frame activation token store
  | .node .term [call], store => evaluate call store
  | .node .term [.leaf symbol, operand], store => do
    let (value, store) ← evaluate operand store
    let value ← machine.unaryValue symbol.text value
    some (value, store)
  | .node .term [_, inner, _], store => evaluate inner store
  | .node .term [.leaf array, _, index, _], store => do
    let declared ← frame.scope.resolve? array.text
    let base := machine.variableValue activation store declared
    let (position, store) ← evaluate index store
    some (store.heap (machine.add base position), store)
  | .node .subroutineCall [.leaf name, _, .node .expressionList arguments, _], store => do
    let (values, store) ← evaluateEach arguments store
    some (machine.result s!"{frame.className}.{name.text}" (activation.this :: values) store)
  | .node .subroutineCall [.leaf context, _, .leaf name, _, .node .expressionList arguments, _],
      store =>
    match frame.scope.resolve? context.text with
    | some object => do
      let receiver := machine.variableValue activation store object
      let (values, store) ← evaluateEach arguments store
      some (machine.result s!"{object.type}.{name.text}" (receiver :: values) store)
    | none => do
      let (values, store) ← evaluateEach arguments store
      some (machine.result s!"{context.text}.{name.text}" values store)
  | _, _ => none

/-- The value of an expression from the value of its first terms and the symbols and terms behind
them. -/
def evaluateLater (left : Word) : List Tree → Store Word → Option (Word × Store Word)
  | [], store => some (left, store)
  | .leaf symbol :: right :: later, store => do
    let (right, store) ← evaluate right store
    let (value, store) ← machine.binaryValue symbol.text left right store
    evaluateLater value later store
  | _, _ => none

/-- The values of expressions in order. The commas between them are no expressions. -/
def evaluateEach : List Tree → Store Word → Option (List Word × Store Word)
  | [], store => some ([], store)
  | .leaf _ :: later, store => evaluateEach later store
  | expression :: later, store => do
    let (value, store) ← evaluate expression store
    let (values, store) ← evaluateEach later store
    some (value :: values, store)

end

variable {machine frame activation}

/-- A node among the parts of a list is evaluated before those behind it. -/
theorem evaluateEach_cons_of_rule {tree : Tree} {later : List Tree} {rule : Rule}
    {store : Store Word} (isRule : tree.rule? = some rule) :
    machine.evaluateEach frame activation (tree :: later) store =
      (machine.evaluate frame activation tree store).bind fun value =>
        (machine.evaluateEach frame activation later value.2).bind fun values =>
          some (value.1 :: values.1, values.2) := by
  cases tree with
  | leaf token => cases isRule
  | node found children => rfl

theorem evaluate_qualifiedCall {arguments : List Tree} (context name : String)
    (l₁ l₂ l₃ l₄ l₅ : Nat) (store : Store Word) :
    machine.evaluate frame activation (.node .subroutineCall [.identifier context l₁,
      .symbol "." l₂, .identifier name l₃, .symbol "(" l₄, .node .expressionList arguments,
      .symbol ")" l₅]) store =
    match frame.scope.resolve? context with
    | some object => (machine.evaluateEach frame activation arguments store).bind fun values =>
      some (machine.result s!"{object.type}.{name}"
        (machine.variableValue activation store object :: values.1) values.2)
    | none => (machine.evaluateEach frame activation arguments store).bind fun values =>
      some (machine.result s!"{context}.{name}" values.1 values.2) := by
  show (match frame.scope.resolve? context with
    | some object => _
    | none => _) = _
  cases frame.scope.resolve? context <;> rfl

variable (machine frame activation) [DecidableEq Word]

def setVariable (declared : Variable) (value : Word) (store : Store Word) :
    Activation Word × Store Word :=
  match declared.kind with
  | .static =>
    (activation, { store with statics := Function.update store.statics declared.index value })
  | .field =>
    (activation, store.setHeap (machine.offset activation.this declared.index) value)
  | .argument =>
    ({ activation with arguments := Function.update activation.arguments declared.index value },
      store)
  | .localVar =>
    ({ activation with locals := Function.update activation.locals declared.index value }, store)

/-- What an assignment makes of the memory and of the subroutine's own words. The array and the
index of an element come before the value that is assigned to it. -/
def evaluateLet : Tree → Store Word → Option (Activation Word × Store Word)
  | .node .letStatement [_, .leaf name, _, value, _], store => do
    let declared ← frame.scope.resolve? name.text
    let (value, store) ← machine.evaluate frame activation value store
    some (machine.setVariable activation declared value store)
  | .node .letStatement [_, .leaf array, _, index, _, _, value, _], store => do
    let declared ← frame.scope.resolve? array.text
    let base := machine.variableValue activation store declared
    let (position, store) ← machine.evaluate frame activation index store
    let (value, store) ← machine.evaluate frame activation value store
    some (activation, store.setHeap (machine.add base position) value)
  | _, _ => none

end StackMachine

end JackCompiler
