import JackCompiler.Program.Expression

/-!
# Statements

A statement as the compiler sees it, and how it is read from a syntax tree. As with expressions, a
tree of the wrong shape is read with its errors in place.
-/

set_option autoImplicit false

namespace JackCompiler

/-- A statement. -/
inductive Statement where
  | assign (name : String) (value : Expression)
  | assignElement (array : String) (index value : Expression)
  /-- Runs its block if the condition holds. -/
  | when (condition : Expression) (block : List Statement)
  /-- Runs the first block if the condition holds and the second one otherwise. -/
  | choose (condition : Expression) (yes no : List Statement)
  /-- Repeats its block as long as the condition holds. -/
  | loop (condition : Expression) (block : List Statement)
  /-- Makes a call and drops its value. -/
  | perform (call : Expression)
  /-- Leaves the subroutine, with a value unless there is none. -/
  | leave (value : Option Expression)
  | flaw (error : CompileError)

namespace Statement

/-- A statement that could be read, or the error in its place. -/
def orFlaw : Except CompileError Statement → Statement
  | .ok statement => statement
  | .error error => .flaw error

/-- What is read from a tree: the statement it stands for, and the statements that its parts stand
for. -/
structure Reading where
  statement : Statement
  block : List Statement

/-- The expression at a position of a statement. -/
def expressionAt (tree : Tree) (index : Nat) : Expression :=
  Expression.orFlaw ((tree.group index .expression).map Expression.ofTree)

/-- The block at a position of a statement. -/
def blockAt (tree : Tree) (readings : List Reading) (index : Nat) :
    Except CompileError (List Statement) := do
  let _ ← tree.group index .statements
  let reading ← partAt tree.construct readings index
  pure reading.block

/-- An assignment, from the parts of its node. -/
def letOf (tree : Tree) : Except CompileError Statement := do
  let target ← tree.terminal 1
  let third ← tree.child 2
  if third.isSymbol "[" then
    pure (assignElement target.text (expressionAt tree 3) (expressionAt tree 6))
  else pure (assign target.text (expressionAt tree 3))

/-- A conditional, from the parts of its node. -/
def ifOf (tree : Tree) (readings : List Reading) : Except CompileError Statement := do
  let condition ← tree.group 2 .expression
  let yes ← blockAt tree readings 5
  match tree.children[7]? with
  | none => pure (when (.ofTree condition) yes)
  | some part =>
    if part.isToken .keyword "else" then
      let no ← blockAt tree readings 9
      pure (choose (.ofTree condition) yes no)
    else .error (.malformed (.rule .ifStatement) .noElse)

/-- A loop, from the parts of its node. -/
def whileOf (tree : Tree) (readings : List Reading) : Except CompileError Statement := do
  let condition ← tree.group 2 .expression
  let block ← blockAt tree readings 5
  pure (loop (.ofTree condition) block)

/-- A call for its effect, from the parts of its node. -/
def doOf (tree : Tree) : Except CompileError Statement := do
  let call ← tree.group 1 .subroutineCall
  pure (perform (.ofTree call))

/-- A return, from the parts of its node. -/
def returnOf (tree : Tree) : Except CompileError Statement := do
  let value ← tree.child 1
  pure (leave (if value.isRule .expression then some (.ofTree value) else none))

/-- The statement that a tree stands for, from the readings of its parts. -/
def assemble (tree : Tree) (readings : List Reading) : Statement :=
  orFlaw <|
    match tree.rule? with
    | some .letStatement => letOf tree
    | some .ifStatement => ifOf tree readings
    | some .whileStatement => whileOf tree readings
    | some .doStatement => doOf tree
    | some .returnStatement => returnOf tree
    | _ => .error (.malformed (.rule .statements) .noStatement)

mutual

/-- What is read from a tree. -/
def read : Tree → Reading
  | .leaf token => ⟨assemble (.leaf token) [], []⟩
  | .node rule children =>
    let readings := readAll children
    ⟨assemble (.node rule children) readings, readings.map (·.statement)⟩

/-- What is read from consecutive trees. -/
def readAll : List Tree → List Reading
  | [] => []
  | tree :: later => read tree :: readAll later

end

/-- The statement that a tree stands for. -/
def ofTree (tree : Tree) : Statement := (read tree).statement

/-- The statements that the parts of a tree stand for. -/
def blockOfTree (tree : Tree) : List Statement := (read tree).block

@[simp] theorem readAll_eq_map (trees : List Tree) : readAll trees = trees.map read := by
  induction trees with
  | nil => rfl
  | cons tree later ih => simp [readAll, ih]

end Statement

end JackCompiler
