import JackCompiler.CompileError

/-!
# Syntax trees

The tree mirrors the grammar: one node for each rule that was used, with its parts in source
order, and one leaf for each token. Later stages read the parts by position, and a tree of the
wrong shape answers with an error that names the place.
-/

set_option autoImplicit false

namespace JackCompiler

/-- A syntax tree. -/
inductive Tree where
  | leaf (token : Token)
  | node (rule : Rule) (children : List Tree)

/-- The part of a construct at a position. -/
def partAt {α : Type} (owner : Construct) (parts : List α) (index : Nat) :
    Except CompileError α :=
  match parts[index]? with
  | some part => .ok part
  | none => .error (.malformed owner (.missingChild index))

namespace Tree

/-- The rule of a node. -/
def rule? : Tree → Option Rule
  | leaf _ => none
  | node rule _ => some rule

/-- The token of a leaf. -/
def token? : Tree → Option Token
  | leaf token => some token
  | node _ _ => none

/-- The parts of a node; a leaf has none. -/
def children : Tree → List Tree
  | leaf _ => []
  | node _ children => children

/-- Whether a tree is a node of this rule. -/
def isRule (tree : Tree) (rule : Rule) : Bool := tree.rule? = some rule

/-- Whether a tree is a leaf with this class and this text. -/
def isToken (tree : Tree) (kind : TokenKind) (text : String) : Bool :=
  tree.token?.any fun token => token.is kind text

/-- Whether a tree is the leaf of this symbol. -/
def isSymbol (tree : Tree) (text : String) : Bool := tree.isToken .symbol text

/-- What an error calls a tree. -/
def construct : Tree → Construct
  | leaf token => .token token.text
  | node rule _ => .rule rule

/-- The parts that are nodes of a rule. -/
def groups (tree : Tree) (rule : Rule) : List Tree := tree.children.filter (·.isRule rule)

/-- The part at a position. -/
def child (tree : Tree) (index : Nat) : Except CompileError Tree :=
  partAt tree.construct tree.children index

/-- The token at a position. -/
def terminal (tree : Tree) (index : Nat) : Except CompileError Token := do
  let part ← tree.child index
  match part.token? with
  | some token => .ok token
  | none => .error (.malformed tree.construct (.childIsNoToken index))

/-- The part at a position, which must be a node of a rule. -/
def group (tree : Tree) (index : Nat) (rule : Rule) : Except CompileError Tree := do
  let part ← tree.child index
  if part.isRule rule then .ok part
  else .error (.malformed tree.construct (.childIsNot index rule))

/-- The tree itself, which must be a node of a rule. -/
def expect (tree : Tree) (rule : Rule) : Except CompileError Tree :=
  if tree.isRule rule then .ok tree
  else .error (.malformed (.rule rule) (.found tree.construct))

mutual

/-- The tokens of a tree, from left to right. -/
def tokens : Tree → List Token
  | leaf token => [token]
  | node _ children => tokensOfList children

/-- The tokens of consecutive trees, from left to right. -/
def tokensOfList : List Tree → List Token
  | [] => []
  | tree :: later => tree.tokens ++ tokensOfList later

end

end Tree

end JackCompiler
