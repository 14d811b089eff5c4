import Mathlib.Algebra.GroupWithZero.Nat
import JackCompiler.Proofs.Program.Induction
import JackCompiler.Proofs.Program.Shape

/-!
# How often a program branches

The labels that a piece of program needs: one for a conditional with one block, three for a
conditional with two and two for a loop, at any depth. On a syntax tree this is a count of nodes,
and for a derivation tree both counts are the same (`Tree.Derivation.labelCountRead_eq`).
-/

set_option autoImplicit false

namespace JackCompiler

namespace Statement

mutual

/-- How many labels a statement needs. -/
def labelCount : Statement → Nat
  | when _ block => 1 + labelCountOfBlock block
  | choose _ yes no => 3 + labelCountOfBlock yes + labelCountOfBlock no
  | loop _ block => 2 + labelCountOfBlock block
  | assign _ _ | assignElement _ _ _ | perform _ | leave _ | flaw _ => 0

/-- How many labels a block needs. -/
def labelCountOfBlock : List Statement → Nat
  | [] => 0
  | statement :: later => statement.labelCount + labelCountOfBlock later

end

theorem labelCountOfBlock_eq_sum (block : List Statement) :
    labelCountOfBlock block = (block.map labelCount).sum := by
  induction block with
  | nil => rfl
  | cons statement later ih => rw [labelCountOfBlock, ih, List.map_cons, List.sum_cons]

end Statement

namespace Tree

mutual

/-- How many nodes of a tree are of some sort, at any depth. -/
def count (sort : Tree → Bool) : Tree → Nat
  | leaf _ => 0
  | node rule children => (if sort (node rule children) then 1 else 0) + countOfList sort children

/-- How many nodes of consecutive trees are of some sort, at any depth. -/
def countOfList (sort : Tree → Bool) : List Tree → Nat
  | [] => 0
  | tree :: later => tree.count sort + countOfList sort later

end

/-- Whether a tree has an `else` among its parts. -/
def hasElse (tree : Tree) : Bool := tree.children.any (·.isToken .keyword "else")

/-- Whether a tree is a conditional with one block. -/
def isIfThen (tree : Tree) : Bool := tree.isRule .ifStatement && !tree.hasElse

/-- Whether a tree is a conditional with two blocks. -/
def isIfElse (tree : Tree) : Bool := tree.isRule .ifStatement && tree.hasElse

/-- Whether a tree is a loop. -/
def isWhile (tree : Tree) : Bool := tree.isRule .whileStatement

/-- How many labels the statements in a tree need. -/
def labelCount (tree : Tree) : Nat :=
  tree.count isIfThen + 3 * tree.count isIfElse + 2 * tree.count isWhile

/-- How many labels the statement of a node needs for itself. -/
def ownLabelCount (tree : Tree) : Nat :=
  (if tree.isIfThen then 1 else 0) + 3 * (if tree.isIfElse then 1 else 0) +
    2 * (if tree.isWhile then 1 else 0)

theorem countOfList_eq_sum (sort : Tree → Bool) (trees : List Tree) :
    countOfList sort trees = (trees.map (count sort)).sum := by
  induction trees with
  | nil => rfl
  | cons tree later ih => rw [countOfList, ih, List.map_cons, List.sum_cons]

/-- The labels of a node are its own and those of its parts. -/
theorem labelCount_node (rule : Rule) (children : List Tree) :
    (node rule children).labelCount =
      (node rule children).ownLabelCount + (children.map labelCount).sum := by
  have parts : (children.map labelCount).sum = (children.map (count isIfThen)).sum +
      3 * (children.map (count isIfElse)).sum + 2 * (children.map (count isWhile)).sum := by
    induction children with
    | nil => rfl
    | cons part later ih =>
      simp only [List.map_cons, List.sum_cons, labelCount] at ih ⊢
      omega
  rw [parts, labelCount, count, count, count, countOfList_eq_sum, countOfList_eq_sum,
    countOfList_eq_sum, ownLabelCount]
  omega

/-- Only conditionals and loops have labels of their own. -/
theorem labelCount_node_of_plain {rule : Rule} (noIf : rule ≠ .ifStatement)
    (noWhile : rule ≠ .whileStatement) (children : List Tree) :
    (node rule children).labelCount = (children.map labelCount).sum := by
  have own : (node rule children).ownLabelCount = 0 := by
    simp [ownLabelCount, isIfThen, isIfElse, isWhile, isRule, rule?, noIf, noWhile]
  rw [labelCount_node, own, Nat.zero_add]

@[simp] theorem labelCount_leaf (token : Token) : (leaf token).labelCount = 0 := rfl

theorem sum_labelCount_eq_zero {trees : List Tree} (each : ∀ tree ∈ trees, tree.labelCount = 0) :
    (trees.map labelCount).sum = 0 := by
  induction trees with
  | nil => rfl
  | cons tree later ih =>
    rw [List.forall_mem_cons] at each
    rw [List.map_cons, List.sum_cons, each.1, ih each.2]

theorem IsType.labelCount_eq {tree : Tree} (isType : IsType tree) : tree.labelCount = 0 := by
  cases isType <;> rfl

theorem IsResult.labelCount_eq {tree : Tree} (isResult : IsResult tree) : tree.labelCount = 0 := by
  cases isResult with
  | void => rfl
  | type isType => exact isType.labelCount_eq

theorem FurtherNames.labelCount_eq {trees : List Tree} (names : FurtherNames trees) :
    (trees.map labelCount).sum = 0 := by
  induction names with
  | nil => rfl
  | cons _ _ _ _ ih => simpa using ih

theorem FurtherParameters.labelCount_eq {trees : List Tree} (parameters : FurtherParameters trees) :
    (trees.map labelCount).sum = 0 := by
  induction parameters with
  | nil => rfl
  | cons _ isType _ _ _ ih => simpa [isType.labelCount_eq] using ih

/-- A chain needs no labels if none of its parts does. -/
theorem labelCount_chain {first : Tree} {later : List (String × Nat × Tree)}
    (firstEq : first.labelCount = 0) (laterEq : ∀ part ∈ later, part.2.2.labelCount = 0) :
    ((chain first later).map labelCount).sum = 0 := by
  apply sum_labelCount_eq_zero
  intro tree among
  rcases List.mem_cons.mp among with rfl | among
  · exact firstEq
  · obtain ⟨part, inside, among⟩ := List.mem_flatMap.mp among
    simp only [List.mem_cons, List.not_mem_nil, or_false] at among
    rcases among with rfl | rfl
    · rfl
    · exact laterEq part inside

section Forms

variable {condition yes no block : List Tree}

theorem ownLabelCount_if (children : List Tree) :
    (node .ifStatement children).ownLabelCount =
      if children.any (·.isToken .keyword "else") then 3 else 1 := by
  show (if (true && !children.any (·.isToken .keyword "else")) then 1 else 0) +
    3 * (if (true && children.any (·.isToken .keyword "else")) then 1 else 0) + 2 * 0 = _
  cases children.any (·.isToken .keyword "else") <;> rfl

theorem labelCount_ifThen (l₁ l₂ l₃ l₄ l₅ : Nat) :
    (node .ifStatement [keyword "if" l₁, symbol "(" l₂, node .expression condition, symbol ")" l₃,
      symbol "\x7b" l₄, node .statements yes, symbol "\x7d" l₅]).labelCount =
      1 + ((node .expression condition).labelCount + (node .statements yes).labelCount) := by
  rw [labelCount_node, ownLabelCount_if]
  simp [Token.is, isToken, token?]

theorem labelCount_ifElse (l₁ l₂ l₃ l₄ l₅ l₆ l₇ l₈ : Nat) :
    (node .ifStatement [keyword "if" l₁, symbol "(" l₂, node .expression condition, symbol ")" l₃,
      symbol "\x7b" l₄, node .statements yes, symbol "\x7d" l₅, keyword "else" l₆,
      symbol "\x7b" l₇, node .statements no, symbol "\x7d" l₈]).labelCount =
      3 + ((node .expression condition).labelCount + ((node .statements yes).labelCount +
        (node .statements no).labelCount)) := by
  rw [labelCount_node, ownLabelCount_if]
  simp [Token.is, isToken, token?]

theorem labelCount_whileStatement (l₁ l₂ l₃ l₄ l₅ : Nat) :
    (node .whileStatement [keyword "while" l₁, symbol "(" l₂, node .expression condition,
      symbol ")" l₃, symbol "\x7b" l₄, node .statements block, symbol "\x7d" l₅]).labelCount =
      2 + ((node .expression condition).labelCount + (node .statements block).labelCount) := by
  rw [labelCount_node]
  have own (children : List Tree) : (node .whileStatement children).ownLabelCount = 2 := rfl
  simp [own]

end Forms

/-- The labels of the program that is read from a tree. What is neither a statement nor made up of
statements needs none. -/
def labelCountRead (tree : Tree) : Nat :=
  match tree.rule? with
  | some .letStatement | some .ifStatement | some .whileStatement | some .doStatement
  | some .returnStatement => (Statement.ofTree tree).labelCount
  | some .statements => Statement.labelCountOfBlock (Statement.blockOfTree tree)
  | some .classDec | some .subroutineDec | some .subroutineBody => tree.labelCount
  | _ => 0

theorem labelCountRead_term {tree : Tree} (isTerm : tree.rule? = some .term) :
    tree.labelCountRead = 0 := by
  rw [labelCountRead, isTerm]

theorem labelCountRead_expression {tree : Tree} (isExpression : tree.rule? = some .expression) :
    tree.labelCountRead = 0 := by
  rw [labelCountRead, isExpression]

theorem labelCountRead_statement {tree : Tree} (isStatement : tree.IsStatement) :
    tree.labelCountRead = (Statement.ofTree tree).labelCount := by
  simp only [IsStatement, List.mem_cons, List.not_mem_nil, or_false] at isStatement
  rcases isStatement with is | is | is | is | is <;> rw [labelCountRead, is]

/-- What is read from a derivation tree needs as many labels as the tree does. -/
theorem Derivation.labelCountRead_eq {tree : Tree} (derives : tree.Derivation) :
    tree.labelCountRead = tree.labelCount := by
  induction derives with
  | classDec => rfl
  | subroutineDec => rfl
  | subroutineBody => rfl
  | classVarDec _ _ _ _ _ _ isType further =>
    rw [labelCount_node_of_plain (by decide) (by decide)]
    simp [labelCountRead, rule?, isType.labelCount_eq, further.labelCount_eq]
  | varDec _ _ _ _ isType further =>
    rw [labelCount_node_of_plain (by decide) (by decide)]
    simp [labelCountRead, rule?, isType.labelCount_eq, further.labelCount_eq]
  | noParameters => rfl
  | parameters _ _ isType further =>
    rw [labelCount_node_of_plain (by decide) (by decide)]
    simp [labelCountRead, rule?, isType.labelCount_eq, further.labelCount_eq]
  | @statements block areStatements _ ih =>
    have each : ∀ tree ∈ block, (Statement.ofTree tree).labelCount = tree.labelCount := by
      intro tree among
      rw [← ih tree among, labelCountRead_statement (areStatements tree among)]
    show Statement.labelCountOfBlock _ = _
    rw [Statement.blockOfTree_statements, Statement.labelCountOfBlock_eq_sum, List.map_map,
      labelCount_node_of_plain (by decide) (by decide)]
    exact congrArg List.sum (List.map_congr_left each)
  | letVariable _ _ _ _ _ _ ih =>
    rw [labelCount_node_of_plain (by decide) (by decide)]
    simp [← ih, labelCountRead, rule?, Statement.ofTree_letVariable, Statement.labelCount]
  | letElement _ _ _ _ _ _ _ _ _ ihIndex ihValue =>
    rw [labelCount_node_of_plain (by decide) (by decide)]
    simp [← ihIndex, ← ihValue, labelCountRead, rule?, Statement.ofTree_letElement,
      Statement.labelCount]
  | ifThen _ _ _ _ _ _ _ ihCondition ihYes =>
    show (Statement.ofTree _).labelCount = _
    rw [Statement.ofTree_ifThen, Statement.labelCount, labelCount_ifThen, ← ihCondition, ← ihYes,
      labelCountRead_expression rfl, Nat.zero_add]
    rfl
  | ifElse _ _ _ _ _ _ _ _ _ _ _ ihCondition ihYes ihNo =>
    show (Statement.ofTree _).labelCount = _
    rw [Statement.ofTree_ifElse, Statement.labelCount, labelCount_ifElse, ← ihCondition, ← ihYes,
      ← ihNo, labelCountRead_expression rfl, Nat.zero_add, Nat.add_assoc]
    rfl
  | whileStatement _ _ _ _ _ _ _ ihCondition ihBlock =>
    show (Statement.ofTree _).labelCount = _
    rw [Statement.ofTree_whileStatement, Statement.labelCount, labelCount_whileStatement,
      ← ihCondition, ← ihBlock, labelCountRead_expression rfl, Nat.zero_add]
    rfl
  | doStatement _ _ _ ih =>
    rw [labelCount_node_of_plain (by decide) (by decide)]
    simp [← ih, labelCountRead, rule?, Statement.ofTree_doStatement, Statement.labelCount]
  | returnNothing => rfl
  | returnValue _ _ _ ih =>
    rw [labelCount_node_of_plain (by decide) (by decide)]
    simp [← ih, labelCountRead, rule?, Statement.ofTree_returnValue, Statement.labelCount]
  | @expression first later firstIsTerm _ _ areTerms _ ihFirst ihLater =>
    have firstEq : first.labelCount = 0 := by
      rw [← ihFirst, labelCountRead_term firstIsTerm]
    have laterEq : ∀ part ∈ later, part.2.2.labelCount = 0 := by
      intro part among
      rw [← ihLater part among, labelCountRead_term (areTerms part among)]
    rw [labelCount_node_of_plain (by decide) (by decide), labelCount_chain firstEq laterEq]
    rfl
  | integer => rfl
  | string => rfl
  | constant => rfl
  | «variable» => rfl
  | element _ _ _ _ _ ih =>
    rw [labelCount_node_of_plain (by decide) (by decide)]
    simp [← ih, labelCountRead, rule?]
  | call _ ih =>
    rw [labelCount_node_of_plain (by decide) (by decide)]
    simp [← ih, labelCountRead, rule?]
  | parenthesized _ _ _ ih =>
    rw [labelCount_node_of_plain (by decide) (by decide)]
    simp [← ih, labelCountRead, rule?]
  | unary _ _ _ _ ih =>
    rw [labelCount_node_of_plain (by decide) (by decide)]
    simp [← ih, labelCountRead, rule?]
  | ownCall _ _ _ _ _ ih =>
    rw [labelCount_node_of_plain (by decide) (by decide)]
    simp [← ih, labelCountRead, rule?]
  | qualifiedCall _ _ _ _ _ _ _ _ ih =>
    rw [labelCount_node_of_plain (by decide) (by decide)]
    simp [← ih, labelCountRead, rule?]
  | noArguments => rfl
  | @arguments first later firstIsExpression _ _ areExpressions _ ihFirst ihLater =>
    have firstEq : first.labelCount = 0 := by
      rw [← ihFirst, labelCountRead_expression firstIsExpression]
    have laterEq : ∀ part ∈ later, part.2.2.labelCount = 0 := by
      intro part among
      rw [← ihLater part among, labelCountRead_expression (areExpressions part among)]
    rw [labelCount_node_of_plain (by decide) (by decide), labelCount_chain firstEq laterEq]
    rfl

end Tree

end JackCompiler
