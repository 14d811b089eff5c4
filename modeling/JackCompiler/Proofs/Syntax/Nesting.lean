import JackCompiler.Proofs.Syntax.Combinator
import JackCompiler.Proofs.Syntax.Derivation

/-!
# How deep derivation trees are nested

The parser is built for a given depth of nested rules. A derivation tree is nested at most eight
times as deep as it has tokens, but for a constant (`Tree.Derivation.nesting_le`), so the depth
that the parser allows itself never runs out on a tree it should build.
-/

set_option autoImplicit false

namespace JackCompiler

namespace Tree

mutual

/-- How deep the nodes of a tree are nested. -/
def nesting : Tree → Nat
  | leaf _ => 0
  | node _ children => nestingOfList children + 1

/-- How deep the nodes of consecutive trees are nested. -/
def nestingOfList : List Tree → Nat
  | [] => 0
  | tree :: later => max (nesting tree) (nestingOfList later)

end

@[simp] theorem nesting_leaf (token : Token) : (leaf token).nesting = 0 := rfl

@[simp] theorem nesting_node (rule : Rule) (children : List Tree) :
    (node rule children).nesting = nestingOfList children + 1 := rfl

@[simp] theorem nestingOfList_nil : nestingOfList [] = 0 := rfl

@[simp] theorem nestingOfList_cons (tree : Tree) (later : List Tree) :
    nestingOfList (tree :: later) = max tree.nesting (nestingOfList later) := rfl

@[simp] theorem nestingOfList_append (first second : List Tree) :
    nestingOfList (first ++ second) = max (nestingOfList first) (nestingOfList second) := by
  induction first with
  | nil => simp
  | cons tree later ih => simp [ih, Nat.max_assoc]

/-- Each of some trees is nested no deeper than all of them. -/
theorem nesting_le_nestingOfList {tree : Tree} {trees : List Tree} (among : tree ∈ trees) :
    tree.nesting ≤ nestingOfList trees := by
  induction trees with
  | nil => simp at among
  | cons first later ih =>
    rw [nestingOfList_cons]
    rcases List.mem_cons.mp among with rfl | among
    · exact Nat.le_max_left _ _
    · exact Nat.le_trans (ih among) (Nat.le_max_right _ _)

/-- What a construct leaves of the bound `Derivation.nesting_le` to the constructs around it. -/
def reserve (tree : Tree) : Nat :=
  match tree.rule? with
  | some .parameterList | some .statements | some .expressionList => 1
  | some .letStatement | some .ifStatement | some .whileStatement | some .doStatement
  | some .returnStatement | some .expression => 2
  | some .term => 3
  | some .subroutineCall => 4
  | _ => 0

theorem reserve_eq {tree : Tree} {rule : Rule} (isRule : tree.rule? = some rule) :
    tree.reserve = (node rule []).reserve := by
  rw [reserve, isRule]
  rfl

theorem IsStatement.reserve_eq {tree : Tree} (isStatement : tree.IsStatement) :
    tree.reserve = 2 := by
  simp only [IsStatement, List.mem_cons, List.not_mem_nil, or_false] at isStatement
  rcases isStatement with isRule | isRule | isRule | isRule | isRule <;>
    rw [reserve, isRule]

theorem IsType.nesting_eq {tree : Tree} (isType : IsType tree) : tree.nesting = 0 := by
  cases isType <;> rfl

theorem IsResult.nesting_eq {tree : Tree} (isResult : IsResult tree) : tree.nesting = 0 := by
  cases isResult with
  | void line => rfl
  | type isType => exact isType.nesting_eq

theorem FurtherNames.nesting_eq {trees : List Tree} (names : FurtherNames trees) :
    nestingOfList trees = 0 := by
  induction names with
  | nil => rfl
  | cons comma text line names ih => simp [ih]

theorem FurtherParameters.nesting_eq {trees : List Tree} (parameters : FurtherParameters trees) :
    nestingOfList trees = 0 := by
  induction parameters with
  | nil => rfl
  | cons comma isType text line parameters ih => simp [isType.nesting_eq, ih]

/-- Consecutive trees keep a bound that each of them keeps. -/
theorem nestingOfList_le {trees : List Tree} {reserved : Nat} (small : reserved ≤ 2)
    (h : ∀ tree ∈ trees, tree.nesting + reserved ≤ 8 * tree.tokens.length + 2) :
    nestingOfList trees + reserved ≤ 8 * (tokensOfList trees).length + 2 := by
  induction trees with
  | nil => simpa using small
  | cons tree later ih =>
    rw [List.forall_mem_cons] at h
    have rest := ih h.2
    rw [nestingOfList_cons, tokensOfList_cons, List.length_append]
    omega

/-- A chain keeps a bound that each of its parts keeps. -/
theorem nesting_chain_le {first : Tree} {later : List (String × Nat × Tree)} {reserved : Nat}
    (large : 2 ≤ reserved) (hfirst : first.nesting + reserved ≤ 8 * first.tokens.length + 2)
    (h : ∀ part ∈ later, part.2.2.nesting + reserved ≤ 8 * part.2.2.tokens.length + 2) :
    nestingOfList (chain first later) + reserved ≤
      8 * (tokensOfList (chain first later)).length + 2 := by
  have others : nestingOfList (later.flatMap fun part => [symbol part.1 part.2.1, part.2.2]) ≤
      8 * (tokensOfList (later.flatMap fun part => [symbol part.1 part.2.1, part.2.2])).length := by
    induction later with
    | nil => simp
    | cons part later ih =>
      rw [List.forall_mem_cons] at h
      have rest := ih h.2
      have one := h.1
      simp only [List.flatMap_cons, nestingOfList_append, nestingOfList_cons, nestingOfList_nil,
        nesting_leaf, tokensOfList_append, tokensOfList_cons, tokensOfList_nil, tokens_leaf,
        List.length_append, List.length_cons, List.length_nil, Nat.max_le]
      omega
  rw [chain, nestingOfList_cons, tokensOfList_cons, List.length_append]
  omega

/-- A derivation tree is nested at most eight times as deep as it has tokens, but for a constant. -/
theorem Derivation.nesting_le {tree : Tree} (derives : tree.Derivation) :
    tree.nesting + tree.reserve ≤ 8 * tree.tokens.length + 2 := by
  induction derives with
  | classDec text l₁ l₂ l₃ l₄ areVariables areSubroutines _ _ variablesIh subroutinesIh =>
    have vars := nestingOfList_le (Nat.zero_le 2) fun tree among => by
      have one := variablesIh tree among
      omega
    have subs := nestingOfList_le (Nat.zero_le 2) fun tree among => by
      have one := subroutinesIh tree among
      omega
    simp only [reserve, rule?, nesting_node, tokens_node, nestingOfList_append, nestingOfList_cons,
      nestingOfList_nil, nesting_leaf, tokensOfList_append, tokensOfList_cons, tokensOfList_nil,
      tokens_leaf, List.length_append, List.length_cons, List.length_nil]
    omega
  | classVarDec kind text l₁ l₂ l₃ isKind isType further =>
    simp [reserve, rule?, isType.nesting_eq, further.nesting_eq]
  | subroutineDec kind text l₁ l₂ l₃ l₄ isKind isResult _ _ parametersIh bodyIh =>
    have leafy := isResult.nesting_eq
    simp only [reserve, rule?, nesting_node, tokens_node, nestingOfList_cons, nestingOfList_nil,
      nesting_leaf, tokensOfList_cons, tokensOfList_nil, tokens_leaf, List.length_append,
      List.length_cons, List.length_nil] at *
    omega
  | noParameters => simp [reserve, rule?]
  | parameters text l isType further =>
    simp [reserve, rule?, isType.nesting_eq, further.nesting_eq]
  | subroutineBody l₁ l₂ areVariables _ _ variablesIh blockIh =>
    have vars := nestingOfList_le (Nat.zero_le 2) fun tree among => by
      have one := variablesIh tree among
      omega
    simp only [reserve, rule?, nesting_node, tokens_node, nestingOfList_append, nestingOfList_cons,
      nestingOfList_nil, nesting_leaf, tokensOfList_append, tokensOfList_cons, tokensOfList_nil,
      tokens_leaf, List.length_append, List.length_cons, List.length_nil] at *
    omega
  | varDec text l₁ l₂ l₃ isType further =>
    simp [reserve, rule?, isType.nesting_eq, further.nesting_eq]
  | statements areStatements _ ih =>
    have block := nestingOfList_le (Nat.le_refl 2) fun tree among => by
      have one := ih tree among
      rwa [(areStatements tree among).reserve_eq] at one
    simp only [reserve, rule?, nesting_node, tokens_node]
    omega
  | expression firstIsTerm _ _ areTerms _ firstIh ih =>
    have terms := nesting_chain_le (by decide) (reserve_eq firstIsTerm ▸ firstIh)
      fun part among => reserve_eq (areTerms part among) ▸ ih part among
    simp only [reserve, rule?, nesting_node, tokens_node] at terms ⊢
    omega
  | arguments firstIsExpression _ _ areExpressions _ firstIh ih =>
    have expressions := nesting_chain_le (by decide) (reserve_eq firstIsExpression ▸ firstIh)
      fun part among => reserve_eq (areExpressions part among) ▸ ih part among
    simp only [reserve, rule?, nesting_node, tokens_node] at expressions ⊢
    omega
  | _ =>
    simp only [reserve, rule?, nesting_node, tokens_node, nestingOfList_cons, nestingOfList_nil,
      nesting_leaf, tokensOfList_cons, tokensOfList_nil, tokens_leaf, List.length_append,
      List.length_cons, List.length_nil] at *
    omega

end Tree

end JackCompiler
