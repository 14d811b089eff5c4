import JackCompiler.Program.Statement
import JackCompiler.Proofs.Syntax.Derivation

/-!
# What derivation trees stand for

The expression or statement that is read from a derivation tree, one equation for each form of a
production. A chain of terms is read from left to right (`Expression.ofTree_expression`), and the
arguments of a call are the expressions of its list in order (`Expression.arguments_read`).
-/

set_option autoImplicit false

namespace JackCompiler

open JackCompiler.Tree

/-! ## Parts by position -/

theorem partAt_eq {α : Type} {owner : Construct} {parts : List α} {index : Nat} {part : α}
    (h : parts[index]? = some part) : partAt owner parts index = .ok part := by
  rw [partAt, h]

theorem Tree.terminal_eq {tree : Tree} {index : Nat} {token : Token}
    (h : tree.children[index]? = some (.leaf token)) : tree.terminal index = .ok token := by
  rw [terminal, child, partAt_eq h]
  rfl

/-- The part at the position of a node of the rule that is asked for. -/
theorem Tree.group_eq {tree part : Tree} {index : Nat} {rule : Rule}
    (h : tree.children[index]? = some part) (isRule : part.rule? = some rule) :
    tree.group index rule = .ok part := by
  rw [group, child, partAt_eq h]
  show (if part.isRule rule then _ else _) = _
  rw [if_pos (by simp [Tree.isRule, isRule])]

/-! ## Expressions -/

namespace Expression

/-- The expression at the position of a node of the rule that is asked for. -/
theorem expressionAt_eq {tree part : Tree} {index : Nat} {rule : Rule}
    (h : tree.children[index]? = some part) (isRule : part.rule? = some rule) :
    expressionAt tree (tree.children.map read) index rule = ofTree part := by
  have reading : (tree.children.map read)[index]? = some (read part) := by
    rw [List.getElem?_map, h]
    rfl
  rw [expressionAt, readingAt, group_eq h isRule]
  show orFlaw (Except.map _ (partAt _ _ _)) = _
  rw [partAt_eq reading]
  rfl

/-- The further terms of a chain are combined with what stands before them, one after the other.
The induction is on the terms that are left; `done` holds the parts in front of them. -/
theorem operations_eq (done : List Tree) (later : List (String × Nat × Tree))
    (areTerms : ∀ part ∈ later, part.2.2.rule? = some .term) (left : Expression) (tree : Tree)
    (children : tree.children =
      done ++ later.flatMap fun part => [Tree.symbol part.1 part.2.1, part.2.2]) :
    operations tree (tree.children.map read) left done.length
      (later.flatMap fun part => [Tree.symbol part.1 part.2.1, part.2.2]) =
    later.foldl (fun left part =>
      .binary left (BinaryOperator.ofSymbol part.1) (ofTree part.2.2)) left := by
  induction later generalizing done left with
  | nil => rfl
  | cons part later ih =>
    rw [List.forall_mem_cons] at areTerms
    have operator : tree.terminal done.length = .ok ⟨.symbol, part.1, part.2.1⟩ := by
      apply terminal_eq
      simp [children]
    have operand : expressionAt tree (tree.children.map read) (done.length + 1) .term =
        ofTree part.2.2 := by
      refine expressionAt_eq ?_ areTerms.1
      simp [children]
    have further := ih (done ++ [Tree.symbol part.1 part.2.1, part.2.2]) areTerms.2
      (.binary left (BinaryOperator.ofSymbol part.1) (ofTree part.2.2))
      (by simpa using children)
    rw [List.length_append] at further
    simp only [List.flatMap_cons, List.cons_append, List.nil_append, operations, operator, operand]
    exact further

/-- A chain of terms is combined strictly from left to right. -/
theorem ofTree_expression (first : Tree) (later : List (String × Nat × Tree))
    (firstIsTerm : first.rule? = some .term)
    (areTerms : ∀ part ∈ later, part.2.2.rule? = some .term) :
    ofTree (.node .expression (chain first later)) =
      later.foldl (fun left part =>
        .binary left (BinaryOperator.ofSymbol part.1) (ofTree part.2.2)) (ofTree first) := by
  have front : expressionAt (.node .expression (chain first later))
      ((chain first later).map read) 0 .term = ofTree first :=
    @expressionAt_eq (.node .expression (chain first later)) first 0 .term rfl firstIsTerm
  rw [ofTree, read, readAll_eq_map]
  show operations _ _ (expressionAt _ _ 0 .term) 1 _ = _
  rw [front]
  exact operations_eq [first] later areTerms (ofTree first) (.node .expression _) rfl

theorem arguments_read_nil : (read (.node .expressionList [])).arguments = [] := rfl

/-- The arguments of a call are the expressions of its list, in order. -/
theorem arguments_read (first : Tree) (later : List (String × Nat × Tree))
    (firstIsExpression : first.rule? = some .expression)
    (areExpressions : ∀ part ∈ later, part.2.2.rule? = some .expression) :
    (read (.node .expressionList (chain first later))).arguments =
      ofTree first :: later.map fun part => ofTree part.2.2 := by
  have others : ((later.flatMap fun part => [Tree.symbol part.1 part.2.1, part.2.2]).zip
      ((later.flatMap fun part => [Tree.symbol part.1 part.2.1, part.2.2]).map read)).filterMap
        (fun part => if part.1.isRule .expression then some part.2.expression else none) =
      later.map fun part => ofTree part.2.2 := by
    induction later with
    | nil => rfl
    | cons part later ih =>
      rw [List.forall_mem_cons] at areExpressions
      have isExpression : part.2.2.isRule .expression = true := by
        simp [isRule, areExpressions.1]
      have isNone : (Tree.symbol part.1 part.2.1).isRule .expression = false := rfl
      simp [isExpression, isNone, ih areExpressions.2, ofTree]
  simp only [read, readAll_eq_map, chain, List.map_cons, List.zip_cons_cons, List.filterMap_cons]
  rw [others]
  simp [isRule, firstIsExpression, ofTree]

theorem ofTree_integer (text : String) (l : Nat) :
    ofTree (.node .term [.leaf ⟨.integerConstant, text, l⟩]) = ofInteger text := rfl

theorem ofTree_string (text : String) (l : Nat) :
    ofTree (.node .term [.leaf ⟨.stringConstant, text, l⟩]) =
      .string (Token.stringValue ⟨.stringConstant, text, l⟩) := rfl

theorem ofTree_constant (text : String) (l : Nat) :
    ofTree (.node .term [.keyword text l]) = ofKeyword text := rfl

theorem ofTree_variable (text : String) (l : Nat) :
    ofTree (.node .term [.identifier text l]) = .named text := rfl

theorem ofTree_element (text : String) (index : List Tree) (l₁ l₂ l₃ : Nat) :
    ofTree (.node .term [.identifier text l₁, .symbol "[" l₂, .node .expression index,
      .symbol "]" l₃]) = .element text (ofTree (.node .expression index)) := rfl

theorem ofTree_call (call : List Tree) :
    ofTree (.node .term [.node .subroutineCall call]) = ofTree (.node .subroutineCall call) := rfl

theorem ofTree_parenthesized (inner : List Tree) (l₁ l₂ : Nat) :
    ofTree (.node .term [.symbol "(" l₁, .node .expression inner, .symbol ")" l₂]) =
      ofTree (.node .expression inner) := rfl

theorem ofTree_unary (text : String) (operand : List Tree) (l : Nat) (h : text ∈ unarySymbols) :
    ofTree (.node .term [.symbol text l, .node .term operand]) =
      .unary (UnaryOperator.ofSymbol text) (ofTree (.node .term operand)) := by
  simp only [unarySymbols, List.mem_cons, List.not_mem_nil, or_false] at h
  rcases h with rfl | rfl <;> rfl

theorem ofTree_ownCall (name : String) (arguments : List Tree) (l₁ l₂ l₃ : Nat) :
    ofTree (.node .subroutineCall [.identifier name l₁, .symbol "(" l₂,
      .node .expressionList arguments, .symbol ")" l₃]) =
      .call (.own name) (read (.node .expressionList arguments)).arguments := rfl

theorem ofTree_qualifiedCall (context name : String) (arguments : List Tree)
    (l₁ l₂ l₃ l₄ l₅ : Nat) :
    ofTree (.node .subroutineCall [.identifier context l₁, .symbol "." l₂, .identifier name l₃,
      .symbol "(" l₄, .node .expressionList arguments, .symbol ")" l₅]) =
      .call (.qualified context name) (read (.node .expressionList arguments)).arguments := rfl

end Expression

/-! ## Statements -/

namespace Statement

variable {value index condition yes no block call : List Tree}

theorem ofTree_letVariable (text : String) (l₁ l₂ l₃ l₄ : Nat) :
    ofTree (.node .letStatement [.keyword "let" l₁, .identifier text l₂, .symbol "=" l₃,
      .node .expression value, .symbol ";" l₄]) =
      .assign text (.ofTree (.node .expression value)) := rfl

theorem ofTree_letElement (text : String) (l₁ l₂ l₃ l₄ l₅ l₆ : Nat) :
    ofTree (.node .letStatement [.keyword "let" l₁, .identifier text l₂, .symbol "[" l₃,
      .node .expression index, .symbol "]" l₄, .symbol "=" l₅, .node .expression value,
      .symbol ";" l₆]) =
      .assignElement text (.ofTree (.node .expression index))
        (.ofTree (.node .expression value)) := rfl

theorem ofTree_ifThen (l₁ l₂ l₃ l₄ l₅ : Nat) :
    ofTree (.node .ifStatement [.keyword "if" l₁, .symbol "(" l₂, .node .expression condition,
      .symbol ")" l₃, .symbol "\x7b" l₄, .node .statements yes, .symbol "\x7d" l₅]) =
      .when (.ofTree (.node .expression condition)) (blockOfTree (.node .statements yes)) := rfl

theorem ofTree_ifElse (l₁ l₂ l₃ l₄ l₅ l₆ l₇ l₈ : Nat) :
    ofTree (.node .ifStatement [.keyword "if" l₁, .symbol "(" l₂, .node .expression condition,
      .symbol ")" l₃, .symbol "\x7b" l₄, .node .statements yes, .symbol "\x7d" l₅,
      .keyword "else" l₆, .symbol "\x7b" l₇, .node .statements no, .symbol "\x7d" l₈]) =
      .choose (.ofTree (.node .expression condition)) (blockOfTree (.node .statements yes))
        (blockOfTree (.node .statements no)) := rfl

theorem ofTree_whileStatement (l₁ l₂ l₃ l₄ l₅ : Nat) :
    ofTree (.node .whileStatement [.keyword "while" l₁, .symbol "(" l₂,
      .node .expression condition, .symbol ")" l₃, .symbol "\x7b" l₄, .node .statements block,
      .symbol "\x7d" l₅]) =
      .loop (.ofTree (.node .expression condition)) (blockOfTree (.node .statements block)) := rfl

theorem ofTree_doStatement (l₁ l₂ : Nat) :
    ofTree (.node .doStatement [.keyword "do" l₁, .node .subroutineCall call, .symbol ";" l₂]) =
      .perform (.ofTree (.node .subroutineCall call)) := rfl

theorem ofTree_returnNothing (l₁ l₂ : Nat) :
    ofTree (.node .returnStatement [.keyword "return" l₁, .symbol ";" l₂]) = .leave none := rfl

theorem ofTree_returnValue (l₁ l₂ : Nat) :
    ofTree (.node .returnStatement [.keyword "return" l₁, .node .expression value,
      .symbol ";" l₂]) = .leave (some (.ofTree (.node .expression value))) := rfl

theorem blockOfTree_statements : blockOfTree (.node .statements block) = block.map ofTree := by
  rw [blockOfTree, read, readAll_eq_map, List.map_map]
  rfl

end Statement

end JackCompiler
