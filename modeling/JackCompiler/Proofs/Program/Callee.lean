import JackCompiler.Proofs.Program.Regular

/-!
# What a program calls

The callees of the calls in a piece of program, in source order: a call comes before the calls in
its arguments. The same list is read off a syntax tree, where each call is a node of its own. For a
derivation tree the two lists are equal (`Tree.Derivation.calleesRead_eq`), and the names in them
are identifiers of the tree.
-/

set_option autoImplicit false

namespace JackCompiler

/-- The names that a callee is made of. -/
def Callee.names : Callee → List String
  | own name => [name]
  | qualified context name => [context, name]

/-! ## Calls in programs -/

namespace Expression

mutual

/-- What an expression calls. -/
def callees : Expression → List Callee
  | integer _ | string _ | truth | zero | receiver | named _ | flaw _ => []
  | element _ index => index.callees
  | unary _ operand => operand.callees
  | binary left _ right => left.callees ++ right.callees
  | call callee arguments => callee :: calleesOfList arguments

/-- What consecutive expressions call. -/
def calleesOfList : List Expression → List Callee
  | [] => []
  | expression :: later => expression.callees ++ calleesOfList later

end

theorem calleesOfList_eq_flatMap (list : List Expression) :
    calleesOfList list = list.flatMap callees := by
  induction list with
  | nil => rfl
  | cons expression later ih => rw [calleesOfList, ih, List.flatMap_cons]

end Expression

namespace Statement

mutual

/-- What a statement calls. -/
def callees : Statement → List Callee
  | assign _ value => value.callees
  | assignElement _ index value => index.callees ++ value.callees
  | when condition block => condition.callees ++ calleesOfBlock block
  | choose condition yes no => condition.callees ++ calleesOfBlock yes ++ calleesOfBlock no
  | loop condition block => condition.callees ++ calleesOfBlock block
  | perform call => call.callees
  | leave (some value) => value.callees
  | leave none | flaw _ => []

/-- What a block calls. -/
def calleesOfBlock : List Statement → List Callee
  | [] => []
  | statement :: later => statement.callees ++ calleesOfBlock later

end

theorem calleesOfBlock_eq_flatMap (block : List Statement) :
    calleesOfBlock block = block.flatMap callees := by
  induction block with
  | nil => rfl
  | cons statement later ih => rw [calleesOfBlock, ih, List.flatMap_cons]

end Statement

/-! ## Calls in syntax trees -/

namespace Tree

/-- The callee of a node that is a call. It begins with a name, and with two names around a dot if
it is qualified. -/
def callee? : Rule → List Tree → Option Callee
  | .subroutineCall, .leaf ⟨.identifier, context, _⟩ :: _ :: .leaf ⟨.identifier, name, _⟩ :: _ =>
    some (.qualified context name)
  | .subroutineCall, .leaf ⟨.identifier, name, _⟩ :: _ => some (.own name)
  | _, _ => none

mutual

/-- What a tree calls. -/
def callees : Tree → List Callee
  | leaf _ => []
  | node rule children => (callee? rule children).toList ++ calleesOfList children

/-- What consecutive trees call. -/
def calleesOfList : List Tree → List Callee
  | [] => []
  | tree :: later => tree.callees ++ calleesOfList later

end

theorem calleesOfList_eq_flatMap (trees : List Tree) :
    calleesOfList trees = trees.flatMap callees := by
  induction trees with
  | nil => rfl
  | cons tree later ih => rw [calleesOfList, ih, List.flatMap_cons]

theorem callees_node (rule : Rule) (children : List Tree) :
    (node rule children).callees = (callee? rule children).toList ++ children.flatMap callees := by
  rw [callees, calleesOfList_eq_flatMap]

@[simp] theorem callees_leaf (token : Token) : (leaf token).callees = [] := rfl

/-- Only calls have a callee. -/
theorem callees_node_of_ne {rule : Rule} (other : rule ≠ .subroutineCall) (children : List Tree) :
    (node rule children).callees = children.flatMap callees := by
  have none : callee? rule children = none := by
    unfold callee?
    split
    · exact absurd rfl other
    · exact absurd rfl other
    · rfl
  rw [callees_node, none]
  rfl

/-- The symbols of a chain call nothing. -/
theorem callees_chain (first : Tree) (later : List (String × Nat × Tree)) :
    (chain first later).flatMap callees =
      first.callees ++ later.flatMap fun part => part.2.2.callees := by
  rw [chain, List.flatMap_cons, List.flatMap_assoc]
  simp

theorem IsType.callees_eq {tree : Tree} (isType : IsType tree) : tree.callees = [] := by
  cases isType <;> rfl

theorem FurtherNames.callees_eq {trees : List Tree} (names : FurtherNames trees) :
    trees.flatMap callees = [] := by
  induction names with
  | nil => rfl
  | cons _ _ _ _ ih => simp [ih]

theorem FurtherParameters.callees_eq {trees : List Tree} (parameters : FurtherParameters trees) :
    trees.flatMap callees = [] := by
  induction parameters with
  | nil => rfl
  | cons _ isType _ _ _ ih => simp [ih, isType.callees_eq]

/-- The names that a tree calls are identifiers in it. -/
theorem hasIdentifier_of_mem_callees {tree : Tree} {callee : Callee}
    (among : callee ∈ tree.callees) {name : String} (part : name ∈ callee.names) :
    tree.HasIdentifier name := by
  induction tree with
  | leaf token => cases among
  | node rule children ih =>
    rw [callees_node, List.mem_append] at among
    rcases among with here | inside
    · have listed : ∃ line, identifier name line ∈ children := by
        rw [Option.mem_toList] at here
        unfold callee? at here
        split at here
        · cases here
          simp only [Callee.names, List.mem_cons, List.not_mem_nil, or_false] at part
          rcases part with rfl | rfl
          · exact ⟨_, List.mem_cons_self⟩
          · exact ⟨_, List.mem_cons_of_mem _ (List.mem_cons_of_mem _ List.mem_cons_self)⟩
        · cases here
          obtain rfl := List.mem_singleton.mp part
          exact ⟨_, List.mem_cons_self⟩
        · cases here
      obtain ⟨line, listed⟩ := listed
      have own : (identifier name line).HasIdentifier name :=
        ⟨_, List.mem_singleton_self _, rfl, rfl⟩
      exact own.node listed
    · obtain ⟨child, listed, inside⟩ := List.mem_flatMap.mp inside
      exact (ih child listed inside).node listed

/-! ## Both lists agree on derivation trees -/

/-- What is called by the program that is read from a tree. Declarations call nothing. -/
def calleesRead (tree : Tree) : List Callee :=
  match tree.rule? with
  | some .expression | some .term | some .subroutineCall => (Expression.ofTree tree).callees
  | some .expressionList => Expression.calleesOfList (Expression.read tree).arguments
  | some .letStatement | some .ifStatement | some .whileStatement | some .doStatement
  | some .returnStatement => (Statement.ofTree tree).callees
  | some .statements => Statement.calleesOfBlock (Statement.blockOfTree tree)
  | some .classVarDec | some .varDec | some .parameterList => []
  | some .classDec | some .subroutineDec | some .subroutineBody | none => tree.callees

section Nodes

variable (children : List Tree)

@[simp] theorem calleesRead_node_expression : (node .expression children).calleesRead =
    (Expression.ofTree (node .expression children)).callees := rfl

@[simp] theorem calleesRead_node_term : (node .term children).calleesRead =
    (Expression.ofTree (node .term children)).callees := rfl

@[simp] theorem calleesRead_node_call : (node .subroutineCall children).calleesRead =
    (Expression.ofTree (node .subroutineCall children)).callees := rfl

@[simp] theorem calleesRead_node_arguments : (node .expressionList children).calleesRead =
    Expression.calleesOfList (Expression.read (node .expressionList children)).arguments := rfl

@[simp] theorem calleesRead_node_block : (node .statements children).calleesRead =
    Statement.calleesOfBlock (Statement.blockOfTree (node .statements children)) := rfl

end Nodes

theorem calleesRead_expression {tree : Tree} (isExpression : tree.rule? = some .expression) :
    tree.calleesRead = (Expression.ofTree tree).callees := by
  rw [calleesRead, isExpression]

theorem calleesRead_term {tree : Tree} (isTerm : tree.rule? = some .term) :
    tree.calleesRead = (Expression.ofTree tree).callees := by
  rw [calleesRead, isTerm]

theorem calleesRead_statement {tree : Tree} (isStatement : tree.IsStatement) :
    tree.calleesRead = (Statement.ofTree tree).callees := by
  simp only [IsStatement, List.mem_cons, List.not_mem_nil, or_false] at isStatement
  rcases isStatement with is | is | is | is | is <;> rw [calleesRead, is]

/-- A chain of operators calls what its terms do. -/
theorem callees_foldl (later : List (String × Nat × Tree)) (left : Expression) :
    (later.foldl (fun left part =>
      .binary left (BinaryOperator.ofSymbol part.1) (Expression.ofTree part.2.2)) left).callees =
      left.callees ++ later.flatMap fun part => (Expression.ofTree part.2.2).callees := by
  induction later generalizing left with
  | nil => simp
  | cons part later ih =>
    rw [List.foldl_cons, ih, Expression.callees, List.flatMap_cons, List.append_assoc]

theorem callees_ofInteger (text : String) : (Expression.ofInteger text).callees = [] := by
  rw [Expression.ofInteger]
  split <;> rfl

/-- What is read from a derivation tree calls what the tree calls. -/
theorem Derivation.calleesRead_eq {tree : Tree} (derives : tree.Derivation) :
    tree.calleesRead = tree.callees := by
  induction derives with
  | classDec => rfl
  | subroutineDec => rfl
  | subroutineBody => rfl
  | classVarDec _ _ _ _ _ _ isType further =>
    rw [callees_node_of_ne (by decide)]
    simp [calleesRead, rule?, isType.callees_eq, further.callees_eq]
  | varDec _ _ _ _ isType further =>
    rw [callees_node_of_ne (by decide)]
    simp [calleesRead, rule?, isType.callees_eq, further.callees_eq]
  | noParameters => rfl
  | parameters _ _ isType further =>
    rw [callees_node_of_ne (by decide)]
    simp [calleesRead, rule?, isType.callees_eq, further.callees_eq]
  | @statements block areStatements _ ih =>
    have each : ∀ tree ∈ block, (Statement.ofTree tree).callees = tree.callees := by
      intro tree among
      rw [← ih tree among, calleesRead_statement (areStatements tree among)]
    show Statement.calleesOfBlock _ = _
    rw [Statement.blockOfTree_statements, Statement.calleesOfBlock_eq_flatMap, List.flatMap_map,
      callees_node_of_ne (by decide)]
    exact congrArg List.flatten (List.map_congr_left each)
  | letVariable _ _ _ _ _ _ ih =>
    show (Statement.ofTree _).callees = _
    rw [Statement.ofTree_letVariable, Statement.callees, callees_node_of_ne (by decide)]
    simp [← ih]
  | letElement _ _ _ _ _ _ _ _ _ ihIndex ihValue =>
    show (Statement.ofTree _).callees = _
    rw [Statement.ofTree_letElement, Statement.callees, callees_node_of_ne (by decide)]
    simp [← ihIndex, ← ihValue]
  | ifThen _ _ _ _ _ _ _ ihCondition ihYes =>
    show (Statement.ofTree _).callees = _
    rw [Statement.ofTree_ifThen, Statement.callees, callees_node_of_ne (by decide)]
    simp [← ihCondition, ← ihYes]
  | ifElse _ _ _ _ _ _ _ _ _ _ _ ihCondition ihYes ihNo =>
    show (Statement.ofTree _).callees = _
    rw [Statement.ofTree_ifElse, Statement.callees, callees_node_of_ne (by decide)]
    simp [← ihCondition, ← ihYes, ← ihNo]
  | whileStatement _ _ _ _ _ _ _ ihCondition ihBlock =>
    show (Statement.ofTree _).callees = _
    rw [Statement.ofTree_whileStatement, Statement.callees, callees_node_of_ne (by decide)]
    simp [← ihCondition, ← ihBlock]
  | doStatement _ _ _ ih =>
    show (Statement.ofTree _).callees = _
    rw [Statement.ofTree_doStatement, Statement.callees, callees_node_of_ne (by decide)]
    simp [← ih]
  | returnNothing => rfl
  | returnValue _ _ _ ih =>
    show (Statement.ofTree _).callees = _
    rw [Statement.ofTree_returnValue, Statement.callees, callees_node_of_ne (by decide)]
    simp [← ih]
  | @expression first later firstIsTerm _ areOperators areTerms _ ihFirst ihLater =>
    have each : ∀ part ∈ later, (Expression.ofTree part.2.2).callees = part.2.2.callees := by
      intro part among
      rw [← ihLater part among, calleesRead_term (areTerms part among)]
    show (Expression.ofTree _).callees = _
    rw [Expression.ofTree_expression first later firstIsTerm areTerms, callees_foldl,
      ← calleesRead_term firstIsTerm, ihFirst, callees_node_of_ne (by decide), List.flatMap_def,
      List.map_congr_left each]
    exact (callees_chain first later).symm
  | integer text l =>
    show (Expression.ofTree _).callees = _
    rw [Expression.ofTree_integer, callees_ofInteger]
    rfl
  | string text l => rfl
  | constant text l isConstant =>
    have each : ∀ text ∈ constantKeywords, (Expression.ofKeyword text).callees = [] := by decide
    show (Expression.ofTree _).callees = _
    rw [Expression.ofTree_constant, each text isConstant]
    rfl
  | «variable» text l => rfl
  | element _ _ _ _ _ ih =>
    show (Expression.ofTree _).callees = _
    rw [Expression.ofTree_element, Expression.callees, callees_node_of_ne (by decide)]
    simp [← ih]
  | call _ ih =>
    show (Expression.ofTree _).callees = _
    rw [Expression.ofTree_call, callees_node_of_ne (by decide)]
    simp [← ih]
  | parenthesized _ _ _ ih =>
    show (Expression.ofTree _).callees = _
    rw [Expression.ofTree_parenthesized, callees_node_of_ne (by decide)]
    simp [← ih]
  | unary text l isOperator _ ih =>
    show (Expression.ofTree _).callees = _
    rw [Expression.ofTree_unary text _ l isOperator, Expression.callees,
      callees_node_of_ne (by decide)]
    simp [← ih]
  | ownCall _ _ _ _ _ ih =>
    show (Expression.ofTree _).callees = _
    rw [Expression.ofTree_ownCall, Expression.callees, callees_node]
    simp [← ih, callee?]
  | qualifiedCall _ _ _ _ _ _ _ _ ih =>
    show (Expression.ofTree _).callees = _
    rw [Expression.ofTree_qualifiedCall, Expression.callees, callees_node]
    simp [← ih, callee?]
  | noArguments => rfl
  | @arguments first later firstIsExpression _ _ areExpressions _ ihFirst ihLater =>
    have each : ∀ part ∈ later, (Expression.ofTree part.2.2).callees = part.2.2.callees := by
      intro part among
      rw [← ihLater part among, calleesRead_expression (areExpressions part among)]
    show Expression.calleesOfList _ = _
    rw [Expression.arguments_read first later firstIsExpression areExpressions,
      Expression.calleesOfList, Expression.calleesOfList_eq_flatMap, List.flatMap_map,
      ← calleesRead_expression firstIsExpression, ihFirst, callees_node_of_ne (by decide),
      List.flatMap_def, List.map_congr_left each]
    exact (callees_chain first later).symm

end Tree

end JackCompiler
