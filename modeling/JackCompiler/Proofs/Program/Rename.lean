import JackCompiler.Proofs.Program.Regular

/-!
# Other names for variables

The variables of a piece of program under other names, with the names of classes and subroutines
left alone. A name in front of the dot of a call counts as a variable, since only its scope tells
whether it is one. The same is done to a syntax tree, where variables stand at fixed positions in
the nodes of some rules (`Tree.renameAt`). These are the positions at which a tree mentions
variables (`Tree.mentions_renameVariables`), and what is read from a derivation tree with other
names is what is read from the tree, with other names (`Tree.Derivation.readsRenamed`).
-/

set_option autoImplicit false

namespace JackCompiler

/-! ## In programs -/

/-- A callee with its context under another name. -/
def Callee.rename (f : String → String) : Callee → Callee
  | own name => own name
  | qualified context name => qualified (f context) name

namespace Expression

mutual

/-- An expression with its variables under other names. -/
def rename (f : String → String) : Expression → Expression
  | integer value => integer value
  | string value => string value
  | truth => truth
  | zero => zero
  | receiver => receiver
  | named name => named (f name)
  | element array index => element (f array) (index.rename f)
  | unary operator operand => unary operator (operand.rename f)
  | binary left operator right => binary (left.rename f) operator (right.rename f)
  | call callee arguments => call (callee.rename f) (renameOfList f arguments)
  | flaw error => flaw error

/-- Consecutive expressions with their variables under other names. -/
def renameOfList (f : String → String) : List Expression → List Expression
  | [] => []
  | expression :: later => expression.rename f :: renameOfList f later

end

theorem renameOfList_eq_map (f : String → String) (list : List Expression) :
    renameOfList f list = list.map (rename f) := by
  induction list with
  | nil => rfl
  | cons expression later ih => rw [renameOfList, ih, List.map_cons]

end Expression

namespace Statement

mutual

/-- A statement with its variables under other names. -/
def rename (f : String → String) : Statement → Statement
  | assign name value => assign (f name) (value.rename f)
  | assignElement array index value => assignElement (f array) (index.rename f) (value.rename f)
  | when condition block => when (condition.rename f) (renameOfBlock f block)
  | choose condition yes no =>
    choose (condition.rename f) (renameOfBlock f yes) (renameOfBlock f no)
  | loop condition block => loop (condition.rename f) (renameOfBlock f block)
  | perform call => perform (call.rename f)
  | leave value => leave (value.map (·.rename f))
  | flaw error => flaw error

/-- A block with its variables under other names. -/
def renameOfBlock (f : String → String) : List Statement → List Statement
  | [] => []
  | statement :: later => statement.rename f :: renameOfBlock f later

end

theorem renameOfBlock_eq_map (f : String → String) (block : List Statement) :
    renameOfBlock f block = block.map (rename f) := by
  induction block with
  | nil => rfl
  | cons statement later ih => rw [renameOfBlock, ih, List.map_cons]

end Statement

/-- A declaration of other names. -/
def Declaration.rename (f : String → String) (declaration : Declaration) : Declaration :=
  { declaration with names := declaration.names.map f }

/-- A parameter under another name. -/
def Parameter.rename (f : String → String) (parameter : Parameter) : Parameter :=
  { parameter with name := f parameter.name }

/-- A part of a body with its variables under other names. -/
def BodyPart.rename (f : String → String) : BodyPart → BodyPart
  | declare declaration => declare (declaration.rename f)
  | statements block => statements (Statement.renameOfBlock f block)
  | flaw error => flaw error

/-- A subroutine with its parameters and the variables in its body under other names. -/
def Subroutine.rename (f : String → String) (subroutine : Subroutine) : Subroutine where
  kind := subroutine.kind
  parameters := subroutine.parameters.map (Except.map (·.rename f))
  body := subroutine.body.map (·.rename f)

/-- A mention of a variable, or of what may be one, under another name. -/
def Mention.rename (f : String → String) : Mention → Mention
  | .variable name => .variable (f name)
  | .context name => .context (f name)
  | .text value => .text value
  | .flaw error => .flaw error

/-! ## In syntax trees -/

/-- An identifier under another name. Other tokens stay. -/
def Token.rename (f : String → String) (token : Token) : Token :=
  if token.kind = .identifier then { token with text := f token.text } else token

namespace Tree

/-- A token under another name. -/
def renameLeaf (f : String → String) : Tree → Tree
  | leaf token => leaf (token.rename f)
  | node rule children => node rule children

/-- Types and names in turn, with commas between them, and the names replaced. -/
def renameParameters (f : String → String) : List Tree → List Tree
  | type :: name :: comma :: later =>
    type :: name.renameLeaf f :: comma :: renameParameters f later
  | [type, name] => [type, name.renameLeaf f]
  | parts => parts

/-- The parts of a node with its own variables under other names: the names behind the type of a
declaration, the names of parameters, the target of an assignment, the identifier at the beginning
of a term and the one in front of the dot of a call. -/
def renameAt (f : String → String) : Rule → List Tree → List Tree
  | .varDec, keyword :: type :: names => keyword :: type :: names.map (renameLeaf f)
  | .parameterList, parts => renameParameters f parts
  | .letStatement, keyword :: target :: later => keyword :: target.renameLeaf f :: later
  | .term, first :: later => first.renameLeaf f :: later
  | .subroutineCall, context :: dot :: later =>
    (if dot.isSymbol "." then context.renameLeaf f else context) :: dot :: later
  | _, parts => parts

mutual

/-- A tree with its variables under other names. -/
def renameVariables (f : String → String) : Tree → Tree
  | leaf token => leaf token
  | node rule children => node rule (renameAt f rule (renameVariablesOfList f children))

/-- Consecutive trees with their variables under other names. -/
def renameVariablesOfList (f : String → String) : List Tree → List Tree
  | [] => []
  | tree :: later => tree.renameVariables f :: renameVariablesOfList f later

end

variable {f : String → String}

theorem renameVariablesOfList_eq_map (trees : List Tree) :
    renameVariablesOfList f trees = trees.map (renameVariables f) := by
  induction trees with
  | nil => rfl
  | cons tree later ih => rw [renameVariablesOfList, ih, List.map_cons]

theorem renameVariables_node (rule : Rule) (children : List Tree) :
    (node rule children).renameVariables f =
      node rule (renameAt f rule (children.map (renameVariables f))) := by
  rw [renameVariables, renameVariablesOfList_eq_map]

@[simp] theorem renameVariables_leaf (token : Token) :
    (leaf token).renameVariables f = leaf token := rfl

@[simp] theorem rule?_renameVariables (tree : Tree) :
    (tree.renameVariables f).rule? = tree.rule? := by
  cases tree <;> rfl

@[simp] theorem renameLeaf_identifier (text : String) (line : Nat) :
    (identifier text line).renameLeaf f = identifier (f text) line := rfl

@[simp] theorem renameLeaf_symbol (text : String) (line : Nat) :
    (symbol text line).renameLeaf f = symbol text line := rfl

/-- A chain stays a chain. -/
theorem map_renameVariables_chain (first : Tree) (later : List (String × Nat × Tree)) :
    (chain first later).map (renameVariables f) = chain (first.renameVariables f)
      (later.map fun part => (part.1, part.2.1, part.2.2.renameVariables f)) := by
  simp [chain, List.map_flatMap, List.flatMap_map]

theorem forall_rule?_renamed {later : List (String × Nat × Tree)} {rule : Rule}
    (areOf : ∀ part ∈ later, part.2.2.rule? = some rule) :
    ∀ part ∈ later.map fun part => (part.1, part.2.1, part.2.2.renameVariables f),
      part.2.2.rule? = some rule :=
  List.forall_mem_map.mpr fun part among => (rule?_renameVariables _).trans (areOf part among)

@[simp] theorem isSymbol_renameVariables (tree : Tree) (text : String) :
    (tree.renameVariables f).isSymbol text = tree.isSymbol text := by
  cases tree <;> rfl

/-! ## Mentions -/

/-- Identifiers mention nothing by themselves. -/
@[simp] theorem mentions_renameLeaf (tree : Tree) :
    (tree.renameLeaf f).mentions = tree.mentions := by
  cases tree with
  | node rule children => rfl
  | leaf token =>
    obtain ⟨kind, text, line⟩ := token
    cases kind <;> rfl

theorem flatMap_mentions_renameParameters (parts : List Tree) :
    (renameParameters f parts).flatMap mentions = parts.flatMap mentions := by
  induction parts using renameParameters.induct with
  | case1 type name comma later ih => simp [renameParameters, ih]
  | case2 type name => simp [renameParameters]
  | case3 parts noMore noLast => rw [renameParameters.eq_3 f parts noMore noLast]

theorem flatMap_mentions_renameAt (rule : Rule) (parts : List Tree) :
    (renameAt f rule parts).flatMap mentions = parts.flatMap mentions := by
  unfold renameAt
  split
  · simp [List.flatMap_map]
  · exact flatMap_mentions_renameParameters _
  · simp
  · simp
  · split <;> simp
  · rfl

/-- What a node mentions by itself it mentions under the other name. -/
theorem mentionsAround_renameAt (inside : List Mention) (rule : Rule) (children : List Tree) :
    mentionsAround (inside.map (·.rename f)) rule
        (renameAt f rule (children.map (renameVariables f))) =
      (mentionsAround inside rule children).map (·.rename f) := by
  -- both definitions tell apart how many parts there are and which of them are identifiers
  cases rule with
  | letStatement =>
    rcases children with _ | ⟨first, _ | ⟨⟨kind, name, line⟩ | _, _ | ⟨third, later⟩⟩⟩
    · rfl
    · rfl
    · cases kind <;> rfl
    · cases kind with
      | identifier =>
        show (if (third.renameVariables f).isSymbol "=" then _ else _) = _
        rw [isSymbol_renameVariables, mentionsAround]
        split
        · rw [List.map_append]
          rfl
        · rfl
      | _ => rfl
    · rfl
    · rfl
  | term =>
    rcases children with _ | ⟨⟨kind, name, line⟩ | _, later⟩
    · rfl
    · cases kind <;> rfl
    · rfl
  | subroutineCall =>
    rcases children with _ | ⟨first, _ | ⟨second, later⟩⟩
    · rfl
    · rcases first with ⟨kind, name, line⟩ | _
      · cases kind <;> rfl
      · rfl
    · have parts : renameAt f .subroutineCall
            ((first :: second :: later).map (renameVariables f)) =
          (if second.isSymbol "." then (first.renameVariables f).renameLeaf f
            else first.renameVariables f) :: (second :: later).map (renameVariables f) := by
        simp [renameAt]
      rw [parts]
      rcases first with ⟨kind, name, line⟩ | ⟨rule, parts⟩
      · cases kind with
        | identifier =>
          cases dot : second.isSymbol "." <;>
            simp [mentionsAround, dot, Mention.rename]
        | _ => cases second.isSymbol "." <;> rfl
      · cases second.isSymbol "." <;> rfl
  | _ => rfl

/-- A tree with other names mentions what the tree does, under the other names. -/
theorem mentions_renameVariables (tree : Tree) :
    (tree.renameVariables f).mentions = tree.mentions.map (·.rename f) := by
  induction tree with
  | leaf token =>
    have same : ∀ mention ∈ token.mentions, mention.rename f = id mention := by
      intro mention among
      rcases Token.mem_mentions among with ⟨-, rfl⟩ | ⟨-, -, rfl⟩ <;> rfl
    rw [renameVariables_leaf, mentions, List.map_congr_left same, List.map_id]
  | node rule children ih =>
    have inside : (children.map (renameVariables f)).flatMap mentions =
        (children.flatMap mentions).map (·.rename f) := by
      rw [List.flatMap_map, List.map_flatMap]
      exact List.flatMap_congr ih
    rw [renameVariables_node, mentions_node, mentions_node, flatMap_mentions_renameAt, inside]
    exact mentionsAround_renameAt _ rule children

/-! ## Reading -/

/-- Whether what is read from a tree with other names is what is read from the tree, with other
names. Nothing is said of the parts of a class other than declarations and statements. -/
def ReadsRenamed (f : String → String) (tree : Tree) : Prop :=
  match tree.rule? with
  | some .expression | some .term | some .subroutineCall =>
    Expression.ofTree (tree.renameVariables f) = (Expression.ofTree tree).rename f
  | some .expressionList =>
    (Expression.read (tree.renameVariables f)).arguments =
      (Expression.read tree).arguments.map (·.rename f)
  | some .letStatement | some .ifStatement | some .whileStatement | some .doStatement
  | some .returnStatement =>
    Statement.ofTree (tree.renameVariables f) = (Statement.ofTree tree).rename f
  | some .statements =>
    Statement.blockOfTree (tree.renameVariables f) = (Statement.blockOfTree tree).map (·.rename f)
  | some .varDec =>
    Declaration.ofTree (tree.renameVariables f) = (Declaration.ofTree tree).map (·.rename f)
  | some .parameterList =>
    Parameter.listOfTree (tree.renameVariables f) =
      (Parameter.listOfTree tree).map (Except.map (·.rename f))
  | some .classDec | some .classVarDec | some .subroutineDec | some .subroutineBody | none => True

namespace ReadsRenamed

variable {tree : Tree} {parts : List Tree}

theorem expression (reads : tree.ReadsRenamed f)
    (isRule : tree.rule? = some .expression ∨ tree.rule? = some .term) :
    Expression.ofTree (tree.renameVariables f) = (Expression.ofTree tree).rename f := by
  rcases isRule with isRule | isRule <;> simpa only [ReadsRenamed, isRule] using reads

theorem statement (reads : tree.ReadsRenamed f) (isStatement : tree.IsStatement) :
    Statement.ofTree (tree.renameVariables f) = (Statement.ofTree tree).rename f := by
  simp only [IsStatement, List.mem_cons, List.not_mem_nil, or_false] at isStatement
  rcases isStatement with is | is | is | is | is <;> simpa only [ReadsRenamed, is] using reads

theorem block (reads : (node .statements parts).ReadsRenamed f) :
    Statement.blockOfTree ((node .statements parts).renameVariables f) =
      Statement.renameOfBlock f (Statement.blockOfTree (node .statements parts)) := by
  rw [Statement.renameOfBlock_eq_map]
  exact reads

theorem arguments (reads : (node .expressionList parts).ReadsRenamed f) :
    (Expression.read ((node .expressionList parts).renameVariables f)).arguments =
      Expression.renameOfList f (Expression.read (node .expressionList parts)).arguments := by
  rw [Expression.renameOfList_eq_map]
  exact reads

end ReadsRenamed

/-- Operators between renamed terms make a renamed chain. -/
theorem rename_foldl (later : List (String × Nat × Tree)) (left : Expression)
    (each : ∀ part ∈ later, Expression.ofTree (part.2.2.renameVariables f) =
      (Expression.ofTree part.2.2).rename f) :
    (later.map fun part => (part.1, part.2.1, part.2.2.renameVariables f)).foldl
        (fun left part => .binary left (BinaryOperator.ofSymbol part.1)
          (Expression.ofTree part.2.2)) (left.rename f) =
      (later.foldl (fun left part => .binary left (BinaryOperator.ofSymbol part.1)
        (Expression.ofTree part.2.2)) left).rename f := by
  induction later generalizing left with
  | nil => rfl
  | cons part later ih =>
    rw [List.forall_mem_cons] at each
    rw [List.map_cons, List.foldl_cons, List.foldl_cons, ← ih _ each.2, Expression.rename, each.1]

theorem rename_ofInteger (text : String) :
    (Expression.ofInteger text).rename f = Expression.ofInteger text := by
  unfold Expression.ofInteger
  cases wordValue? text.toList <;> rfl

theorem rename_ofKeyword {text : String} (isConstant : text ∈ constantKeywords) :
    (Expression.ofKeyword text).rename f = Expression.ofKeyword text := by
  simp only [constantKeywords, List.mem_cons, List.not_mem_nil, or_false] at isConstant
  rcases isConstant with rfl | rfl | rfl | rfl <;> rfl

/-- Declared names are tokens, and they are replaced one by one. -/
theorem FurtherNames.rename {names : List Tree} (further : FurtherNames names) :
    ((((names.map (renameVariables f)).map (renameLeaf f)).filterMap token?).filter
        (·.kind = .identifier)).map (·.text) =
      (((names.filterMap token?).filter (·.kind = .identifier)).map (·.text)).map f := by
  induction further with
  | nil => rfl
  | cons comma text line names ih => simpa [token?] using ih

section Parameters

variable {token : Token} (noComma : token.is .symbol "," = false) (text : String) (line : Nat)

include noComma

theorem listOfTree_single :
    Parameter.listOfTree (.node .parameterList [leaf token, identifier text line]) =
      [.ok ⟨token.text, text⟩] := by
  have isName : (Token.mk .identifier text line).is .symbol "," = false := rfl
  simp [Parameter.listOfTree, children, token?, noComma, isName, Parameter.ofTokens]

theorem listOfTree_cons (comma : Nat) (later : List Tree) :
    Parameter.listOfTree (.node .parameterList
        (leaf token :: identifier text line :: symbol "," comma :: later)) =
      .ok ⟨token.text, text⟩ :: Parameter.listOfTree (.node .parameterList later) := by
  have isName : (Token.mk .identifier text line).is .symbol "," = false := rfl
  have isComma : (Token.mk .symbol "," comma).is .symbol "," = true := rfl
  simp [Parameter.listOfTree, children, token?, noComma, isName, isComma, Parameter.ofTokens]

end Parameters

/-- Parameters are tokens, and their names are replaced one by one. -/
theorem FurtherParameters.rename {type : Tree} {later : List Tree} (isType : IsType type)
    (further : FurtherParameters later) (text : String) (line : Nat) :
    Parameter.listOfTree (.node .parameterList (renameParameters f
        ((type :: identifier text line :: later).map (renameVariables f)))) =
      (Parameter.listOfTree (.node .parameterList (type :: identifier text line :: later))).map
        (Except.map (·.rename f)) := by
  induction further generalizing type text line with
  | nil =>
    obtain ⟨token, rfl, noComma⟩ := isType.exists_token
    rw [listOfTree_single noComma]
    exact listOfTree_single noComma (f text) line
  | @cons next later comma nextIsType name line' further ih =>
    have behind := ih nextIsType name line'
    obtain ⟨token, rfl, noComma⟩ := isType.exists_token
    rw [listOfTree_cons noComma, List.map_cons]
    exact (listOfTree_cons noComma (f text) line comma _).trans (congrArg _ behind)

/-- What is read from a derivation tree with other names is what is read from it, with other
names. -/
theorem Derivation.readsRenamed {tree : Tree} (derives : tree.Derivation) :
    tree.ReadsRenamed f := by
  induction derives with
  | classDec => trivial
  | classVarDec => trivial
  | subroutineDec => trivial
  | subroutineBody => trivial
  | noParameters => rfl
  | @parameters type later text l isType further =>
    show Parameter.listOfTree _ = _
    rw [renameVariables_node]
    exact further.rename isType text l
  | @varDec type names text l₁ l₂ l₃ isType further =>
    obtain ⟨token, rfl, -⟩ := isType.exists_token
    let behind := identifier text l₂ :: (names ++ [symbol ";" l₃])
    have renamed : ((((behind.map (renameVariables f)).map (renameLeaf f)).filterMap token?).filter
          (·.kind = .identifier)).map (·.text) =
        (((behind.filterMap token?).filter (·.kind = .identifier)).map (·.text)).map f := by
      have further := further.rename (f := f)
      simpa [behind, token?] using further
    show Declaration.ofTree
      ((node .varDec (keyword "var" l₁ :: leaf token :: behind)).renameVariables f) = _
    rw [renameVariables_node]
    exact congrArg (fun names => Except.ok (Declaration.mk token.text names)) renamed
  | @statements block areStatements _ ih =>
    show Statement.blockOfTree ((node .statements block).renameVariables f) = _
    rw [renameVariables_node]
    show Statement.blockOfTree (.node .statements (block.map (renameVariables f))) = _
    rw [Statement.blockOfTree_statements, Statement.blockOfTree_statements, List.map_map,
      List.map_map]
    exact List.map_congr_left fun tree among => (ih tree among).statement (areStatements tree among)
  | letVariable text _ _ _ _ _ ih =>
    exact congrArg (Statement.assign (f text)) (ih.expression (.inl rfl))
  | letElement text _ _ _ _ _ _ _ _ ihIndex ihValue =>
    exact congrArg₂ (Statement.assignElement (f text)) (ihIndex.expression (.inl rfl))
      (ihValue.expression (.inl rfl))
  | ifThen _ _ _ _ _ _ _ ihCondition ihYes =>
    exact congrArg₂ Statement.when (ihCondition.expression (.inl rfl)) (ReadsRenamed.block ihYes)
  | ifElse _ _ _ _ _ _ _ _ _ _ _ ihCondition ihYes ihNo =>
    exact congr (congrArg₂ Statement.choose (ihCondition.expression (.inl rfl))
      (ReadsRenamed.block ihYes)) (ReadsRenamed.block ihNo)
  | whileStatement _ _ _ _ _ _ _ ihCondition ihBlock =>
    exact congrArg₂ Statement.loop (ihCondition.expression (.inl rfl)) (ReadsRenamed.block ihBlock)
  | doStatement _ _ _ ih => exact congrArg Statement.perform ih
  | returnNothing => rfl
  | returnValue _ _ _ ih =>
    exact congrArg (fun value => Statement.leave (some value)) (ih.expression (.inl rfl))
  | @expression first later firstIsTerm _ _ areTerms _ ihFirst ihLater =>
    show Expression.ofTree ((node .expression (chain first later)).renameVariables f) = _
    rw [renameVariables_node, map_renameVariables_chain]
    show Expression.ofTree (.node .expression (chain (first.renameVariables f) _)) = _
    rw [Expression.ofTree_expression _ _ ((rule?_renameVariables _).trans firstIsTerm)
      (forall_rule?_renamed areTerms),
      Expression.ofTree_expression first later firstIsTerm areTerms,
      ihFirst.expression (.inr firstIsTerm)]
    apply rename_foldl
    exact fun part among => (ihLater part among).expression (.inr (areTerms part among))
  | integer text l => exact (rename_ofInteger text).symm
  | string text l => rfl
  | constant text l isConstant => exact (rename_ofKeyword isConstant).symm
  | «variable» text l => rfl
  | element text _ _ _ _ ih =>
    exact congrArg (Expression.element (f text)) (ih.expression (.inl rfl))
  | call _ ih => exact ih
  | parenthesized _ _ _ ih => exact ih.expression (.inl rfl)
  | @unary operand text l isOperator _ ih =>
    show Expression.ofTree (.node .term [symbol text l, .node .term
      (renameAt f .term (renameVariablesOfList f operand))]) = _
    rw [Expression.ofTree_unary text _ l isOperator, Expression.ofTree_unary text _ l isOperator]
    exact congrArg (Expression.unary _) (ih.expression (.inr rfl))
  | ownCall name _ _ _ _ ih =>
    exact congrArg (Expression.call (.own name)) (ReadsRenamed.arguments ih)
  | qualifiedCall context name _ _ _ _ _ _ ih =>
    exact congrArg (Expression.call (.qualified (f context) name)) (ReadsRenamed.arguments ih)
  | noArguments => rfl
  | @arguments first later firstIsExpression _ _ areExpressions _ ihFirst ihLater =>
    show (Expression.read
      ((node .expressionList (chain first later)).renameVariables f)).arguments = _
    rw [renameVariables_node, map_renameVariables_chain]
    show (Expression.read (.node .expressionList (chain (first.renameVariables f) _))).arguments = _
    rw [Expression.arguments_read _ _ ((rule?_renameVariables _).trans firstIsExpression)
      (forall_rule?_renamed areExpressions),
      Expression.arguments_read first later firstIsExpression areExpressions,
      ihFirst.expression (.inl firstIsExpression), List.map_cons, List.map_map, List.map_map]
    refine congrArg _ (List.map_congr_left fun part among => ?_)
    exact (ihLater part among).expression (.inl (areExpressions part among))

/-! ## Subroutines -/

/-- A part of a body with other names is the part of the body, with other names. -/
theorem ofTree?_renameVariables {part : Tree} (derives : part.Derivation)
    (isRule : part.rule? = some .varDec ∨ part.rule? = some .statements) :
    BodyPart.ofTree? (part.renameVariables f) = (BodyPart.ofTree? part).map (·.rename f) := by
  have reads := derives.readsRenamed (f := f)
  cases part with
  | leaf token => simp [rule?] at isRule
  | node rule children =>
    rcases isRule with is | is
    · cases is
      have declared : Declaration.ofTree ((node .varDec children).renameVariables f) = _ := reads
      rw [renameVariables_node] at declared ⊢
      rw [BodyPart.ofTree?_varDec, BodyPart.ofTree?_varDec, declared]
      cases Declaration.ofTree (.node .varDec children) <;> rfl
    · cases is
      exact congrArg (fun block => some (BodyPart.statements block)) (ReadsRenamed.block reads)

/-- The parts of a body with other names are the parts of the body, with other names. -/
theorem filterMap_ofTree?_renameVariables {declared block : List Tree} (l₁ l₂ : Nat)
    (derive : ∀ part ∈ declared, part.rule? = some .varDec ∧ part.Derivation)
    (blockDerives : (node .statements block).Derivation) :
    (([symbol "\x7b" l₁] ++ declared ++ [.node .statements block, symbol "\x7d" l₂]).map
        (renameVariables f)).filterMap BodyPart.ofTree? =
      (([symbol "\x7b" l₁] ++ declared ++ [.node .statements block,
        symbol "\x7d" l₂]).filterMap BodyPart.ofTree?).map (·.rename f) := by
  rw [List.filterMap_map, List.map_filterMap]
  apply List.filterMap_congr
  intro part among
  simp only [List.mem_append, List.mem_cons, List.not_mem_nil, or_false] at among
  rcases among with (rfl | among) | rfl | rfl
  · rfl
  · obtain ⟨isRule, derives⟩ := derive part among
    exact ofTree?_renameVariables derives (.inl isRule)
  · exact ofTree?_renameVariables blockDerives (.inr rfl)
  · rfl

/-- A subroutine that is read from a derivation tree with other names is the one that is read from
it, with other names. Its own name stays. -/
theorem Derivation.ofTree_renameVariables {tree : Tree} (derives : tree.Derivation)
    (isRule : tree.rule? = some .subroutineDec) :
    Member.ofTree (tree.renameVariables f) =
      .ok ⟨tree.textAt 2, (Subroutine.ofTree tree).map (·.rename f)⟩ := by
  obtain ⟨keyword, name, result, parameters, declared, block, l₁, l₂, l₃, l₄, l₅, l₆, rfl, isKind,
    -, parametersDerive, derive, blockDerives⟩ := derives.exists_subroutine isRule
  obtain ⟨kind, isKind⟩ := exists_kind isKind
  have found : Parameter.listOfTree _ = _ := parametersDerive.readsRenamed (f := f)
  have parts := filterMap_ofTree?_renameVariables (f := f) l₅ l₆ derive blockDerives
  generalize [symbol "\x7b" l₅] ++ declared ++ [.node .statements block, symbol "\x7d" l₆] = body
    at parts
  have own := @ofTree_subroutineDec result parameters body keyword name l₁ l₂ l₃ l₄
  have read := (Member.mk.inj (Member.ofTree_eq_ok own)).2
  rw [← read, isKind]
  show Member.ofTree (.node .subroutineDec [.keyword keyword l₁, result.renameVariables f,
    identifier name l₂, symbol "(" l₃, (node .parameterList parameters).renameVariables f,
    symbol ")" l₄, (node .subroutineBody body).renameVariables f]) = _
  rw [renameVariables_node] at found ⊢
  rw [renameVariables_node, ofTree_subroutineDec, isKind]
  exact congrArg₂ (fun parameters parts =>
    Except.ok (Member.mk name (.ok ⟨kind, parameters, parts⟩))) found parts

end Tree

end JackCompiler
