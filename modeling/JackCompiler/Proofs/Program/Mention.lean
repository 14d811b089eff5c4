import JackCompiler.Proofs.Program.Induction
import JackCompiler.Proofs.Program.Shape

/-!
# What a program mentions

The variables and the string constants of a piece of program, in the order in which code generation
gets to them: those of the operands of an operator from left to right, and the variable of a plain
assignment behind those of its value. The same list is read off a syntax tree, node by node. For a
derivation tree the two lists are equal (`Tree.Derivation.mentionsRead_eq`).
-/

set_option autoImplicit false

namespace JackCompiler

/-- Something that code generation looks at by itself. -/
inductive Mention where
  /-- A variable that is used or assigned. -/
  | variable (name : String)
  /-- The name in front of the dot of a call, be it a variable or a class. -/
  | context (name : String)
  /-- The characters of a string constant. -/
  | text (value : String)
  /-- A part that could not be read. -/
  | flaw (error : CompileError)
  deriving DecidableEq, Repr

/-- A part that could not be read is mentioned, and any other is not. -/
def Mention.ofPart {α : Type} : Except CompileError α → List Mention
  | .ok _ => []
  | .error error => [.flaw error]

/-! ## Mentions in programs -/

/-- What the callee of a call mentions. -/
def Callee.mentions : Callee → List Mention
  | own _ => []
  | qualified context _ => [.context context]

namespace Expression

mutual

/-- What an expression mentions. -/
def mentions : Expression → List Mention
  | integer _ | truth | zero | receiver => []
  | string value => [.text value]
  | named name => [.variable name]
  | element array index => .variable array :: index.mentions
  | unary operator operand => operand.mentions ++ Mention.ofPart operator
  | binary left operator right =>
    left.mentions ++ right.mentions ++ Mention.ofPart operator
  | call callee arguments => callee.mentions ++ mentionsOfList arguments
  | flaw error => [.flaw error]

/-- What consecutive expressions mention. -/
def mentionsOfList : List Expression → List Mention
  | [] => []
  | expression :: later => expression.mentions ++ mentionsOfList later

end

theorem mentionsOfList_eq_flatMap (list : List Expression) :
    mentionsOfList list = list.flatMap mentions := by
  induction list with
  | nil => rfl
  | cons expression later ih => rw [mentionsOfList, ih, List.flatMap_cons]

end Expression

namespace Statement

mutual

/-- What a statement mentions. -/
def mentions : Statement → List Mention
  | assign name value => value.mentions ++ [.variable name]
  | assignElement array index value => .variable array :: (index.mentions ++ value.mentions)
  | when condition block => condition.mentions ++ mentionsOfBlock block
  | choose condition yes no =>
    condition.mentions ++ mentionsOfBlock yes ++ mentionsOfBlock no
  | loop condition block => condition.mentions ++ mentionsOfBlock block
  | perform call => call.mentions
  | leave (some value) => value.mentions
  | leave none => []
  | flaw error => [.flaw error]

/-- What a block mentions. -/
def mentionsOfBlock : List Statement → List Mention
  | [] => []
  | statement :: later => statement.mentions ++ mentionsOfBlock later

end

theorem mentionsOfBlock_eq_flatMap (block : List Statement) :
    mentionsOfBlock block = block.flatMap mentions := by
  induction block with
  | nil => rfl
  | cons statement later ih => rw [mentionsOfBlock, ih, List.flatMap_cons]

end Statement

/-! ## Mentions in syntax trees -/

/-- What a token mentions: a string constant its characters, and an integer constant that is no
number the error that it is. -/
def Token.mentions (token : Token) : List Mention :=
  match token.kind with
  | .stringConstant => [.text token.stringValue]
  | .integerConstant =>
    if (wordValue? token.text.toList).isSome then []
    else [.flaw (.malformed (.rule .term) (.badInteger token.text))]
  | .keyword | .symbol | .identifier => []

/-- A token mentions the characters of a string constant, or that an integer constant is no
number. -/
theorem Token.mem_mentions {token : Token} {mention : Mention} (among : mention ∈ token.mentions) :
    token.kind = .stringConstant ∧ mention = .text token.stringValue ∨
      token.kind = .integerConstant ∧ wordValue? token.text.toList = none ∧
        mention = .flaw (.malformed (.rule .term) (.badInteger token.text)) := by
  unfold mentions at among
  cases kind : token.kind with
  | stringConstant =>
    rw [kind] at among
    exact .inl ⟨rfl, List.mem_singleton.mp among⟩
  | integerConstant =>
    rw [kind] at among
    cases value : wordValue? token.text.toList with
    | some word => simp [value] at among
    | none =>
      rw [value] at among
      exact .inr ⟨rfl, rfl, List.mem_singleton.mp among⟩
  | keyword | symbol | identifier =>
    rw [kind] at among
    cases among

namespace Tree

/-- What a node mentions, given what is mentioned inside it. The variables of an assignment and of a
term and the context of a call are identifiers at fixed positions. -/
def mentionsAround (inside : List Mention) : Rule → List Tree → List Mention
  | .letStatement, _ :: .leaf ⟨.identifier, name, _⟩ :: third :: _ =>
    if third.isSymbol "=" then inside ++ [.variable name] else .variable name :: inside
  | .term, .leaf ⟨.identifier, name, _⟩ :: _ => .variable name :: inside
  | .subroutineCall, .leaf ⟨.identifier, name, _⟩ :: second :: _ =>
    if second.isSymbol "." then .context name :: inside else inside
  | _, _ => inside

mutual

/-- What a tree mentions. -/
def mentions : Tree → List Mention
  | leaf token => token.mentions
  | node rule children => mentionsAround (mentionsOfList children) rule children

/-- What consecutive trees mention. -/
def mentionsOfList : List Tree → List Mention
  | [] => []
  | tree :: later => tree.mentions ++ mentionsOfList later

end

theorem mentionsOfList_eq_flatMap (trees : List Tree) :
    mentionsOfList trees = trees.flatMap mentions := by
  induction trees with
  | nil => rfl
  | cons tree later ih => rw [mentionsOfList, ih, List.flatMap_cons]

theorem mentions_node (rule : Rule) (children : List Tree) :
    (node rule children).mentions = mentionsAround (children.flatMap mentions) rule children := by
  rw [mentions, mentionsOfList_eq_flatMap]

@[simp] theorem mentions_keyword (text : String) (line : Nat) : (keyword text line).mentions = [] :=
  rfl

@[simp] theorem mentions_symbol (text : String) (line : Nat) : (symbol text line).mentions = [] :=
  rfl

@[simp] theorem mentions_identifier (text : String) (line : Nat) :
    (identifier text line).mentions = [] := rfl

@[simp] theorem isSymbol_symbol (text wanted : String) (line : Nat) :
    (symbol text line).isSymbol wanted = decide (text = wanted) := rfl

/-! ## Where mentions come from -/

/-- The mentions inside a node stay, and its own ones are those of an identifier among its parts. -/
theorem mem_mentionsAround {inside : List Mention} {rule : Rule} {children : List Tree}
    {mention : Mention} (among : mention ∈ mentionsAround inside rule children) :
    mention ∈ inside ∨ ∃ name line, identifier name line ∈ children ∧
      (mention = .variable name ∨ mention = .context name) := by
  unfold mentionsAround at among
  split at among
  · rename_i first name line third later
    have own : mention ∈ inside ∨ mention = .variable name := by
      split at among
      · simpa using among
      · simpa [or_comm] using among
    exact own.imp_right fun eq => ⟨name, line, by simp, .inl eq⟩
  · rename_i name line later
    have own : mention ∈ inside ∨ mention = .variable name := by simpa [or_comm] using among
    exact own.imp_right fun eq => ⟨name, line, by simp, .inl eq⟩
  · rename_i name line second later
    split at among
    · have own : mention ∈ inside ∨ mention = .context name := by simpa [or_comm] using among
      exact own.imp_right fun eq => ⟨name, line, by simp, .inr eq⟩
    · exact .inl among
  · exact .inl among

theorem subset_mentionsAround (inside : List Mention) (rule : Rule) (children : List Tree) :
    inside ⊆ mentionsAround inside rule children := by
  intro mention among
  unfold mentionsAround
  split
  · split
    · exact List.mem_append_left _ among
    · exact List.mem_cons_of_mem _ among
  · exact List.mem_cons_of_mem _ among
  · split
    · exact List.mem_cons_of_mem _ among
    · exact among
  · exact among

theorem tokensOfList_eq_flatMap (trees : List Tree) :
    tokensOfList trees = trees.flatMap tokens := by
  induction trees with
  | nil => rfl
  | cons tree later ih => rw [tokensOfList, ih, List.flatMap_cons]

theorem mem_tokens_node {rule : Rule} {children : List Tree} {token : Token} :
    token ∈ (node rule children).tokens ↔ ∃ part ∈ children, token ∈ part.tokens := by
  rw [tokens, tokensOfList_eq_flatMap, List.mem_flatMap]

/-- What a token of a tree mentions, the tree mentions. -/
theorem mem_mentions_of_token {tree : Tree} {token : Token} {mention : Mention}
    (inside : token ∈ tree.tokens) (among : mention ∈ token.mentions) :
    mention ∈ tree.mentions := by
  induction tree with
  | leaf own =>
    rw [tokens, List.mem_singleton] at inside
    rw [inside] at among
    exact among
  | node rule children ih =>
    obtain ⟨part, listed, inside⟩ := mem_tokens_node.mp inside
    rw [mentions_node]
    apply subset_mentionsAround
    exact List.mem_flatMap.mpr ⟨part, listed, ih part listed inside⟩

/-- What a tree mentions is mentioned by a token of it, or is the name of an identifier in it. -/
theorem exists_token_of_mem_mentions {tree : Tree} {mention : Mention}
    (among : mention ∈ tree.mentions) :
    ∃ token ∈ tree.tokens, mention ∈ token.mentions ∨ token.kind = .identifier ∧
      (mention = .variable token.text ∨ mention = .context token.text) := by
  induction tree with
  | leaf own => exact ⟨own, List.mem_singleton_self own, .inl among⟩
  | node rule children ih =>
    rw [mentions_node] at among
    rcases mem_mentionsAround among with inside | ⟨name, line, listed, eq⟩
    · obtain ⟨part, listed, inside⟩ := List.mem_flatMap.mp inside
      obtain ⟨token, found, origin⟩ := ih part listed inside
      exact ⟨token, mem_tokens_node.mpr ⟨part, listed, found⟩, origin⟩
    · refine ⟨⟨.identifier, name, line⟩, ?_, .inr ⟨rfl, eq⟩⟩
      exact mem_tokens_node.mpr ⟨_, listed, List.mem_singleton_self _⟩

/-! ## The forms of productions -/

section Forms

variable {value index condition yes no block call inner operand arguments : List Tree}

theorem mentions_letVariable (text : String) (l₁ l₂ l₃ l₄ : Nat) :
    (node .letStatement [keyword "let" l₁, identifier text l₂, symbol "=" l₃,
      node .expression value, symbol ";" l₄]).mentions =
      (node .expression value).mentions ++ [.variable text] := by
  rw [mentions_node]
  simp [mentionsAround]

theorem mentions_letElement (text : String) (l₁ l₂ l₃ l₄ l₅ l₆ : Nat) :
    (node .letStatement [keyword "let" l₁, identifier text l₂, symbol "[" l₃,
      node .expression index, symbol "]" l₄, symbol "=" l₅, node .expression value,
      symbol ";" l₆]).mentions =
      .variable text ::
        ((node .expression index).mentions ++ (node .expression value).mentions) := by
  rw [mentions_node]
  simp [mentionsAround]

theorem mentions_ifThen (l₁ l₂ l₃ l₄ l₅ : Nat) :
    (node .ifStatement [keyword "if" l₁, symbol "(" l₂, node .expression condition, symbol ")" l₃,
      symbol "\x7b" l₄, node .statements yes, symbol "\x7d" l₅]).mentions =
      (node .expression condition).mentions ++ (node .statements yes).mentions := by
  rw [mentions_node]
  simp [mentionsAround]

theorem mentions_ifElse (l₁ l₂ l₃ l₄ l₅ l₆ l₇ l₈ : Nat) :
    (node .ifStatement [keyword "if" l₁, symbol "(" l₂, node .expression condition, symbol ")" l₃,
      symbol "\x7b" l₄, node .statements yes, symbol "\x7d" l₅, keyword "else" l₆,
      symbol "\x7b" l₇, node .statements no, symbol "\x7d" l₈]).mentions =
      (node .expression condition).mentions ++ (node .statements yes).mentions ++
        (node .statements no).mentions := by
  rw [mentions_node]
  simp [mentionsAround]

theorem mentions_whileStatement (l₁ l₂ l₃ l₄ l₅ : Nat) :
    (node .whileStatement [keyword "while" l₁, symbol "(" l₂, node .expression condition,
      symbol ")" l₃, symbol "\x7b" l₄, node .statements block, symbol "\x7d" l₅]).mentions =
      (node .expression condition).mentions ++ (node .statements block).mentions := by
  rw [mentions_node]
  simp [mentionsAround]

theorem mentions_doStatement (l₁ l₂ : Nat) :
    (node .doStatement [keyword "do" l₁, node .subroutineCall call, symbol ";" l₂]).mentions =
      (node .subroutineCall call).mentions := by
  rw [mentions_node]
  simp [mentionsAround]

theorem mentions_returnValue (l₁ l₂ : Nat) :
    (node .returnStatement [keyword "return" l₁, node .expression value,
      symbol ";" l₂]).mentions = (node .expression value).mentions := by
  rw [mentions_node]
  simp [mentionsAround]

/-- The symbols of a chain mention nothing. -/
theorem mentions_chain (first : Tree) (later : List (String × Nat × Tree)) :
    (chain first later).flatMap mentions =
      first.mentions ++ later.flatMap fun part => part.2.2.mentions := by
  rw [chain, List.flatMap_cons, List.flatMap_assoc]
  simp

theorem mentions_element (text : String) (l₁ l₂ l₃ : Nat) :
    (node .term [identifier text l₁, symbol "[" l₂, node .expression index,
      symbol "]" l₃]).mentions = .variable text :: (node .expression index).mentions := by
  rw [mentions_node]
  simp [mentionsAround]

theorem mentions_call :
    (node .term [node .subroutineCall call]).mentions = (node .subroutineCall call).mentions := by
  rw [mentions_node]
  simp [mentionsAround]

theorem mentions_parenthesized (l₁ l₂ : Nat) :
    (node .term [symbol "(" l₁, node .expression inner, symbol ")" l₂]).mentions =
      (node .expression inner).mentions := by
  rw [mentions_node]
  simp [mentionsAround]

theorem mentions_unary (text : String) (l : Nat) :
    (node .term [symbol text l, node .term operand]).mentions = (node .term operand).mentions := by
  rw [mentions_node]
  simp [mentionsAround]

theorem mentions_ownCall (name : String) (l₁ l₂ l₃ : Nat) :
    (node .subroutineCall [identifier name l₁, symbol "(" l₂, node .expressionList arguments,
      symbol ")" l₃]).mentions = (node .expressionList arguments).mentions := by
  rw [mentions_node]
  simp [mentionsAround]

theorem mentions_qualifiedCall (context name : String) (l₁ l₂ l₃ l₄ l₅ : Nat) :
    (node .subroutineCall [identifier context l₁, symbol "." l₂, identifier name l₃, symbol "(" l₄,
      node .expressionList arguments, symbol ")" l₅]).mentions =
      .context context :: (node .expressionList arguments).mentions := by
  rw [mentions_node]
  simp [mentionsAround]

end Forms

theorem IsType.mentions_eq {tree : Tree} (isType : IsType tree) : tree.mentions = [] := by
  cases isType <;> rfl

theorem IsResult.mentions_eq {tree : Tree} (isResult : IsResult tree) : tree.mentions = [] := by
  cases isResult with
  | void => rfl
  | type isType => exact isType.mentions_eq

theorem FurtherNames.mentions_eq {trees : List Tree} (names : FurtherNames trees) :
    trees.flatMap mentions = [] := by
  induction names with
  | nil => rfl
  | cons _ _ _ _ ih => simp [ih]

theorem FurtherParameters.mentions_eq {trees : List Tree} (parameters : FurtherParameters trees) :
    trees.flatMap mentions = [] := by
  induction parameters with
  | nil => rfl
  | cons _ isType _ _ _ ih => simp [ih, isType.mentions_eq]

/-! ## Both lists agree on derivation trees -/

/-- What is mentioned by the program that is read from a tree. Declarations mention nothing. -/
def mentionsRead (tree : Tree) : List Mention :=
  match tree.rule? with
  | some .expression | some .term | some .subroutineCall => (Expression.ofTree tree).mentions
  | some .expressionList => Expression.mentionsOfList (Expression.read tree).arguments
  | some .letStatement | some .ifStatement | some .whileStatement | some .doStatement
  | some .returnStatement => (Statement.ofTree tree).mentions
  | some .statements => Statement.mentionsOfBlock (Statement.blockOfTree tree)
  | some .classVarDec | some .varDec | some .parameterList => []
  | some .classDec | some .subroutineDec | some .subroutineBody | none => tree.mentions

theorem mentionsRead_expression {tree : Tree} (isExpression : tree.rule? = some .expression) :
    tree.mentionsRead = (Expression.ofTree tree).mentions := by
  rw [mentionsRead, isExpression]

theorem mentionsRead_term {tree : Tree} (isTerm : tree.rule? = some .term) :
    tree.mentionsRead = (Expression.ofTree tree).mentions := by
  rw [mentionsRead, isTerm]

theorem mentionsRead_statement {tree : Tree} (isStatement : tree.IsStatement) :
    tree.mentionsRead = (Statement.ofTree tree).mentions := by
  simp only [IsStatement, List.mem_cons, List.not_mem_nil, or_false] at isStatement
  rcases isStatement with is | is | is | is | is <;> rw [mentionsRead, is]

/-- A chain of operators mentions what its terms do. -/
theorem mentions_foldl (later : List (String × Nat × Tree))
    (areOperators : ∀ part ∈ later, part.1 ∈ binarySymbols) (left : Expression) :
    (later.foldl (fun left part =>
      .binary left (BinaryOperator.ofSymbol part.1) (Expression.ofTree part.2.2)) left).mentions =
      left.mentions ++ later.flatMap fun part => (Expression.ofTree part.2.2).mentions := by
  induction later generalizing left with
  | nil => simp
  | cons part later ih =>
    rw [List.forall_mem_cons] at areOperators
    have isOperator : Mention.ofPart (BinaryOperator.ofSymbol part.1) = [] := by
      have each : ∀ text ∈ binarySymbols, Mention.ofPart (BinaryOperator.ofSymbol text) = [] := by
        decide
      exact each part.1 areOperators.1
    rw [List.foldl_cons, ih areOperators.2, Expression.mentions, isOperator, List.flatMap_cons,
      List.append_nil, List.append_assoc]

theorem mentions_ofInteger (text : String) (line : Nat) :
    (Expression.ofInteger text).mentions = (Token.mk .integerConstant text line).mentions := by
  rw [Expression.ofInteger]
  cases value : wordValue? text.toList with
  | none => simp [Expression.mentions, Token.mentions, value]
  | some number => simp [Expression.mentions, Token.mentions, value]

/-- What is read from a derivation tree mentions what the tree mentions. -/
theorem Derivation.mentionsRead_eq {tree : Tree} (derives : tree.Derivation) :
    tree.mentionsRead = tree.mentions := by
  induction derives with
  | classDec => rfl
  | subroutineDec => rfl
  | subroutineBody => rfl
  | classVarDec _ _ _ _ _ _ isType further =>
    rw [mentions_node]
    simp [mentionsRead, rule?, mentionsAround, isType.mentions_eq, further.mentions_eq]
  | varDec _ _ _ _ isType further =>
    rw [mentions_node]
    simp [mentionsRead, rule?, mentionsAround, isType.mentions_eq, further.mentions_eq]
  | noParameters => rfl
  | parameters _ _ isType further =>
    rw [mentions_node]
    simp [mentionsRead, rule?, mentionsAround, isType.mentions_eq, further.mentions_eq]
  | @statements block areStatements _ ih =>
    have each : ∀ tree ∈ block, (Statement.ofTree tree).mentions = tree.mentions := by
      intro tree among
      rw [← ih tree among, mentionsRead_statement (areStatements tree among)]
    show Statement.mentionsOfBlock _ = _
    rw [Statement.blockOfTree_statements, Statement.mentionsOfBlock_eq_flatMap, List.flatMap_map,
      mentions_node]
    exact congrArg List.flatten (List.map_congr_left each)
  | letVariable _ _ _ _ _ _ ih =>
    show (Statement.ofTree _).mentions = _
    rw [Statement.ofTree_letVariable, Statement.mentions, mentions_letVariable, ← ih,
      mentionsRead_expression rfl]
  | letElement _ _ _ _ _ _ _ _ _ ihIndex ihValue =>
    show (Statement.ofTree _).mentions = _
    rw [Statement.ofTree_letElement, Statement.mentions, mentions_letElement, ← ihIndex, ← ihValue,
      mentionsRead_expression rfl, mentionsRead_expression rfl]
  | ifThen _ _ _ _ _ _ _ ihCondition ihYes =>
    show (Statement.ofTree _).mentions = _
    rw [Statement.ofTree_ifThen, Statement.mentions, mentions_ifThen, ← ihCondition, ← ihYes,
      mentionsRead_expression rfl]
    rfl
  | ifElse _ _ _ _ _ _ _ _ _ _ _ ihCondition ihYes ihNo =>
    show (Statement.ofTree _).mentions = _
    rw [Statement.ofTree_ifElse, Statement.mentions, mentions_ifElse, ← ihCondition, ← ihYes,
      ← ihNo, mentionsRead_expression rfl]
    rfl
  | whileStatement _ _ _ _ _ _ _ ihCondition ihBlock =>
    show (Statement.ofTree _).mentions = _
    rw [Statement.ofTree_whileStatement, Statement.mentions, mentions_whileStatement, ← ihCondition,
      ← ihBlock, mentionsRead_expression rfl]
    rfl
  | doStatement _ _ _ ih =>
    show (Statement.ofTree _).mentions = _
    rw [Statement.ofTree_doStatement, Statement.mentions, mentions_doStatement, ← ih]
    rfl
  | returnNothing => rfl
  | returnValue _ _ _ ih =>
    show (Statement.ofTree _).mentions = _
    rw [Statement.ofTree_returnValue, Statement.mentions, mentions_returnValue, ← ih,
      mentionsRead_expression rfl]
  | @expression first later firstIsTerm _ areOperators areTerms _ ihFirst ihLater =>
    have each : ∀ part ∈ later, (Expression.ofTree part.2.2).mentions = part.2.2.mentions := by
      intro part among
      rw [← ihLater part among, mentionsRead_term (areTerms part among)]
    show (Expression.ofTree _).mentions = _
    rw [Expression.ofTree_expression first later firstIsTerm areTerms,
      mentions_foldl later areOperators, ← mentionsRead_term firstIsTerm, ihFirst, mentions_node,
      List.flatMap_def, List.map_congr_left each]
    exact (mentions_chain first later).symm
  | integer text l =>
    show (Expression.ofTree _).mentions = _
    rw [Expression.ofTree_integer, mentions_ofInteger text l]
    exact (List.append_nil _).symm
  | string text l => rfl
  | constant text l isConstant =>
    have each : ∀ text ∈ constantKeywords, (Expression.ofKeyword text).mentions = [] := by decide
    show (Expression.ofTree _).mentions = _
    rw [Expression.ofTree_constant, each text isConstant]
    rfl
  | «variable» text l => rfl
  | element _ _ _ _ _ ih =>
    show (Expression.ofTree _).mentions = _
    rw [Expression.ofTree_element, Expression.mentions, mentions_element, ← ih,
      mentionsRead_expression rfl]
  | call _ ih =>
    show (Expression.ofTree _).mentions = _
    rw [Expression.ofTree_call, mentions_call, ← ih]
    rfl
  | parenthesized _ _ _ ih =>
    show (Expression.ofTree _).mentions = _
    rw [Expression.ofTree_parenthesized, mentions_parenthesized, ← ih, mentionsRead_expression rfl]
  | unary text l isOperator _ ih =>
    have readable : Mention.ofPart (UnaryOperator.ofSymbol text) = [] := by
      have each : ∀ text ∈ unarySymbols, Mention.ofPart (UnaryOperator.ofSymbol text) = [] := by
        decide
      exact each text isOperator
    show (Expression.ofTree _).mentions = _
    rw [Expression.ofTree_unary text _ l isOperator, Expression.mentions, readable, List.append_nil,
      mentions_unary, ← ih, mentionsRead_term rfl]
  | ownCall _ _ _ _ _ ih =>
    show (Expression.ofTree _).mentions = _
    rw [Expression.ofTree_ownCall, Expression.mentions, mentions_ownCall, ← ih]
    rfl
  | qualifiedCall _ _ _ _ _ _ _ _ ih =>
    show (Expression.ofTree _).mentions = _
    rw [Expression.ofTree_qualifiedCall, Expression.mentions, mentions_qualifiedCall, ← ih]
    rfl
  | noArguments => rfl
  | @arguments first later firstIsExpression _ _ areExpressions _ ihFirst ihLater =>
    have each : ∀ part ∈ later, (Expression.ofTree part.2.2).mentions = part.2.2.mentions := by
      intro part among
      rw [← ihLater part among, mentionsRead_expression (areExpressions part among)]
    show Expression.mentionsOfList _ = _
    rw [Expression.arguments_read first later firstIsExpression areExpressions,
      Expression.mentionsOfList, Expression.mentionsOfList_eq_flatMap, List.flatMap_map,
      ← mentionsRead_expression firstIsExpression, ihFirst, mentions_node, List.flatMap_def,
      List.map_congr_left each]
    exact (mentions_chain first later).symm

end Tree

end JackCompiler
