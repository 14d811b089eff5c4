import JackCompiler.Compile
import JackCompiler.Proofs.Syntax.Line
import JackCompiler.Proofs.Program.Induction

/-!
# Programs without lines

No stage behind the parser looks at a line: a tree without its lines reads as the same class, gives
the same code and has the same markup. One lemma for each way to look at a tree says so, and the
readings of expressions, statements and classes follow. With what the parser does
(`result_parseTokens_withoutLine`), two source texts whose tokens agree in class and text compile to
the same, or fail with the same error on lines that may differ.
-/

set_option autoImplicit false

namespace JackCompiler

/-! ## Looking at a tree without lines -/

theorem partAt_map {α β : Type} (owner : Construct) (f : α → β) (parts : List α) (index : Nat) :
    partAt owner (parts.map f) index = (partAt owner parts index).map f := by
  unfold partAt
  rw [List.getElem?_map]
  cases parts[index]? <;> rfl

theorem except_bind_map {ε α β γ : Type} (x : Except ε α) (f : α → β) (g : β → Except ε γ) :
    (x.map f >>= g) = x >>= fun a => g (f a) := by
  cases x <;> rfl

namespace Tree

variable (tree : Tree)

@[simp] theorem children_withoutLines :
    tree.withoutLines.children = tree.children.map withoutLines := by
  cases tree with
  | leaf token => rfl
  | node rule children => rw [withoutLines_node]; rfl

@[simp] theorem rule?_withoutLines : tree.withoutLines.rule? = tree.rule? := by
  cases tree <;> rfl

@[simp] theorem token?_withoutLines :
    tree.withoutLines.token? = tree.token?.map Token.withoutLine := by
  cases tree <;> rfl

@[simp] theorem construct_withoutLines : tree.withoutLines.construct = tree.construct := by
  cases tree <;> rfl

@[simp] theorem isRule_withoutLines (rule : Rule) :
    tree.withoutLines.isRule rule = tree.isRule rule := by
  cases tree <;> rfl

@[simp] theorem isToken_withoutLines (kind : TokenKind) (text : String) :
    tree.withoutLines.isToken kind text = tree.isToken kind text := by
  cases tree <;> rfl

@[simp] theorem isSymbol_withoutLines (text : String) :
    tree.withoutLines.isSymbol text = tree.isSymbol text :=
  tree.isToken_withoutLines .symbol text

@[simp] theorem child_withoutLines (index : Nat) :
    tree.withoutLines.child index = (tree.child index).map withoutLines := by
  unfold child
  rw [construct_withoutLines, children_withoutLines, partAt_map]

@[simp] theorem terminal_withoutLines (index : Nat) :
    tree.withoutLines.terminal index = (tree.terminal index).map Token.withoutLine := by
  unfold terminal
  rw [child_withoutLines, construct_withoutLines]
  cases tree.child index with
  | error error => rfl
  | ok part => cases part <;> rfl

@[simp] theorem group_withoutLines (index : Nat) (rule : Rule) :
    tree.withoutLines.group index rule = (tree.group index rule).map withoutLines := by
  unfold group
  rw [child_withoutLines, construct_withoutLines]
  cases tree.child index with
  | error error => rfl
  | ok part =>
    show (if part.withoutLines.isRule rule then _ else _) =
      Except.map _ (if part.isRule rule then _ else _)
    rw [isRule_withoutLines]
    split <;> rfl

@[simp] theorem expect_withoutLines (rule : Rule) :
    tree.withoutLines.expect rule = (tree.expect rule).map withoutLines := by
  unfold expect
  rw [isRule_withoutLines, construct_withoutLines]
  split <;> rfl

@[simp] theorem groups_withoutLines (rule : Rule) :
    tree.withoutLines.groups rule = (tree.groups rule).map withoutLines := by
  unfold groups
  rw [children_withoutLines, List.filter_map]
  congr 2
  funext part
  exact part.isRule_withoutLines rule

/-- The tokens among the parts of a tree. -/
theorem filterMap_token?_map_withoutLines (parts : List Tree) :
    (parts.map withoutLines).filterMap token? =
      (parts.filterMap token?).map Token.withoutLine := by
  rw [List.filterMap_map, List.map_filterMap]
  exact congrArg (parts.filterMap ·) (funext token?_withoutLines)

end Tree

/-! ## Expressions -/

namespace Expression

variable (tree : Tree) (readings : List Reading)

theorem readingAt_withoutLines (index : Nat) (rule : Rule) :
    readingAt tree.withoutLines readings index rule = readingAt tree readings index rule := by
  unfold readingAt
  rw [Tree.group_withoutLines, Tree.construct_withoutLines, except_bind_map]

theorem expressionAt_withoutLines (index : Nat) (rule : Rule) :
    expressionAt tree.withoutLines readings index rule = expressionAt tree readings index rule := by
  unfold expressionAt
  rw [readingAt_withoutLines]

theorem operations_withoutLines (left : Expression) (index : Nat) (later : List Tree) :
    operations tree.withoutLines readings left index (later.map Tree.withoutLines) =
      operations tree readings left index later := by
  induction left, index, later using operations.induct tree readings with
  | case1 left index => rfl
  | case2 left index part later error missing =>
    rw [List.map_cons, operations, operations, Tree.terminal_withoutLines, missing]
    rfl
  | case3 left index part token found =>
    rw [List.map_cons, operations, operations, Tree.terminal_withoutLines, found]
    simp [expressionAt_withoutLines, Except.map, Token.withoutLine]
  | case4 left index part token found right whole next rest ih =>
    rw [List.map_cons, operations, operations, Tree.terminal_withoutLines, found]
    simp only [Except.map, expressionAt_withoutLines, List.map_cons]
    exact ih

theorem callOf_withoutLines : callOf tree.withoutLines readings = callOf tree readings := by
  unfold callOf
  simp only [Tree.child_withoutLines, Tree.terminal_withoutLines, except_bind_map,
    Tree.isSymbol_withoutLines, readingAt_withoutLines, Token.withoutLine]

theorem termOf_withoutLines (token : Token) :
    termOf tree.withoutLines readings token.withoutLine = termOf tree readings token := by
  unfold termOf
  simp only [expressionAt_withoutLines, Tree.children_withoutLines, List.length_map,
    Token.withoutLine]
  rfl

theorem assemble_withoutLines : assemble tree.withoutLines readings = assemble tree readings := by
  unfold assemble
  rw [Tree.rule?_withoutLines]
  split
  · rw [expressionAt_withoutLines, Tree.children_withoutLines, ← List.map_drop,
      operations_withoutLines]
  · rw [Tree.child_withoutLines]
    cases tree.child 0 with
    | error error => rfl
    | ok first =>
      cases first with
      | leaf token => exact termOf_withoutLines tree readings token
      | node rule children =>
        show orFlaw ((Tree.node rule children).withoutLines.expect .subroutineCall >>= _) = _
        rw [Tree.expect_withoutLines, except_bind_map, Tree.construct_withoutLines]
  · rw [callOf_withoutLines]
  · rw [Tree.construct_withoutLines]

theorem read_withoutLines : read tree.withoutLines = read tree := by
  induction tree with
  | leaf token => rfl
  | node rule children ih =>
    have same : readAll (children.map Tree.withoutLines) = readAll children := by
      rw [readAll_eq_map, readAll_eq_map, List.map_map]
      exact List.map_congr_left ih
    rw [Tree.withoutLines_node, read, read, same, ← Tree.withoutLines_node, assemble_withoutLines]
    congr 1
    rw [List.zip_map_left, List.filterMap_map]
    congr 1
    funext part
    simp

theorem ofTree_withoutLines : ofTree tree.withoutLines = ofTree tree :=
  congrArg Reading.expression (read_withoutLines tree)

end Expression

/-! ## Statements -/

namespace Statement

variable (tree : Tree) (readings : List Reading)

theorem expressionAt_withoutLines (index : Nat) :
    expressionAt tree.withoutLines index = expressionAt tree index := by
  unfold expressionAt
  rw [Tree.group_withoutLines]
  cases tree.group index .expression with
  | error error => rfl
  | ok part =>
    exact congrArg (fun value => Expression.orFlaw (.ok value))
      (Expression.ofTree_withoutLines part)

theorem blockAt_withoutLines (index : Nat) :
    blockAt tree.withoutLines readings index = blockAt tree readings index := by
  unfold blockAt
  rw [Tree.group_withoutLines, Tree.construct_withoutLines, except_bind_map]

theorem letOf_withoutLines : letOf tree.withoutLines = letOf tree := by
  unfold letOf
  simp only [Tree.terminal_withoutLines, Tree.child_withoutLines, except_bind_map,
    Tree.isSymbol_withoutLines, expressionAt_withoutLines, Token.withoutLine]

theorem ifOf_withoutLines : ifOf tree.withoutLines readings = ifOf tree readings := by
  unfold ifOf
  simp only [Tree.group_withoutLines, except_bind_map, Tree.children_withoutLines,
    List.getElem?_map, blockAt_withoutLines, Expression.ofTree_withoutLines]
  cases tree.children[7]? with
  | none => rfl
  | some part => simp only [Option.map_some, Tree.isToken_withoutLines]

theorem whileOf_withoutLines : whileOf tree.withoutLines readings = whileOf tree readings := by
  unfold whileOf
  simp only [Tree.group_withoutLines, except_bind_map, blockAt_withoutLines,
    Expression.ofTree_withoutLines]

theorem doOf_withoutLines : doOf tree.withoutLines = doOf tree := by
  unfold doOf
  simp only [Tree.group_withoutLines, except_bind_map, Expression.ofTree_withoutLines]

theorem returnOf_withoutLines : returnOf tree.withoutLines = returnOf tree := by
  unfold returnOf
  simp only [Tree.child_withoutLines, except_bind_map, Tree.isRule_withoutLines,
    Expression.ofTree_withoutLines]

theorem assemble_withoutLines : assemble tree.withoutLines readings = assemble tree readings := by
  unfold assemble
  rw [Tree.rule?_withoutLines, letOf_withoutLines, ifOf_withoutLines, whileOf_withoutLines,
    doOf_withoutLines, returnOf_withoutLines]

theorem read_withoutLines : read tree.withoutLines = read tree := by
  induction tree with
  | leaf token => rfl
  | node rule children ih =>
    have same : readAll (children.map Tree.withoutLines) = readAll children := by
      rw [readAll_eq_map, readAll_eq_map, List.map_map]
      exact List.map_congr_left ih
    rw [Tree.withoutLines_node, read, read, same, ← Tree.withoutLines_node, assemble_withoutLines]

theorem blockOfTree_withoutLines : blockOfTree tree.withoutLines = blockOfTree tree :=
  congrArg Reading.block (read_withoutLines tree)

end Statement

/-! ## Classes -/

section Class

variable (tree : Tree)

theorem Declaration.ofTree_withoutLines : ofTree tree.withoutLines = ofTree tree := by
  unfold ofTree
  simp only [Tree.terminal_withoutLines, except_bind_map, Tree.children_withoutLines,
    ← List.map_drop, Tree.filterMap_token?_map_withoutLines, List.filter_map, List.map_map]
  rfl

theorem Parameter.ofTokens_map_withoutLine (tokens : List Token) :
    ofTokens (tokens.map Token.withoutLine) = ofTokens tokens := by
  induction tokens using ofTokens.induct with
  | case1 => rfl
  | case2 token => rfl
  | case3 type name rest ih =>
    rw [List.map_cons, List.map_cons, ofTokens, ofTokens, ih]
    rfl

theorem Parameter.listOfTree_withoutLines : listOfTree tree.withoutLines = listOfTree tree := by
  unfold listOfTree
  rw [Tree.children_withoutLines, Tree.filterMap_token?_map_withoutLines, List.filter_map]
  exact ofTokens_map_withoutLine _

theorem BodyPart.ofTree?_withoutLines : ofTree? tree.withoutLines = ofTree? tree := by
  cases tree with
  | leaf token => rfl
  | node rule children =>
    rw [Tree.withoutLines_node]
    cases rule with
    | varDec =>
      rw [ofTree?, ofTree?, ← Tree.withoutLines_node, Declaration.ofTree_withoutLines]
    | statements =>
      rw [ofTree?, ofTree?, ← Tree.withoutLines_node, Statement.blockOfTree_withoutLines]
    | _ => rfl

theorem Subroutine.ofTree_withoutLines : ofTree tree.withoutLines = ofTree tree := by
  unfold ofTree
  simp only [Tree.terminal_withoutLines, Tree.group_withoutLines, except_bind_map,
    Token.withoutLine, Parameter.listOfTree_withoutLines, Tree.children_withoutLines,
    List.filterMap_map, Function.comp_def, BodyPart.ofTree?_withoutLines]

theorem Member.ofTree_withoutLines : ofTree tree.withoutLines = ofTree tree := by
  unfold ofTree
  rw [Tree.terminal_withoutLines, except_bind_map, Subroutine.ofTree_withoutLines]
  rfl

namespace Class

theorem variablesOfTree_withoutLines :
    variablesOfTree tree.withoutLines = variablesOfTree tree := by
  unfold variablesOfTree
  rw [Tree.terminal_withoutLines, except_bind_map, Declaration.ofTree_withoutLines]
  rfl

theorem nameOfTree_withoutLines : nameOfTree tree.withoutLines = nameOfTree tree := by
  unfold nameOfTree
  simp only [Tree.expect_withoutLines, Tree.terminal_withoutLines, except_bind_map,
    Token.withoutLine]

theorem ofTree_withoutLines : ofTree tree.withoutLines = ofTree tree := by
  unfold ofTree
  simp only [nameOfTree_withoutLines, Tree.groups_withoutLines, List.map_map, Function.comp_def,
    variablesOfTree_withoutLines, Member.ofTree_withoutLines]

end Class

theorem generate_withoutLines : generate tree.withoutLines = generate tree := by
  unfold generate
  rw [Class.ofTree_withoutLines]

end Class

/-! ## Markup -/

namespace Tree

theorem markupOfList_eq_join (depth : Nat) (trees : List Tree) :
    markupOfList depth trees = String.join (trees.map (markupAt depth)) := by
  induction trees with
  | nil => rfl
  | cons tree later ih => rw [markupOfList, ih, List.map_cons, String.join_cons]

theorem markupAt_withoutLines (depth : Nat) (tree : Tree) :
    markupAt depth tree.withoutLines = markupAt depth tree := by
  induction tree generalizing depth with
  | leaf token => rfl
  | node rule children ih =>
    have same : markupOfList (depth + 1) (children.map withoutLines) =
        markupOfList (depth + 1) children := by
      rw [markupOfList_eq_join, markupOfList_eq_join, List.map_map]
      exact congrArg String.join (List.map_congr_left fun part among => ih part among (depth + 1))
    rw [withoutLines_node, markupAt, markupAt, same]

theorem markup_withoutLines (tree : Tree) : tree.withoutLines.markup = tree.markup :=
  markupAt_withoutLines 0 tree

end Tree

/-! ## Outcomes up to lines -/

/-- Two outcomes with the same value, or with the same error on lines that may differ. -/
inductive SameUpToLine {α : Type} : Except CompileError α → Except CompileError α → Prop where
  | ok (value : α) : SameUpToLine (.ok value) (.ok value)
  | error {one two : CompileError} (same : one.withoutLine = two.withoutLine) :
      SameUpToLine (.error one) (.error two)

/-- What is read from a tree without looking at lines is the same for two texts that parse to the
same up to lines. -/
theorem sameUpToLine_bind {α : Type} {x y : Except CompileError Tree}
    {f : Tree → Except CompileError α} (blind : ∀ tree, f tree.withoutLines = f tree)
    (same : unlined Tree.withoutLines x = unlined Tree.withoutLines y) :
    SameUpToLine (x >>= f) (y >>= f) := by
  cases x with
  | ok tree =>
    cases y with
    | ok tree' =>
      have alike : f tree = f tree' := by
        rw [← blind tree, ← blind tree', Except.ok.inj same]
      show SameUpToLine (f tree) (f tree')
      rw [alike]
      cases f tree' with
      | ok value => exact .ok value
      | error error => exact .error rfl
    | error error => cases same
  | error one =>
    cases y with
    | ok tree => cases same
    | error two => exact .error (Except.error.inj same)

/-- Tokens with the same classes and texts are the same without their lines. -/
theorem map_withoutLine_eq {tokens tokens' : List Token}
    (same : tokens.map (fun token => (token.kind, token.text)) =
      tokens'.map fun token => (token.kind, token.text)) :
    tokens.map Token.withoutLine = tokens'.map Token.withoutLine := by
  have rebuilt (list : List Token) : list.map Token.withoutLine =
      (list.map fun token => (token.kind, token.text)).map fun pair => ⟨pair.1, pair.2, 0⟩ := by
    rw [List.map_map]
    rfl
  rw [rebuilt, rebuilt, same]

/-- A source text with the same tokens but for their lines compiles to the same class and the same
code and has the same markup, or fails with the same error but for its line. -/
theorem sameUpToLine_of_tokens {source source' : String} {tokens tokens' : List Token}
    (reads : (tokenize source).result = .ok tokens)
    (reads' : (tokenize source').result = .ok tokens')
    (same : tokens.map (fun token => (token.kind, token.text)) =
      tokens'.map fun token => (token.kind, token.text)) :
    SameUpToLine (compile source).result (compile source').result ∧
      SameUpToLine (parseToMarkup source).result (parseToMarkup source').result := by
  have parses (source : String) (tokens : List Token)
      (reads : (tokenize source).result = .ok tokens) :
      (parse source).result = (parseTokens tokens).result := by
    rw [parse, Logged.result_bind, reads]
    rfl
  have trees : unlined Tree.withoutLines (parse source).result =
      unlined Tree.withoutLines (parse source').result := by
    rw [parses _ _ reads, parses _ _ reads', ← result_parseTokens_withoutLine,
      ← result_parseTokens_withoutLine, map_withoutLine_eq same]
  constructor
  · rw [compile, compile, Logged.result_bind, Logged.result_bind]
    refine sameUpToLine_bind (fun tree => ?_) trees
    simp only [Logged.result_bind, Logged.result_liftM, Class.nameOfTree_withoutLines,
      generate_withoutLines]
  · rw [parseToMarkup, parseToMarkup, Logged.result_bind, Logged.result_bind]
    exact sameUpToLine_bind (fun tree => congrArg Except.ok tree.markup_withoutLines) trees

/-- A class on one line, and the same class over several lines with comments, which has one brace
too many in both texts: the error names line 1 and line 4. -/
theorem sameUpToLine_of_tokens_extraBrace :
    let oneLine := "class A \x7b static int a; \x7d \x7d"
    let spread := "// A class.\nclass A \x7b static int a; /* an\ninteger */\n\x7d\x7d"
    (compile oneLine).result = .error (.unexpectedToken 1 "\x7d" .endOfInput) ∧
      (compile spread).result = .error (.unexpectedToken 4 "\x7d" .endOfInput) ∧
      SameUpToLine (compile oneLine).result (compile spread).result ∧
      SameUpToLine (parseToMarkup oneLine).result (parseToMarkup spread).result := by
  intro oneLine spread
  have reads : (tokenize oneLine).result = .ok [⟨.keyword, "class", 1⟩, ⟨.identifier, "A", 1⟩,
      ⟨.symbol, "\x7b", 1⟩, ⟨.keyword, "static", 1⟩, ⟨.keyword, "int", 1⟩, ⟨.identifier, "a", 1⟩,
      ⟨.symbol, ";", 1⟩, ⟨.symbol, "\x7d", 1⟩, ⟨.symbol, "\x7d", 1⟩] := by decide +kernel
  have readsSpread : (tokenize spread).result = .ok [⟨.keyword, "class", 2⟩, ⟨.identifier, "A", 2⟩,
      ⟨.symbol, "\x7b", 2⟩, ⟨.keyword, "static", 2⟩, ⟨.keyword, "int", 2⟩, ⟨.identifier, "a", 2⟩,
      ⟨.symbol, ";", 2⟩, ⟨.symbol, "\x7d", 4⟩, ⟨.symbol, "\x7d", 4⟩] := by decide +kernel
  exact ⟨by decide +kernel, by decide +kernel, sameUpToLine_of_tokens reads readsSpread rfl⟩

end JackCompiler
