import JackCompiler.Proofs.Syntax.Nesting
import JackCompiler.Proofs.Syntax.Reading
import JackCompiler.Proofs.Syntax.Soundness

/-!
# Completeness of the parser

Every derivation tree is read back from its own tokens (`Tree.Derivation.read`). At most two tokens
decide how the parser goes on, and what may follow a construct (`Rule.Follows`) never lets it go on
too far.

Together with soundness this gives `parseTokens_ok_iff_derivation`: the parser accepts exactly its
grammar and gives back the only derivation tree.
-/

set_option autoImplicit false

namespace JackCompiler

/-! ## What stands in front of a construct and behind it -/

namespace Rule

/-- The keywords that a construct begins with, for the constructs that begin with one. -/
def openings : Rule → List String
  | classDec => ["class"]
  | classVarDec => ["static", "field"]
  | subroutineDec => ["constructor", "function", "method"]
  | varDec => ["var"]
  | letStatement => ["let"]
  | ifStatement => ["if"]
  | whileStatement => ["while"]
  | doStatement => ["do"]
  | returnStatement => ["return"]
  | _ => []

/-- The symbols that stand behind an expression. -/
def closingSymbols : List String := [")", "]", ";", ","]

/-- What stands behind a construct, as far as it matters to where the construct ends. -/
def Follows : Rule → List Token → Prop
  | parameterList, ahead => Begins .symbol [")"] ahead
  | statements, ahead => Begins .symbol ["\x7d"] ahead
  | ifStatement, ahead => ¬ Begins .keyword ["else"] ahead
  | expression, ahead => Begins .symbol closingSymbols ahead
  | term, ahead => Begins .symbol (closingSymbols ++ Tree.binarySymbols) ahead
  | expressionList, ahead => Begins .symbol [")"] ahead
  | _, _ => True

/-- What the references of a grammar mean when rules are nested no deeper than a bound. -/
abbrev entering (depth : Nat) : Rule → Parser := fun inner => .single (parseWithin depth inner)

/-- Whether the next tokens show that a rule fails, seen through so many nested rules. -/
def rejectsWithin : Nat → Rule → List Token → Bool
  | 0, _, _ => false
  | steps + 1, rule, ahead => rule.production.rejects (rejectsWithin steps) ahead

/-- A rule fails on what it rejects, however deep rules may be nested. -/
theorem refuses_of_rejectsWithin (steps depth : Nat) (rule : Rule) (ahead : List Token)
    (h : rule.rejectsWithin steps ahead = true) :
    Grammar.Refuses (entering depth) (.rule rule) ahead := by
  induction steps generalizing depth rule ahead with
  | zero => simp [rejectsWithin] at h
  | succ steps ih =>
    intro position
    cases depth with
    | zero => exact ⟨_, rfl⟩
    | succ depth =>
      obtain ⟨error, failed⟩ :=
        Grammar.refuses_of_rejects (ih depth) rule.production ahead h position
      refine ⟨error, ?_⟩
      simp only [Grammar.parser, Parser.single, parseWithin, Logged.result_map]
      rw [failed]
      rfl

/-- A grammar fails on what it rejects. No rule of the language needs to be looked through deeper
than to the call that an expression may begin with. -/
theorem refuses {depth : Nat} {grammar : Grammar Rule} {ahead : List Token}
    (h : grammar.rejects (rejectsWithin 3) ahead = true) :
    Grammar.Refuses (entering depth) grammar ahead :=
  Grammar.refuses_of_rejects (refuses_of_rejectsWithin 3 depth) grammar ahead h

theorem exists_production_eq {rule : Rule} (opens : rule.openings ≠ []) :
    ∃ later, rule.production = .sequence (.keyword rule.openings :: later) := by
  cases rule <;> first | exact ⟨_, rfl⟩ | exact absurd rfl opens

/-- A construct that begins with a keyword fails where no such keyword stands. -/
theorem refuses_of_not_begins {depth : Nat} {rule : Rule} {ahead : List Token}
    (opens : rule.openings ≠ []) (other : ¬ Begins .keyword rule.openings ahead) :
    Grammar.Refuses (entering depth) (.rule rule) ahead := by
  apply refuses_of_rejectsWithin 1 depth rule ahead
  obtain ⟨later, opening⟩ := exists_production_eq opens
  rw [rejectsWithin, opening]
  exact Grammar.rejects_of_not_begins opens other

end Rule

namespace Tree

/-- A construct that begins with a keyword begins with one of its own. -/
theorem Derivation.begins {tree : Tree} {rule : Rule} (derives : tree.Derivation)
    (isRule : tree.rule? = some rule) (opens : rule.openings ≠ []) (rest : List Token) :
    Begins .keyword rule.openings (tree.tokens ++ rest) := by
  cases derives <;> cases isRule
  case classVarDec kind text l₁ l₂ l₃ isKind isType further =>
    exact ⟨kind, l₁, _, rfl, isKind⟩
  case subroutineDec kind text l₁ l₂ l₃ l₄ isKind isResult parametersDerive bodyDerives =>
    exact ⟨kind, l₁, _, rfl, isKind⟩
  all_goals first | exact absurd rfl opens | exact .only _ _

theorem Derivation.begins_statement {tree : Tree} (derives : tree.Derivation)
    (isStatement : tree.IsStatement) (rest : List Token) :
    Begins .keyword ["let", "if", "while", "do", "return"] (tree.tokens ++ rest) := by
  simp only [IsStatement, List.mem_cons, List.not_mem_nil, or_false] at isStatement
  rcases isStatement with isRule | isRule | isRule | isRule | isRule <;>
  · obtain ⟨text, line, later, eq, among⟩ := derives.begins isRule (by decide) rest
    refine ⟨text, line, later, eq, ?_⟩
    simp only [Rule.openings, List.mem_singleton] at among
    simp [among]

end Tree

/-! ## Reading derivation trees back -/

namespace Tree

open Grammar Rule

/-- Whether a tree is read back from its tokens, if rules may be nested as deep as in the tree and
what follows does not belong to it. -/
def ReadBack (tree : Tree) : Prop :=
  ∀ depth rule rest, tree.rule? = some rule → tree.nesting ≤ depth → rule.Follows rest →
    Reads (entering depth) (.rule rule) [tree] rest

variable {depth : Nat} {rest : List Token}

/-- A node is read back if its parts are read by the production of its rule. -/
theorem ReadBack.node {rule : Rule} {children : List Tree}
    (parts : ∀ depth rest, nestingOfList children ≤ depth → rule.Follows rest →
      Reads (entering depth) rule.production children rest) :
    (Tree.node rule children).ReadBack := by
  intro depth found rest isRule deep follows position
  cases isRule
  cases depth with
  | zero => simp at deep
  | succ depth =>
    have inside := parts depth rest (by simpa using deep) follows position
    simp only [parser_rule, Parser.single, parseWithin, Logged.result_map, tokensOfList_cons,
      tokens_node, tokensOfList_nil, List.append_nil]
    rw [inside]
    rfl

/-- A node that is read back, as a part of another construct. -/
theorem ReadBack.reads {rule : Rule} {children : List Tree}
    (back : (Tree.node rule children).ReadBack) (deep : nestingOfList children + 1 ≤ depth)
    (follows : rule.Follows rest) :
    Reads (entering depth) (.rule rule) [.node rule children] rest :=
  back depth rule rest rfl deep follows

/-- Further names are read to the end, where no comma follows. -/
theorem FurtherNames.reads {trees : List Tree} (names : FurtherNames trees)
    (ends : ¬ Begins .symbol [","] rest) :
    Reads (entering depth) furtherNames trees rest := by
  induction names with
  | nil =>
    exact .done (refuses (rejects_of_not_begins (by simp) ends))
  | cons comma text line names ih =>
    refine .round [.symbol "," comma, .identifier text line] ?_ (by simp) ih
    exact .cons (.oneSymbol comma) (.cons (.identifier text line) .nil)

theorem FurtherParameters.reads {trees : List Tree} (parameters : FurtherParameters trees)
    (ends : ¬ Begins .symbol [","] rest) :
    Reads (entering depth) (.many (.sequence [Grammar.symbol [","], typeName, Grammar.identifier]))
      trees rest := by
  induction parameters with
  | nil => exact .done (refuses (rejects_of_not_begins (by simp) ends))
  | @cons type later comma isType text line parameters ih =>
    refine .round [.symbol "," comma, type, .identifier text line] ?_ (by simp) ih
    exact .cons (.oneSymbol comma) (.cons (.typeName isType)
      (.cons (.identifier text line) .nil))

/-- The constructs of a repeated rule that begins with a keyword are read to the end, where no such
keyword follows. -/
theorem reads_many_rule {rule : Rule} {trees : List Tree} (opens : rule.openings ≠ [])
    (follows : ∀ ahead, rule.Follows ahead) (areRules : ∀ tree ∈ trees, tree.rule? = some rule)
    (derive : ∀ tree ∈ trees, tree.Derivation) (back : ∀ tree ∈ trees, tree.ReadBack)
    (deep : nestingOfList trees ≤ depth) (ends : ¬ Begins .keyword rule.openings rest) :
    Reads (entering depth) (.many (.rule rule)) trees rest := by
  induction trees with
  | nil => exact .done (refuses_of_not_begins opens ends)
  | cons tree later ih =>
    rw [List.forall_mem_cons] at areRules derive back
    rw [nestingOfList_cons] at deep
    refine .round [tree] ?_ ?_ (ih areRules.2 derive.2 back.2 (by omega))
    · exact back.1 depth rule _ areRules.1 (by omega) (follows _)
    · exact (derive.1.begins areRules.1 opens []).ne_nil

/-- Behind a part of a chain stands a symbol that joins it to the next one, or the end. -/
theorem follows_chain {rule : Rule} {texts : List String} {parts : List (String × Nat × Tree)}
    (areSymbols : ∀ part ∈ parts, part.1 ∈ texts)
    (joins : ∀ ahead, Begins .symbol texts ahead → rule.Follows ahead)
    (closes : rule.Follows rest) :
    rule.Follows (tokensOfList
      (parts.flatMap fun part => [Tree.symbol part.1 part.2.1, part.2.2]) ++ rest) := by
  cases parts with
  | nil => exact closes
  | cons part later =>
    exact joins _ ⟨part.1, part.2.1, _, rfl, areSymbols part List.mem_cons_self⟩

/-- A chain is read to the end, where no symbol that joins its parts follows. -/
theorem reads_chain {rule : Rule} {texts : List String} {first : Tree}
    {parts : List (String × Nat × Tree)} (restricted : texts ≠ [])
    (areSymbols : ∀ part ∈ parts, part.1 ∈ texts) (firstIsRule : first.rule? = some rule)
    (areRules : ∀ part ∈ parts, part.2.2.rule? = some rule) (firstBack : first.ReadBack)
    (back : ∀ part ∈ parts, part.2.2.ReadBack) (deep : nestingOfList (chain first parts) ≤ depth)
    (joins : ∀ ahead, Begins .symbol texts ahead → rule.Follows ahead)
    (closes : rule.Follows rest) (ends : ¬ Begins .symbol texts rest) :
    Reads (entering depth)
      (.sequence [.rule rule, .many (.sequence [Grammar.symbol texts, .rule rule])])
      (chain first parts) rest := by
  have one : Reads (entering depth) (.rule rule) [first] (tokensOfList
      (parts.flatMap fun part => [Tree.symbol part.1 part.2.1, part.2.2]) ++ rest) := by
    refine firstBack depth rule _ firstIsRule ?_ (follows_chain areSymbols joins closes)
    exact Nat.le_trans (nesting_le_nestingOfList List.mem_cons_self) deep
  have others : Reads (entering depth) (.many (.sequence [Grammar.symbol texts, .rule rule]))
      (parts.flatMap fun part => [Tree.symbol part.1 part.2.1, part.2.2]) rest := by
    rw [chain, nestingOfList_cons] at deep
    clear one
    induction parts with
    | nil => exact .done (refuses (rejects_of_not_begins restricted ends))
    | cons part later ih =>
      rw [List.forall_mem_cons] at areSymbols areRules back
      simp only [List.flatMap_cons, nestingOfList_append, nestingOfList_cons] at deep
      refine .round [.symbol part.1 part.2.1, part.2.2] ?_ (by simp)
        (ih areSymbols.2 areRules.2 back.2 (by omega))
      refine .cons (.symbol _ areSymbols.1) (.cons ?_ .nil)
      exact back.1 depth rule _ areRules.1 (by omega) (follows_chain areSymbols.2 joins closes)
  rw [chain, ← List.append_nil (parts.flatMap _)]
  exact .cons (by simpa using one) (.append _ (by simpa using others) .nil)

/-- The choice of a statement: the keyword in front decides it. -/
theorem reads_statement {tree : Tree} (isStatement : tree.IsStatement)
    (derives : tree.Derivation) (back : tree.ReadBack) (deep : tree.nesting ≤ depth)
    (ends : ¬ Begins .keyword ["else"] rest) :
    Reads (entering depth) (.alternatives [.rule .letStatement, .rule .ifStatement,
      .rule .whileStatement, .rule .doStatement, .rule .returnStatement]) [tree] rest := by
  have other {rule found : Rule} (isRule : tree.rule? = some found) (opens : found.openings ≠ [])
      (opens' : rule.openings ≠ []) (apart : ∀ text ∈ found.openings, text ∉ rule.openings) :
      Refuses (entering depth) (.rule rule) (tokensOfList [tree] ++ rest) := by
    apply refuses_of_not_begins opens'
    have begins := derives.begins isRule opens rest
    simpa using begins.not_begins (.inr apart)
  simp only [IsStatement, List.mem_cons, List.not_mem_nil, or_false] at isStatement
  rcases isStatement with isRule | isRule | isRule | isRule | isRule
  · exact .here (back depth _ rest isRule deep trivial)
  · exact .there (other isRule (by decide) (by decide) (by decide))
      (.here (back depth _ rest isRule deep ends))
  · exact .there (other isRule (by decide) (by decide) (by decide))
      (.there (other isRule (by decide) (by decide) (by decide))
      (.here (back depth _ rest isRule deep trivial)))
  · exact .there (other isRule (by decide) (by decide) (by decide))
      (.there (other isRule (by decide) (by decide) (by decide))
      (.there (other isRule (by decide) (by decide) (by decide))
      (.here (back depth _ rest isRule deep trivial))))
  · exact .there (other isRule (by decide) (by decide) (by decide))
      (.there (other isRule (by decide) (by decide) (by decide))
      (.there (other isRule (by decide) (by decide) (by decide))
      (.there (other isRule (by decide) (by decide) (by decide))
      (.here (back depth _ rest isRule deep trivial)))))

theorem reads_statements {block : List Tree} (areStatements : ∀ tree ∈ block, tree.IsStatement)
    (derive : ∀ tree ∈ block, tree.Derivation) (back : ∀ tree ∈ block, tree.ReadBack)
    (deep : nestingOfList block ≤ depth) (closes : Begins .symbol ["\x7d"] rest) :
    Reads (entering depth) (production .statements) block rest := by
  induction block with
  | nil =>
    obtain ⟨text, line, ahead, rfl, -⟩ := closes
    exact .done (refuses rfl)
  | cons tree later ih =>
    rw [List.forall_mem_cons] at areStatements derive back
    rw [nestingOfList_cons] at deep
    refine .round [tree] ?_ ?_ (ih areStatements.2 derive.2 back.2 (by omega))
    · apply reads_statement areStatements.1 derive.1 back.1 (by omega)
      cases later with
      | nil => exact closes.not_begins (.inl (by decide))
      | cons next others =>
        have begins := (derive.2 next List.mem_cons_self).begins_statement
          (areStatements.2 next List.mem_cons_self) (tokensOfList others ++ rest)
        rw [tokensOfList_cons, List.append_assoc]
        exact begins.not_begins (.inr (by decide))
    · exact (derive.1.begins_statement areStatements.1 []).ne_nil

/-- In front of a block no variable is declared. -/
theorem Derivation.not_begins_var {block : List Tree} (l : Nat)
    (derives : (Tree.node .statements block).Derivation) :
    ¬ Begins .keyword ["var"]
      (tokensOfList [.node .statements block, .symbol "\x7d" l] ++ rest) := by
  cases derives with
  | statements areStatements derive =>
    cases block with
    | nil => exact Begins.not_begins (.only _ _) (.inl (by decide))
    | cons tree later =>
      have begins := (derive tree List.mem_cons_self).begins_statement
        (areStatements tree List.mem_cons_self)
        (tokensOfList later ++ (tokensOfList [.symbol "\x7d" l] ++ rest))
      simp only [tokensOfList_cons, tokens_node, List.append_assoc] at begins ⊢
      exact begins.not_begins (.inr (by decide))

theorem not_begins_classVarDec {subroutines : List Tree} (l : Nat)
    (areSubroutines : ∀ tree ∈ subroutines, tree.rule? = some .subroutineDec)
    (derive : ∀ tree ∈ subroutines, tree.Derivation) :
    ¬ Begins .keyword (openings .classVarDec)
      (tokensOfList (subroutines ++ [.symbol "\x7d" l]) ++ rest) := by
  cases subroutines with
  | nil => exact Begins.not_begins (.only _ _) (.inl (by decide))
  | cons tree later =>
    have begins := (derive tree List.mem_cons_self).begins
      (areSubroutines tree List.mem_cons_self) (by decide)
      (tokensOfList (later ++ [.symbol "\x7d" l]) ++ rest)
    rw [List.cons_append, tokensOfList_cons, List.append_assoc]
    exact begins.not_begins (.inr (by decide))

theorem IsResult.reads {result : Tree} (isResult : result.IsResult) :
    Reads (entering depth) (.alternatives [Grammar.keyword ["void"], typeName]) [result] rest := by
  cases isResult with
  | void line => exact .here (.oneKeyword line)
  | type isType =>
    refine .there ?_ (.here (.typeName isType))
    cases isType with
    | primitive text line among =>
      apply refuses
      have other : text ≠ "void" := by
        rintro rfl
        simp at among
      simpa [Grammar.keyword, rejects] using other
    | «class» text line => exact refuses rfl

/-- A name is read as a variable where no bracket and no dot follows. -/
theorem reads_variable (text : String) (l : Nat)
    (closes : Begins .symbol (closingSymbols ++ binarySymbols) rest) :
    Reads (entering depth) (production .term) [.identifier text l] rest := by
  have misfit (mark : String) (later : List (Grammar Rule)) (entry : Rule → List Token → Bool)
      (apart : mark ∉ closingSymbols ++ binarySymbols) :
      (Grammar.sequence (Grammar.identifier :: Grammar.symbol [mark] :: later)).rejects entry
        (⟨.identifier, text, l⟩ :: rest) = true := by
    apply rejects_behind_identifier text l (List.cons_ne_nil _ _)
    apply closes.not_begins
    exact .inr fun found among same => apart (List.mem_singleton.mp same ▸ among)
  have call : Refuses (entering depth) (.rule .subroutineCall)
      (tokensOfList [.identifier text l] ++ rest) := by
    apply refuses
    show (rejects _ _ _ && (rejects _ _ _ && true)) = true
    rw [Bool.and_true, Bool.and_eq_true]
    exact ⟨misfit "(" _ _ (by decide), misfit "." _ _ (by decide)⟩
  have element : Refuses (entering depth) (.sequence [Grammar.identifier, Grammar.symbol ["["],
      .rule .expression, Grammar.symbol ["]"]]) (tokensOfList [.identifier text l] ++ rest) :=
    refuses (misfit "[" _ _ (by decide))
  exact .there (refuses rfl) (.there (refuses rfl) (.there (refuses rfl) (.there (refuses rfl)
    (.there (refuses rfl) (.there call (.there element (.here (.identifier text l))))))))

/-- Every derivation tree is read back. -/
theorem Derivation.readBack {tree : Tree} (derives : tree.Derivation) : tree.ReadBack := by
  induction derives with
  | @classDec declared subroutines text l₁ l₂ l₃ l₄ areVariables areSubroutines variablesDerive
      subroutinesDerive variablesBack subroutinesBack =>
    apply ReadBack.node
    intro depth rest deep _
    simp only [nestingOfList_append, nestingOfList_cons, Nat.max_le] at deep
    have noSubroutine : ¬ Begins .keyword (openings .subroutineDec)
        (tokensOfList [.symbol "\x7d" l₄] ++ rest) :=
      Begins.not_begins (.only _ _) (.inl (by decide))
    rw [List.append_assoc, List.append_assoc]
    refine .cons (.oneKeyword l₁) (.cons (.identifier text l₂) (.cons (.oneSymbol l₃)
      (.append declared ?_ (.append subroutines ?_ (.cons (.oneSymbol l₄) .nil)))))
    · exact reads_many_rule (by decide) (fun _ => trivial) areVariables variablesDerive
        variablesBack (by omega)
        (not_begins_classVarDec l₄ areSubroutines subroutinesDerive)
    · exact reads_many_rule (by decide) (fun _ => trivial) areSubroutines subroutinesDerive
        subroutinesBack (by omega) noSubroutine
  | @classVarDec type names kind text l₁ l₂ l₃ isKind isType further =>
    apply ReadBack.node
    intro depth rest deep _
    have ends : ¬ Begins .symbol [","] (tokensOfList [.symbol ";" l₃] ++ rest) :=
      Begins.not_begins (.only _ _) (.inr (by decide))
    rw [List.append_assoc]
    exact .cons (.keyword l₁ isKind) (.cons (.typeName isType) (.cons (.identifier text l₂)
      (.append names (further.reads ends) (.cons (.oneSymbol l₃) .nil))))
  | @subroutineDec result parameters body kind text l₁ l₂ l₃ l₄ isKind isResult parametersDerive
      bodyDerives parametersBack bodyBack =>
    apply ReadBack.node
    intro depth rest deep _
    simp only [nestingOfList_cons, nesting_node, Nat.max_le] at deep
    refine .cons (.keyword l₁ isKind) (.cons isResult.reads (.cons (.identifier text l₂)
      (.cons (.oneSymbol l₃) (.cons ?_ (.cons (.oneSymbol l₄) (.cons ?_ .nil))))))
    · exact parametersBack.reads (by omega) (Begins.only _ _)
    · exact bodyBack.reads (by omega) trivial
  | noParameters =>
    apply ReadBack.node
    intro depth rest deep closes
    obtain ⟨text, line, ahead, rfl, -⟩ := closes
    exact .absent (refuses rfl)
  | @parameters type later text l isType further =>
    apply ReadBack.node
    intro depth rest deep closes
    have ends : ¬ Begins .symbol [","] rest := closes.not_begins (.inr (by decide))
    refine .present (.append [type, .identifier text l] ?_ ?_)
    · exact .cons (.typeName isType) (.cons (.identifier text l) .nil)
    · rw [← List.append_nil later]
      exact .append later (further.reads ends) .nil
  | @subroutineBody declared block l₁ l₂ areVariables variablesDerive blockDerives variablesBack
      blockBack =>
    apply ReadBack.node
    intro depth rest deep _
    simp only [nestingOfList_append, nestingOfList_cons, nesting_node, Nat.max_le] at deep
    have ends : ¬ Begins .keyword (openings .varDec)
        (tokensOfList [.node .statements block, .symbol "\x7d" l₂] ++ rest) :=
      blockDerives.not_begins_var l₂
    rw [List.append_assoc]
    refine .cons (.oneSymbol l₁) (.append declared ?_ (.cons ?_
      (.cons (.oneSymbol l₂) .nil)))
    · exact reads_many_rule (by decide) (fun _ => trivial) areVariables variablesDerive
        variablesBack (by omega) ends
    · exact blockBack.reads (by omega) (Begins.only _ _)
  | @varDec type names text l₁ l₂ l₃ isType further =>
    apply ReadBack.node
    intro depth rest deep _
    have ends : ¬ Begins .symbol [","] (tokensOfList [.symbol ";" l₃] ++ rest) :=
      Begins.not_begins (.only _ _) (.inr (by decide))
    rw [List.append_assoc]
    exact .cons (.oneKeyword l₁) (.cons (.typeName isType) (.cons (.identifier text l₂)
      (.append names (further.reads ends) (.cons (.oneSymbol l₃) .nil))))
  | statements areStatements derive back =>
    apply ReadBack.node
    intro depth rest deep closes
    exact reads_statements areStatements derive back deep closes
  | letVariable text l₁ l₂ l₃ l₄ valueDerives valueBack =>
    apply ReadBack.node
    intro depth rest deep _
    simp only [nestingOfList_cons, nesting_node, Nat.max_le] at deep
    refine .cons (.oneKeyword l₁) (.cons (.identifier text l₂)
      (.append [] (.absent (refuses rfl)) (.cons (.oneSymbol l₃) (.cons ?_
      (.cons (.oneSymbol l₄) .nil)))))
    exact valueBack.reads (by omega) (Begins.head _ _ (by decide))
  | @letElement index value text l₁ l₂ l₃ l₄ l₅ l₆ indexDerives valueDerives indexBack valueBack =>
    apply ReadBack.node
    intro depth rest deep _
    simp only [nestingOfList_cons, nesting_node, Nat.max_le] at deep
    refine .cons (.oneKeyword l₁) (.cons (.identifier text l₂)
      (.append [.symbol "[" l₃, .node .expression index, .symbol "]" l₄]
      (.present (.cons (.oneSymbol l₃) (.cons ?_ (.cons (.oneSymbol l₄) .nil))))
      (.cons (.oneSymbol l₅) (.cons ?_ (.cons (.oneSymbol l₆) .nil)))))
    · exact indexBack.reads (by omega) (Begins.head _ _ (by decide))
    · exact valueBack.reads (by omega) (Begins.head _ _ (by decide))
  | @ifThen condition yes l₁ l₂ l₃ l₄ l₅ conditionDerives yesDerives conditionBack yesBack =>
    apply ReadBack.node
    intro depth rest deep noElse
    simp only [nestingOfList_cons, nesting_node, Nat.max_le] at deep
    refine .cons (.oneKeyword l₁) (.cons (.oneSymbol l₂) (.cons ?_
      (.cons (.oneSymbol l₃) (.cons (.oneSymbol l₄) (.cons ?_
      (.cons (.oneSymbol l₅) (.append [] (.absent (refuses ?_)) .nil)))))))
    · exact conditionBack.reads (by omega) (Begins.head _ _ (by decide))
    · exact yesBack.reads (by omega) (Begins.head _ _ (by decide))
    · exact rejects_of_not_begins (by simp) noElse
  | @ifElse condition yes no l₁ l₂ l₃ l₄ l₅ l₆ l₇ l₈ conditionDerives yesDerives noDerives
      conditionBack yesBack noBack =>
    apply ReadBack.node
    intro depth rest deep _
    simp only [nestingOfList_cons, nesting_node, Nat.max_le] at deep
    refine .cons (.oneKeyword l₁) (.cons (.oneSymbol l₂) (.cons ?_
      (.cons (.oneSymbol l₃) (.cons (.oneSymbol l₄) (.cons ?_
      (.cons (.oneSymbol l₅) (.append [.keyword "else" l₆, .symbol "\x7b" l₇,
        .node .statements no, .symbol "\x7d" l₈] (.present (.cons (.oneKeyword l₆)
      (.cons (.oneSymbol l₇) (.cons ?_ (.cons (.oneSymbol l₈) .nil))))) .nil)))))))
    · exact conditionBack.reads (by omega) (Begins.head _ _ (by decide))
    · exact yesBack.reads (by omega) (Begins.head _ _ (by decide))
    · exact noBack.reads (by omega) (Begins.head _ _ (by decide))
  | whileStatement l₁ l₂ l₃ l₄ l₅ conditionDerives blockDerives conditionBack blockBack =>
    apply ReadBack.node
    intro depth rest deep _
    simp only [nestingOfList_cons, nesting_node, Nat.max_le] at deep
    refine .cons (.oneKeyword l₁) (.cons (.oneSymbol l₂) (.cons ?_
      (.cons (.oneSymbol l₃) (.cons (.oneSymbol l₄) (.cons ?_
      (.cons (.oneSymbol l₅) .nil))))))
    · exact conditionBack.reads (by omega) (Begins.head _ _ (by decide))
    · exact blockBack.reads (by omega) (Begins.head _ _ (by decide))
  | doStatement l₁ l₂ callDerives callBack =>
    apply ReadBack.node
    intro depth rest deep _
    simp only [nestingOfList_cons, nesting_node, Nat.max_le] at deep
    exact .cons (.oneKeyword l₁) (.cons (callBack.reads (by omega) trivial)
      (.cons (.oneSymbol l₂) .nil))
  | returnNothing l₁ l₂ =>
    apply ReadBack.node
    intro depth rest _ _
    exact .cons (.oneKeyword l₁) (.append [] (.absent (refuses rfl))
      (.cons (.oneSymbol l₂) .nil))
  | @returnValue value l₁ l₂ valueDerives valueBack =>
    apply ReadBack.node
    intro depth rest deep _
    simp only [nestingOfList_cons, nesting_node, Nat.max_le] at deep
    refine .cons (.oneKeyword l₁) (.append [.node .expression value] (.present ?_)
      (.cons (.oneSymbol l₂) .nil))
    exact valueBack.reads (by omega) (Begins.head _ _ (by decide))
  | expression firstIsTerm firstDerives areOperators areTerms derive firstBack back =>
    apply ReadBack.node
    intro depth rest deep closes
    refine reads_chain (by decide) areOperators firstIsTerm areTerms firstBack back deep ?_ ?_ ?_
    · exact fun ahead begins => begins.mono fun text among => List.mem_append_right _ among
    · exact closes.mono fun text among => List.mem_append_left _ among
    · exact closes.not_begins (.inr (by decide))
  | integer text l =>
    exact .node fun depth rest _ _ => .here (.terminal _ rfl (.inl rfl))
  | string text l =>
    exact .node fun depth rest _ _ => .there (refuses rfl) (.here (.terminal _ rfl (.inl rfl)))
  | constant text l isConstant =>
    exact .node fun depth rest _ _ => .there (refuses rfl) (.there (refuses rfl)
      (.here (.keyword l isConstant)))
  | «variable» text l =>
    exact .node fun depth rest _ closes => reads_variable text l closes
  | element text l₁ l₂ l₃ indexDerives indexBack =>
    apply ReadBack.node
    intro depth rest deep _
    simp only [nestingOfList_cons, nesting_node, Nat.max_le] at deep
    refine .there (refuses rfl) (.there (refuses rfl) (.there (refuses rfl) (.there (refuses rfl)
      (.there (refuses rfl) (.there (refuses rfl) (.here ?_))))))
    exact .cons (.identifier text l₁) (.cons (.oneSymbol l₂)
      (.cons (indexBack.reads (by omega) (Begins.head _ _ (by decide)))
      (.cons (.oneSymbol l₃) .nil)))
  | @call call callDerives callBack =>
    apply ReadBack.node
    intro depth rest deep _
    simp only [nestingOfList_cons, nesting_node, Nat.max_le] at deep
    have begins : ∃ name line ahead,
        tokensOfList [.node .subroutineCall call] ++ rest = ⟨.identifier, name, line⟩ :: ahead := by
      cases callDerives <;> exact ⟨_, _, _, rfl⟩
    obtain ⟨name, line, ahead, eq⟩ := begins
    refine .there ?_ (.there ?_ (.there ?_ (.there ?_ (.there ?_ (.here ?_)))))
    · exact eq ▸ refuses rfl
    · exact eq ▸ refuses rfl
    · exact eq ▸ refuses rfl
    · exact eq ▸ refuses rfl
    · exact eq ▸ refuses rfl
    · exact callBack.reads (by omega) trivial
  | parenthesized l₁ l₂ innerDerives innerBack =>
    apply ReadBack.node
    intro depth rest deep _
    simp only [nestingOfList_cons, nesting_node, Nat.max_le] at deep
    refine .there (refuses rfl) (.there (refuses rfl) (.there (refuses rfl) (.here ?_)))
    exact .cons (.oneSymbol l₁) (.cons
      (innerBack.reads (by omega) (Begins.head _ _ (by decide))) (.cons (.oneSymbol l₂) .nil))
  | @unary operand text l isOperator operandDerives operandBack =>
    apply ReadBack.node
    intro depth rest deep closes
    simp only [nestingOfList_cons, nesting_node, Nat.max_le] at deep
    refine .there (refuses rfl) (.there (refuses rfl) (.there (refuses rfl) (.there (refuses ?_)
      (.here ?_))))
    · apply rejects_of_not_begins (by simp)
      have begins : Begins .symbol unarySymbols
          (tokensOfList [.symbol text l, .node .term operand] ++ rest) :=
        .head _ _ isOperator
      exact begins.not_begins (.inr (by decide))
    · exact .cons (.symbol l isOperator) (.cons (operandBack.reads (by omega) closes) .nil)
  | ownCall name l₁ l₂ l₃ argumentsDerive argumentsBack =>
    apply ReadBack.node
    intro depth rest deep _
    simp only [nestingOfList_cons, nesting_node, Nat.max_le] at deep
    exact .here (.cons (.identifier name l₁) (.cons (.oneSymbol l₂)
      (.cons (argumentsBack.reads (by omega) (Begins.head _ _ (by decide)))
      (.cons (.oneSymbol l₃) .nil))))
  | qualifiedCall context name l₁ l₂ l₃ l₄ l₅ argumentsDerive argumentsBack =>
    apply ReadBack.node
    intro depth rest deep _
    simp only [nestingOfList_cons, nesting_node, Nat.max_le] at deep
    refine .there (refuses rfl) (.here ?_)
    exact .cons (.identifier context l₁) (.cons (.oneSymbol l₂)
      (.cons (.identifier name l₃) (.cons (.oneSymbol l₄)
      (.cons (argumentsBack.reads (by omega) (Begins.head _ _ (by decide)))
      (.cons (.oneSymbol l₅) .nil)))))
  | noArguments =>
    apply ReadBack.node
    intro depth rest _ closes
    obtain ⟨text, line, ahead, rfl, among⟩ := closes
    obtain rfl := List.mem_singleton.mp among
    exact .absent (refuses rfl)
  | @arguments first later firstIsExpression firstDerives areCommas areExpressions derive firstBack
      back =>
    refine .node fun depth rest deep closes => .present ?_
    have areCommas' : ∀ part ∈ later, part.1 ∈ [","] := fun part among =>
      List.mem_singleton.mpr (areCommas part among)
    refine reads_chain (by decide) areCommas' firstIsExpression areExpressions firstBack back deep
      ?_ ?_ ?_
    · exact fun ahead begins => begins.mono (by decide)
    · exact closes.mono (by decide)
    · exact closes.not_begins (.inr (by decide))

/-- A derivation tree of a rule is read from its own tokens, whatever stands in front of them and
whatever follows that does not belong to it. -/
theorem Derivation.read {tree : Tree} {rule : Rule} (derives : tree.Derivation)
    (isRule : tree.rule? = some rule) (follows : rule.Follows rest) (position : Nat) :
    (rule.parse ⟨position, tree.tokens ++ rest⟩).result =
      .ok (tree, ⟨position + tree.tokens.length, rest⟩) := by
  have deep : tree.nesting ≤ Rule.depth (tree.tokens ++ rest).length := by
    have bound := derives.nesting_le
    rw [Rule.depth, List.length_append]
    omega
  have back := derives.readBack _ rule rest isRule deep follows position
  simp only [parser_rule, Parser.single, Logged.result_map, tokensOfList_cons, tokensOfList_nil,
    List.append_nil] at back
  rw [Rule.parse]
  show (Rule.parseWithin (Rule.depth (tree.tokens ++ rest).length) rule
    ⟨position, tree.tokens ++ rest⟩).result = _
  generalize (Rule.parseWithin (Rule.depth (tree.tokens ++ rest).length) rule
    ⟨position, tree.tokens ++ rest⟩).result = outcome at back ⊢
  cases outcome with
  | error error => cases back
  | ok read =>
    obtain ⟨found, behind⟩ := read
    simp only [Except.map, Prod.map, id, Except.ok.injEq, Prod.mk.injEq, List.cons.injEq,
      and_true] at back
    obtain ⟨rfl, rfl⟩ := back
    rfl

end Tree

/-- A list of tokens is parsed as a tree exactly if the tree is a derivation tree of a class whose
tokens, read from left to right, are the list. No list of tokens has two such trees. -/
theorem parseTokens_ok_iff_derivation (tokens : List Token) :
    (∀ tree, (parseTokens tokens).result = .ok tree ↔
      tree.rule? = some .classDec ∧ tree.Derivation ∧ tree.tokens = tokens) ∧
    ∀ tree tree' : Tree, tree.rule? = some .classDec → tree.Derivation → tree.tokens = tokens →
      tree'.rule? = some .classDec → tree'.Derivation → tree'.tokens = tokens → tree = tree' := by
  have accepts (tree : Tree) (isClass : tree.rule? = some .classDec) (derives : tree.Derivation)
      (eq : tree.tokens = tokens) : (parseTokens tokens).result = .ok tree := by
    have read := @Tree.Derivation.read [] tree .classDec derives isClass trivial 0
    rw [List.append_nil, eq] at read
    simp [parseTokens, Cursor.start, read, bind]
  refine ⟨fun tree => ⟨fun h => ?_, fun ⟨isClass, derives, eq⟩ => accepts tree isClass derives eq⟩,
    ?_⟩
  · unfold parseTokens at h
    rw [Logged.result_bind] at h
    cases hp : (Rule.classDec.parse (.start tokens)).result with
    | error error => simp [hp, bind, Except.bind] at h
    | ok read =>
      obtain ⟨found, behind⟩ := read
      obtain ⟨consumed, isClass, derives⟩ := Rule.parseWithin_sound _ _ _ _ _ hp
      simp only [hp, bind, Except.bind] at h
      split at h
      · rename_i none
        simp only [Logged.result_pure, Except.ok.injEq] at h
        subst h
        have ahead := consumed.ahead
        simp only [Cursor.start, none, Tree.tokensOfList_cons, Tree.tokensOfList_nil,
          List.append_nil] at ahead
        exact ⟨isClass, derives, ahead.symm⟩
      · simp at h
  · intro tree tree' isClass derives eq isClass' derives' eq'
    have one := accepts tree isClass derives eq
    have other := accepts tree' isClass' derives' eq'
    rw [one] at other
    exact Except.ok.inj other

/-! ## A class with one function -/

/-- The expression `a[i] - f`. -/
def differenceExpression : Tree :=
  .node .expression (Tree.chain
    (.node .term [.identifier "a" 2, .symbol "[" 2,
      .node .expression [.node .term [.identifier "i" 2]], .symbol "]" 2])
    [("-", 2, .node .term [.identifier "f" 2])])

/-- The class `A` with `function int f(Array a, int i) { return a[i] - f; }`. -/
def differenceClass : Tree :=
  .node .classDec [.keyword "class" 1, .identifier "A" 1, .symbol "\x7b" 1,
    .node .subroutineDec [.keyword "function" 2, .keyword "int" 2, .identifier "f" 2,
      .symbol "(" 2, .node .parameterList [.identifier "Array" 2, .identifier "a" 2,
        .symbol "," 2, .keyword "int" 2, .identifier "i" 2], .symbol ")" 2,
      .node .subroutineBody [.symbol "\x7b" 2, .node .statements
        [.node .returnStatement [.keyword "return" 2, differenceExpression, .symbol ";" 2]],
        .symbol "\x7d" 2]],
    .symbol "\x7d" 3]

theorem differenceExpression_derivation : differenceExpression.Derivation := by
  have index : (Tree.node .expression [.node .term [.identifier "i" 2]]).Derivation :=
    @Tree.Derivation.expression _ [] rfl (.variable "i" 2) (by simp) (by simp) (by simp)
  have name : (Tree.node .term [.identifier "f" 2]).Derivation := .variable "f" 2
  apply Tree.Derivation.expression rfl (.element "a" 2 2 2 index)
  · simp [Tree.binarySymbols]
  · simp [Tree.rule?]
  · simpa using name

theorem differenceClass_derivation : differenceClass.Derivation := by
  have leave : (Tree.node .returnStatement [.keyword "return" 2, differenceExpression,
      .symbol ";" 2]).Derivation := .returnValue 2 2 differenceExpression_derivation
  have block : (Tree.node .statements [.node .returnStatement [.keyword "return" 2,
      differenceExpression, .symbol ";" 2]]).Derivation := by
    apply Tree.Derivation.statements
    · simp [Tree.IsStatement, Tree.rule?]
    · simpa using leave
  have body := @Tree.Derivation.subroutineBody [] _ 2 2 (by simp) (by simp) block
  have parameters := Tree.Derivation.parameters "a" 2 (.class "Array" 2)
    (.cons 2 (.primitive "int" 2 (by simp)) "i" 2 .nil)
  have subroutine := Tree.Derivation.subroutineDec "function" "f" 2 2 2 2 (by simp)
    (.type (.primitive "int" 2 (by simp))) parameters body
  have whole := @Tree.Derivation.classDec [] [_] "A" 1 1 1 3 (by simp) (by simp [Tree.rule?])
    (by simp) (List.forall_mem_singleton.mpr subroutine)
  exact whole

/-- The name in front of the bracket is no call, and neither is the last one. -/
theorem parseTokens_differenceClass :
    differenceClass.Derivation ∧
      (parseTokens differenceClass.tokens).result = .ok differenceClass := by
  have derives := differenceClass_derivation
  exact ⟨derives, ((parseTokens_ok_iff_derivation differenceClass.tokens).1 differenceClass).mpr
    ⟨rfl, derives, rfl⟩⟩

end JackCompiler
