import JackCompiler.Proofs.Program.Callee
import JackCompiler.Proofs.Syntax.Completeness

/-!
# Calls without a qualifier

A call of the class itself is written as a name and an opening parenthesis, with no dot in front of
the name. `unqualifiedCalls` reads such names off the tokens, from left to right, without any syntax
tree. Between the braces of a body nothing else is written like that: the names found are those that
the derivation tree of the tokens calls (`Tree.Derivation.unqualifiedCalls_eq`).
-/

set_option autoImplicit false

namespace JackCompiler

/-- The name of a callee that belongs to the class itself. -/
def Callee.own? : Callee → Option String
  | own name => some name
  | qualified _ _ => none

/-- The names in front of an opening parenthesis, other than those behind a dot. Whether a dot
stands in front of the tokens is said by `dot`. -/
def unqualifiedCalls (dot : Bool) : List Token → List String
  | [] => []
  | token :: rest =>
    let others := unqualifiedCalls (token.is .symbol ".") rest
    if !dot && token.kind = .identifier && rest.head?.any (·.is .symbol "(") then
      token.text :: others
    else others

section Tokens

variable {dot : Bool} {rest : List Token}

@[simp] theorem begins_cons_iff {kind : TokenKind} {texts : List String} (token : Token) :
    Begins kind texts (token :: rest) ↔ token.kind = kind ∧ token.text ∈ texts := by
  obtain ⟨own, text, line⟩ := token
  constructor
  · rintro ⟨found, _, _, eq, among⟩
    cases eq
    exact ⟨rfl, among⟩
  · rintro ⟨rfl, among⟩
    exact .head line rest among

@[simp] theorem unqualifiedCalls_keyword (text : String) (line : Nat) :
    unqualifiedCalls dot (⟨.keyword, text, line⟩ :: rest) = unqualifiedCalls false rest := by
  simp [unqualifiedCalls, Token.is]

@[simp] theorem unqualifiedCalls_integer (text : String) (line : Nat) :
    unqualifiedCalls dot (⟨.integerConstant, text, line⟩ :: rest) =
      unqualifiedCalls false rest := by
  simp [unqualifiedCalls, Token.is]

@[simp] theorem unqualifiedCalls_string (text : String) (line : Nat) :
    unqualifiedCalls dot (⟨.stringConstant, text, line⟩ :: rest) =
      unqualifiedCalls false rest := by
  simp [unqualifiedCalls, Token.is]

@[simp] theorem unqualifiedCalls_symbol {text : String} (line : Nat) (other : text ≠ ".") :
    unqualifiedCalls dot (⟨.symbol, text, line⟩ :: rest) = unqualifiedCalls false rest := by
  simp [unqualifiedCalls, Token.is, other]

@[simp] theorem unqualifiedCalls_dot (line : Nat) :
    unqualifiedCalls dot (⟨.symbol, ".", line⟩ :: rest) = unqualifiedCalls true rest := by
  simp [unqualifiedCalls, Token.is]

/-- A name behind a dot is the name of a qualified call. -/
@[simp] theorem unqualifiedCalls_qualified (text : String) (line : Nat) :
    unqualifiedCalls true (⟨.identifier, text, line⟩ :: rest) = unqualifiedCalls false rest := by
  simp [unqualifiedCalls, Token.is]

@[simp] theorem unqualifiedCalls_call (name : String) (l₁ l₂ : Nat) :
    unqualifiedCalls false (⟨.identifier, name, l₁⟩ :: ⟨.symbol, "(", l₂⟩ :: rest) =
      name :: unqualifiedCalls false rest := by
  simp [unqualifiedCalls, Token.is]

/-- A name in front of anything but an opening parenthesis calls nothing. -/
@[simp] theorem unqualifiedCalls_name (text : String) (line : Nat)
    (ends : ¬ Begins .symbol ["("] rest) :
    unqualifiedCalls dot (⟨.identifier, text, line⟩ :: rest) = unqualifiedCalls false rest := by
  have opens : rest.head?.any (·.is .symbol "(") = false := by
    cases rest with
    | nil => rfl
    | cons token later => simpa [Token.is] using ends
  rw [unqualifiedCalls, opens, Bool.and_false]
  rfl

end Tokens

/-- Whether tokens spell these callees, as far as the class itself is called, wherever they stand in
front of anything but an opening parenthesis. -/
def Spells (tokens : List Token) (callees : List Callee) : Prop :=
  ∀ rest, ¬ Begins .symbol ["("] rest → unqualifiedCalls false (tokens ++ rest) =
    callees.filterMap Callee.own? ++ unqualifiedCalls false rest

theorem Spells.append {first second : List Token} {callees others : List Callee}
    (one : Spells first callees) (two : Spells second others)
    (apart : ∀ rest, ¬ Begins .symbol ["("] rest → ¬ Begins .symbol ["("] (second ++ rest)) :
    Spells (first ++ second) (callees ++ others) := by
  intro rest ends
  rw [List.append_assoc, one _ (apart rest ends), two rest ends, List.filterMap_append,
    List.append_assoc]

namespace Tree

/-- Whether a tree spells what it calls, if it is a part of a body. -/
def Spelled (tree : Tree) : Prop :=
  match tree.rule? with
  | some .classDec | some .subroutineDec | none => True
  | _ => Spells tree.tokens tree.callees

theorem Spelled.spells {tree : Tree} {rule : Rule} (spelled : tree.Spelled)
    (isRule : tree.rule? = some rule) (inBody : rule ∉ [.classDec, .subroutineDec]) :
    Spells tree.tokens tree.callees := by
  rw [Spelled, isRule] at spelled
  cases rule <;> first | exact spelled | exact absurd (by decide) inBody

theorem Spelled.node {rule : Rule} {children : List Tree} (spelled : (node rule children).Spelled)
    (inBody : rule ∉ [.classDec, .subroutineDec]) (rest : List Token)
    (ends : ¬ Begins .symbol ["("] rest) :
    unqualifiedCalls false (tokensOfList children ++ rest) =
      (node rule children).callees.filterMap Callee.own? ++ unqualifiedCalls false rest :=
  spelled.spells rfl inBody rest ends

/-- Whether a tree does not begin with a parenthesis, so that none stands behind what is in front of
it. -/
def Apart (tree : Tree) : Prop :=
  ∀ rest, ¬ Begins .symbol ["("] rest → ¬ Begins .symbol ["("] (tree.tokens ++ rest)

theorem apart_of_begins {tree : Tree} {texts : List String}
    (begins : ∀ rest, Begins .keyword texts (tree.tokens ++ rest)) : tree.Apart :=
  fun rest _ => (begins rest).not_begins (.inl (by decide))

theorem apart_node {rule : Rule} {children : List Tree} (apart : ∀ tree ∈ children, tree.Apart) :
    (node rule children).Apart := by
  intro rest ends
  rw [tokens_node]
  induction children with
  | nil => exact ends
  | cons tree later ih =>
    rw [List.forall_mem_cons] at apart
    rw [tokensOfList_cons, List.append_assoc]
    exact apart.1 _ (ih apart.2)

/-- Consecutive trees spell what each of them does. -/
theorem spells_flatMap {trees : List Tree} (apart : ∀ tree ∈ trees, tree.Apart)
    (spell : ∀ tree ∈ trees, Spells tree.tokens tree.callees) :
    Spells (tokensOfList trees) (trees.flatMap callees) := by
  induction trees with
  | nil => exact fun rest ends => rfl
  | cons tree later ih =>
    rw [List.forall_mem_cons] at spell apart
    rw [tokensOfList_cons, List.flatMap_cons]
    have behind : (node .statements later).Apart := apart_node apart.2
    exact spell.1.append (ih apart.2 spell.2) behind

/-- A chain spells what its parts do. -/
theorem spells_chain {first : Tree} {later : List (String × Nat × Tree)}
    (spell : Spells first.tokens first.callees)
    (spellLater : ∀ part ∈ later, Spells part.2.2.tokens part.2.2.callees)
    (apart : ∀ part ∈ later, part.1 ≠ "(" ∧ part.1 ≠ ".") :
    Spells (tokensOfList (chain first later)) ((chain first later).flatMap callees) := by
  rw [callees_chain, chain, tokensOfList_cons]
  induction later generalizing first with
  | nil =>
    intro rest ends
    simpa using spell rest ends
  | cons part later ih =>
    rw [List.forall_mem_cons] at spellLater apart
    obtain ⟨opening, dot⟩ := apart.1
    have others := ih spellLater.1 spellLater.2 apart.2
    refine spell.append ?_ ?_
    · intro rest ends
      have whole := others rest ends
      simp only [List.flatMap_cons, List.cons_append, List.nil_append, tokensOfList_cons,
        tokens_leaf, unqualifiedCalls_symbol _ dot]
      exact whole
    · intro rest _
      simp [opening]

/-! ## Declarations -/

section Declarations

variable {type : Tree} {names parameters : List Tree} {rest : List Token}

/-- A type in front of a name calls nothing. -/
theorem IsType.unqualifiedCalls_eq (isType : IsType type) (name : String) (line : Nat) :
    unqualifiedCalls false (type.tokens ++ ⟨.identifier, name, line⟩ :: rest) =
      unqualifiedCalls false (⟨.identifier, name, line⟩ :: rest) := by
  cases isType <;> simp

theorem FurtherNames.not_begins (further : FurtherNames names)
    (ends : ¬ Begins .symbol ["("] rest) :
    ¬ Begins .symbol ["("] (tokensOfList names ++ rest) := by
  cases further with
  | nil => exact ends
  | cons => simp

theorem FurtherParameters.not_begins (further : FurtherParameters parameters)
    (ends : ¬ Begins .symbol ["("] rest) :
    ¬ Begins .symbol ["("] (tokensOfList parameters ++ rest) := by
  cases further with
  | nil => exact ends
  | cons => simp

theorem FurtherNames.spells (further : FurtherNames names) : Spells (tokensOfList names) [] := by
  induction further with
  | nil => exact fun rest ends => rfl
  | cons comma text line names ih =>
    intro rest ends
    have between := names.not_begins ends
    simp [between, ih rest ends]

theorem FurtherParameters.spells (further : FurtherParameters parameters) :
    Spells (tokensOfList parameters) [] := by
  induction further with
  | nil => exact fun rest ends => rfl
  | cons comma isType text line parameters ih =>
    intro rest ends
    have between := parameters.not_begins ends
    simp [isType.unqualifiedCalls_eq, between, ih rest ends]

/-- A declaration of variables spells nothing. -/
theorem spells_declaration (kind text : String) (l₁ l₂ l₃ : Nat) (isType : IsType type)
    (further : FurtherNames names) :
    Spells (tokensOfList ([keyword kind l₁, type, identifier text l₂] ++ names ++ [symbol ";" l₃]))
      [] := by
  intro rest ends
  have closes : ¬ Begins .symbol ["("] (⟨.symbol, ";", l₃⟩ :: rest) := by simp
  have between := further.not_begins closes
  simp [isType.unqualifiedCalls_eq, between, further.spells _ closes]

end Declarations

/-! ## Bodies -/

/-- A block begins with a statement, if it is not empty. -/
theorem Derivation.apart {block : List Tree} (derives : (node .statements block).Derivation) :
    (node .statements block).Apart := by
  cases derives with
  | statements areStatements derive =>
    exact apart_node fun part among => apart_of_begins ((derive part among).begins_statement
      (areStatements part among))

/-- A derivation tree in a body spells what it calls. -/
theorem Derivation.spelled {tree : Tree} (derives : tree.Derivation) : tree.Spelled := by
  induction derives with
  | classDec => trivial
  | subroutineDec => trivial
  | noParameters => exact fun rest ends => rfl
  | noArguments => exact fun rest ends => rfl
  | classVarDec kind text l₁ l₂ l₃ isKind isType further =>
    intro rest ends
    have declares := spells_declaration kind text l₁ l₂ l₃ isType further rest ends
    rw [callees_node_of_ne (by decide), tokens_node, declares]
    simp [isType.callees_eq, further.callees_eq]
  | varDec text l₁ l₂ l₃ isType further =>
    intro rest ends
    have declares := spells_declaration "var" text l₁ l₂ l₃ isType further rest ends
    rw [callees_node_of_ne (by decide), tokens_node, declares]
    simp [isType.callees_eq, further.callees_eq]
  | parameters text l isType further =>
    intro rest ends
    have between := further.not_begins ends
    rw [callees_node_of_ne (by decide)]
    simp [isType.unqualifiedCalls_eq, between, further.spells rest ends, isType.callees_eq,
      further.callees_eq]
  | @subroutineBody declared block l₁ l₂ areVariables derive blockDerives ihDeclared ihBlock =>
    intro rest ends
    have parts : Spells (tokensOfList (declared ++ [node .statements block]))
        ((declared ++ [node .statements block]).flatMap callees) := by
      apply spells_flatMap
      · rw [List.forall_mem_append, List.forall_mem_singleton]
        refine ⟨fun part among => apart_of_begins fun rest => (derive part among).begins
          (areVariables part among) (by decide) rest, blockDerives.apart⟩
      · rw [List.forall_mem_append, List.forall_mem_singleton]
        exact ⟨fun part among => (ihDeclared part among).spells (areVariables part among)
          (by decide), ihBlock.spells rfl (by decide)⟩
    have inner := parts (⟨.symbol, "\x7d", l₂⟩ :: rest) (by simp)
    rw [tokensOfList_append, List.append_assoc] at inner
    rw [callees_node_of_ne (by decide)]
    simpa using inner
  | statements areStatements derive ih =>
    show Spells _ (node _ _).callees
    rw [callees_node_of_ne (by decide)]
    apply spells_flatMap
    · exact fun part among => apart_of_begins ((derive part among).begins_statement
        (areStatements part among))
    · intro part among
      have isStatement := areStatements part among
      simp only [IsStatement, List.mem_cons, List.not_mem_nil, or_false] at isStatement
      rcases isStatement with is | is | is | is | is <;>
        exact (ih part among).spells is (by decide)
  | letVariable text l₁ l₂ l₃ l₄ _ ih =>
    intro rest ends
    rw [callees_node_of_ne (by decide)]
    simp [ih.node]
  | letElement text l₁ l₂ l₃ l₄ l₅ l₆ _ _ ihIndex ihValue =>
    intro rest ends
    rw [callees_node_of_ne (by decide)]
    simp [ihIndex.node, ihValue.node]
  | ifThen l₁ l₂ l₃ l₄ l₅ _ _ ihCondition ihYes =>
    intro rest ends
    rw [callees_node_of_ne (by decide)]
    simp [ihCondition.node, ihYes.node]
  | ifElse l₁ l₂ l₃ l₄ l₅ l₆ l₇ l₈ _ _ _ ihCondition ihYes ihNo =>
    intro rest ends
    rw [callees_node_of_ne (by decide)]
    simp [ihCondition.node, ihYes.node, ihNo.node]
  | whileStatement l₁ l₂ l₃ l₄ l₅ _ _ ihCondition ihBlock =>
    intro rest ends
    rw [callees_node_of_ne (by decide)]
    simp [ihCondition.node, ihBlock.node]
  | doStatement l₁ l₂ _ ih =>
    intro rest ends
    rw [callees_node_of_ne (by decide)]
    simp [ih.node]
  | returnNothing l₁ l₂ =>
    intro rest ends
    rw [callees_node_of_ne (by decide)]
    simp
  | returnValue l₁ l₂ _ ih =>
    intro rest ends
    rw [callees_node_of_ne (by decide)]
    simp [ih.node]
  | expression firstIsTerm _ areOperators areTerms _ ihFirst ihLater =>
    show Spells _ (node _ _).callees
    rw [callees_node_of_ne (by decide)]
    apply spells_chain (ihFirst.spells firstIsTerm (by decide))
    · exact fun part among => (ihLater part among).spells (areTerms part among) (by decide)
    · have apart : ∀ text ∈ binarySymbols, text ≠ "(" ∧ text ≠ "." := by decide
      exact fun part among => apart part.1 (areOperators part among)
  | arguments firstIsExpression _ areCommas areExpressions _ ihFirst ihLater =>
    show Spells _ (node _ _).callees
    rw [callees_node_of_ne (by decide)]
    apply spells_chain (ihFirst.spells firstIsExpression (by decide))
    · exact fun part among => (ihLater part among).spells (areExpressions part among) (by decide)
    · intro part among
      rw [areCommas part among]
      decide
  | integer text l | string text l =>
    intro rest ends
    rw [callees_node_of_ne (by decide)]
    simp
  | constant text l isConstant =>
    intro rest ends
    rw [callees_node_of_ne (by decide)]
    simp
  | «variable» text l =>
    intro rest ends
    rw [callees_node_of_ne (by decide)]
    simp [ends]
  | element text l₁ l₂ l₃ _ ih =>
    intro rest ends
    rw [callees_node_of_ne (by decide)]
    simp [ih.node]
  | call _ ih =>
    intro rest ends
    rw [callees_node_of_ne (by decide)]
    simp [ih.node _ rest ends]
  | parenthesized l₁ l₂ _ ih =>
    intro rest ends
    rw [callees_node_of_ne (by decide)]
    simp [ih.node]
  | unary text l isOperator _ ih =>
    intro rest ends
    have noDot : text ≠ "." := by
      rintro rfl
      simp [unarySymbols] at isOperator
    rw [callees_node_of_ne (by decide)]
    simp [ih.node _ rest ends, noDot]
  | ownCall name l₁ l₂ l₃ _ ih =>
    intro rest ends
    rw [callees_node]
    simp [ih.node, callee?, Callee.own?]
  | qualifiedCall context name l₁ l₂ l₃ l₄ l₅ _ ih =>
    intro rest ends
    rw [callees_node]
    simp [ih.node, callee?, List.filterMap_cons, Callee.own?]

end Tree

/-- What a part of a body calls. -/
def BodyPart.callees : BodyPart → List Callee
  | statements block => Statement.calleesOfBlock block
  | declare _ | flaw _ => []

/-- The body of a subroutine calls the names that are written between its braces. -/
theorem Tree.Derivation.unqualifiedCalls_eq {tree : Tree} {subroutine : Subroutine}
    (derives : tree.Derivation) (isRule : tree.rule? = some .subroutineDec)
    (read : Subroutine.ofTree tree = .ok subroutine) :
    unqualifiedCalls false (tokensOfList (tree.partsAt 6)) =
      (subroutine.body.flatMap BodyPart.callees).filterMap Callee.own? := by
  obtain ⟨keyword, name, result, parameters, declared, block, l₁, l₂, l₃, l₄, l₅, l₆, rfl, -, -, -,
    derive, blockDerives⟩ := derives.exists_subroutine isRule
  obtain ⟨declarations, readDeclared⟩ := exists_declarations derive
  have body : subroutine.body = declarations.map .declare ++
      [.statements (Statement.blockOfTree (.node .statements block))] := by
    rw [(Subroutine.ofTree_eq_ok read).2.2]
    show ([symbol "\x7b" l₅] ++ declared ++ [.node .statements block,
      symbol "\x7d" l₆]).filterMap BodyPart.ofTree? = _
    rw [List.filterMap_append, List.filterMap_append, readDeclared]
    rfl
  have called : subroutine.body.flatMap BodyPart.callees = (node .statements block).callees := by
    rw [← blockDerives.calleesRead_eq, body, List.flatMap_append, List.flatMap_map]
    simp [BodyPart.callees]
  have noCall : declared.flatMap callees = [] := by
    rw [List.flatMap_eq_nil_iff]
    intro part among
    rw [← (derive part among).2.calleesRead_eq, calleesRead, (derive part among).1]
  have whole : (node .subroutineBody ([symbol "\x7b" l₅] ++ declared ++
      [.node .statements block, symbol "\x7d" l₆])).Derivation :=
    .subroutineBody l₅ l₆ (fun part among => (derive part among).1)
      (fun part among => (derive part among).2) blockDerives
  have spells := whole.spelled.node (by decide) [] (fun begins => begins.ne_nil rfl)
  rw [List.append_nil, callees_node_of_ne (by decide)] at spells
  rw [called]
  show unqualifiedCalls false (tokensOfList ([symbol "\x7b" l₅] ++ declared ++
    [.node .statements block, symbol "\x7d" l₆])) = _
  rw [spells]
  simp [noCall, unqualifiedCalls]

end JackCompiler
