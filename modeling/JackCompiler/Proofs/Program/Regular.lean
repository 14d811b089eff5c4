import JackCompiler.Proofs.Program.Branching
import JackCompiler.Proofs.Program.Mention
import JackCompiler.Proofs.Program.Outline

/-!
# Classes from derivation trees

A class and its subroutines can be read from a derivation tree without any part missing. The body of
a subroutine is its declarations and then one block (`Subroutine.Regular`), all that it mentions it
mentions in that block, and every name that is declared is an identifier in the tree.
-/

set_option autoImplicit false

namespace JackCompiler

/-! ## Subroutines -/

namespace Tree

theorem IsType.exists_token {type : Tree} (isType : IsType type) :
    ∃ token, type = leaf token ∧ token.is .symbol "," = false := by
  cases isType with
  | primitive text line => exact ⟨⟨.keyword, text, line⟩, rfl, rfl⟩
  | «class» text line => exact ⟨⟨.identifier, text, line⟩, rfl, rfl⟩

/-- A subroutine is made up of a keyword, a result, a name, parameters and a body, and the body of
declarations and one block. -/
theorem Derivation.exists_subroutine {tree : Tree} (derives : tree.Derivation)
    (isRule : tree.rule? = some .subroutineDec) :
    ∃ (kind name : String) (result : Tree) (parameters declared block : List Tree)
      (l₁ l₂ l₃ l₄ l₅ l₆ : Nat),
      tree = .node .subroutineDec [keyword kind l₁, result, identifier name l₂, symbol "(" l₃,
        .node .parameterList parameters, symbol ")" l₄, .node .subroutineBody
          ([symbol "\x7b" l₅] ++ declared ++ [.node .statements block, symbol "\x7d" l₆])] ∧
      kind ∈ ["constructor", "function", "method"] ∧ IsResult result ∧
      (node .parameterList parameters).Derivation ∧
      (∀ part ∈ declared, part.rule? = some .varDec ∧ part.Derivation) ∧
      (node .statements block).Derivation := by
  cases derives with
  | subroutineDec kind name l₁ l₂ l₃ l₄ isKind isResult parameters body =>
    cases body with
    | subroutineBody l₅ l₆ areVariables derive block =>
      exact ⟨kind, name, _, _, _, _, l₁, l₂, l₃, l₄, l₅, l₆, rfl, isKind, isResult, parameters,
        fun part among => ⟨areVariables part among, derive part among⟩, block⟩
  | _ => cases isRule

/-- The tokens of a parameter list are parameters, and each name among them is an identifier. -/
theorem FurtherParameters.exists_parameters {trees : List Tree}
    (further : FurtherParameters trees) :
    ∃ found : List Parameter,
      Parameter.ofTokens ((trees.filterMap token?).filter fun token => !token.is .symbol ",") =
        found.map .ok ∧
      ∀ parameter ∈ found, ∃ line, identifier parameter.name line ∈ trees := by
  induction further with
  | nil => exact ⟨[], rfl, by simp⟩
  | @cons type later comma isType text line _ ih =>
    obtain ⟨token, rfl, noComma⟩ := isType.exists_token
    obtain ⟨found, read, named⟩ := ih
    refine ⟨⟨token.text, text⟩ :: found, ?_, ?_⟩
    · have here : (Token.mk .identifier text line).is .symbol "," = false := rfl
      have between : (Token.mk .symbol "," comma).is .symbol "," = true := rfl
      simp [token?, noComma, here, between, Parameter.ofTokens, read]
    · intro parameter among
      rcases List.mem_cons.mp among with rfl | among
      · exact ⟨line, by simp⟩
      · obtain ⟨line, inside⟩ := named parameter among
        exact ⟨line, by simp [inside]⟩

theorem Derivation.exists_parameters {parameters : List Tree}
    (derives : (node .parameterList parameters).Derivation) :
    ∃ found : List Parameter,
      Parameter.ofTokens ((parameters.filterMap token?).filter fun token => !token.is .symbol ",") =
        found.map .ok ∧
      ∀ parameter ∈ found, ∃ line, identifier parameter.name line ∈ parameters := by
  cases derives with
  | noParameters => exact ⟨[], rfl, by simp⟩
  | parameters text l isType further =>
    have whole := FurtherParameters.cons 0 isType text l further
    obtain ⟨found, read, named⟩ := whole.exists_parameters
    refine ⟨found, ?_, ?_⟩
    · have comma : (Token.mk .symbol "," 0).is .symbol "," = true := rfl
      simpa [token?, comma] using read
    · intro parameter among
      obtain ⟨line, inside⟩ := named parameter among
      exact ⟨line, by simpa using inside⟩

/-- The declarations in a body can be read. -/
theorem Derivation.exists_declaration {tree : Tree} (derives : tree.Derivation)
    (isRule : tree.rule? = some .varDec) :
    ∃ declaration, Declaration.ofTree tree = .ok declaration := by
  cases derives with
  | varDec text l₁ l₂ l₃ isType further =>
    obtain ⟨token, rfl, -⟩ := isType.exists_token
    exact ⟨_, rfl⟩
  | _ => cases isRule

/-- The declarations of a class can be read. -/
theorem Derivation.exists_variables {tree : Tree} (derives : tree.Derivation)
    (isRule : tree.rule? = some .classVarDec) :
    ∃ found, Class.variablesOfTree tree = .ok found := by
  cases derives with
  | classVarDec kind text l₁ l₂ l₃ isKind isType further =>
    obtain ⟨token, rfl, -⟩ := isType.exists_token
    simp only [List.mem_cons, List.not_mem_nil, or_false] at isKind
    rcases isKind with rfl | rfl
    · exact ⟨_, rfl⟩
    · exact ⟨_, rfl⟩
  | _ => cases isRule

end Tree

/-- Whether a subroutine is what a derivation tree gives: all of its parameters and its body could
be read, and the body is declarations and then one block, which mentions what the tree does and
needs as many labels. -/
structure Subroutine.Regular (subroutine : Subroutine) (tree : Tree) : Prop where
  parameters : ∃ found : List Parameter, subroutine.parameters = found.map .ok
  body : ∃ (declarations : List Declaration) (block : List Statement),
    subroutine.body = declarations.map .declare ++ [.statements block] ∧
      Statement.mentionsOfBlock block = tree.mentions ∧
      Statement.labelCountOfBlock block = tree.labelCount

namespace Tree

/-- The declarations in a body are parts of it. -/
theorem exists_declarations {declared : List Tree}
    (derive : ∀ part ∈ declared, part.rule? = some .varDec ∧ part.Derivation) :
    ∃ declarations : List Declaration,
      declared.filterMap BodyPart.ofTree? = declarations.map .declare := by
  induction declared with
  | nil => exact ⟨[], rfl⟩
  | cons part later ih =>
    rw [List.forall_mem_cons] at derive
    obtain ⟨⟨isRule, derives⟩, others⟩ := derive
    obtain ⟨declarations, rest⟩ := ih others
    obtain ⟨declaration, read⟩ := derives.exists_declaration isRule
    cases part with
    | leaf token => cases isRule
    | node rule children =>
      cases isRule
      refine ⟨declaration :: declarations, ?_⟩
      rw [List.filterMap_cons, BodyPart.ofTree?_varDec, read, rest]
      rfl

section Subroutine

variable {result : Tree} {parameters declared block body : List Tree}

/-- A subroutine mentions what its body does. -/
theorem mentions_subroutineDec (keyword name : String) (l₁ l₂ l₃ l₄ : Nat)
    (isResult : IsResult result) (derives : (node .parameterList parameters).Derivation) :
    (node .subroutineDec [.keyword keyword l₁, result, identifier name l₂, symbol "(" l₃,
      .node .parameterList parameters, symbol ")" l₄, .node .subroutineBody body]).mentions =
      (node .subroutineBody body).mentions := by
  have nothing : (node .parameterList parameters).mentions = [] := derives.mentionsRead_eq.symm
  rw [mentions_node]
  simp [mentionsAround, isResult.mentions_eq, nothing]

/-- A body mentions what its block does. -/
theorem mentions_subroutineBody (l₁ l₂ : Nat)
    (derive : ∀ part ∈ declared, part.rule? = some .varDec ∧ part.Derivation) :
    (node .subroutineBody ([symbol "\x7b" l₁] ++ declared ++ [.node .statements block,
      symbol "\x7d" l₂])).mentions = (node .statements block).mentions := by
  have nothing : declared.flatMap mentions = [] := by
    rw [List.flatMap_eq_nil_iff]
    intro part among
    obtain ⟨isRule, derives⟩ := derive part among
    rw [← derives.mentionsRead_eq, mentionsRead, isRule]
  rw [mentions_node]
  simp [mentionsAround, nothing]

/-- A subroutine needs the labels of its body. -/
theorem labelCount_subroutineDec (keyword name : String) (l₁ l₂ l₃ l₄ : Nat)
    (isResult : IsResult result) (derives : (node .parameterList parameters).Derivation) :
    (node .subroutineDec [.keyword keyword l₁, result, identifier name l₂, symbol "(" l₃,
      .node .parameterList parameters, symbol ")" l₄, .node .subroutineBody body]).labelCount =
      (node .subroutineBody body).labelCount := by
  have nothing : (node .parameterList parameters).labelCount = 0 := derives.labelCountRead_eq.symm
  rw [labelCount_node_of_plain (by decide) (by decide)]
  simp [isResult.labelCount_eq, nothing]

/-- A body needs the labels of its block. -/
theorem labelCount_subroutineBody (l₁ l₂ : Nat)
    (derive : ∀ part ∈ declared, part.rule? = some .varDec ∧ part.Derivation) :
    (node .subroutineBody ([symbol "\x7b" l₁] ++ declared ++ [.node .statements block,
      symbol "\x7d" l₂])).labelCount = (node .statements block).labelCount := by
  have nothing : (declared.map labelCount).sum = 0 := by
    apply sum_labelCount_eq_zero
    intro part among
    obtain ⟨isRule, derives⟩ := derive part among
    rw [← derives.labelCountRead_eq, labelCountRead, isRule]
  rw [labelCount_node_of_plain (by decide) (by decide)]
  simp [nothing]

theorem exists_kind {keyword : String} (isKind : keyword ∈ ["constructor", "function", "method"]) :
    ∃ kind, SubroutineKind.ofKeyword keyword = .ok kind := by
  simp only [List.mem_cons, List.not_mem_nil, or_false] at isKind
  rcases isKind with rfl | rfl | rfl
  · exact ⟨_, rfl⟩
  · exact ⟨_, rfl⟩
  · exact ⟨_, rfl⟩

/-- A subroutine is read part by part. -/
theorem ofTree_subroutineDec (keyword name : String) (l₁ l₂ l₃ l₄ : Nat) :
    Member.ofTree (.node .subroutineDec [.keyword keyword l₁, result, identifier name l₂,
      symbol "(" l₃, .node .parameterList parameters, symbol ")" l₄,
      .node .subroutineBody body]) = .ok ⟨name, do
        let kind ← SubroutineKind.ofKeyword keyword
        pure ⟨kind, Parameter.ofTokens ((parameters.filterMap token?).filter fun token =>
          !token.is .symbol ","), body.filterMap BodyPart.ofTree?⟩⟩ := rfl

/-- A subroutine can be read from a derivation tree. -/
theorem Derivation.exists_regular {tree : Tree} (derives : tree.Derivation)
    (isRule : tree.rule? = some .subroutineDec) :
    ∃ subroutine, Member.ofTree tree = .ok ⟨tree.textAt 2, .ok subroutine⟩ ∧
      subroutine.Regular tree := by
  obtain ⟨keyword, name, result, parameters, declared, block, l₁, l₂, l₃, l₄, l₅, l₆, rfl, isKind,
    isResult, parametersDerive, derive, blockDerives⟩ := derives.exists_subroutine isRule
  obtain ⟨found, read, -⟩ := parametersDerive.exists_parameters
  obtain ⟨declarations, readDeclared⟩ := exists_declarations derive
  obtain ⟨kind, isKind⟩ := exists_kind isKind
  have parts : ([symbol "\x7b" l₅] ++ declared ++ [.node .statements block,
      symbol "\x7d" l₆]).filterMap BodyPart.ofTree? = declarations.map .declare ++
      [.statements (Statement.blockOfTree (.node .statements block))] := by
    rw [List.filterMap_append, List.filterMap_append, readDeclared]
    rfl
  refine ⟨⟨kind, found.map .ok, declarations.map .declare ++
    [.statements (Statement.blockOfTree (.node .statements block))]⟩, ?_, ?_⟩
  · rw [ofTree_subroutineDec, isKind, read, parts]
    rfl
  · refine ⟨⟨found, rfl⟩, declarations, _, rfl, ?_, ?_⟩
    · rw [mentions_subroutineDec _ _ _ _ _ _ isResult parametersDerive,
        mentions_subroutineBody _ _ derive]
      exact blockDerives.mentionsRead_eq
    · rw [labelCount_subroutineDec _ _ _ _ _ _ isResult parametersDerive,
        labelCount_subroutineBody _ _ derive]
      exact blockDerives.labelCountRead_eq

/-- What is read from the derivation tree of a subroutine is regular. -/
theorem Derivation.regular {tree : Tree} {subroutine : Subroutine} (derives : tree.Derivation)
    (isRule : tree.rule? = some .subroutineDec) (read : Subroutine.ofTree tree = .ok subroutine) :
    subroutine.Regular tree := by
  obtain ⟨found, member, regular⟩ := derives.exists_regular isRule
  have same := Member.ofTree_eq_ok member
  rw [Member.mk.injEq, read, Except.ok.injEq] at same
  rw [← same.2]
  exact regular

end Subroutine

/-! ## Identifiers -/

/-- Whether a name is the text of an identifier in a tree. -/
def HasIdentifier (tree : Tree) (name : String) : Prop :=
  ∃ token ∈ tree.tokens, token.kind = .identifier ∧ token.text = name

theorem HasIdentifier.node {part : Tree} {rule : Rule} {children : List Tree} {name : String}
    (has : part.HasIdentifier name) (among : part ∈ children) :
    (Tree.node rule children).HasIdentifier name := by
  obtain ⟨token, inside, isIdentifier⟩ := has
  exact ⟨token, mem_tokens_node.mpr ⟨part, among, inside⟩, isIdentifier⟩

theorem hasIdentifier_of_mem_declaredNames {tree : Tree} {name : String}
    (among : name ∈ tree.declaredNames) : tree.HasIdentifier name := by
  obtain ⟨token, inside, rfl⟩ := List.mem_map.mp among
  rw [List.mem_filter, List.mem_filterMap] at inside
  obtain ⟨⟨part, behind, isToken⟩, isIdentifier⟩ := inside
  have listed : part ∈ tree.children := List.mem_of_mem_drop behind
  cases tree with
  | leaf own => cases listed
  | node rule children =>
    cases part with
    | node rule children => cases isToken
    | leaf own =>
      cases isToken
      refine ⟨token, mem_tokens_node.mpr ⟨_, listed, List.mem_singleton_self _⟩, ?_, rfl⟩
      simpa using isIdentifier

theorem hasIdentifier_of_mem_partsAt {tree part : Tree} {index : Nat} {name : String}
    (has : part.HasIdentifier name) (among : part ∈ tree.partsAt index) :
    tree.HasIdentifier name := by
  unfold partsAt at among
  cases at_ : tree.children[index]? with
  | none =>
    rw [at_] at among
    cases among
  | some outer =>
    rw [at_] at among
    have listed : outer ∈ tree.children := List.mem_of_getElem? at_
    cases tree with
    | leaf token => cases listed
    | node rule children =>
      cases outer with
      | leaf token => cases among
      | node rule parts => exact (has.node among).node listed

theorem hasIdentifier_of_mem_localNames {tree : Tree} {name : String}
    (among : name ∈ tree.localNames) : tree.HasIdentifier name := by
  obtain ⟨part, listed, among⟩ := List.mem_flatMap.mp among
  exact hasIdentifier_of_mem_partsAt (hasIdentifier_of_mem_declaredNames among)
    (List.mem_filter.mp listed).1

theorem Derivation.hasIdentifier_of_mem_parameterNames {tree : Tree} (derives : tree.Derivation)
    (isRule : tree.rule? = some .subroutineDec) {name : String}
    (among : name ∈ tree.parameterNames) : tree.HasIdentifier name := by
  obtain ⟨keyword, own, result, parameters, declared, block, l₁, l₂, l₃, l₄, l₅, l₆, rfl, -, -,
    parametersDerive, -, -⟩ := derives.exists_subroutine isRule
  obtain ⟨found, read, named⟩ := parametersDerive.exists_parameters
  have listed : name ∈ (seconds ((parameters.filterMap token?).filter fun token =>
    !token.is .symbol ",")).map (·.text) := among
  rw [← Parameter.names_ofTokens read] at listed
  obtain ⟨parameter, member, rfl⟩ := List.mem_map.mp listed
  obtain ⟨line, inside⟩ := named parameter member
  have here : (identifier parameter.name line).HasIdentifier parameter.name :=
    ⟨_, List.mem_singleton_self _, rfl, rfl⟩
  have within : (node .parameterList parameters).HasIdentifier parameter.name := here.node inside
  exact within.node (by simp)

/-! ## Classes -/

/-- A class can be read from a derivation tree. -/
theorem Derivation.exists_class {tree : Tree} (derives : tree.Derivation)
    (isRule : tree.rule? = some .classDec) : ∃ definition, Class.ofTree tree = .ok definition := by
  cases derives with
  | classDec => exact ⟨_, rfl⟩
  | _ => cases isRule

/-- The declarations and the subroutines of a class are derivation trees. -/
theorem Derivation.of_mem_groups {tree part : Tree} {rule : Rule} (derives : tree.Derivation)
    (isRule : tree.rule? = some .classDec) (among : part ∈ tree.groups rule) :
    part.rule? = some rule ∧ part.Derivation := by
  obtain ⟨listed, isPart⟩ := List.mem_filter.mp among
  have isPart : part.rule? = some rule := by simpa [Tree.isRule] using isPart
  refine ⟨isPart, ?_⟩
  cases derives with
  | classDec text l₁ l₂ l₃ l₄ areVariables areSubroutines declared subroutines =>
    simp only [children, List.mem_append, List.mem_cons, List.not_mem_nil, or_false] at listed
    rcases listed with (((rfl | rfl | rfl) | inside) | inside) | rfl
    · cases isPart
    · cases isPart
    · cases isPart
    · exact declared part inside
    · exact subroutines part inside
    · cases isPart
  | _ => cases isRule

/-- The string constants of a class are in its subroutines. -/
theorem Derivation.exists_subroutine_of_string {tree : Tree} {token : Token}
    (derives : tree.Derivation) (isRule : tree.rule? = some .classDec)
    (inside : token ∈ tree.tokens) (isString : token.kind = .stringConstant) :
    ∃ subroutine ∈ tree.groups .subroutineDec, token ∈ subroutine.tokens := by
  cases derives with
  | @classDec declared subroutines text l₁ l₂ l₃ l₄ areVariables areSubroutines derive =>
    have isNoString {own : Token} (other : own.kind ≠ .stringConstant) :
        token ∉ (leaf own).tokens := by
      intro among
      rw [List.mem_singleton.mp among] at isString
      exact other isString
    obtain ⟨part, listed, inside⟩ := mem_tokens_node.mp inside
    simp only [List.mem_append, List.mem_cons, List.not_mem_nil, or_false] at listed
    rcases listed with (((rfl | rfl | rfl) | among) | among) | rfl
    · exact absurd inside (isNoString (by simp))
    · exact absurd inside (isNoString (by simp))
    · exact absurd inside (isNoString (by simp))
    · have nothing : part.mentions = [] := by
        rw [← (derive part among).mentionsRead_eq, mentionsRead, areVariables part among]
      have mentioned : Mention.text token.stringValue ∈ part.mentions := by
        apply mem_mentions_of_token inside
        rw [Token.mentions, isString]
        exact List.mem_singleton_self _
      rw [nothing] at mentioned
      cases mentioned
    · refine ⟨part, List.mem_filter.mpr ⟨?_, ?_⟩, inside⟩
      · simp [children, among]
      · simp [Tree.isRule, areSubroutines part among]
    · exact absurd inside (isNoString (by simp))
  | _ => cases isRule

end Tree

end JackCompiler
