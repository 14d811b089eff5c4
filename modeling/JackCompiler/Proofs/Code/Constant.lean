import JackCompiler.Proofs.Code.Diagnosis
import JackCompiler.Proofs.Token.Cut

/-!
# Constants that code pushes

An integer constant spells its number, and a string constant its length and the codes of its
characters. Zeros apart, the code of a class pushes the constants that its tokens spell, in the
same order, and a constructor pushes the number of fields in front of those of its body
(`pushedConstants_generate`). Zeros are left out, since code also pushes them on its own account.

Integer constants are no larger than `maxIntegerConstant`, and nothing else is held to that bound.
So code pushes larger constants exactly if a string is longer, has a character with a larger code,
or a class with a constructor has more fields (`compile_constants_le_iff`).
-/

set_option autoImplicit false

namespace JackCompiler

/-- The constant that an instruction pushes, unless it is 0. -/
def Instruction.constant? : Instruction → Option Nat
  | .push segment value => if segment = .constant ∧ value ≠ 0 then some value else none
  | _ => none

/-- The constants other than 0 that code pushes, in order. -/
def pushedConstants (code : List Instruction) : List Nat := code.filterMap Instruction.constant?

/-- The constants other than 0 that a token spells. -/
def Token.constants (token : Token) : List Nat :=
  match token.kind with
  | .integerConstant => (wordValue? token.text.toList).toList.filter (· ≠ 0)
  | .stringConstant =>
    (token.stringValue.length :: token.stringValue.toList.map Char.toNat).filter (· ≠ 0)
  | .keyword | .symbol | .identifier => []

/-- The constants other than 0 that the tokens of a tree spell, in order. -/
def Tree.constants (tree : Tree) : List Nat := tree.tokens.flatMap Token.constants

section Pushed

variable {code first second : List Instruction}

@[simp] theorem pushedConstants_nil : pushedConstants [] = [] := rfl

@[simp] theorem pushedConstants_append :
    pushedConstants (first ++ second) = pushedConstants first ++ pushedConstants second :=
  List.filterMap_append

@[simp] theorem pushedConstants_cons (instruction : Instruction) :
    pushedConstants (instruction :: code) =
      instruction.constant?.toList ++ pushedConstants code := by
  rw [pushedConstants, List.filterMap_cons]
  cases instruction.constant? <;> rfl

/-- Variables are in other segments than the constants. -/
@[simp] theorem VariableKind.segment_ne_constant (kind : VariableKind) :
    kind.segment ≠ .constant := by
  cases kind <;> decide

@[simp] theorem UnaryOperator.constant?_instruction (operator : UnaryOperator) :
    operator.instruction.constant? = none := by
  cases operator <;> rfl

@[simp] theorem BinaryOperator.constant?_instruction (operator : BinaryOperator) :
    operator.instruction.constant? = none := by
  cases operator <;> rfl

theorem toList_constant?_push (value : Nat) :
    (Instruction.push .constant value).constant?.toList = [value].filter (· ≠ 0) := by
  by_cases zero : value = 0
  · simp [Instruction.constant?, zero]
  · simp [Instruction.constant?, zero]

theorem pushedConstants_appendChars (characters : List Char) :
    pushedConstants (characters.flatMap appendCharCode) =
      (characters.map Char.toNat).filter (· ≠ 0) := by
  induction characters with
  | nil => rfl
  | cons c rest ih =>
    have one : pushedConstants (appendCharCode c) = [c.toNat].filter (· ≠ 0) := by
      rw [appendCharCode, pushedConstants_cons, toList_constant?_push]
      exact List.append_nil _
    rw [List.flatMap_cons, pushedConstants_append, ih, one, ← List.filter_append]
    rfl

end Pushed

namespace Tree

theorem constants_node (rule : Rule) (children : List Tree) :
    (node rule children).constants = children.flatMap constants := by
  rw [constants, tokens, tokensOfList_eq_flatMap, List.flatMap_assoc]
  rfl

theorem constants_leaf (token : Token) : (leaf token).constants = token.constants :=
  List.flatMap_singleton _ _

@[simp] theorem constants_keyword (text : String) (line : Nat) :
    (keyword text line).constants = [] := rfl

@[simp] theorem constants_symbol (text : String) (line : Nat) :
    (symbol text line).constants = [] := rfl

@[simp] theorem constants_identifier (text : String) (line : Nat) :
    (identifier text line).constants = [] := rfl

/-- The symbols of a chain spell nothing. -/
theorem constants_chain (rule : Rule) (first : Tree) (later : List (String × Nat × Tree)) :
    (node rule (chain first later)).constants =
      first.constants ++ later.flatMap fun part => part.2.2.constants := by
  rw [constants_node, chain, List.flatMap_cons, List.flatMap_assoc]
  simp

theorem IsType.constants_eq {tree : Tree} (isType : IsType tree) : tree.constants = [] := by
  cases isType <;> rfl

theorem IsResult.constants_eq {tree : Tree} (isResult : IsResult tree) : tree.constants = [] := by
  cases isResult with
  | void => rfl
  | type isType => exact isType.constants_eq

theorem FurtherNames.constants_eq {trees : List Tree} (names : FurtherNames trees) :
    trees.flatMap constants = [] := by
  induction names with
  | nil => rfl
  | cons _ _ _ _ ih => simp [ih]

theorem FurtherParameters.constants_eq {trees : List Tree} (parameters : FurtherParameters trees) :
    trees.flatMap constants = [] := by
  induction parameters with
  | nil => rfl
  | cons _ isType _ _ _ ih => simp [ih, isType.constants_eq]

/-! ## Code of expressions and statements -/

variable {frame : Frame}

/-- Whether code with a frame that is generated for what is read from a tree pushes the constants of
the tree. Declarations have none. -/
def Pushes (frame : Frame) (tree : Tree) : Prop :=
  match tree.rule? with
  | some .expression | some .term | some .subroutineCall =>
    ∀ code, ((Expression.ofTree tree).code frame).result = .ok code →
      pushedConstants code = tree.constants
  | some .expressionList =>
    ∀ code, (Expression.codeOfList frame (Expression.read tree).arguments).result = .ok code →
      pushedConstants code = tree.constants
  | some .letStatement | some .ifStatement | some .whileStatement | some .doStatement
  | some .returnStatement =>
    ∀ next code free, ((Statement.ofTree tree).code frame next).result = .ok (code, free) →
      pushedConstants code = tree.constants
  | some .statements =>
    ∀ next code free,
      (Statement.codeOfBlock frame next (Statement.blockOfTree tree)).result = .ok (code, free) →
        pushedConstants code = tree.constants
  | some .classVarDec | some .varDec | some .parameterList => tree.constants = []
  | some .classDec | some .subroutineDec | some .subroutineBody | none => True

theorem Pushes.term {tree : Tree} (pushes : tree.Pushes frame) (isTerm : tree.rule? = some .term)
    {code : List Instruction} (emitted : ((Expression.ofTree tree).code frame).result = .ok code) :
    pushedConstants code = tree.constants := by
  rw [Pushes, isTerm] at pushes
  exact pushes code emitted

theorem Pushes.expression {tree : Tree} (pushes : tree.Pushes frame)
    (isExpression : tree.rule? = some .expression) {code : List Instruction}
    (emitted : ((Expression.ofTree tree).code frame).result = .ok code) :
    pushedConstants code = tree.constants := by
  rw [Pushes, isExpression] at pushes
  exact pushes code emitted

theorem Pushes.statement {tree : Tree} (pushes : tree.Pushes frame) (isStatement : tree.IsStatement)
    {next free : Nat} {code : List Instruction}
    (emitted : ((Statement.ofTree tree).code frame next).result = .ok (code, free)) :
    pushedConstants code = tree.constants := by
  simp only [IsStatement, List.mem_cons, List.not_mem_nil, or_false] at isStatement
  rcases isStatement with is | is | is | is | is <;>
    · rw [Pushes, is] at pushes
      exact pushes next code free emitted

/-- A chain of operators pushes the constants of its terms. -/
theorem pushedConstants_foldl (later : List (String × Nat × Tree))
    (each : ∀ part ∈ later, ∀ code, ((Expression.ofTree part.2.2).code frame).result = .ok code →
      pushedConstants code = part.2.2.constants) (left : Expression) (code : List Instruction)
    (emitted : ((later.foldl (fun left part => Expression.binary left
      (BinaryOperator.ofSymbol part.1) (Expression.ofTree part.2.2)) left).code frame).result =
        .ok code) :
    ∃ first, (left.code frame).result = .ok first ∧ pushedConstants code =
      pushedConstants first ++ later.flatMap fun part => part.2.2.constants := by
  induction later generalizing left with
  | nil => exact ⟨code, emitted, (List.append_nil _).symm⟩
  | cons part later ih =>
    rw [List.forall_mem_cons] at each
    obtain ⟨joined, joinedCode, eq⟩ := ih each.2 _ emitted
    obtain ⟨first, firstCode, second, secondCode, op, -, rfl⟩ :=
      Expression.code_binary.mp joinedCode
    refine ⟨first, firstCode, ?_⟩
    rw [eq]
    simp [each.1 second secondCode]

/-- A list of expressions pushes their constants. -/
theorem pushedConstants_codeOfList (later : List (String × Nat × Tree))
    (each : ∀ part ∈ later, ∀ code, ((Expression.ofTree part.2.2).code frame).result = .ok code →
      pushedConstants code = part.2.2.constants) (code : List Instruction)
    (emitted : (Expression.codeOfList frame
      (later.map fun part => Expression.ofTree part.2.2)).result = .ok code) :
    pushedConstants code = later.flatMap fun part => part.2.2.constants := by
  induction later generalizing code with
  | nil =>
    obtain rfl := Expression.codeOfList_nil.mp emitted
    rfl
  | cons part later ih =>
    rw [List.forall_mem_cons] at each
    obtain ⟨first, firstCode, more, moreCode, rfl⟩ := Expression.codeOfList_cons.mp emitted
    rw [pushedConstants_append, each.1 first firstCode, ih each.2 more moreCode, List.flatMap_cons]

/-- A block pushes the constants of its statements. -/
theorem pushedConstants_codeOfBlock (block : List Tree)
    (each : ∀ tree ∈ block, ∀ next code free,
      ((Statement.ofTree tree).code frame next).result = .ok (code, free) →
        pushedConstants code = tree.constants) (next free : Nat) (code : List Instruction)
    (emitted : (Statement.codeOfBlock frame next (block.map Statement.ofTree)).result =
      .ok (code, free)) :
    pushedConstants code = block.flatMap constants := by
  induction block generalizing next code with
  | nil =>
    obtain ⟨rfl, -⟩ := Statement.codeOfBlock_nil.mp emitted
    rfl
  | cons tree later ih =>
    rw [List.forall_mem_cons] at each
    obtain ⟨first, middle, firstCode, more, moreCode, rfl⟩ := Statement.codeOfBlock_cons.mp emitted
    rw [pushedConstants_append, each.1 next first middle firstCode, ih each.2 middle more moreCode,
      List.flatMap_cons]

theorem pushedConstants_ofInteger (text : String) (line : Nat) (code : List Instruction)
    (emitted : ((Expression.ofInteger text).code frame).result = .ok code) :
    pushedConstants code = (Token.mk .integerConstant text line).constants := by
  rw [Expression.ofInteger] at emitted
  cases number : wordValue? text.toList with
  | none =>
    rw [number] at emitted
    exact absurd emitted Expression.code_flaw
  | some value =>
    rw [number] at emitted
    obtain rfl := Expression.code_integer.mp emitted
    rw [pushedConstants_cons, toList_constant?_push, pushedConstants_nil, List.append_nil]
    simp only [Token.constants, number, Option.toList_some]

theorem pushedConstants_string (token : Token) (isString : token.kind = .stringConstant)
    (code : List Instruction)
    (emitted : ((Expression.string token.stringValue).code frame).result = .ok code) :
    pushedConstants code = token.constants := by
  obtain ⟨-, -, rfl⟩ := Expression.code_string.mp emitted
  have new : (Instruction.call "String.new" 1).constant? = none := rfl
  rw [pushedConstants_cons, pushedConstants_cons, pushedConstants_appendChars,
    toList_constant?_push, new, Token.constants, isString, Option.toList_none, List.nil_append,
    ← List.filter_append]
  rfl

/-- The keywords that are terms push no constant but 0. -/
theorem pushedConstants_ofKeyword {text : String} (isConstant : text ∈ constantKeywords)
    (code : List Instruction)
    (emitted : ((Expression.ofKeyword text).code frame).result = .ok code) :
    pushedConstants code = [] := by
  simp only [constantKeywords, List.mem_cons, List.not_mem_nil, or_false] at isConstant
  rcases isConstant with rfl | rfl | rfl | rfl
  · obtain rfl := Expression.code_truth.mp emitted
    rfl
  · obtain rfl := Expression.code_zero.mp emitted
    rfl
  · obtain rfl := Expression.code_zero.mp emitted
    rfl
  · obtain rfl := Expression.code_receiver.mp emitted
    rfl

/-- Code for what is read from a derivation tree pushes the constants of the tree. -/
theorem Derivation.pushes {tree : Tree} (derives : tree.Derivation) (frame : Frame) :
    tree.Pushes frame := by
  induction derives with
  | classDec => trivial
  | subroutineDec => trivial
  | subroutineBody => trivial
  | classVarDec _ _ _ _ _ _ isType further =>
    show constants _ = []
    rw [constants_node]
    simp [isType.constants_eq, further.constants_eq]
  | varDec _ _ _ _ isType further =>
    show constants _ = []
    rw [constants_node]
    simp [isType.constants_eq, further.constants_eq]
  | noParameters => rfl
  | parameters _ _ isType further =>
    show constants _ = []
    rw [constants_node]
    simp [isType.constants_eq, further.constants_eq]
  | @statements block areStatements _ ih =>
    intro next code free emitted
    rw [Statement.blockOfTree_statements] at emitted
    rw [constants_node]
    refine pushedConstants_codeOfBlock block ?_ next free code emitted
    intro tree among next code free emitted
    exact (ih tree among).statement (areStatements tree among) emitted
  | letVariable _ _ _ _ _ _ ih =>
    intro next code free emitted
    rw [Statement.ofTree_letVariable] at emitted
    obtain ⟨first, firstCode, declared, -, rfl, -⟩ := Statement.code_assign.mp emitted
    rw [constants_node]
    simp [ih first firstCode, Instruction.constant?]
  | letElement _ _ _ _ _ _ _ _ _ ihIndex ihValue =>
    intro next code free emitted
    rw [Statement.ofTree_letElement] at emitted
    obtain ⟨declared, -, position, positionCode, second, secondCode, rfl, -⟩ :=
      Statement.code_assignElement.mp emitted
    rw [constants_node]
    simp [ihIndex position positionCode, ihValue second secondCode, Instruction.constant?]
  | ifThen _ _ _ _ _ _ _ ihCondition ihYes =>
    intro next code free emitted
    rw [Statement.ofTree_ifThen] at emitted
    obtain ⟨test, testCode, inner, innerCode, rfl⟩ := Statement.code_when.mp emitted
    rw [constants_node]
    simp [ihCondition test testCode, ihYes _ inner free innerCode, Instruction.constant?]
  | ifElse _ _ _ _ _ _ _ _ _ _ _ ihCondition ihYes ihNo =>
    intro next code free emitted
    rw [Statement.ofTree_ifElse] at emitted
    obtain ⟨test, testCode, first, middle, firstCode, second, secondCode, rfl⟩ :=
      Statement.code_choose.mp emitted
    rw [constants_node]
    simp [ihCondition test testCode, ihYes _ first middle firstCode, ihNo _ second free secondCode,
      Instruction.constant?]
  | whileStatement _ _ _ _ _ _ _ ihCondition ihBlock =>
    intro next code free emitted
    rw [Statement.ofTree_whileStatement] at emitted
    obtain ⟨test, testCode, inner, innerCode, rfl⟩ := Statement.code_loop.mp emitted
    rw [constants_node]
    simp [ihCondition test testCode, ihBlock _ inner free innerCode, Instruction.constant?]
  | doStatement _ _ _ ih =>
    intro next code free emitted
    rw [Statement.ofTree_doStatement] at emitted
    obtain ⟨value, valueCode, rfl, -⟩ := Statement.code_perform.mp emitted
    rw [constants_node]
    simp [ih value valueCode, Instruction.constant?]
  | returnNothing =>
    intro next code free emitted
    rw [Statement.ofTree_returnNothing] at emitted
    obtain ⟨rfl, -⟩ := Statement.code_leave_none.mp emitted
    rfl
  | returnValue _ _ _ ih =>
    intro next code free emitted
    rw [Statement.ofTree_returnValue] at emitted
    obtain ⟨first, firstCode, rfl, -⟩ := Statement.code_leave_some.mp emitted
    rw [constants_node]
    simp [ih first firstCode, Instruction.constant?]
  | @expression first later firstIsTerm _ _ areTerms _ ihFirst ihLater =>
    intro code emitted
    rw [Expression.ofTree_expression first later firstIsTerm areTerms] at emitted
    obtain ⟨left, leftCode, eq⟩ := pushedConstants_foldl later
      (fun part among _ h => (ihLater part among).term (areTerms part among) h) _ code emitted
    rw [eq, ihFirst.term firstIsTerm leftCode, constants_chain]
  | integer text l =>
    intro code emitted
    rw [Expression.ofTree_integer] at emitted
    rw [constants_node, List.flatMap_singleton, constants_leaf,
      pushedConstants_ofInteger text l code emitted]
  | string text l =>
    intro code emitted
    rw [Expression.ofTree_string] at emitted
    rw [constants_node, List.flatMap_singleton, constants_leaf,
      pushedConstants_string ⟨.stringConstant, text, l⟩ rfl code emitted]
  | constant text l isConstant =>
    intro code emitted
    rw [Expression.ofTree_constant] at emitted
    exact pushedConstants_ofKeyword isConstant code emitted
  | «variable» text l =>
    intro code emitted
    rw [Expression.ofTree_variable] at emitted
    obtain ⟨declared, -, rfl⟩ := Expression.code_named.mp emitted
    rw [constants_node]
    simp [Instruction.constant?]
  | element _ _ _ _ _ ih =>
    intro code emitted
    rw [Expression.ofTree_element] at emitted
    obtain ⟨declared, -, position, positionCode, rfl⟩ := Expression.code_element.mp emitted
    rw [constants_node]
    simp [ih position positionCode, Instruction.constant?]
  | call _ ih =>
    intro code emitted
    rw [Expression.ofTree_call] at emitted
    rw [constants_node, List.flatMap_singleton, ih code emitted]
  | parenthesized _ _ _ ih =>
    intro code emitted
    rw [Expression.ofTree_parenthesized] at emitted
    rw [constants_node]
    simp [ih code emitted]
  | unary text l isOperator _ ih =>
    intro code emitted
    rw [Expression.ofTree_unary text _ l isOperator] at emitted
    obtain ⟨value, valueCode, op, -, rfl⟩ := Expression.code_unary.mp emitted
    rw [constants_node]
    simp [ih value valueCode]
  | ownCall _ _ _ _ _ ih =>
    intro code emitted
    rw [Expression.ofTree_ownCall] at emitted
    obtain ⟨values, valuesCode, rfl⟩ := Expression.code_ownCall.mp emitted
    rw [constants_node]
    simp [ih values valuesCode, Instruction.constant?]
  | qualifiedCall context _ _ _ _ _ _ _ ih =>
    intro code emitted
    rw [Expression.ofTree_qualifiedCall] at emitted
    rw [constants_node]
    cases found : frame.scope.resolve? context with
    | some object =>
      obtain ⟨values, valuesCode, rfl⟩ := (Expression.code_methodCall found).mp emitted
      simp [ih values valuesCode, Instruction.constant?]
    | none =>
      obtain ⟨values, valuesCode, rfl⟩ := (Expression.code_functionCall found).mp emitted
      simp [ih values valuesCode, Instruction.constant?]
  | noArguments =>
    intro code emitted
    obtain rfl := Expression.codeOfList_nil.mp emitted
    rfl
  | @arguments first later firstIsExpression _ _ areExpressions _ ihFirst ihLater =>
    intro code emitted
    rw [Expression.arguments_read first later firstIsExpression areExpressions] at emitted
    obtain ⟨one, oneCode, more, moreCode, rfl⟩ := Expression.codeOfList_cons.mp emitted
    rw [pushedConstants_append, ihFirst.expression firstIsExpression oneCode, constants_chain,
      pushedConstants_codeOfList later (fun part among _ h => (ihLater part among).expression
        (areExpressions part among) h) more moreCode]

/-! ## Subroutines and classes -/

/-- The body of a subroutine is declarations and the block at its end, which has all the constants
of the subroutine. -/
theorem Derivation.exists_block {tree : Tree} {subroutine : Subroutine} (derives : tree.Derivation)
    (isRule : tree.rule? = some .subroutineDec) (read : Subroutine.ofTree tree = .ok subroutine) :
    ∃ (declarations : List Declaration) (block : List Tree),
      subroutine.body = declarations.map .declare ++
        [.statements (Statement.blockOfTree (.node .statements block))] ∧
      (node .statements block).Derivation ∧
      tree.constants = (node .statements block).constants := by
  obtain ⟨keyword, name, result, parameters, declared, block, l₁, l₂, l₃, l₄, l₅, l₆, rfl, -,
    isResult, parametersDerive, derive, blockDerives⟩ := derives.exists_subroutine isRule
  obtain ⟨declarations, readDeclared⟩ := exists_declarations derive
  refine ⟨declarations, block, ?_, blockDerives, ?_⟩
  · rw [(Subroutine.ofTree_eq_ok read).2.2]
    show ([symbol "\x7b" l₅] ++ declared ++ [.node .statements block,
      symbol "\x7d" l₆]).filterMap BodyPart.ofTree? = _
    rw [List.filterMap_append, List.filterMap_append, readDeclared]
    rfl
  · -- the parameters and the declarations spell nothing, whatever the frame is
    have ofParameters : (node .parameterList parameters).constants = [] :=
      parametersDerive.pushes ⟨"", .function, .root ""⟩
    have ofDeclared : declared.flatMap constants = [] := by
      rw [List.flatMap_eq_nil_iff]
      intro part among
      obtain ⟨isRule, derives⟩ := derive part among
      have nothing := derives.pushes ⟨"", .function, .root ""⟩
      rwa [Pushes, isRule] at nothing
    rw [constants_node]
    simp only [List.flatMap_cons, List.flatMap_nil, constants_keyword, constants_symbol,
      constants_identifier, isResult.constants_eq, ofParameters, List.nil_append, List.append_nil]
    rw [constants_node]
    simp [ofDeclared]

end Tree

/-- A block behind declarations pushes its constants. -/
theorem BodyPart.pushedConstants_codeOfList {declarations : List Declaration} {block : List Tree}
    {frame : Frame} {next : Nat} {code : List Instruction} {inner : Scope}
    (derives : (Tree.node .statements block).Derivation)
    (emitted : (codeOfList frame next (declarations.map .declare ++
      [.statements (Statement.blockOfTree (.node .statements block))])).result =
        .ok (code, inner)) :
    pushedConstants code = (Tree.node .statements block).constants := by
  obtain ⟨-, free, blockCode⟩ := codeOfList_declarations.mp emitted
  exact derives.pushes _ next code free blockCode

/-- The constants other than 0 that a subroutine of a class makes known: a constructor the number of
fields, and then each of them what its tokens spell. -/
def Tree.subroutineConstants (tree sub : Tree) : List Nat :=
  (if sub.textAt 0 = "constructor" then [(tree.classNamesOf .field).length].filter (· ≠ 0)
    else []) ++
    sub.constants

theorem Emitted.pushedConstants_code {tree sub : Tree} {fields arguments : List Binding}
    {block : Block} {subroutine : Subroutine} {body : List Instruction}
    (own : Emitted (tree.textAt 1) fields sub block subroutine arguments body)
    (declares : tree.Declares fields) (derives : sub.Derivation)
    (isRule : sub.rule? = some .subroutineDec) :
    pushedConstants block.code = tree.subroutineConstants sub := by
  obtain ⟨declarations, statements, parts, blockDerives, constants⟩ :=
    derives.exists_block isRule own.read
  have emitted := own.emitted
  rw [parts] at emitted
  have count : (classScope (tree.textAt 1) fields).count .field =
      (tree.classNamesOf .field).length := by
    rw [Scope.count, ← Level.length_names, names_classScope, declares.kinds]
  have prologue : pushedConstants (Subroutine.prologue (tree.classNamesOf .field).length
      subroutine.kind) = if sub.textAt 0 = "constructor" then
        [(tree.classNamesOf .field).length].filter (· ≠ 0) else [] := by
    rcases SubroutineKind.ofKeyword_eq_ok (Subroutine.ofTree_eq_ok own.read).1 with
      ⟨keyword, kind⟩ | ⟨keyword, kind⟩ | ⟨keyword, kind⟩
    · rw [keyword, kind, Subroutine.prologue, pushedConstants_cons, toList_constant?_push]
      exact List.append_nil _
    · rw [keyword, kind]
      rfl
    · rw [keyword, kind]
      rfl
  rw [own.block_eq, Block.code, pushedConstants_cons, pushedConstants_append, count, prologue,
    BodyPart.pushedConstants_codeOfList blockDerives emitted, ← constants]
  rfl

/-- Zeros apart, the code of a class that the parser returned pushes the number of fields in each
constructor and the constants that the source spells, in the order of the source. -/
theorem pushedConstants_generate {tree : Tree} {code : List Instruction}
    (derives : tree.Derivation) (isRule : tree.rule? = some .classDec)
    (emitted : (generate tree).result = .ok code) :
    pushedConstants code = (tree.groups .subroutineDec).flatMap tree.subroutineConstants := by
  obtain ⟨whole, -, fields, declares, each⟩ := exists_blocks_of_generate emitted
  have members : ∀ sub ∈ tree.groups .subroutineDec,
      sub.rule? = some .subroutineDec ∧ sub.Derivation :=
    fun sub among => derives.of_mem_groups isRule among
  rw [whole]
  generalize blocks code = list at each
  generalize tree.groups .subroutineDec = subroutines at each members
  induction each with
  | nil => rfl
  | cons here _ ih =>
    rw [List.forall_mem_cons] at members
    obtain ⟨subroutine, arguments, body, own⟩ := here
    rw [List.flatMap_cons, pushedConstants_append, ih members.2, List.flatMap_cons,
      own.pushedConstants_code declares members.1.2 members.1.1]

/-! ## How large the constants are -/

theorem mem_pushedConstants {value : Nat} {code : List Instruction} :
    value ∈ pushedConstants code ↔ value ≠ 0 ∧ .push .constant value ∈ code := by
  unfold pushedConstants
  rw [List.mem_filterMap]
  constructor
  · rintro ⟨instruction, among, pushed⟩
    cases instruction with
    | push segment own =>
      rw [Instruction.constant?, Option.ite_none_right_eq_some] at pushed
      obtain ⟨⟨rfl, nonzero⟩, pushed⟩ := pushed
      cases pushed
      exact ⟨nonzero, among⟩
    | _ => cases pushed
  · rintro ⟨nonzero, among⟩
    exact ⟨_, among, by simp [Instruction.constant?, nonzero]⟩

/-- Zeros are small, so they do not count when constants are held to a bound. -/
theorem forall_filter_ne_zero_le {values : List Nat} {bound : Nat} :
    (∀ value ∈ values.filter (· ≠ 0), value ≤ bound) ↔ ∀ value ∈ values, value ≤ bound := by
  simp only [List.mem_filter, decide_eq_true_eq]
  refine forall_congr' fun value => ⟨fun small among => ?_, fun small among => small among.1⟩
  by_cases zero : value = 0
  · rw [zero]
    exact Nat.zero_le bound
  · exact small ⟨among, zero⟩

/-- Whether a token that is a string constant has no more and no larger characters than the largest
integer constant. -/
def Token.SmallString (token : Token) : Prop :=
  token.kind = .stringConstant → token.stringValue.length ≤ maxIntegerConstant ∧
    ∀ c ∈ token.stringValue.toList, c.toNat ≤ maxIntegerConstant

/-- Integer constants are small as they are. -/
theorem Token.WellFormed.constants_le_iff {token : Token} (wellFormed : token.WellFormed) :
    (∀ value ∈ token.constants, value ≤ maxIntegerConstant) ↔ token.SmallString := by
  unfold Token.SmallString
  cases kind : token.kind with
  | integerConstant =>
    have number := wellFormed.wordValue kind
    have small : decimalValue token.text.toList ≤ maxIntegerConstant := by
      unfold Token.WellFormed at wellFormed
      rw [kind] at wellFormed
      generalize token.text.toList = lexeme at wellFormed
      cases wellFormed with
      | integerConstant _ _ small => exact small
    simp [Token.constants, kind, number, small]
  | stringConstant =>
    simp only [Token.constants, kind, forall_filter_ne_zero_le, List.forall_mem_cons,
      List.forall_mem_map, true_implies]
  | keyword | symbol | identifier => simp [Token.constants, kind]

/-- Whether a class has only string constants that are small, and few fields if it has a
constructor. -/
structure Tree.SmallConstants (tree : Tree) : Prop where
  strings : ∀ token ∈ tree.tokens, token.SmallString
  fields : (∃ sub ∈ tree.groups .subroutineDec, sub.textAt 0 = "constructor") →
    (tree.classNamesOf .field).length ≤ maxIntegerConstant

theorem Tree.subroutineConstants_le_iff {tree sub : Tree}
    (wellFormed : ∀ token ∈ sub.tokens, token.WellFormed) :
    (∀ value ∈ tree.subroutineConstants sub, value ≤ maxIntegerConstant) ↔
      (sub.textAt 0 = "constructor" → (tree.classNamesOf .field).length ≤ maxIntegerConstant) ∧
        ∀ token ∈ sub.tokens, token.SmallString := by
  have spelled : (∀ value ∈ sub.constants, value ≤ maxIntegerConstant) ↔
      ∀ token ∈ sub.tokens, token.SmallString := by
    simp only [Tree.constants, List.mem_flatMap, forall_exists_index, and_imp]
    rw [forall_comm]
    refine forall_congr' fun token => ?_
    rw [forall_comm]
    exact forall_congr' fun among => (wellFormed token among).constants_le_iff
  rw [Tree.subroutineConstants, List.forall_mem_append, spelled]
  refine and_congr_left fun _ => ?_
  by_cases constructs : sub.textAt 0 = "constructor"
  · rw [if_pos constructs, forall_filter_ne_zero_le, List.forall_mem_singleton]
    exact ⟨fun small _ => small, fun small => small constructs⟩
  · simp [constructs]

/-- The code of a source pushes no constant beyond the largest integer constant exactly if its
string constants are no longer, have no characters with larger codes, and, in case there is a
constructor, there are no more fields. -/
theorem compile_constants_le_iff (source : String) (artifact : Artifact)
    (compiled : (compile source).result = .ok artifact) :
    ∃ tree, (parse source).result = .ok tree ∧
      ((∀ value, .push .constant value ∈ artifact.code → value ≤ maxIntegerConstant) ↔
        tree.SmallConstants) := by
  obtain ⟨tree, parsed, compiled⟩ := Logged.result_bind_eq_ok.mp compiled
  obtain ⟨name, -, compiled⟩ := Logged.result_bind_eq_ok.mp compiled
  obtain ⟨code, emitted, compiled⟩ := Logged.result_bind_eq_ok.mp compiled
  cases compiled
  refine ⟨tree, parsed, ?_⟩
  obtain ⟨tokens, tokenized, parsed⟩ := exists_tokens_of_parse parsed
  obtain ⟨isRule, derives, same⟩ := derivation_of_parseTokens parsed
  have areTokens : ∀ token ∈ tree.tokens, token.WellFormed := by
    rw [same]
    exact wellFormed_of_tokenize tokenized
  have inside : ∀ sub ∈ tree.groups .subroutineDec, ∀ token ∈ sub.tokens, token ∈ tree.tokens :=
    fun sub among token listed => Tree.mem_tokens_of_mem_groups among listed
  have zeros : (∀ value, .push .constant value ∈ code → value ≤ maxIntegerConstant) ↔
      ∀ value ∈ pushedConstants code, value ≤ maxIntegerConstant := by
    refine forall_congr' fun value => ?_
    rw [mem_pushedConstants]
    by_cases zero : value = 0
    · simp [zero]
    · simp [zero]
  have each : (∀ value ∈ pushedConstants code, value ≤ maxIntegerConstant) ↔
      ∀ sub ∈ tree.groups .subroutineDec,
        (sub.textAt 0 = "constructor" → (tree.classNamesOf .field).length ≤ maxIntegerConstant) ∧
          ∀ token ∈ sub.tokens, token.SmallString := by
    rw [pushedConstants_generate derives isRule emitted]
    simp only [List.mem_flatMap, forall_exists_index, and_imp]
    rw [forall_comm]
    refine forall_congr' fun sub => ?_
    rw [forall_comm]
    refine forall_congr' fun among => ?_
    exact Tree.subroutineConstants_le_iff fun token listed =>
      areTokens token (inside sub among token listed)
  rw [zeros, each]
  constructor
  · intro small
    refine ⟨?_, fun ⟨sub, among, constructs⟩ => (small sub among).1 constructs⟩
    intro token listed isString
    obtain ⟨sub, among, within⟩ := derives.exists_subroutine_of_string isRule listed isString
    exact (small sub among).2 token within isString
  · intro small sub among
    exact ⟨fun constructs => small.fields ⟨sub, among, constructs⟩,
      fun token listed => small.strings token (inside sub among token listed)⟩

/-- A class with two fields, a constructor, a string and the largest integer constant. -/
def smallSource : String :=
  "class A \x7b field int x, y; constructor A new() \x7b\n" ++
    "do g(\"\u00e9\", 32767); return this; \x7d \x7d\n"

def smallCode : List Instruction :=
  [.function "A.new" 0, .push .constant 2, .call "Memory.alloc" 1, .pop .pointer 0,
    .push .pointer 0, .push .constant 1, .call "String.new" 1, .push .constant 233,
    .call "String.appendChar" 2, .push .constant 32767, .call "A.g" 3, .pop .temp 7,
    .push .pointer 0, .ret]

theorem compile_constants_le_iff_smallSource :
    ∃ tree, (parse smallSource).result = .ok tree ∧ tree.SmallConstants := by
  have compiled : (compile smallSource).result = .ok ⟨"A", smallCode⟩ := by decide +kernel
  obtain ⟨tree, parsed, law⟩ := compile_constants_le_iff smallSource ⟨"A", smallCode⟩ compiled
  refine ⟨tree, parsed, law.mp ?_⟩
  intro value among
  have pushed : ∀ instruction ∈ smallCode, ∀ value ∈ instruction.constant?,
      value ≤ maxIntegerConstant := by decide
  by_cases zero : value = 0
  · rw [zero]
    exact Nat.zero_le _
  · exact pushed _ among value (by simp [Instruction.constant?, zero])

/-- A class with a string of the one character with the code 32768. -/
def largeSource : String :=
  "class A \x7b function void f() \x7b do g(\"\u8000\"); return; \x7d \x7d\n"

def largeCode : List Instruction :=
  [.function "A.f" 0, .push .pointer 0, .push .constant 1, .call "String.new" 1,
    .push .constant 32768, .call "String.appendChar" 2, .call "A.g" 2, .pop .temp 7,
    .push .constant 0, .ret]

theorem push_constant_large : (compile largeSource).result = .ok ⟨"A", largeCode⟩ ∧
    .push .constant 32768 ∈ largeCode ∧ ¬ 32768 ≤ maxIntegerConstant := by
  refine ⟨by decide +kernel, by decide, by decide⟩

end JackCompiler
