import JackCompiler.Compile
import JackCompiler.Proofs.Syntax.Combinator
import JackCompiler.Proofs.Syntax.Derivation

/-!
# Soundness of the parser

A success has consumed the tokens of the trees it built, and the trees are made up as the grammar
says (`Grammar.parser_sound`). For the productions of the language this makes every tree that the
parser builds a derivation tree (`Rule.parseWithin_sound`).
-/

set_option autoImplicit false

namespace JackCompiler

namespace Grammar

variable {ν : Type}

/-- The lists of trees that a grammar describes, where `rules` says which trees a reference stands
for. -/
inductive Matches (rules : ν → Tree → Prop) : Grammar ν → List Tree → Prop
  | terminal {kind : TokenKind} {texts : List String} (token : Token) (kinds : token.kind = kind)
      (among : texts = [] ∨ token.text ∈ texts) :
      Matches rules (.terminal kind texts) [.leaf token]
  | nil : Matches rules (.sequence []) []
  | cons {part : Grammar ν} {later : List (Grammar ν)} {first second : List Tree}
      (head : Matches rules part first) (tail : Matches rules (.sequence later) second) :
      Matches rules (.sequence (part :: later)) (first ++ second)
  | choice {candidates : List (Grammar ν)} {part : Grammar ν} {trees : List Tree}
      (among : part ∈ candidates) (chosen : Matches rules part trees) :
      Matches rules (.alternatives candidates) trees
  | done {part : Grammar ν} : Matches rules (.many part) []
  | round {part : Grammar ν} {first second : List Tree} (head : Matches rules part first)
      (tail : Matches rules (.many part) second) : Matches rules (.many part) (first ++ second)
  | absent {part : Grammar ν} : Matches rules (.maybe part) []
  | present {part : Grammar ν} {trees : List Tree} (inside : Matches rules part trees) :
      Matches rules (.maybe part) trees
  | rule {name : ν} {tree : Tree} (stands : rules name tree) : Matches rules (.rule name) [tree]

/-- A success of a grammar's parser has consumed the tokens of the trees it built, and these trees
are described by the grammar, provided that the same holds of the references. -/
theorem parser_sound {enter : ν → Parser} {rules : ν → Tree → Prop}
    (sound : ∀ name cursor trees next, (enter name cursor).result = .ok (trees, next) →
      cursor.Consumed trees next ∧ ∃ tree, trees = [tree] ∧ rules name tree)
    (grammar : Grammar ν) (cursor : Cursor) (trees : List Tree) (next : Cursor)
    (h : (grammar.parser enter cursor).result = .ok (trees, next)) :
    cursor.Consumed trees next ∧ Matches rules grammar trees := by
  induction grammar generalizing cursor trees next with
  | terminal kind texts =>
    obtain ⟨position, ahead⟩ := cursor
    cases ahead with
    | nil => simp [parser_terminal, Parser.terminal] at h
    | cons token later =>
      simp only [parser_terminal, Parser.terminal] at h
      split at h
      · rename_i fits
        simp only [Logged.result_pure, Except.ok.injEq, Prod.mk.injEq] at h
        obtain ⟨rfl, rfl⟩ := h
        exact ⟨⟨by simp [Cursor.advance], by simp [Cursor.advance]⟩,
          .terminal token fits.1 fits.2⟩
      · simp at h
  | sequence parts ih =>
    rw [parser_sequence] at h
    induction parts generalizing cursor trees next with
    | nil =>
      simp only [List.map_nil, Parser.sequence, Logged.result_pure, Except.ok.injEq,
        Prod.mk.injEq] at h
      obtain ⟨rfl, rfl⟩ := h
      exact ⟨.refl cursor, .nil⟩
    | cons part later ihLater =>
      rw [List.map_cons, Parser.result_sequence_cons] at h
      cases hp : (part.parser enter cursor).result with
      | error error => simp [hp, bind, Except.bind] at h
      | ok first =>
        obtain ⟨one, middle⟩ := first
        simp only [hp, bind, Except.bind] at h
        cases hs : (Parser.sequence (later.map (parser enter)) middle).result with
        | error error => simp [hs, Except.map] at h
        | ok second =>
          simp only [hs, Except.map, Except.ok.injEq, Prod.map, id, Prod.mk.injEq] at h
          obtain ⟨rfl, rfl⟩ := h
          have head := ih part List.mem_cons_self cursor one middle hp
          have tail := ihLater (fun p hp => ih p (List.mem_cons_of_mem _ hp)) middle second.1
            second.2 hs
          exact ⟨head.1.trans tail.1, .cons head.2 tail.2⟩
  | alternatives candidates ih =>
    rw [parser_alternatives, Parser.alternatives] at h
    obtain ⟨chosen, among, hc⟩ := Parser.exists_of_result_firstOf _ _ _ _ _ h
    obtain ⟨part, hpart, rfl⟩ := List.mem_map.mp among
    have inside := ih part hpart cursor trees next hc
    exact ⟨inside.1, .choice hpart inside.2⟩
  | many part ih =>
    -- the repetition goes on only behind consumed tokens
    induction hn : cursor.ahead.length using Nat.strongRecOn generalizing
      cursor trees next with
    | ind n ihMany =>
      rw [parser_many, Parser.result_many] at h
      cases hp : (part.parser enter cursor).result with
      | error error =>
        simp only [hp, Except.ok.injEq, Prod.mk.injEq] at h
        obtain ⟨rfl, rfl⟩ := h
        exact ⟨.refl cursor, .done⟩
      | ok first =>
        obtain ⟨one, middle⟩ := first
        simp only [hp] at h
        split at h
        · rename_i shorter
          cases hm : (Parser.many (part.parser enter) middle).result with
          | error error => simp [hm, Except.map] at h
          | ok second =>
            simp only [hm, Except.map, Except.ok.injEq, Prod.map, id, Prod.mk.injEq] at h
            obtain ⟨rfl, rfl⟩ := h
            have head := ih cursor one middle hp
            have tail := ihMany _ (hn ▸ shorter) middle second.1 second.2 hm rfl
            exact ⟨head.1.trans tail.1, .round head.2 tail.2⟩
        · simp only [Except.ok.injEq, Prod.mk.injEq] at h
          obtain ⟨rfl, rfl⟩ := h
          exact ⟨.refl cursor, .done⟩
  | maybe part ih =>
    rw [parser_maybe, Parser.result_maybe] at h
    cases hp : (part.parser enter cursor).result with
    | error error =>
      simp only [hp, Except.ok.injEq, Prod.mk.injEq] at h
      obtain ⟨rfl, rfl⟩ := h
      exact ⟨.refl cursor, .absent⟩
    | ok parsed =>
      simp only [hp, Except.ok.injEq] at h
      subst h
      have inside := ih cursor trees next hp
      exact ⟨inside.1, .present inside.2⟩
  | rule name =>
    obtain ⟨consumed, tree, rfl, stands⟩ := sound name cursor trees next h
    exact ⟨consumed, .rule stands⟩

namespace Matches

variable {rules : ν → Tree → Prop} {part : Grammar ν} {later : List (Grammar ν)}
  {trees : List Tree}

theorem nil_iff : Matches rules (.sequence []) trees ↔ trees = [] := by
  constructor
  · intro h
    cases h
    rfl
  · rintro rfl
    exact .nil

theorem cons_iff : Matches rules (.sequence (part :: later)) trees ↔
    ∃ first second, trees = first ++ second ∧ Matches rules part first ∧
      Matches rules (.sequence later) second := by
  constructor
  · intro h
    cases h with
    | cons head tail => exact ⟨_, _, rfl, head, tail⟩
  · rintro ⟨first, second, rfl, head, tail⟩
    exact .cons head tail

theorem terminal_iff {kind : TokenKind} {text : String} {texts : List String} :
    Matches rules (.terminal kind (text :: texts)) trees ↔
      ∃ found ∈ text :: texts, ∃ line, trees = [.leaf ⟨kind, found, line⟩] := by
  constructor
  · intro h
    cases h with
    | terminal token kinds among =>
      obtain ⟨kind, found, line⟩ := token
      cases kinds
      exact ⟨found, among.resolve_left (by simp), line, rfl⟩
  · rintro ⟨found, among, line, rfl⟩
    exact .terminal _ rfl (.inr among)

theorem anyTerminal_iff {kind : TokenKind} :
    Matches rules (.terminal kind []) trees ↔ ∃ text line, trees = [.leaf ⟨kind, text, line⟩] := by
  constructor
  · intro h
    cases h with
    | terminal token kinds among =>
      obtain ⟨kind, text, line⟩ := token
      cases kinds
      exact ⟨text, line, rfl⟩
  · rintro ⟨text, line, rfl⟩
    exact .terminal _ rfl (.inl rfl)

theorem noChoice_iff : Matches rules (.alternatives []) trees ↔ False := by
  constructor
  · intro h
    cases h with
    | choice among chosen => simp at among
  · exact False.elim

theorem choice_iff : Matches rules (.alternatives (part :: later)) trees ↔
    Matches rules part trees ∨ Matches rules (.alternatives later) trees := by
  constructor
  · intro h
    cases h with
    | choice among chosen =>
      rcases List.mem_cons.mp among with rfl | among
      · exact .inl chosen
      · exact .inr (.choice among chosen)
  · rintro (chosen | h)
    · exact .choice List.mem_cons_self chosen
    · cases h with
      | choice among chosen => exact .choice (List.mem_cons_of_mem _ among) chosen

theorem maybe_iff :
    Matches rules (.maybe part) trees ↔ trees = [] ∨ Matches rules part trees := by
  constructor
  · intro h
    cases h with
    | absent => exact .inl rfl
    | present inside => exact .inr inside
  · rintro (rfl | inside)
    · exact .absent
    · exact .present inside

theorem rule_iff {name : ν} :
    Matches rules (.rule name) trees ↔ ∃ tree, rules name tree ∧ trees = [tree] := by
  constructor
  · intro h
    cases h with
    | rule stands => exact ⟨_, stands, rfl⟩
  · rintro ⟨tree, stands, rfl⟩
    exact .rule stands

theorem typeName_iff :
    Matches rules typeName trees ↔ ∃ type : Tree, type.IsType ∧ trees = [type] := by
  simp only [typeName, choice_iff, noChoice_iff, or_false, keyword, identifier, terminal_iff,
    anyTerminal_iff]
  constructor
  · rintro (⟨text, among, line, rfl⟩ | ⟨text, line, rfl⟩)
    · exact ⟨_, .primitive text line among, rfl⟩
    · exact ⟨_, .class text line, rfl⟩
  · rintro ⟨type, isType, rfl⟩
    cases isType with
    | primitive text line among => exact .inl ⟨text, among, line, rfl⟩
    | «class» text line => exact .inr ⟨text, line, rfl⟩

/-- A repetition describes trees that keep a property which each round keeps. -/
theorem many_induction {motive : List Tree → Prop} (h : Matches rules (.many part) trees)
    (done : motive []) (round : ∀ first second, Matches rules part first → motive second →
      motive (first ++ second)) : motive trees := by
  generalize hg : Grammar.many part = grammar at h
  induction h with
  | done => exact done
  | round head tail _ ih =>
    cases hg
    exact round _ _ head (ih rfl)
  | _ => cases hg

/-- A repeated reference describes trees that it stands for. -/
theorem of_many_rule {name : ν} (h : Matches rules (.many (.rule name)) trees) :
    ∀ tree ∈ trees, rules name tree := by
  refine many_induction (motive := fun trees => ∀ tree ∈ trees, rules name tree) h (by simp) ?_
  intro first second head ih
  obtain ⟨tree, stands, rfl⟩ := rule_iff.mp head
  exact List.forall_mem_cons.mpr ⟨stands, ih⟩

theorem of_furtherNames (h : Matches rules furtherNames trees) : Tree.FurtherNames trees := by
  refine many_induction h .nil ?_
  intro first second head ih
  simp only [cons_iff, nil_iff, symbol, identifier, terminal_iff, anyTerminal_iff,
    List.mem_singleton, exists_eq_left] at head
  obtain ⟨_, _, rfl, ⟨comma, rfl⟩, _, _, rfl, ⟨text, line, rfl⟩, rfl⟩ := head
  exact .cons comma text line ih

theorem of_furtherParameters
    (h : Matches rules (.many (.sequence [symbol [","], typeName, identifier])) trees) :
    Tree.FurtherParameters trees := by
  refine many_induction h .nil ?_
  intro first second head ih
  simp only [cons_iff, nil_iff, symbol, identifier, terminal_iff, anyTerminal_iff, typeName_iff,
    List.mem_singleton, exists_eq_left] at head
  obtain ⟨_, _, rfl, ⟨comma, rfl⟩, _, _, rfl, ⟨type, isType, rfl⟩, _, _, rfl, ⟨text, line, rfl⟩,
    rfl⟩ := head
  exact .cons comma isType text line ih

/-- Further parts behind symbols are the tail of a chain. -/
theorem of_furtherParts {name : ν} {text : String} {texts : List String}
    (h : Matches rules (.many (.sequence [symbol (text :: texts), .rule name])) trees) :
    ∃ parts : List (String × Nat × Tree),
      trees = parts.flatMap (fun part => [Tree.symbol part.1 part.2.1, part.2.2]) ∧
      (∀ part ∈ parts, part.1 ∈ text :: texts) ∧ ∀ part ∈ parts, rules name part.2.2 := by
  refine many_induction (motive := fun trees => ∃ parts : List (String × Nat × Tree),
      trees = parts.flatMap (fun part => [Tree.symbol part.1 part.2.1, part.2.2]) ∧
      (∀ part ∈ parts, part.1 ∈ text :: texts) ∧ ∀ part ∈ parts, rules name part.2.2)
    h ⟨[], rfl, by simp, by simp⟩ ?_
  rintro first second head ⟨parts, rfl, areSymbols, stand⟩
  simp only [cons_iff, nil_iff, symbol, terminal_iff, rule_iff] at head
  obtain ⟨_, _, rfl, ⟨found, among, line, rfl⟩, _, _, rfl, ⟨tree, stands, rfl⟩, rfl⟩ := head
  exact ⟨(found, line, tree) :: parts, rfl, List.forall_mem_cons.mpr ⟨among, areSymbols⟩,
    List.forall_mem_cons.mpr ⟨stands, stand⟩⟩

end Matches

end Grammar

namespace Rule

/-- A tree that a rule may leave: a derivation tree whose root is of that rule. -/
def Stands (rule : Rule) (tree : Tree) : Prop := tree.rule? = some rule ∧ tree.Derivation

/-- A reference to a rule describes one node of that rule. -/
theorem matches_rule_iff {rule : Rule} {trees : List Tree} :
    Grammar.Matches Stands (.rule rule) trees ↔
      ∃ children, (Tree.node rule children).Derivation ∧ trees = [.node rule children] := by
  rw [Grammar.Matches.rule_iff]
  constructor
  · rintro ⟨tree, ⟨isRule, derives⟩, rfl⟩
    cases tree with
    | leaf token => simp [Tree.rule?] at isRule
    | node found children =>
      cases isRule
      exact ⟨children, derives, rfl⟩
  · rintro ⟨children, derives, rfl⟩
    exact ⟨_, ⟨rfl, derives⟩, rfl⟩

open Grammar in
/-- What a production describes makes a derivation tree. -/
theorem derivation_of_matches (rule : Rule) (children : List Tree)
    (h : Matches Stands rule.production children) : (Tree.node rule children).Derivation := by
  cases rule <;>
    simp only [production, keyword, symbol, identifier, between, Matches.cons_iff,
      Matches.nil_iff, Matches.terminal_iff, Matches.anyTerminal_iff, Matches.typeName_iff,
      matches_rule_iff, Matches.maybe_iff, Matches.choice_iff, Matches.noChoice_iff, or_false,
      List.mem_singleton, exists_eq_left] at h
  case classDec =>
    obtain ⟨_, _, rfl, ⟨l₁, rfl⟩, _, _, rfl, ⟨text, l₂, rfl⟩, _, _, rfl, ⟨l₃, rfl⟩, declared, _,
      rfl, areVariables, subroutines, _, rfl, areSubroutines, _, _, rfl, ⟨l₄, rfl⟩, rfl⟩ := h
    have vars := Matches.of_many_rule areVariables
    have subs := Matches.of_many_rule areSubroutines
    have derives := Tree.Derivation.classDec text l₁ l₂ l₃ l₄ (fun tree h => (vars tree h).1)
      (fun tree h => (subs tree h).1) (fun tree h => (vars tree h).2)
      (fun tree h => (subs tree h).2)
    simpa using derives
  case classVarDec =>
    obtain ⟨_, _, rfl, ⟨kind, isKind, l₁, rfl⟩, _, _, rfl, ⟨type, isType, rfl⟩, _, _, rfl,
      ⟨text, l₂, rfl⟩, names, _, rfl, further, _, _, rfl, ⟨l₃, rfl⟩, rfl⟩ := h
    exact .classVarDec kind text l₁ l₂ l₃ isKind isType (Matches.of_furtherNames further)
  case subroutineDec =>
    obtain ⟨_, _, rfl, ⟨kind, isKind, l₁, rfl⟩, _, _, rfl, result, _, _, rfl, ⟨text, l₂, rfl⟩,
      _, _, rfl, ⟨l₃, rfl⟩, _, _, rfl, ⟨parameters, parametersDerive, rfl⟩, _, _, rfl, ⟨l₄, rfl⟩,
      _, _, rfl, ⟨body, bodyDerives, rfl⟩, rfl⟩ := h
    rcases result with ⟨line, rfl⟩ | ⟨type, isType, rfl⟩
    · exact .subroutineDec kind text l₁ l₂ l₃ l₄ isKind (.void line) parametersDerive bodyDerives
    · exact .subroutineDec kind text l₁ l₂ l₃ l₄ isKind (.type isType) parametersDerive
        bodyDerives
  case parameterList =>
    rcases h with rfl | ⟨_, _, rfl, ⟨_, _, rfl, ⟨type, isType, rfl⟩, _, _, rfl, ⟨text, l, rfl⟩,
      rfl⟩, later, _, rfl, further, rfl⟩
    · exact .noParameters
    · have derives := Tree.Derivation.parameters text l isType
        (Matches.of_furtherParameters further)
      simpa using derives
  case subroutineBody =>
    obtain ⟨_, _, rfl, ⟨l₁, rfl⟩, declared, _, rfl, areVariables, _, _, rfl,
      ⟨block, blockDerives, rfl⟩, _, _, rfl, ⟨l₂, rfl⟩, rfl⟩ := h
    have vars := Matches.of_many_rule areVariables
    exact .subroutineBody l₁ l₂ (fun tree h => (vars tree h).1) (fun tree h => (vars tree h).2)
      blockDerives
  case varDec =>
    obtain ⟨_, _, rfl, ⟨l₁, rfl⟩, _, _, rfl, ⟨type, isType, rfl⟩, _, _, rfl,
      ⟨text, l₂, rfl⟩, names, _, rfl, further, _, _, rfl, ⟨l₃, rfl⟩, rfl⟩ := h
    exact .varDec text l₁ l₂ l₃ isType (Matches.of_furtherNames further)
  case statements =>
    have stand : ∀ tree ∈ children, tree.IsStatement ∧ tree.Derivation := by
      refine Matches.many_induction (motive := fun trees => ∀ tree ∈ trees,
        tree.IsStatement ∧ tree.Derivation) h (by simp) ?_
      intro first second head ih
      simp only [Matches.choice_iff, Matches.noChoice_iff, matches_rule_iff, or_false] at head
      rcases head with ⟨parts, derives, rfl⟩ | ⟨parts, derives, rfl⟩ | ⟨parts, derives, rfl⟩ |
        ⟨parts, derives, rfl⟩ | ⟨parts, derives, rfl⟩
      all_goals
        exact List.forall_mem_cons.mpr ⟨⟨by simp [Tree.IsStatement, Tree.rule?], derives⟩, ih⟩
    exact .statements (fun tree h => (stand tree h).1) (fun tree h => (stand tree h).2)
  case letStatement =>
    obtain ⟨_, _, rfl, ⟨l₁, rfl⟩, _, _, rfl, ⟨text, l₂, rfl⟩, _, _, rfl, index, _, _, rfl,
      ⟨l₅, rfl⟩, _, _, rfl, ⟨value, valueDerives, rfl⟩, _, _, rfl, ⟨l₆, rfl⟩, rfl⟩ := h
    rcases index with rfl | ⟨_, _, rfl, ⟨l₃, rfl⟩, _, _, rfl, ⟨index, indexDerives, rfl⟩, _, _, rfl,
      ⟨l₄, rfl⟩, rfl⟩
    · exact .letVariable text l₁ l₂ l₅ l₆ valueDerives
    · exact .letElement text l₁ l₂ l₃ l₄ l₅ l₆ indexDerives valueDerives
  case ifStatement =>
    obtain ⟨_, _, rfl, ⟨l₁, rfl⟩, _, _, rfl, ⟨l₂, rfl⟩, _, _, rfl,
      ⟨condition, conditionDerives, rfl⟩, _, _, rfl, ⟨l₃, rfl⟩, _, _, rfl, ⟨l₄, rfl⟩, _, _, rfl,
      ⟨yes, yesDerives, rfl⟩, _, _, rfl, ⟨l₅, rfl⟩, _, _, rfl, otherwise, rfl⟩ := h
    rcases otherwise with rfl | ⟨_, _, rfl, ⟨l₆, rfl⟩, _, _, rfl, ⟨l₇, rfl⟩, _, _, rfl,
      ⟨no, noDerives, rfl⟩, _, _, rfl, ⟨l₈, rfl⟩, rfl⟩
    · exact .ifThen l₁ l₂ l₃ l₄ l₅ conditionDerives yesDerives
    · exact .ifElse l₁ l₂ l₃ l₄ l₅ l₆ l₇ l₈ conditionDerives yesDerives noDerives
  case whileStatement =>
    obtain ⟨_, _, rfl, ⟨l₁, rfl⟩, _, _, rfl, ⟨l₂, rfl⟩, _, _, rfl,
      ⟨condition, conditionDerives, rfl⟩, _, _, rfl, ⟨l₃, rfl⟩, _, _, rfl, ⟨l₄, rfl⟩, _, _, rfl,
      ⟨block, blockDerives, rfl⟩, _, _, rfl, ⟨l₅, rfl⟩, rfl⟩ := h
    exact .whileStatement l₁ l₂ l₃ l₄ l₅ conditionDerives blockDerives
  case doStatement =>
    obtain ⟨_, _, rfl, ⟨l₁, rfl⟩, _, _, rfl, ⟨call, callDerives, rfl⟩, _, _, rfl, ⟨l₂, rfl⟩,
      rfl⟩ := h
    exact .doStatement l₁ l₂ callDerives
  case returnStatement =>
    obtain ⟨_, _, rfl, ⟨l₁, rfl⟩, _, _, rfl, value, _, _, rfl, ⟨l₂, rfl⟩, rfl⟩ := h
    rcases value with rfl | ⟨value, valueDerives, rfl⟩
    · exact .returnNothing l₁ l₂
    · exact .returnValue l₁ l₂ valueDerives
  case expression =>
    obtain ⟨_, _, rfl, ⟨first, firstDerives, rfl⟩, _, _, rfl, later, rfl⟩ := h
    obtain ⟨parts, rfl, areOperators, stand⟩ := Matches.of_furtherParts later
    have derives := @Tree.Derivation.expression (.node .term first) _ rfl firstDerives
      areOperators (fun part h => (stand part h).1) (fun part h => (stand part h).2)
    simpa [Tree.chain] using derives
  case term =>
    rcases h with ⟨text, l, rfl⟩ | ⟨text, l, rfl⟩ | ⟨text, isConstant, l, rfl⟩ |
      ⟨_, _, rfl, ⟨l₁, rfl⟩, _, _, rfl, ⟨inner, innerDerives, rfl⟩, _, _, rfl, ⟨l₂, rfl⟩, rfl⟩ |
      ⟨_, _, rfl, ⟨text, isOperator, l, rfl⟩, _, _, rfl, ⟨operand, operandDerives, rfl⟩, rfl⟩ |
      ⟨call, callDerives, rfl⟩ |
      ⟨_, _, rfl, ⟨text, l₁, rfl⟩, _, _, rfl, ⟨l₂, rfl⟩, _, _, rfl, ⟨index, indexDerives, rfl⟩,
        _, _, rfl, ⟨l₃, rfl⟩, rfl⟩ | ⟨text, l, rfl⟩
    · exact .integer text l
    · exact .string text l
    · exact .constant text l isConstant
    · exact .parenthesized l₁ l₂ innerDerives
    · exact .unary text l isOperator operandDerives
    · exact .call callDerives
    · exact .element text l₁ l₂ l₃ indexDerives
    · exact .variable text l
  case subroutineCall =>
    rcases h with ⟨_, _, rfl, ⟨name, l₁, rfl⟩, _, _, rfl, ⟨l₂, rfl⟩, _, _, rfl,
        ⟨arguments, argumentsDerive, rfl⟩, _, _, rfl, ⟨l₃, rfl⟩, rfl⟩ |
      ⟨_, _, rfl, ⟨context, l₁, rfl⟩, _, _, rfl, ⟨l₂, rfl⟩, _, _, rfl, ⟨name, l₃, rfl⟩, _, _, rfl,
        ⟨l₄, rfl⟩, _, _, rfl, ⟨arguments, argumentsDerive, rfl⟩, _, _, rfl, ⟨l₅, rfl⟩, rfl⟩
    · exact .ownCall name l₁ l₂ l₃ argumentsDerive
    · exact .qualifiedCall context name l₁ l₂ l₃ l₄ l₅ argumentsDerive
  case expressionList =>
    rcases h with rfl | ⟨_, _, rfl, ⟨first, firstDerives, rfl⟩, _, _, rfl, later, rfl⟩
    · exact .noArguments
    · obtain ⟨parts, rfl, areCommas, stand⟩ := Matches.of_furtherParts later
      have derives := @Tree.Derivation.arguments (.node .expression first) _ rfl
        firstDerives (fun part h => List.mem_singleton.mp (areCommas part h))
        (fun part h => (stand part h).1) (fun part h => (stand part h).2)
      simpa [Tree.chain] using derives

/-- Whatever a rule reads, its tokens are consumed and it is a derivation tree of that rule. -/
theorem parseWithin_sound (depth : Nat) (rule : Rule) (cursor : Cursor) (tree : Tree)
    (next : Cursor) (h : (parseWithin depth rule cursor).result = .ok (tree, next)) :
    cursor.Consumed [tree] next ∧ rule.Stands tree := by
  induction depth generalizing rule cursor tree next with
  | zero => simp [parseWithin] at h
  | succ depth ih =>
    have references : ∀ name cursor trees next,
        (Parser.single (parseWithin depth name) cursor).result = .ok (trees, next) →
          cursor.Consumed trees next ∧ ∃ tree, trees = [tree] ∧ Stands name tree := by
      intro name cursor trees next hn
      rw [Parser.single, Logged.result_map] at hn
      cases hr : (parseWithin depth name cursor).result with
      | error error => simp [hr, Except.map] at hn
      | ok read =>
        simp only [hr, Except.map, Prod.map, id, Except.ok.injEq, Prod.mk.injEq] at hn
        obtain ⟨rfl, rfl⟩ := hn
        have inner := ih name cursor read.1 read.2 hr
        exact ⟨inner.1, read.1, rfl, inner.2⟩
    rw [parseWithin, Logged.result_map] at h
    cases hp : (rule.production.parser (fun inner => Parser.single (parseWithin depth inner))
        cursor).result with
    | error error => simp [hp, Except.map] at h
    | ok parsed =>
      simp only [hp, Except.map, Prod.map, id, Except.ok.injEq, Prod.mk.injEq] at h
      obtain ⟨rfl, rfl⟩ := h
      have inside := Grammar.parser_sound references rule.production cursor parsed.1 parsed.2 hp
      exact ⟨⟨by simpa using inside.1.ahead, by simpa using inside.1.position⟩, rfl,
        derivation_of_matches rule parsed.1 inside.2⟩

end Rule

/-- A tree that the parser returns is a derivation tree of a class, and its tokens are those that
were parsed. -/
theorem derivation_of_parseTokens {tokens : List Token} {tree : Tree}
    (parsed : (parseTokens tokens).result = .ok tree) :
    tree.rule? = some .classDec ∧ tree.Derivation ∧ tree.tokens = tokens := by
  obtain ⟨⟨found, behind⟩, read, ends⟩ := Logged.result_bind_eq_ok.mp parsed
  obtain ⟨consumed, isClass, derives⟩ := Rule.parseWithin_sound _ _ _ _ _ read
  cases at_ : behind.ahead with
  | cons token later => simp [at_] at ends
  | nil =>
    have same : tree = found := by simpa [at_] using ends.symm
    have ahead := consumed.ahead
    rw [at_, List.append_nil, Tree.tokensOfList_cons, Tree.tokensOfList_nil,
      List.append_nil] at ahead
    rw [same]
    exact ⟨isClass, derives, ahead.symm⟩

/-- The tree of a source text is the tree of its tokens. -/
theorem exists_tokens_of_parse {source : String} {tree : Tree}
    (parsed : (parse source).result = .ok tree) :
    ∃ tokens, (tokenize source).result = .ok tokens ∧ (parseTokens tokens).result = .ok tree :=
  Logged.result_bind_eq_ok.mp parsed

end JackCompiler
