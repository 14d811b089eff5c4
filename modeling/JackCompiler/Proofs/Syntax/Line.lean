import JackCompiler.Syntax.Parse
import JackCompiler.Proofs.Syntax.Combinator

/-!
# Parsing without lines

The line of a token says where an error is and nothing else. `withoutLine` forgets it, in tokens, in
cursors, in trees and in errors, and parsing tokens without their lines gives what parsing them
gives, without lines: the same tree or the same error (`result_parseTokens_withoutLine`). Every way
to build a parser keeps this (`Parser.Blind`), the failing ones included, so it holds of the whole
grammar by induction on the depth of its rules and on productions.
-/

set_option autoImplicit false

namespace JackCompiler

/-! ## Forgetting lines -/

/-- A token without its line. -/
def Token.withoutLine (token : Token) : Token := { token with line := 0 }

/-- A cursor over tokens without their lines. -/
def Cursor.withoutLines (cursor : Cursor) : Cursor :=
  ⟨cursor.position, cursor.ahead.map Token.withoutLine⟩

/-- An error without the line it names. -/
def CompileError.withoutLine : CompileError → CompileError
  | invalidToken _ text flaw => invalidToken 0 text flaw
  | unexpectedToken _ found expected => unexpectedToken 0 found expected
  | error => error

namespace Tree

mutual

/-- A tree of tokens without their lines. -/
def withoutLines : Tree → Tree
  | leaf token => leaf token.withoutLine
  | node rule children => node rule (withoutLinesOfList children)

/-- Trees of tokens without their lines. -/
def withoutLinesOfList : List Tree → List Tree
  | [] => []
  | tree :: later => withoutLines tree :: withoutLinesOfList later

end

theorem withoutLinesOfList_eq_map (trees : List Tree) :
    withoutLinesOfList trees = trees.map withoutLines := by
  induction trees with
  | nil => rfl
  | cons tree later ih => rw [withoutLinesOfList, ih, List.map_cons]

theorem withoutLines_node (rule : Rule) (children : List Tree) :
    (node rule children).withoutLines = node rule (children.map withoutLines) :=
  congrArg (node rule) (withoutLinesOfList_eq_map children)

end Tree

/-- What a parser gives back, without lines. -/
def Parsed.withoutLines (parsed : Parsed) : Parsed :=
  (parsed.1.map Tree.withoutLines, parsed.2.withoutLines)

/-- An outcome whose value is changed by a function and whose error loses its line. -/
def unlined {α β : Type} (change : α → β) : Except CompileError α → Except CompileError β
  | .ok a => .ok (change a)
  | .error error => .error error.withoutLine

section Unlined

variable {α β γ δ : Type}

/-- Forgetting lines in each of two steps forgets them in both. -/
theorem bind_unlined {change : α → β} {change' : γ → δ} {x : Except CompileError α}
    {f : α → Except CompileError γ} {f' : β → Except CompileError δ}
    (step : ∀ a, f' (change a) = unlined change' (f a)) :
    (unlined change x >>= f') = unlined change' (x >>= f) := by
  cases x with
  | error error => rfl
  | ok a => exact step a

theorem map_unlined {change : α → β} {change' : γ → δ} {x : Except CompileError α} {f : α → γ}
    {f' : β → δ} (step : ∀ a, f' (change a) = change' (f a)) :
    (unlined change x).map f' = unlined change' (x.map f) := by
  cases x with
  | error error => rfl
  | ok a => exact congrArg Except.ok (step a)

end Unlined

/-! ## Parsers that see no lines -/

/-- Whether a parser gives back the same without lines if it is given tokens without lines. -/
def Parser.Blind (parser : Parser) : Prop :=
  ∀ cursor, (parser cursor.withoutLines).result =
    unlined Parsed.withoutLines (parser cursor).result

namespace Parser

variable {parser : Parser} {parsers : List Parser}

theorem blind_terminal (kind : TokenKind) (texts : List String) : Blind (terminal kind texts) := by
  intro cursor
  obtain ⟨position, ahead⟩ := cursor
  cases ahead with
  | nil => rfl
  | cons token rest =>
    show Logged.result (if token.kind = kind ∧ (texts = [] ∨ token.text ∈ texts) then _ else _) =
      unlined _ (Logged.result
        (if token.kind = kind ∧ (texts = [] ∨ token.text ∈ texts) then _ else _))
    split <;> rfl

theorem blind_sequence (each : ∀ parser ∈ parsers, Blind parser) : Blind (sequence parsers) := by
  induction parsers with
  | nil => exact fun cursor => rfl
  | cons parser later ih =>
    rw [List.forall_mem_cons] at each
    intro cursor
    rw [result_sequence_cons, result_sequence_cons, each.1]
    refine bind_unlined fun first => ?_
    show (((sequence later first.2.withoutLines).result).map _) = _
    rw [ih each.2]
    refine map_unlined fun behind => ?_
    simp [Parsed.withoutLines]

/-- The candidates are tried in the same order and fail in the same way. -/
theorem blind_firstOf (each : ∀ parser ∈ parsers, Blind parser) (first : Nat)
    (failure : CompileError) (cursor : Cursor) :
    (firstOf first failure.withoutLine parsers cursor.withoutLines).result =
      unlined Parsed.withoutLines (firstOf first failure parsers cursor).result := by
  induction parsers generalizing first failure with
  | nil => rfl
  | cons parser later ih =>
    rw [List.forall_mem_cons] at each
    rw [result_firstOf_cons, result_firstOf_cons, each.1]
    cases (parser cursor).result with
    | ok parsed => rfl
    | error error => exact ih each.2 (first + 1) error

theorem blind_alternatives (each : ∀ parser ∈ parsers, Blind parser) :
    Blind (alternatives parsers) :=
  blind_firstOf each 0 (.malformed .alternatives .noCandidates)

/-- The same rounds succeed. The induction is on the tokens ahead. -/
theorem blind_many (blind : Blind parser) : Blind (many parser) := by
  intro cursor
  induction h : cursor.ahead.length using Nat.strongRecOn generalizing cursor with
  | ind length ih =>
    rw [result_many, result_many, blind]
    cases (parser cursor).result with
    | error error => rfl
    | ok parsed =>
      obtain ⟨trees, next⟩ := parsed
      have sameLength (cursor : Cursor) : cursor.withoutLines.ahead.length = cursor.ahead.length :=
        List.length_map _
      show (if next.withoutLines.ahead.length < cursor.withoutLines.ahead.length then
          ((many parser next.withoutLines).result.map _) else _) =
        unlined _ (if next.ahead.length < cursor.ahead.length then _ else _)
      rw [sameLength, sameLength]
      split
      · rename_i reads
        rw [ih _ (h ▸ reads) next rfl]
        refine map_unlined fun behind => ?_
        simp [Parsed.withoutLines]
      · rfl

theorem blind_maybe (blind : Blind parser) : Blind (maybe parser) := by
  intro cursor
  rw [result_maybe, result_maybe, blind]
  cases (parser cursor).result <;> rfl

/-- A parser of one tree is blind if it is so as a parser of that tree. -/
theorem blind_single {parser : Cursor → Logged CompileError (Tree × Cursor)}
    (blind : ∀ cursor, (parser cursor.withoutLines).result =
      unlined (Prod.map Tree.withoutLines Cursor.withoutLines) (parser cursor).result) :
    Blind (single parser) := by
  intro cursor
  show ((parser cursor.withoutLines).result.map _) = unlined _ ((parser cursor).result.map _)
  rw [blind]
  exact map_unlined fun behind => rfl

end Parser

/-- A grammar's parser is blind if those of its rules are. -/
theorem Grammar.blind_parser {ν : Type} {enter : ν → Parser} (rules : ∀ name, (enter name).Blind)
    (grammar : Grammar ν) : (grammar.parser enter).Blind := by
  induction grammar with
  | terminal kind texts => exact Parser.blind_terminal kind texts
  | sequence parts ih =>
    rw [parser_sequence]
    exact Parser.blind_sequence (List.forall_mem_map.mpr ih)
  | alternatives candidates ih =>
    rw [parser_alternatives]
    exact Parser.blind_alternatives (List.forall_mem_map.mpr ih)
  | many part ih => exact Parser.blind_many ih
  | maybe part ih => exact Parser.blind_maybe ih
  | rule name => exact rules name

namespace Rule

theorem result_parseWithin_withoutLines (depth : Nat) (rule : Rule) (cursor : Cursor) :
    (parseWithin depth rule cursor.withoutLines).result =
      unlined (Prod.map Tree.withoutLines Cursor.withoutLines)
        (parseWithin depth rule cursor).result := by
  induction depth generalizing rule cursor with
  | zero => rfl
  | succ depth ih =>
    have inner : ∀ name, Parser.Blind (.single (parseWithin depth name)) :=
      fun name => Parser.blind_single (ih name)
    show ((rule.production.parser _ cursor.withoutLines).result.map _) =
      unlined _ ((rule.production.parser _ cursor).result.map _)
    rw [Grammar.blind_parser inner]
    refine map_unlined fun parsed => ?_
    show (Tree.node rule _, _) = (Tree.withoutLines (.node rule parsed.1), _)
    rw [Tree.withoutLines_node]
    rfl

end Rule

/-- Parsing sees no lines, but for those it puts into trees and errors. -/
theorem result_parseTokens_withoutLine (tokens : List Token) :
    (parseTokens (tokens.map Token.withoutLine)).result =
      unlined Tree.withoutLines (parseTokens tokens).result := by
  have sameDepth : Rule.depth (tokens.map Token.withoutLine).length = Rule.depth tokens.length := by
    rw [List.length_map]
  have begins : (Rule.parse .classDec (.start (tokens.map Token.withoutLine))).result =
      unlined (Prod.map Tree.withoutLines Cursor.withoutLines)
        (Rule.parse .classDec (.start tokens)).result := by
    show (Rule.parseWithin (Rule.depth (tokens.map Token.withoutLine).length) .classDec
      (Cursor.withoutLines (.start tokens))).result = _
    rw [sameDepth]
    exact Rule.result_parseWithin_withoutLines _ _ _
  unfold parseTokens
  rw [Logged.result_bind, Logged.result_bind, begins]
  refine bind_unlined fun parsed => ?_
  obtain ⟨tree, position, ahead⟩ := parsed
  cases ahead <;> rfl

end JackCompiler
