import JackCompiler.Syntax.Cursor
import JackCompiler.Syntax.Tree
import JackCompiler.Logged

/-!
# Parsers and how they are combined

A parser reads some of the tokens ahead and gives back the trees it built and the position behind
them. The combinators are those of a backtracking parser: a sequence fails with its first failing
part, alternatives fail with their last failing candidate, and repetition and option never fail.
Each failed candidate of alternatives is reported, those within it first.
-/

set_option autoImplicit false

namespace JackCompiler

/-- The trees that a parser built and the position behind them. -/
abbrev Parsed : Type := List Tree × Cursor

/-- A parser of some construct. -/
abbrev Parser : Type := Cursor → Logged CompileError Parsed

namespace Parser

/-- One token of a class, with one of some texts unless no text is given. -/
def terminal (kind : TokenKind) (texts : List String) : Parser := fun cursor =>
  match cursor.ahead with
  | [] => .fail (.unexpectedEnd (.token kind texts))
  | token :: _ =>
    if token.kind = kind ∧ (texts = [] ∨ token.text ∈ texts) then
      pure ([.leaf token], cursor.advance)
    else .fail (.unexpectedToken token.line token.text (.token kind texts))

/-- One construct after the other. -/
def sequence : List Parser → Parser
  | [], cursor => pure ([], cursor)
  | parser :: later, cursor => do
    let (trees, middle) ← parser cursor
    Prod.map (trees ++ ·) id <$> sequence later middle

/-- The first candidate that succeeds, where the candidates count from `first`. When none does, the
last failure is the outcome, and `failure` if there is no candidate. -/
def firstOf (first : Nat) (failure : CompileError) : List Parser → Parser
  | [], _ => .fail failure
  | parser :: later, cursor => do
    match ← (parser cursor).attempt with
    | .ok parsed => pure parsed
    | .error error =>
      .report (.candidateFailed first cursor.position error)
      firstOf (first + 1) error later cursor

/-- The first construct that succeeds, each of them tried from the same position. -/
def alternatives (candidates : List Parser) : Parser :=
  firstOf 0 (.malformed .alternatives .noCandidates) candidates

/-- A construct as often as it succeeds and reads something. An attempt that fails or reads
nothing ends the repetition and is discarded. -/
def many (parser : Parser) (cursor : Cursor) : Logged CompileError Parsed := do
  match ← (parser cursor).attempt with
  | .error _ => pure ([], cursor)
  | .ok (trees, next) =>
    if _h : next.ahead.length < cursor.ahead.length then
      Prod.map (trees ++ ·) id <$> many parser next
    else pure ([], cursor)
termination_by cursor.ahead.length

/-- A construct, or nothing if it fails. -/
def maybe (parser : Parser) : Parser := fun cursor => do
  match ← (parser cursor).attempt with
  | .ok parsed => pure parsed
  | .error _ => pure ([], cursor)

/-- A parser that builds one tree, as a parser of a list of trees. -/
def single (parser : Cursor → Logged CompileError (Tree × Cursor)) : Parser := fun cursor =>
  Prod.map ([·]) id <$> parser cursor

end Parser

end JackCompiler
