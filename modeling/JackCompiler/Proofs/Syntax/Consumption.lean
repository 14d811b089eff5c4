import JackCompiler.Proofs.Syntax.Combinator

/-!
# What grammars consume

`Grammar.Evaluates` says how a grammar without references is read at a cursor, one rule for each
thing that may happen. A repetition goes from round to round until a round fails or ends at the
position where it began. An evaluation gives back the tokens between two cursors
(`Evaluates.consumed`), fails at a token ahead or at the end (`Evaluates.mayFail`), and does not
depend on what lies behind its cursor (`Evaluates.shift`). Each of these is proved by induction on
the evaluation. The parser of a grammar gives back the outcome of its only evaluation
(`evaluates_closedParser`, `Evaluates.eq_result`): every evaluation ends, because a round that goes
on has fewer tokens ahead of it.
-/

set_option autoImplicit false

namespace JackCompiler

namespace Parser

/-- Where candidates count from does not matter to the outcome. -/
theorem result_firstOf_eq (first first' : Nat) (failure : CompileError) (candidates : List Parser)
    (cursor : Cursor) :
    (firstOf first failure candidates cursor).result =
      (firstOf first' failure candidates cursor).result := by
  induction candidates generalizing first first' failure with
  | nil => rfl
  | cons parser later ih =>
    rw [result_firstOf_cons, result_firstOf_cons]
    cases (parser cursor).result with
    | ok parsed => rfl
    | error error => exact ih _ _ _

end Parser

/-- The same cursor with so many more tokens behind it. -/
def Cursor.shift (count : Nat) (cursor : Cursor) : Cursor :=
  ⟨cursor.position + count, cursor.ahead⟩

namespace Grammar

variable {part : Grammar Empty} {later : List (Grammar Empty)} {cursor : Cursor}

/-! ## The parser of a grammar and those of its parts -/

theorem result_closedParser_sequence_cons :
    ((sequence (part :: later)).closedParser cursor).result =
      (part.closedParser cursor).result >>= fun first =>
        ((sequence later).closedParser first.2).result.map (Prod.map (first.1 ++ ·) id) := by
  simp only [closedParser, parser_sequence, List.map_cons, Parser.result_sequence_cons]

theorem result_closedParser_alternatives_cons :
    ((alternatives (part :: later)).closedParser cursor).result =
      match (part.closedParser cursor).result with
      | .ok parsed => .ok parsed
      | .error error =>
        if later = [] then .error error else ((alternatives later).closedParser cursor).result := by
  simp only [closedParser, parser_alternatives, List.map_cons, Parser.alternatives,
    Parser.result_firstOf_cons]
  cases (part.parser Empty.elim cursor).result with
  | ok parsed => rfl
  | error error =>
    cases later with
    | nil => rfl
    | cons part later =>
      -- a candidate that fails leaves nothing of the failure before it
      simp only [if_neg (List.cons_ne_nil part later), List.map_cons, Parser.result_firstOf_cons]
      cases (part.parser Empty.elim cursor).result with
      | ok parsed => rfl
      | error error => exact Parser.result_firstOf_eq _ _ _ _ _

theorem result_closedParser_many :
    ((many part).closedParser cursor).result =
      match (part.closedParser cursor).result with
      | .error _ => .ok ([], cursor)
      | .ok (trees, next) =>
        if next.ahead.length < cursor.ahead.length then
          ((many part).closedParser next).result.map (Prod.map (trees ++ ·) id)
        else .ok ([], cursor) :=
  Parser.result_many _ _

theorem result_closedParser_maybe :
    ((maybe part).closedParser cursor).result =
      match (part.closedParser cursor).result with
      | .ok parsed => .ok parsed
      | .error _ => .ok ([], cursor) :=
  Parser.result_maybe _ _

/-! ## Evaluations -/

/-- `grammar.Evaluates cursor outcome`: reading the grammar at the cursor ends, and with that
outcome. -/
inductive Evaluates : Grammar Empty → Cursor → Except CompileError Parsed → Prop
  | token {kind : TokenKind} {texts : List String} {token : Token} {position : Nat}
      {rest : List Token} (fits : token.kind = kind ∧ (texts = [] ∨ token.text ∈ texts)) :
      Evaluates (.terminal kind texts) ⟨position, token :: rest⟩
        (.ok ([.leaf token], ⟨position + 1, rest⟩))
  | otherToken {kind : TokenKind} {texts : List String} {token : Token} {position : Nat}
      {rest : List Token} (differs : ¬ (token.kind = kind ∧ (texts = [] ∨ token.text ∈ texts))) :
      Evaluates (.terminal kind texts) ⟨position, token :: rest⟩
        (.error (.unexpectedToken token.line token.text (.token kind texts)))
  | noToken {kind : TokenKind} {texts : List String} {position : Nat} :
      Evaluates (.terminal kind texts) ⟨position, []⟩ (.error (.unexpectedEnd (.token kind texts)))
  | nothing {cursor : Cursor} : Evaluates (.sequence []) cursor (.ok ([], cursor))
  | firstFails {part : Grammar Empty} {later : List (Grammar Empty)} {cursor : Cursor}
      {error : CompileError} (fails : Evaluates part cursor (.error error)) :
      Evaluates (.sequence (part :: later)) cursor (.error error)
  | inTurn {part : Grammar Empty} {later : List (Grammar Empty)} {cursor middle : Cursor}
      {trees : List Tree} {outcome : Except CompileError Parsed}
      (first : Evaluates part cursor (.ok (trees, middle)))
      (others : Evaluates (.sequence later) middle outcome) :
      Evaluates (.sequence (part :: later)) cursor (outcome.map (Prod.map (trees ++ ·) id))
  | noCandidate {cursor : Cursor} :
      Evaluates (.alternatives []) cursor (.error (.malformed .alternatives .noCandidates))
  | chosen {part : Grammar Empty} {later : List (Grammar Empty)} {cursor : Cursor} {parsed : Parsed}
      (reads : Evaluates part cursor (.ok parsed)) :
      Evaluates (.alternatives (part :: later)) cursor (.ok parsed)
  | lastFails {part : Grammar Empty} {cursor : Cursor} {error : CompileError}
      (fails : Evaluates part cursor (.error error)) :
      Evaluates (.alternatives [part]) cursor (.error error)
  | passedOver {part : Grammar Empty} {later : List (Grammar Empty)} {cursor : Cursor}
      {error : CompileError} {outcome : Except CompileError Parsed} (more : later ≠ [])
      (fails : Evaluates part cursor (.error error))
      (others : Evaluates (.alternatives later) cursor outcome) :
      Evaluates (.alternatives (part :: later)) cursor outcome
  | noRound {part : Grammar Empty} {cursor : Cursor} {error : CompileError}
      (fails : Evaluates part cursor (.error error)) :
      Evaluates (.many part) cursor (.ok ([], cursor))
  | idleRound {part : Grammar Empty} {cursor next : Cursor} {trees : List Tree}
      (reads : Evaluates part cursor (.ok (trees, next)))
      (idle : next.position = cursor.position) :
      Evaluates (.many part) cursor (.ok ([], cursor))
  | round {part : Grammar Empty} {cursor next last : Cursor} {trees more : List Tree}
      (reads : Evaluates part cursor (.ok (trees, next)))
      (goesOn : next.position ≠ cursor.position)
      (others : Evaluates (.many part) next (.ok (more, last))) :
      Evaluates (.many part) cursor (.ok (trees ++ more, last))
  | present {part : Grammar Empty} {cursor : Cursor} {parsed : Parsed}
      (reads : Evaluates part cursor (.ok parsed)) :
      Evaluates (.maybe part) cursor (.ok parsed)
  | absent {part : Grammar Empty} {cursor : Cursor} {error : CompileError}
      (fails : Evaluates part cursor (.error error)) :
      Evaluates (.maybe part) cursor (.ok ([], cursor))

variable {grammar : Grammar Empty} {next : Cursor} {trees : List Tree} {error : CompileError}
  {outcome : Except CompileError Parsed}

/-- What an evaluation gives back are the tokens between its cursors. -/
theorem Evaluates.consumed (evaluation : grammar.Evaluates cursor outcome) :
    outcome = .ok (trees, next) →
      cursor.Consumed trees next ∧ trees = (Tree.tokensOfList trees).map .leaf := by
  have together {first second : List Tree} (one : first = (Tree.tokensOfList first).map .leaf)
      (two : second = (Tree.tokensOfList second).map .leaf) :
      first ++ second = (Tree.tokensOfList (first ++ second)).map .leaf := by
    rw [Tree.tokensOfList_append, List.map_append, ← one, ← two]
  have none (cursor : Cursor) :
      cursor.Consumed [] cursor ∧ [] = (Tree.tokensOfList []).map Tree.leaf :=
    ⟨.refl cursor, rfl⟩
  induction evaluation generalizing trees next with
  | token fits => rintro ⟨⟩; exact ⟨⟨rfl, rfl⟩, rfl⟩
  | otherToken | noToken | firstFails | noCandidate | lastFails => nofun
  | nothing | noRound | idleRound | absent => rintro ⟨⟩; exact none _
  | @inTurn part later cursor middle found outcome first others ih ihOthers =>
    intro ends
    cases outcome with
    | error error => cases ends
    | ok parsed =>
      obtain ⟨more, last⟩ := parsed
      cases ends
      have one := ih rfl
      have two := ihOthers rfl
      exact ⟨one.1.trans two.1, together one.2 two.2⟩
  | chosen reads ih | present reads ih => exact ih
  | passedOver more fails others ih ihOthers => exact ihOthers
  | round reads goesOn others ih ihOthers =>
    rintro ⟨⟩
    have one := ih rfl
    have two := ihOthers rfl
    exact ⟨one.1.trans two.1, together one.2 two.2⟩

/-- A round is idle exactly if it reads nothing. -/
theorem Evaluates.position_eq_iff (evaluation : grammar.Evaluates cursor (.ok (trees, next))) :
    next.position = cursor.position ↔ ¬ next.ahead.length < cursor.ahead.length := by
  have consumed := (evaluation.consumed rfl).1
  rw [consumed.position, consumed.ahead, List.length_append]
  omega

/-! ## Failures -/

/-- Whether a choice among no candidates occurs in a grammar, other than in a repetition or an
option. -/
inductive HasNoChoice : Grammar Empty → Prop
  | here : HasNoChoice (.alternatives [])
  | sequence {part : Grammar Empty} {parts : List (Grammar Empty)} (among : part ∈ parts)
      (inside : HasNoChoice part) : HasNoChoice (.sequence parts)
  | alternatives {part : Grammar Empty} {candidates : List (Grammar Empty)}
      (among : part ∈ candidates) (inside : HasNoChoice part) :
      HasNoChoice (.alternatives candidates)

/-- The errors that reading a grammar at a cursor may end with. -/
inductive MayFail (grammar : Grammar Empty) (cursor : Cursor) : CompileError → Prop
  | otherToken {token : Token} (ahead : token ∈ cursor.ahead) (expected : Expectation) :
      MayFail grammar cursor (.unexpectedToken token.line token.text expected)
  | noToken (expected : Expectation) : MayFail grammar cursor (.unexpectedEnd expected)
  | noChoice (inside : grammar.HasNoChoice) :
      MayFail grammar cursor (.malformed .alternatives .noCandidates)

/-- An error of a part that reads further ahead is one of the whole. -/
theorem MayFail.mono {whole : Grammar Empty} {middle : Cursor} (fails : part.MayFail middle error)
    (further : middle.ahead ⊆ cursor.ahead) (inside : part.HasNoChoice → whole.HasNoChoice) :
    whole.MayFail cursor error := by
  cases fails with
  | otherToken ahead expected => exact .otherToken (further ahead) expected
  | noToken expected => exact .noToken expected
  | noChoice none => exact .noChoice (inside none)

theorem Evaluates.mayFail (evaluation : grammar.Evaluates cursor outcome) :
    outcome = .error error → grammar.MayFail cursor error := by
  induction evaluation generalizing error with
  | token | nothing | chosen | noRound | idleRound | round | present | absent => nofun
  | otherToken differs => rintro ⟨⟩; exact .otherToken List.mem_cons_self _
  | noToken => rintro ⟨⟩; exact .noToken _
  | firstFails fails ih =>
    intro ends
    apply (ih ends).mono (List.Subset.refl _)
    exact .sequence List.mem_cons_self
  | @inTurn part later cursor middle trees outcome first others ih ihOthers =>
    intro ends
    cases outcome with
    | ok parsed => cases ends
    | error error' =>
      cases ends
      have ahead := (first.consumed rfl).1.ahead
      apply (ihOthers rfl).mono
      · rw [ahead]
        exact List.subset_append_right _ _
      · rintro (_ | ⟨among, inside⟩)
        exact .sequence (List.mem_cons_of_mem part among) inside
  | noCandidate => rintro ⟨⟩; exact .noChoice .here
  | lastFails fails ih =>
    intro ends
    apply (ih ends).mono (List.Subset.refl _)
    exact .alternatives List.mem_cons_self
  | @passedOver part later cursor error outcome more fails others ih ihOthers =>
    intro ends
    apply (ihOthers ends).mono (List.Subset.refl _)
    intro inside
    cases inside with
    | here => exact absurd rfl more
    | alternatives among inside =>
      exact .alternatives (List.mem_cons_of_mem part among) inside

/-- Repetitions and options never fail. -/
theorem Evaluates.exists_ok (evaluation : grammar.Evaluates cursor outcome)
    (unfailing : grammar = .many part ∨ grammar = .maybe part) :
    ∃ parsed, outcome = .ok parsed := by
  rcases unfailing with rfl | rfl
  · cases evaluation <;> exact ⟨_, rfl⟩
  · cases evaluation <;> exact ⟨_, rfl⟩

/-! ## What lies behind -/

/-- What is read at a cursor does not depend on what lies behind it. -/
theorem Evaluates.shift (count : Nat) (evaluation : grammar.Evaluates cursor outcome) :
    grammar.Evaluates (cursor.shift count) (outcome.map (Prod.map id (Cursor.shift count))) := by
  induction evaluation with
  | @token kind texts token position rest fits =>
    have moved : position + 1 + count = position + count + 1 := by omega
    simp only [Cursor.shift, Except.map, Prod.map, id, moved]
    exact .token fits
  | otherToken differs => exact .otherToken differs
  | noToken => exact .noToken
  | nothing => exact .nothing
  | firstFails fails ih => exact .firstFails ih
  | @inTurn part later cursor middle trees outcome first others ih ihOthers =>
    have whole := Evaluates.inTurn ih ihOthers
    cases outcome <;> exact whole
  | noCandidate => exact .noCandidate
  | chosen reads ih => exact .chosen ih
  | lastFails fails ih => exact .lastFails ih
  | passedOver more fails others ih ihOthers => exact .passedOver more ih ihOthers
  | noRound fails ih => exact .noRound ih
  | idleRound reads idle ih => exact .idleRound ih (congrArg (· + count) idle)
  | round reads goesOn others ih ihOthers =>
    apply Evaluates.round ih _ ihOthers
    intro idle
    apply goesOn
    exact Nat.add_right_cancel idle
  | present reads ih => exact .present ih
  | absent fails ih => exact .absent ih

/-! ## The outcome of the parser -/

/-- Reading a grammar ends with what its parser gives back. -/
theorem evaluates_closedParser (grammar : Grammar Empty) (cursor : Cursor) :
    grammar.Evaluates cursor (grammar.closedParser cursor).result := by
  induction grammar generalizing cursor with
  | terminal kind texts =>
    obtain ⟨position, ahead⟩ := cursor
    rw [closedParser, parser_terminal, Parser.terminal]
    cases ahead with
    | nil => exact .noToken
    | cons token rest =>
      by_cases fits : token.kind = kind ∧ (texts = [] ∨ token.text ∈ texts)
      · simp only [if_pos fits]
        exact .token fits
      · simp only [if_neg fits]
        exact .otherToken fits
  | sequence parts ih =>
    induction parts generalizing cursor with
    | nil => exact .nothing
    | cons part later ihLater =>
      rw [List.forall_mem_cons] at ih
      have first := ih.1 cursor
      rw [result_closedParser_sequence_cons]
      cases ends : (part.closedParser cursor).result with
      | error error => exact .firstFails (ends ▸ first)
      | ok parsed => exact .inTurn (ends ▸ first) (ihLater ih.2 parsed.2)
  | alternatives candidates ih =>
    induction candidates with
    | nil => exact .noCandidate
    | cons part later ihLater =>
      rw [List.forall_mem_cons] at ih
      have first := ih.1 cursor
      rw [result_closedParser_alternatives_cons]
      cases ends : (part.closedParser cursor).result with
      | ok parsed => exact .chosen (ends ▸ first)
      | error error =>
        by_cases last : later = []
        · subst last
          exact .lastFails (ends ▸ first)
        · simp only [if_neg last]
          exact .passedOver last (ends ▸ first) (ihLater ih.2)
  | many part ih =>
    -- a round that goes on has fewer tokens ahead of it
    induction length : cursor.ahead.length using Nat.strongRecOn generalizing cursor with
    | ind length ihLength =>
      have first := ih cursor
      rw [result_closedParser_many]
      cases ends : (part.closedParser cursor).result with
      | error error => exact .noRound (ends ▸ first)
      | ok parsed =>
        obtain ⟨trees, next⟩ := parsed
        rw [ends] at first
        by_cases reads : next.ahead.length < cursor.ahead.length
        · have others := ihLength _ (by omega) next rfl
          obtain ⟨⟨more, last⟩, found⟩ := others.exists_ok (.inl rfl)
          have goesOn := mt first.position_eq_iff.mp (not_not_intro reads)
          rw [found] at others
          simp only [if_pos reads, found]
          exact .round first goesOn others
        · simp only [if_neg reads]
          exact .idleRound first (first.position_eq_iff.mpr reads)
  | maybe part ih =>
    have first := ih cursor
    rw [result_closedParser_maybe]
    cases ends : (part.closedParser cursor).result with
    | ok parsed => exact .present (ends ▸ first)
    | error error => exact .absent (ends ▸ first)
  | rule name => exact name.elim

/-- No evaluation ends with anything else. -/
theorem Evaluates.eq_result (evaluation : grammar.Evaluates cursor outcome) :
    outcome = (grammar.closedParser cursor).result := by
  induction evaluation with
  | token fits => simp [closedParser, parser_terminal, Parser.terminal, fits, Cursor.advance]
  | otherToken differs => simp [closedParser, parser_terminal, Parser.terminal, differs]
  | noToken | nothing | noCandidate => rfl
  | firstFails fails ih => rw [result_closedParser_sequence_cons, ← ih]; rfl
  | inTurn first others ih ihOthers =>
    rw [result_closedParser_sequence_cons, ← ih, ihOthers]
    rfl
  | chosen reads ih => rw [result_closedParser_alternatives_cons, ← ih]
  | lastFails fails ih =>
    rw [result_closedParser_alternatives_cons, ← ih]
    rfl
  | passedOver more fails others ih ihOthers =>
    rw [result_closedParser_alternatives_cons, ← ih, ihOthers]
    exact (if_neg more).symm
  | noRound fails ih => rw [result_closedParser_many, ← ih]
  | idleRound reads idle ih =>
    rw [result_closedParser_many, ← ih]
    exact (if_neg (reads.position_eq_iff.mp idle)).symm
  | round reads goesOn others ih ihOthers =>
    rw [result_closedParser_many, ← ih]
    have fewer := Decidable.not_not.mp (mt reads.position_eq_iff.mpr goesOn)
    simp only [if_pos fewer, ← ihOthers]
    rfl
  | present reads ih => rw [result_closedParser_maybe, ← ih]
  | absent fails ih => rw [result_closedParser_maybe, ← ih]

/-- A grammar is read from every position of a list of tokens, and in one way. What is read are the
tokens from that position up to the one behind, so that nothing is read where the position does not
change. Repetitions and options never fail. A failure is due to a token that is not behind, to the
end of the tokens or to a choice among no candidates. The tokens behind have no effect. -/
theorem closedParser_reads_ahead (grammar : Grammar Empty) (tokens : List Token) (start : Nat)
    (inside : start ≤ tokens.length) :
    let outcome := (grammar.closedParser ⟨start, tokens.drop start⟩).result
    (∀ other, grammar.Evaluates ⟨start, tokens.drop start⟩ other ↔ other = outcome) ∧
      (∀ trees next, outcome = .ok (trees, next) →
        start ≤ next.position ∧ next.position ≤ tokens.length ∧
          next.ahead = tokens.drop next.position ∧
          trees = ((tokens.take next.position).drop start).map .leaf ∧
          (next.position = start → trees = [])) ∧
      (∀ part, grammar = .many part ∨ grammar = .maybe part → ∃ parsed, outcome = .ok parsed) ∧
      (∀ error, outcome = .error error →
        (∃ position token expected, start ≤ position ∧ tokens[position]? = some token ∧
            error = .unexpectedToken token.line token.text expected) ∨
          (∃ expected, error = .unexpectedEnd expected) ∨
          error = .malformed .alternatives .noCandidates ∧ grammar.HasNoChoice) ∧
      outcome = (grammar.closedParser (.start (tokens.drop start))).result.map
        (Prod.map id (Cursor.shift start)) := by
  intro outcome
  have evaluation : grammar.Evaluates ⟨start, tokens.drop start⟩ outcome :=
    evaluates_closedParser _ _
  refine ⟨fun other => ⟨Evaluates.eq_result, ?_⟩, fun trees next ends => ?_,
    fun part unfailing => evaluation.exists_ok unfailing, fun error ends => ?_, ?_⟩
  · rintro rfl
    exact evaluation
  · obtain ⟨⟨ahead, position⟩, leaves⟩ := evaluation.consumed ends
    simp only at ahead position
    have split := congrArg List.length ahead
    rw [List.length_drop, List.length_append] at split
    have behind : next.ahead = tokens.drop next.position := by
      rw [position, ← List.drop_drop, ahead, List.drop_left]
    have read : Tree.tokensOfList trees = (tokens.take next.position).drop start := by
      rw [List.drop_take, ahead, position, Nat.add_sub_cancel_left, List.take_left]
    refine ⟨by omega, by omega, behind, by rw [← read]; exact leaves, fun idle => ?_⟩
    rw [leaves, read, idle, List.drop_take_self]
    rfl
  · cases evaluation.mayFail ends with
    | @otherToken token ahead expected =>
      obtain ⟨index, found⟩ := List.mem_iff_getElem?.mp ahead
      rw [List.getElem?_drop] at found
      exact .inl ⟨start + index, token, expected, Nat.le_add_right _ _, found, rfl⟩
    | noToken expected => exact .inr (.inl ⟨expected, rfl⟩)
    | noChoice none => exact .inr (.inr ⟨rfl, none⟩)
  · have fromFirst := (evaluates_closedParser grammar (.start (tokens.drop start))).shift start
    have moved : (Cursor.start (tokens.drop start)).shift start = ⟨start, tokens.drop start⟩ := by
      simp [Cursor.shift, Cursor.start]
    rw [moved] at fromFirst
    exact fromFirst.eq_result.symm

/-- An option that finds a comma and a name the first time and nothing the second time. -/
theorem closedParser_reads_ahead_idleOption :
    let part : Grammar Empty :=
      .maybe (.sequence [.terminal .symbol [","], .terminal .identifier []])
    let comma : Token := ⟨.symbol, ",", 1⟩
    let name : Token := ⟨.identifier, "y", 2⟩
    let semicolon : Token := ⟨.symbol, ";", 2⟩
    ((many part).closedParser ⟨1, [⟨.identifier, "x", 1⟩, comma, name, semicolon].drop 1⟩).result =
      .ok ([.leaf comma, .leaf name], ⟨3, [semicolon]⟩) := by
  intro part comma name semicolon
  have first : part.Evaluates ⟨1, [comma, name, semicolon]⟩
      (.ok ([.leaf comma, .leaf name], ⟨3, [semicolon]⟩)) := by
    have behind : (sequence [.terminal .identifier []]).Evaluates ⟨2, [name, semicolon]⟩
        (.ok ([.leaf name], ⟨3, [semicolon]⟩)) := .inTurn (.token (by decide)) .nothing
    exact .present (.inTurn (.token (by decide)) behind)
  have second : part.Evaluates ⟨3, [semicolon]⟩ (.ok ([], ⟨3, [semicolon]⟩)) :=
    .absent (.firstFails (.otherToken (by decide)))
  have rounds := Evaluates.round first (by decide) (.idleRound second rfl)
  have reads := closedParser_reads_ahead (.many part)
    [⟨.identifier, "x", 1⟩, comma, name, semicolon] 1 (by decide)
  exact ((reads.1 _).mp rounds).symm

end Grammar

end JackCompiler
