import JackCompiler.Proofs.Syntax.Consumption

/-!
# Laws of combinators

Two grammars agree if they have the same outcome at every cursor (`Grammar.Agrees`). The laws say
when a grammar may be written in another way: a repetition or an option inside a repetition adds
nothing, sequences and alternatives may be nested or flat, an option is a choice with the empty
sequence behind it, and a repetition may be unrolled (`Grammar.agrees_laws`).

Each law is first shown of parsers, whatever they read. What carries the laws of repetition is that
it stops where another one reads nothing (`Parser.exists_of_many`).
-/

set_option autoImplicit false

namespace JackCompiler

namespace Parser

variable (parser : Parser) (cursor : Cursor)

/-! ## Repetition and option -/

/-- A repetition stops at a cursor where another one reads nothing. Either that is where it began,
or fewer tokens are ahead of it. -/
theorem exists_of_many : ∃ trees last, (many parser cursor).result = .ok (trees, last) ∧
    (many parser last).result = .ok ([], last) ∧
    (last.ahead.length < cursor.ahead.length ∨ trees = [] ∧ last = cursor) := by
  induction left : cursor.ahead.length using Nat.strongRecOn generalizing cursor with
  | ind count ih =>
    have here := result_many parser cursor
    cases outcome : (parser cursor).result with
    | error error =>
      simp only [outcome] at here
      exact ⟨[], cursor, here, here, .inr ⟨rfl, rfl⟩⟩
    | ok parsed =>
      obtain ⟨first, next⟩ := parsed
      simp only [outcome] at here
      by_cases fewer : next.ahead.length < cursor.ahead.length
      · obtain ⟨trees, last, more, stops, further⟩ := ih _ (left ▸ fewer) next rfl
        rw [if_pos fewer, more] at here
        refine ⟨first ++ trees, last, here, stops, .inl ?_⟩
        rcases further with further | ⟨-, rfl⟩
        · omega
        · omega
      · rw [if_neg fewer] at here
        exact ⟨[], cursor, here, here, .inr ⟨rfl, rfl⟩⟩

/-- Another repetition behind a repetition finds nothing more to read. -/
theorem result_many_many :
    (many (many parser) cursor).result = (many parser cursor).result := by
  obtain ⟨trees, last, reads, stops, further⟩ := exists_of_many parser cursor
  have idle : (many (many parser) last).result = .ok ([], last) := by
    rw [result_many, stops]
    exact if_neg (Nat.lt_irrefl _)
  rw [result_many, reads]
  rcases further with fewer | ⟨rfl, rfl⟩
  · simp only [if_pos fewer, idle, Except.map, Prod.map, id, List.append_nil]
  · exact if_neg (Nat.lt_irrefl _)

/-- A round that is left out ends a repetition as one that fails does. -/
theorem result_many_maybe :
    (many (maybe parser) cursor).result = (many parser cursor).result := by
  induction left : cursor.ahead.length using Nat.strongRecOn generalizing cursor with
  | ind count ih =>
    rw [result_many, result_many, result_maybe]
    cases (parser cursor).result with
    | error error => exact if_neg (Nat.lt_irrefl _)
    | ok parsed =>
      obtain ⟨trees, next⟩ := parsed
      by_cases fewer : next.ahead.length < cursor.ahead.length
      · simp only [if_pos fewer]
        rw [ih _ (left ▸ fewer) next rfl]
      · simp only [if_neg fewer]

/-- A repetition never fails, so that an option around it is never left out. -/
theorem result_maybe_many :
    (maybe (many parser) cursor).result = (many parser cursor).result := by
  obtain ⟨trees, last, reads, -⟩ := exists_of_many parser cursor
  rw [result_maybe, reads]

/-! ## Sequences -/

/-- A sequence of one parser is that parser. -/
theorem result_sequence_singleton : (sequence [parser] cursor).result = (parser cursor).result := by
  rw [result_sequence_cons]
  cases (parser cursor).result with
  | error error => rfl
  | ok parsed => simp [bind, Except.bind, sequence, Except.map]

/-- A sequence may be cut in two. -/
theorem result_sequence_append (first second : List Parser) :
    (sequence (first ++ second) cursor).result =
      (sequence first cursor).result >>= fun parsed =>
        (sequence second parsed.2).result.map (Prod.map (parsed.1 ++ ·) id) := by
  induction first generalizing cursor with
  | nil =>
    show _ = (sequence second cursor).result.map (Prod.map ([] ++ ·) id)
    rw [List.nil_append]
    cases (sequence second cursor).result <;> rfl
  | cons parser later ih =>
    rw [List.cons_append, result_sequence_cons, result_sequence_cons]
    cases (parser cursor).result with
    | error error => rfl
    | ok parsed =>
      simp only [bind, Except.bind, ih]
      cases (sequence later parsed.2).result with
      | error error => rfl
      | ok more =>
        simp only [Except.map, Prod.map, id]
        cases (sequence second more.2).result with
        | error error => rfl
        | ok last => simp only [List.append_assoc]

/-! ## Alternatives -/

/-- Which failure was reported before does not matter if there is one more candidate. -/
theorem result_firstOf_of_ne_nil {candidates : List Parser} (nonempty : candidates ≠ [])
    (first : Nat) (failure : CompileError) :
    (firstOf first failure candidates cursor).result = (alternatives candidates cursor).result := by
  obtain ⟨parser, later, rfl⟩ := List.exists_cons_of_ne_nil nonempty
  rw [alternatives, result_firstOf_cons, result_firstOf_cons]
  cases (parser cursor).result with
  | ok parsed => rfl
  | error error => exact result_firstOf_eq _ _ _ _ _

/-- Alternatives are the first candidate, and the others if it fails and there are others. -/
theorem result_alternatives_cons (parser : Parser) (later : List Parser) (cursor : Cursor) :
    (alternatives (parser :: later) cursor).result =
      match (parser cursor).result with
      | .ok parsed => .ok parsed
      | .error error =>
        if later = [] then .error error else (alternatives later cursor).result := by
  rw [alternatives, result_firstOf_cons]
  cases (parser cursor).result with
  | ok parsed => rfl
  | error error =>
    by_cases last : later = []
    · simp only [last, if_true]
      rfl
    · simp only [if_neg last]
      exact result_firstOf_of_ne_nil cursor last 1 error

/-- Candidates may be tried in two lots. If none of the first lot succeeds, its last failure is the
one that counts until another candidate fails. -/
theorem result_firstOf_append (number : Nat) (failure : CompileError) (first second : List Parser) :
    (firstOf number failure (first ++ second) cursor).result =
      match (firstOf number failure first cursor).result with
      | .ok parsed => .ok parsed
      | .error error => (firstOf number error second cursor).result := by
  induction first generalizing number failure with
  | nil => rfl
  | cons parser later ih =>
    rw [List.cons_append, result_firstOf_cons, result_firstOf_cons]
    cases (parser cursor).result with
    | ok parsed => rfl
    | error error =>
      simp only [ih]
      cases (firstOf (number + 1) error later cursor).result with
      | ok parsed => rfl
      | error last => exact result_firstOf_eq _ _ _ _ _

/-- Alternatives may be cut in two, if there is a candidate in the second part: the failure of that
part is then the last one in both cases. -/
theorem result_alternatives_append (first : List Parser) {second : List Parser}
    (nonempty : second ≠ []) :
    (alternatives [alternatives first, alternatives second] cursor).result =
      (alternatives (first ++ second) cursor).result := by
  have cut : (alternatives (first ++ second) cursor).result =
      match (alternatives first cursor).result with
      | .ok parsed => .ok parsed
      | .error _ => (alternatives second cursor).result := by
    rw [alternatives, result_firstOf_append]
    simp only [result_firstOf_of_ne_nil cursor nonempty]
    rfl
  have last : (alternatives [alternatives second] cursor).result =
      (alternatives second cursor).result := by
    rw [result_alternatives_cons]
    cases (alternatives second cursor).result <;> rfl
  rw [cut, result_alternatives_cons, last]
  cases (alternatives first cursor).result <;> rfl

/-- An option is a choice with the empty sequence behind it. -/
theorem result_alternatives_nothing :
    (alternatives [parser, sequence []] cursor).result = (maybe parser cursor).result := by
  rw [result_alternatives_cons, result_maybe]
  cases (parser cursor).result <;> rfl

/-! ## Unrolling -/

/-- A repetition is one round and then the others, or nothing. A round that reads nothing is
discarded, which makes no difference if it builds nothing. -/
theorem result_maybe_round
    (exact : ∀ trees next, (parser cursor).result = .ok (trees, next) →
      next.ahead.length < cursor.ahead.length ∨ trees = [] ∧ next = cursor) :
    (maybe (sequence [parser, many parser]) cursor).result = (many parser cursor).result := by
  have others (next : Cursor) :
      (sequence [many parser] next).result = (many parser next).result :=
    result_sequence_singleton (many parser) next
  have unrolled := result_many parser cursor
  rw [result_maybe, result_sequence_cons]
  cases outcome : (parser cursor).result with
  | error error =>
    rw [outcome] at unrolled
    exact unrolled.symm
  | ok parsed =>
    obtain ⟨trees, next⟩ := parsed
    simp only [outcome] at unrolled
    obtain ⟨more, last, reads, -⟩ := exists_of_many parser next
    simp only [bind, Except.bind, others, reads, Except.map]
    rcases exact trees next outcome with fewer | ⟨rfl, rfl⟩
    · rw [unrolled, if_pos fewer, reads]
      rfl
    · rw [unrolled, if_neg (Nat.lt_irrefl _)] at reads ⊢
      cases reads
      rfl

end Parser

namespace Grammar

/-- Whether two grammars have the same outcome wherever they are read. -/
def Agrees (grammar other : Grammar Empty) : Prop :=
  ∀ cursor, (grammar.closedParser cursor).result = (other.closedParser cursor).result

namespace Agrees

variable {grammar other third : Grammar Empty}

theorem trans (one : grammar.Agrees other) (two : other.Agrees third) : grammar.Agrees third :=
  fun cursor => (one cursor).trans (two cursor)

end Agrees

variable (part : Grammar Empty)

/-- What a grammar reads without a token is nothing at all. -/
theorem eq_nil_of_idle {cursor next : Cursor} {trees : List Tree}
    (reads : (part.closedParser cursor).result = .ok (trees, next)) :
    next.ahead.length < cursor.ahead.length ∨ trees = [] ∧ next = cursor := by
  obtain ⟨consumed, leaves⟩ := (evaluates_closedParser part cursor).consumed reads
  rcases consumed.progress with fewer | ⟨same, idle⟩
  · exact .inl fewer
  · rw [idle] at leaves
    exact .inr ⟨leaves, same⟩

theorem agrees_maybe : (maybe part).Agrees (alternatives [part, sequence []]) :=
  fun cursor => (Parser.result_alternatives_nothing (part.closedParser) cursor).symm

theorem agrees_round : (many part).Agrees (maybe (sequence [part, many part])) :=
  fun cursor => (Parser.result_maybe_round (part.closedParser) cursor fun _ _ =>
    eq_nil_of_idle part).symm

theorem agrees_sequence (first second : List (Grammar Empty)) :
    (sequence [sequence first, sequence second]).Agrees (sequence (first ++ second)) := by
  intro cursor
  simp only [closedParser, parser_sequence, List.map_cons, List.map_nil, List.map_append]
  rw [Parser.result_sequence_append, Parser.result_sequence_cons]
  simp only [Parser.result_sequence_singleton]

theorem agrees_alternatives (first : List (Grammar Empty)) {second : List (Grammar Empty)}
    (nonempty : second ≠ []) :
    (alternatives [alternatives first, alternatives second]).Agrees
      (alternatives (first ++ second)) := by
  intro cursor
  simp only [closedParser, parser_alternatives, List.map_cons, List.map_nil, List.map_append]
  apply Parser.result_alternatives_append
  rw [Ne, List.map_eq_nil_iff]
  exact nonempty

/-- A repetition or an option in a repetition and a repetition in an option are that repetition.
Sequences and alternatives may be nested or flat, if the second of two choices is not empty. An
option is a choice with the empty sequence behind it, and a repetition is a choice between one round
with the others behind it and the empty sequence. The last law holds of every grammar, be there
rounds that read nothing or not. -/
theorem agrees_laws (first second : List (Grammar Empty)) :
    ((many (many part)).Agrees (many part) ∧ (many (maybe part)).Agrees (many part) ∧
        (maybe (many part)).Agrees (many part)) ∧
      (sequence [sequence first, sequence second]).Agrees (sequence (first ++ second)) ∧
      (second ≠ [] → (alternatives [alternatives first, alternatives second]).Agrees
        (alternatives (first ++ second))) ∧
      (maybe part).Agrees (alternatives [part, sequence []]) ∧
      (many part).Agrees (alternatives [sequence [part, many part], sequence []]) := by
  have nested : (many (many part)).Agrees (many part) :=
    fun cursor => Parser.result_many_many part.closedParser cursor
  have optionInside : (many (maybe part)).Agrees (many part) :=
    fun cursor => Parser.result_many_maybe part.closedParser cursor
  have optionAround : (maybe (many part)).Agrees (many part) :=
    fun cursor => Parser.result_maybe_many part.closedParser cursor
  have unrolled := (agrees_round part).trans (agrees_maybe (sequence [part, many part]))
  exact ⟨⟨nested, optionInside, optionAround⟩, agrees_sequence first second,
    agrees_alternatives first, agrees_maybe part, unrolled⟩

/-- The failure that counts is that of the last candidate, also of one in a choice of its own. -/
theorem agrees_laws_lastFailure :
    let void : Grammar Empty := .terminal .keyword ["void"]
    let primitive : Grammar Empty := .terminal .keyword ["int", "char", "boolean"]
    let name : Grammar Empty := .terminal .identifier []
    ((alternatives [alternatives [void], alternatives [primitive, name]]).closedParser
        ⟨0, [⟨.symbol, "(", 1⟩]⟩).result =
      .error (.unexpectedToken 1 "(" (.token .identifier [])) := by
  intro void primitive name
  have flat := (agrees_laws void [void] [primitive, name]).2.2.1 (List.cons_ne_nil _ _)
  exact flat ⟨0, [⟨.symbol, "(", 1⟩]⟩

end Grammar

end JackCompiler
