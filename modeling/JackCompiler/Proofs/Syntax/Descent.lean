import JackCompiler.Proofs.Syntax.Completeness
import JackCompiler.Proofs.Syntax.Law

/-!
# Recursive descent

Rules enter each other, some of them before a token is read. `Grammar.Descends` says how a grammar
with references to rules is read, without any bound set from outside: a derivation of it is a
finished run, and `depth` is how many rules were entered inside each other. A repetition can only
end with a round that fails; there is no constructor for one that ends with an idle round.

That every rule can be read in this way (`Rule.exists_descends`) rests on two facts about the
productions, each of them computed. No round of a repetition may be empty, and a rule that is
entered before a token is read has a smaller rank (`Rule.guarded_production`). So the tokens ahead
and the rank, taken together, decrease from rule to rule. The parser that runs is built for a given
depth and gives back what a run gives back that stays within that depth
(`Grammar.Descends.result_eq`).
-/

set_option autoImplicit false

namespace JackCompiler

/-! ## What may be empty and what is entered at once -/

/-- Whether a rule may read no token. -/
def Rule.mayBeEmpty (rule : Rule) : Bool :=
  [parameterList, statements, expressionList].contains rule

/-- How many rules may be entered inside each other, beginning with this one, before a token is
read. -/
def Rule.rank : Rule → Nat
  | expressionList => 4
  | expression => 3
  | term | statements => 2
  | _ => 1

namespace Grammar

mutual

/-- Whether a grammar may read no token. -/
def mayBeEmpty : Grammar Rule → Bool
  | terminal _ _ => false
  | sequence parts => allMayBeEmpty parts
  | alternatives candidates => anyMayBeEmpty candidates
  | many _ => true
  | maybe _ => true
  | rule name => name.mayBeEmpty

/-- Whether each of some grammars may read no token. -/
def allMayBeEmpty : List (Grammar Rule) → Bool
  | [] => true
  | part :: later => part.mayBeEmpty && allMayBeEmpty later

/-- Whether one of some grammars may read no token. -/
def anyMayBeEmpty : List (Grammar Rule) → Bool
  | [] => false
  | part :: later => part.mayBeEmpty || anyMayBeEmpty later

end

mutual

/-- Whether a grammar enters only allowed rules before it reads a token, has a candidate in each of
its choices, and repeats nothing that may be empty. -/
def guarded (allowed : Rule → Bool) : Grammar Rule → Bool
  | terminal _ _ => true
  | sequence parts => guardedInTurn allowed parts
  | alternatives candidates => !candidates.isEmpty && guardedEach allowed candidates
  | many part => !part.mayBeEmpty && part.guarded allowed
  | maybe part => part.guarded allowed
  | rule name => allowed name

/-- Whether a sequence of some parts is guarded: behind a part that reads a token any rule may be
entered. -/
def guardedInTurn (allowed : Rule → Bool) : List (Grammar Rule) → Bool
  | [] => true
  | part :: later =>
    part.guarded allowed && guardedInTurn (fun name => !part.mayBeEmpty || allowed name) later

/-- Whether each of some grammars is guarded. -/
def guardedEach (allowed : Rule → Bool) : List (Grammar Rule) → Bool
  | [] => true
  | part :: later => part.guarded allowed && guardedEach allowed later

end

end Grammar

/-- A rule that reads at least one token has a production that does. -/
theorem Rule.mayBeEmpty_production (rule : Rule) :
    rule.production.mayBeEmpty = true → rule.mayBeEmpty = true := by
  cases rule <;> decide

/-- A rule enters only rules of a smaller rank before it reads a token. -/
theorem Rule.guarded_production (rule : Rule) :
    rule.production.guarded (fun inner => inner.rank < rule.rank) = true := by
  cases rule <;> decide

theorem Rule.rank_pos (rule : Rule) : 0 < rule.rank := by
  cases rule <;> decide

theorem Rule.rank_le (rule : Rule) : rule.rank ≤ 4 := by
  cases rule <;> decide

/-! ## Progress -/

/-- What is consumed from a position in a list of tokens is the part of the list that lies between
the two positions. -/
theorem Cursor.Consumed.between {tokens : List Token} {start : Nat} {trees : List Tree}
    {next : Cursor} (consumed : (⟨start, tokens.drop start⟩ : Cursor).Consumed trees next) :
    Tree.tokensOfList trees = (tokens.take next.position).drop start ∧
      next.ahead = tokens.drop next.position ∧ start ≤ next.position ∧
      (start ≤ tokens.length → next.position ≤ tokens.length) := by
  obtain ⟨ahead, position⟩ := consumed
  simp only at ahead position
  refine ⟨?_, ?_, ?_, ?_⟩
  · rw [List.drop_take, ahead, position, Nat.add_sub_cancel_left, List.take_left]
  · rw [position, ← List.drop_drop, ahead, List.drop_left]
  · omega
  · intro inside
    have parts := congrArg List.length ahead
    rw [List.length_drop, List.length_append] at parts
    omega

namespace Grammar

theorem anyMayBeEmpty_of_mem {part : Grammar Rule} {candidates : List (Grammar Rule)}
    (among : part ∈ candidates) (empty : part.mayBeEmpty = true) :
    anyMayBeEmpty candidates = true := by
  induction candidates with
  | nil => cases among
  | cons first later ih =>
    rw [anyMayBeEmpty, Bool.or_eq_true]
    rcases List.mem_cons.mp among with rfl | among
    · exact .inl empty
    · exact .inr (ih among)

/-- A grammar that describes trees without a token may be empty, if that holds of the rules. -/
theorem Matches.mayBeEmpty {rules : Rule → Tree → Prop} {grammar : Grammar Rule}
    {trees : List Tree} (stand : ∀ name tree, rules name tree → tree.tokens = [] →
      name.mayBeEmpty = true)
    (described : Matches rules grammar trees) (none : Tree.tokensOfList trees = []) :
    grammar.mayBeEmpty = true := by
  induction described with
  | terminal => cases none
  | nil | done | round | absent | present => rfl
  | cons head tail ih ihTail =>
    rw [Tree.tokensOfList_append, List.append_eq_nil_iff] at none
    have later := ihTail none.2
    rw [Grammar.mayBeEmpty] at later ⊢
    rw [allMayBeEmpty, ih none.1, later]
    rfl
  | choice among chosen ih =>
    rw [Grammar.mayBeEmpty]
    exact anyMayBeEmpty_of_mem among (ih none)
  | rule stands =>
    rw [Tree.tokensOfList_cons, Tree.tokensOfList_nil, List.append_nil] at none
    exact stand _ _ stands none

end Grammar

/-- A rule that is read leaves one node of its own, and reads a token unless it may be empty. -/
theorem Rule.entering_sound (depth : Nat) (name : Rule) (cursor : Cursor) (trees : List Tree)
    (next : Cursor) (reads : (entering depth name cursor).result = .ok (trees, next)) :
    cursor.Consumed trees next ∧ ∃ tree, trees = [tree] ∧
      tree.rule? = some name ∧ (tree.tokens = [] → name.mayBeEmpty = true) := by
  induction depth generalizing name cursor trees next with
  | zero => cases reads
  | succ depth ih =>
    rw [entering, Parser.single, Logged.result_map, parseWithin, Logged.result_map] at reads
    cases inside : (name.production.parser (entering depth) cursor).result with
    | error error =>
      rw [inside] at reads
      cases reads
    | ok parsed =>
      obtain ⟨children, last⟩ := parsed
      rw [inside] at reads
      cases reads
      obtain ⟨⟨ahead, position⟩, described⟩ := Grammar.parser_sound ih _ _ _ _ inside
      refine ⟨⟨?_, ?_⟩, .node name children, rfl, rfl, ?_⟩
      · simpa using ahead
      · simpa using position
      · intro none
        exact name.mayBeEmpty_production (described.mayBeEmpty (fun _ _ stands => stands.2) none)

namespace Grammar

/-- What a grammar reads are the tokens between two cursors. They are different cursors unless the
grammar may be empty. -/
theorem progress {depth : Nat} {grammar : Grammar Rule} {cursor next : Cursor} {trees : List Tree}
    (reads : (grammar.parser (Rule.entering depth) cursor).result = .ok (trees, next)) :
    cursor.Consumed trees next ∧
      (next.ahead.length < cursor.ahead.length ∨ next = cursor ∧ grammar.mayBeEmpty = true) := by
  obtain ⟨consumed, described⟩ := parser_sound (Rule.entering_sound depth) _ _ _ _ reads
  refine ⟨consumed, ?_⟩
  rcases consumed.progress with fewer | ⟨same, none⟩
  · exact .inl fewer
  · exact .inr ⟨same, described.mayBeEmpty (fun _ _ stands => stands.2) none⟩

/-- `grammar.Repeats part`: the part is repeated somewhere in the grammar. -/
inductive Repeats : Grammar Rule → Grammar Rule → Prop
  | here {part : Grammar Rule} : Repeats (.many part) part
  | many {part inner : Grammar Rule} (inside : Repeats part inner) : Repeats (.many part) inner
  | maybe {part inner : Grammar Rule} (inside : Repeats part inner) : Repeats (.maybe part) inner
  | sequence {part inner : Grammar Rule} {parts : List (Grammar Rule)} (among : part ∈ parts)
      (inside : Repeats part inner) : Repeats (.sequence parts) inner
  | alternatives {part inner : Grammar Rule} {candidates : List (Grammar Rule)}
      (among : part ∈ candidates) (inside : Repeats part inner) :
      Repeats (.alternatives candidates) inner

theorem exists_guarded_of_mem {part : Grammar Rule} {parts : List (Grammar Rule)}
    {allowed : Rule → Bool} (among : part ∈ parts) (sound : guardedInTurn allowed parts = true) :
    ∃ allowed, part.guarded allowed = true := by
  induction parts generalizing allowed with
  | nil => cases among
  | cons first later ih =>
    rw [guardedInTurn, Bool.and_eq_true] at sound
    rcases List.mem_cons.mp among with rfl | among
    · exact ⟨_, sound.1⟩
    · exact ih among sound.2

theorem guarded_of_mem {part : Grammar Rule} {candidates : List (Grammar Rule)}
    {allowed : Rule → Bool} (among : part ∈ candidates)
    (sound : guardedEach allowed candidates = true) : part.guarded allowed = true := by
  induction candidates with
  | nil => cases among
  | cons first later ih =>
    rw [guardedEach, Bool.and_eq_true] at sound
    rcases List.mem_cons.mp among with rfl | among
    · exact sound.1
    · exact ih among sound.2

/-- Nothing that a guarded grammar repeats may be empty. -/
theorem Repeats.not_mayBeEmpty {grammar part : Grammar Rule} {allowed : Rule → Bool}
    (repeats : grammar.Repeats part) (sound : grammar.guarded allowed = true) :
    part.mayBeEmpty = false := by
  induction repeats generalizing allowed with
  | here =>
    rw [guarded, Bool.and_eq_true, Bool.not_eq_true'] at sound
    exact sound.1
  | many inside ih =>
    rw [guarded, Bool.and_eq_true] at sound
    exact ih sound.2
  | maybe inside ih => exact ih sound
  | sequence among inside ih =>
    rw [guarded] at sound
    obtain ⟨allowed, partSound⟩ := exists_guarded_of_mem among sound
    exact ih partSound
  | alternatives among inside ih =>
    rw [guarded, Bool.and_eq_true] at sound
    exact ih (guarded_of_mem among sound.2)

end Grammar

/-- A round of a repetition that succeeds goes on, in every production and at every depth. -/
theorem Rule.round_progress {rule : Rule} {part : Grammar Rule} {depth : Nat}
    {cursor next : Cursor} {trees : List Tree} (repeats : rule.production.Repeats part)
    (reads : (part.parser (entering depth) cursor).result = .ok (trees, next)) :
    next.ahead.length < cursor.ahead.length ∧ cursor.position < next.position := by
  obtain ⟨⟨ahead, position⟩, fewer | ⟨-, empty⟩⟩ := Grammar.progress reads
  · refine ⟨fewer, ?_⟩
    rw [ahead, List.length_append] at fewer
    omega
  · rw [repeats.not_mayBeEmpty rule.guarded_production] at empty
    cases empty

/-! ## Runs -/

namespace Grammar

/-- `grammar.Descends depth cursor outcome`: reading the grammar at the cursor ends with that
outcome, enters at most `depth` rules inside each other, and repeats nothing without progress. -/
inductive Descends : Nat → Grammar Rule → Cursor → Except CompileError Parsed → Prop
  | terminal {depth : Nat} {kind : TokenKind} {texts : List String} {cursor : Cursor} :
      Descends depth (.terminal kind texts) cursor (Parser.terminal kind texts cursor).result
  | nothing {depth : Nat} {cursor : Cursor} :
      Descends depth (.sequence []) cursor (.ok ([], cursor))
  | firstFails {depth : Nat} {part : Grammar Rule} {later : List (Grammar Rule)} {cursor : Cursor}
      {error : CompileError} (fails : Descends depth part cursor (.error error)) :
      Descends depth (.sequence (part :: later)) cursor (.error error)
  | inTurn {depth : Nat} {part : Grammar Rule} {later : List (Grammar Rule)}
      {cursor middle : Cursor} {trees : List Tree} {outcome : Except CompileError Parsed}
      (first : Descends depth part cursor (.ok (trees, middle)))
      (others : Descends depth (.sequence later) middle outcome) :
      Descends depth (.sequence (part :: later)) cursor (outcome.map (Prod.map (trees ++ ·) id))
  | chosen {depth : Nat} {part : Grammar Rule} {later : List (Grammar Rule)} {cursor : Cursor}
      {parsed : Parsed} (reads : Descends depth part cursor (.ok parsed)) :
      Descends depth (.alternatives (part :: later)) cursor (.ok parsed)
  | lastFails {depth : Nat} {part : Grammar Rule} {cursor : Cursor} {error : CompileError}
      (fails : Descends depth part cursor (.error error)) :
      Descends depth (.alternatives [part]) cursor (.error error)
  | passedOver {depth : Nat} {part : Grammar Rule} {later : List (Grammar Rule)} {cursor : Cursor}
      {error : CompileError} {outcome : Except CompileError Parsed} (more : later ≠ [])
      (fails : Descends depth part cursor (.error error))
      (others : Descends depth (.alternatives later) cursor outcome) :
      Descends depth (.alternatives (part :: later)) cursor outcome
  | lastRound {depth : Nat} {part : Grammar Rule} {cursor : Cursor} {error : CompileError}
      (fails : Descends depth part cursor (.error error)) :
      Descends depth (.many part) cursor (.ok ([], cursor))
  | round {depth : Nat} {part : Grammar Rule} {cursor next last : Cursor} {trees more : List Tree}
      (reads : Descends depth part cursor (.ok (trees, next)))
      (fewer : next.ahead.length < cursor.ahead.length)
      (others : Descends depth (.many part) next (.ok (more, last))) :
      Descends depth (.many part) cursor (.ok (trees ++ more, last))
  | present {depth : Nat} {part : Grammar Rule} {cursor : Cursor} {parsed : Parsed}
      (reads : Descends depth part cursor (.ok parsed)) :
      Descends depth (.maybe part) cursor (.ok parsed)
  | absent {depth : Nat} {part : Grammar Rule} {cursor : Cursor} {error : CompileError}
      (fails : Descends depth part cursor (.error error)) :
      Descends depth (.maybe part) cursor (.ok ([], cursor))
  | rule {depth : Nat} {name : Rule} {cursor : Cursor} {outcome : Except CompileError Parsed}
      (inside : Descends depth name.production cursor outcome) :
      Descends (depth + 1) (.rule name) cursor
        (outcome.map (Prod.map (fun trees => [.node name trees]) id))

namespace Descends

variable {depth deeper : Nat} {grammar : Grammar Rule} {cursor next : Cursor} {trees : List Tree}
  {outcome : Except CompileError Parsed}

/-- A run within a depth is one within any greater depth. -/
theorem mono (run : grammar.Descends depth cursor outcome) (least : depth ≤ deeper) :
    grammar.Descends deeper cursor outcome := by
  induction run generalizing deeper with
  | terminal => exact .terminal
  | nothing => exact .nothing
  | firstFails fails ih => exact .firstFails (ih least)
  | inTurn first others ih ihOthers => exact .inTurn (ih least) (ihOthers least)
  | chosen reads ih => exact .chosen (ih least)
  | lastFails fails ih => exact .lastFails (ih least)
  | passedOver more fails others ih ihOthers => exact .passedOver more (ih least) (ihOthers least)
  | lastRound fails ih => exact .lastRound (ih least)
  | round reads fewer others ih ihOthers => exact .round (ih least) fewer (ihOthers least)
  | present reads ih => exact .present (ih least)
  | absent fails ih => exact .absent (ih least)
  | rule inside ih =>
    obtain ⟨rest, rfl⟩ := Nat.exists_eq_add_of_le' (Nat.lt_of_lt_of_le (Nat.succ_pos _) least)
    exact .rule (ih (Nat.le_of_succ_le_succ least))

/-- The parser that is built for a given depth gives back what a run within that depth does. -/
theorem result_eq (run : grammar.Descends depth cursor outcome) (enough : depth ≤ deeper) :
    (grammar.parser (Rule.entering deeper) cursor).result = outcome := by
  induction run generalizing deeper with
  | terminal => rfl
  | nothing => rfl
  | firstFails fails ih =>
    rw [parser_sequence, List.map_cons, Parser.result_sequence_cons, ih enough]
    rfl
  | inTurn first others ih ihOthers =>
    have rest := ihOthers enough
    rw [parser_sequence] at rest ⊢
    rw [List.map_cons, Parser.result_sequence_cons, ih enough]
    exact congrArg (Except.map _) rest
  | chosen reads ih =>
    rw [parser_alternatives, List.map_cons, Parser.result_alternatives_cons, ih enough]
  | lastFails fails ih =>
    rw [parser_alternatives, List.map_cons, Parser.result_alternatives_cons, ih enough]
    rfl
  | passedOver more fails others ih ihOthers =>
    have rest := ihOthers enough
    rw [parser_alternatives] at rest ⊢
    rw [List.map_cons, Parser.result_alternatives_cons, ih enough]
    exact (if_neg (mt List.map_eq_nil_iff.mp more)).trans rest
  | lastRound fails ih => rw [parser_many, Parser.result_many, ← parser_many, ih enough]
  | round reads fewer others ih ihOthers =>
    have rest := ihOthers enough
    rw [parser_many] at rest ⊢
    rw [Parser.result_many, ih enough]
    simp only [if_pos fewer, rest, Except.map, Prod.map, id]
  | present reads ih => rw [parser_maybe, Parser.result_maybe, ih enough]
  | absent fails ih => rw [parser_maybe, Parser.result_maybe, ih enough]
  | @rule depth name cursor outcome inside ih =>
    obtain ⟨rest, rfl⟩ := Nat.exists_eq_add_of_le' (Nat.lt_of_lt_of_le (Nat.succ_pos _) enough)
    have body := ih (Nat.le_of_succ_le_succ enough)
    rw [parser_rule, Rule.entering, Parser.single, Logged.result_map, Rule.parseWithin,
      Logged.result_map, body]
    cases outcome <;> rfl

/-- A run that stays where it is was one of a grammar that may be empty. -/
theorem eq_of_idle (run : grammar.Descends depth cursor (.ok (trees, next))) :
    next.ahead.length < cursor.ahead.length ∨ next = cursor ∧ grammar.mayBeEmpty = true :=
  (progress (run.result_eq (Nat.le_refl depth))).2

end Descends

/-! ## Every rule descends -/

/-- A guarded grammar descends where the allowed rules do, if all rules do behind a token. -/
theorem exists_descends {depth : Nat} {cursor : Cursor}
    (behind : ∀ (name : Rule) (later : Cursor), later.ahead.length < cursor.ahead.length →
      ∃ outcome, (rule name).Descends depth later outcome)
    (grammar : Grammar Rule) {allowed : Rule → Bool}
    (here : ∀ name, allowed name = true → ∃ outcome, (rule name).Descends depth cursor outcome)
    (sound : grammar.guarded allowed = true) :
    ∃ outcome, grammar.Descends depth cursor outcome := by
  induction grammar generalizing cursor allowed with
  | terminal kind texts => exact ⟨_, .terminal⟩
  | sequence parts ih =>
    rw [guarded] at sound
    induction parts generalizing cursor allowed with
    | nil => exact ⟨_, .nothing⟩
    | cons part later ihLater =>
      rw [List.forall_mem_cons] at ih
      rw [guardedInTurn, Bool.and_eq_true] at sound
      obtain ⟨outcome, first⟩ := ih.1 behind here sound.1
      cases outcome with
      | error error => exact ⟨_, .firstFails first⟩
      | ok parsed =>
        obtain ⟨trees, middle⟩ := parsed
        have rest : ∃ outcome, (sequence later).Descends depth middle outcome := by
          rcases first.eq_of_idle with fewer | ⟨rfl, empty⟩
          · apply ihLater ih.2 _ _ sound.2
            · exact fun name next less => behind name next (Nat.lt_trans less fewer)
            · exact fun name _ => behind name middle fewer
          · apply ihLater ih.2 behind _ sound.2
            intro name entered
            rw [empty] at entered
            exact here name entered
        obtain ⟨outcome, others⟩ := rest
        exact ⟨_, .inTurn first others⟩
  | alternatives candidates ih =>
    rw [guarded, Bool.and_eq_true, Bool.not_eq_true', List.isEmpty_eq_false_iff] at sound
    obtain ⟨nonempty, sound⟩ := sound
    induction candidates with
    | nil => exact absurd rfl nonempty
    | cons part later ihLater =>
      rw [List.forall_mem_cons] at ih
      rw [guardedEach, Bool.and_eq_true] at sound
      obtain ⟨outcome, first⟩ := ih.1 behind here sound.1
      cases outcome with
      | ok parsed => exact ⟨_, .chosen first⟩
      | error error =>
        by_cases last : later = []
        · rw [last]
          exact ⟨_, .lastFails first⟩
        · obtain ⟨outcome, others⟩ := ihLater ih.2 last sound.2
          exact ⟨_, .passedOver last first others⟩
  | many part ih =>
    rw [guarded, Bool.and_eq_true, Bool.not_eq_true'] at sound
    -- a repetition that went on with failures never fails itself, which a further round needs
    suffices ∃ parsed, (many part).Descends depth cursor (.ok parsed) from
      this.elim fun parsed run => ⟨_, run⟩
    induction left : cursor.ahead.length using Nat.strongRecOn generalizing cursor allowed with
    | ind count ihRound =>
      obtain ⟨outcome, first⟩ := ih behind here sound.2
      cases outcome with
      | error error => exact ⟨_, .lastRound first⟩
      | ok parsed =>
        obtain ⟨trees, next⟩ := parsed
        rcases first.eq_of_idle with fewer | ⟨-, empty⟩
        · have less (name : Rule) (later : Cursor)
              (further : later.ahead.length < next.ahead.length) :
              ∃ outcome, (rule name).Descends depth later outcome :=
            behind name later (Nat.lt_trans further fewer)
          obtain ⟨⟨more, last⟩, others⟩ := ihRound _ (left ▸ fewer) less
            (fun name _ => behind name next fewer) sound rfl
          exact ⟨_, .round first fewer others⟩
        · rw [empty] at sound
          cases sound.1
  | maybe part ih =>
    obtain ⟨outcome, first⟩ := ih behind here sound
    cases outcome with
    | ok parsed => exact ⟨_, .present first⟩
    | error error => exact ⟨_, .absent first⟩
  | rule name => exact here name sound

end Grammar

namespace Rule

open Grammar (Descends)

/-- Every rule descends, and no deeper than four rules for each token ahead and its rank. -/
theorem exists_descends (rule : Rule) (cursor : Cursor) : ∃ outcome,
    (Grammar.rule rule).Descends (4 * cursor.ahead.length + rule.rank) cursor outcome := by
  induction measure : 4 * cursor.ahead.length + rule.rank using Nat.strongRecOn
    generalizing rule cursor with
  | ind bound ih =>
    have positive := rule.rank_pos
    obtain ⟨depth, rfl⟩ : ∃ depth, bound = depth + 1 := ⟨bound - 1, by omega⟩
    have behind (name : Rule) (later : Cursor) (less : later.ahead.length < cursor.ahead.length) :
        ∃ outcome, (Grammar.rule name).Descends depth later outcome := by
      have small := name.rank_le
      obtain ⟨outcome, run⟩ := ih _ (by omega) name later rfl
      exact ⟨outcome, run.mono (by omega)⟩
    have here (name : Rule) (smaller : decide (name.rank < rule.rank) = true) :
        ∃ outcome, (Grammar.rule name).Descends depth cursor outcome := by
      have less := of_decide_eq_true smaller
      obtain ⟨outcome, run⟩ := ih _ (by omega) name cursor rfl
      exact ⟨outcome, run.mono (by omega)⟩
    obtain ⟨outcome, run⟩ := Grammar.exists_descends behind rule.production here
      rule.guarded_production
    exact ⟨_, .rule run⟩

theorem single_parse_eq (rule : Rule) (cursor : Cursor) :
    (Parser.single rule.parse cursor).result =
      (entering (depth cursor.ahead.length) rule cursor).result := by
  rw [entering, Parser.single, Parser.single, Logged.result_map, Logged.result_map, parse]

/-- The parser of a rule gives back what a run of the rule does, and there is such a run that goes
no deeper than the bound. -/
theorem descends_parse (rule : Rule) (cursor : Cursor) :
    (Grammar.rule rule).Descends (4 * cursor.ahead.length + rule.rank) cursor
      (Parser.single rule.parse cursor).result := by
  obtain ⟨outcome, run⟩ := rule.exists_descends cursor
  have small := rule.rank_le
  have enough : 4 * cursor.ahead.length + rule.rank ≤ depth cursor.ahead.length := by
    rw [depth]
    omega
  have same := run.result_eq enough
  rw [Grammar.parser_rule] at same
  rw [single_parse_eq, same]
  exact run

/-- A rule has one outcome, however deep the run of it goes. -/
theorem eq_of_descends {rule : Rule} {cursor : Cursor} {depth : Nat}
    {outcome : Except CompileError Parsed}
    (run : (Grammar.rule rule).Descends depth cursor outcome) :
    outcome = (Parser.single rule.parse cursor).result := by
  have other := rule.descends_parse cursor
  rw [← run.result_eq (Nat.le_max_left depth _), ← other.result_eq (Nat.le_max_right depth _)]

/-- The rules that may be empty are empty at the end of the tokens. -/
theorem parse_atEnd {rule : Rule} (empty : rule.mayBeEmpty = true) (position : Nat) :
    (Parser.single rule.parse ⟨position, []⟩).result = .ok ([.node rule []], ⟨position, []⟩) := by
  have nothing : Grammar.Reads (entering 7) rule.production [] [] := by
    cases rule
    case parameterList | expressionList => exact .absent (refuses rfl)
    case statements => exact .done (refuses rfl)
    all_goals cases empty
  have inside := nothing position
  rw [Tree.tokensOfList_nil, List.nil_append] at inside
  rw [Parser.single, Logged.result_map, parse, depth, List.length_nil]
  show Except.map _ (parseWithin (7 + 1) rule ⟨position, []⟩).result = _
  rw [parseWithin, Logged.result_map, inside]
  rfl

/-- Termination and progress of the rules, from any position in a list of tokens. There is a run of
every rule, whether it succeeds or fails, and the outcome of any run is that of the parser. The
depth of the run is bounded by four for each token that remains and four more, or by eight for each
token if there is one. No round of a repetition in a rule is idle, so a repetition ends with a
failure. If a rule succeeds, it gives one node of its own, whose tokens are those between the two
positions. It moves forward, unless it is a list of parameters, statements or expressions; these
three may stay where they are, as they do behind the last token. -/
theorem parse_descends (rule : Rule) (tokens : List Token) (start : Nat)
    (inside : start ≤ tokens.length) :
    let cursor : Cursor := ⟨start, tokens.drop start⟩
    let outcome := (Parser.single rule.parse cursor).result
    (∀ other, (∃ depth, (Grammar.rule rule).Descends depth cursor other) ↔ other = outcome) ∧
    (Grammar.rule rule).Descends (4 * (tokens.length - start + 1)) cursor outcome ∧
    (start < tokens.length →
      (Grammar.rule rule).Descends (8 * (tokens.length - start)) cursor outcome) ∧
    (∀ part depth cursor trees next, rule.production.Repeats part →
      (part.parser (entering depth) cursor).result = .ok (trees, next) →
      cursor.position < next.position) ∧
    (∀ trees next, outcome = .ok (trees, next) →
      (∃ children, trees = [.node rule children]) ∧
      Tree.tokensOfList trees = (tokens.take next.position).drop start ∧
      next.ahead = tokens.drop next.position ∧ next.position ≤ tokens.length ∧
      start ≤ next.position ∧
      (rule ∉ [parameterList, statements, expressionList] → start < next.position)) ∧
    (rule ∈ [parameterList, statements, expressionList] → start = tokens.length →
      outcome = .ok ([.node rule []], cursor)) := by
  intro cursor outcome
  have run := rule.descends_parse cursor
  have small := rule.rank_le
  have left : cursor.ahead.length = tokens.length - start := List.length_drop
  refine ⟨fun other => ⟨?_, ?_⟩, ?_, ?_, ?_, ?_, ?_⟩
  · rintro ⟨depth, run⟩
    exact eq_of_descends run
  · rintro rfl
    exact ⟨_, run⟩
  · exact run.mono (by omega)
  · intro more
    exact run.mono (by omega)
  · intro part depth cursor trees next repeats reads
    exact (round_progress repeats reads).2
  · intro trees next ends
    have reads := (rule.single_parse_eq cursor).symm.trans ends
    obtain ⟨consumed, tree, rfl, isRule, nonempty⟩ := entering_sound _ rule cursor _ next reads
    obtain ⟨between, ahead, further, last⟩ := consumed.between
    refine ⟨?_, between, ahead, last inside, further, ?_⟩
    · cases tree with
      | leaf token => cases isRule
      | node found children =>
        cases isRule
        exact ⟨children, rfl⟩
    · intro someToken
      refine Nat.lt_of_le_of_ne further fun same => ?_
      apply someToken
      have none : tree.tokens = [] := by
        rw [Tree.tokensOfList_cons, Tree.tokensOfList_nil, List.append_nil] at between
        rw [between, ← same, List.drop_take, Nat.sub_self, List.take_zero]
      simpa [mayBeEmpty] using nonempty none
  · intro among atEnd
    have empty : rule.mayBeEmpty = true := by
      simpa [mayBeEmpty] using among
    have none : tokens.drop start = [] := List.drop_eq_nil_iff.mpr (Nat.le_of_eq atEnd.symm)
    have ends := parse_atEnd empty start
    rw [← none] at ends
    exact ends

/-- Behind the last token an argument list enters an expression, a term and a call, none of which
begins there, and is empty. -/
theorem parse_descends_noArguments :
    let cursor : Cursor := ⟨1, []⟩
    let outcome : Except CompileError Parsed := .ok ([.node .expressionList []], cursor)
    1 ≤ [(⟨.symbol, "(", 1⟩ : Token)].length ∧
      (Grammar.rule .expressionList).Descends 4 cursor outcome ∧
      ∀ other, (∃ depth, (Grammar.rule .expressionList).Descends depth cursor other) →
        other = outcome := by
  intro cursor outcome
  obtain ⟨only, run, -, -, -, empty⟩ :=
    parse_descends .expressionList [⟨.symbol, "(", 1⟩] 1 (Nat.le_refl 1)
  have ends := empty (by decide) rfl
  rw [ends] at only run
  exact ⟨Nat.le_refl 1, run, fun other => (only other).mp⟩

end Rule

end JackCompiler
