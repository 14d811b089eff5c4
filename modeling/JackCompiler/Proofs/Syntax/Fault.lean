import JackCompiler.Proofs.Syntax.Completeness
import JackCompiler.Proofs.Syntax.Law

/-!
# Where syntax errors are reported

A class is a header, members and a closing brace. `SyntaxFault` says, from the tokens alone, with
which error they are rejected: the first token of the header that does not fit is reported, or else
the first token behind the longest run of complete members, or else the first token behind the
class. Whatever is wrong within a member is not reported: the repetition of members gives the tokens
of an unfinished one back, so that the class ends in front of it.

A run of complete constructs is the longest one exactly if none begins behind it
(`Rule.longestRun_of_stops`, `Rule.LongestRun.stops`), which is where the parser's repetition stops
(`Rule.reads_run`). This holds of constructs that begin with a keyword of their own and end where
they end, whatever follows.
-/

set_option autoImplicit false

namespace JackCompiler

/-! ## Runs of complete constructs -/

namespace Rule

/-- `rule.LongestRun tokens trees rest`: the trees are complete constructs of the rule, one behind
the other at the front of the tokens, and no others reach further. -/
structure LongestRun (rule : Rule) (tokens : List Token) (trees : List Tree)
    (rest : List Token) : Prop where
  stand : ∀ tree ∈ trees, rule.Stands tree
  tokens_eq : tokens = Tree.tokensOfList trees ++ rest
  longest : ∀ others behind, (∀ tree ∈ others, rule.Stands tree) →
    tokens = Tree.tokensOfList others ++ behind →
    (Tree.tokensOfList others).length ≤ (Tree.tokensOfList trees).length

section Run

variable {rule : Rule} {tree other : Tree} {trees : List Tree} {tokens rest rest' : List Token}

theorem Stands.tokens_ne_nil (opens : rule.openings ≠ []) (stands : rule.Stands tree) :
    tree.tokens ≠ [] := by
  have begins := stands.2.begins stands.1 opens []
  rw [List.append_nil] at begins
  exact begins.ne_nil

/-- Only one construct begins at some tokens, if it ends where it ends, whatever follows. -/
theorem Stands.eq_of_tokens (follows : ∀ ahead, rule.Follows ahead) (stands : rule.Stands tree)
    (stands' : rule.Stands other) (same : tree.tokens ++ rest = other.tokens ++ rest') :
    tree = other := by
  have one := stands.2.read stands.1 (follows rest) 0
  have two := stands'.2.read stands'.1 (follows rest') 0
  rw [same, two, Except.ok.injEq, Prod.mk.injEq] at one
  exact one.1.symm

theorem LongestRun.stops (opens : rule.openings ≠ []) (run : rule.LongestRun tokens trees rest) :
    ∀ tree behind, rule.Stands tree → rest ≠ tree.tokens ++ behind := by
  intro tree behind stands begins
  have stand : ∀ part ∈ trees ++ [tree], rule.Stands part := by
    rw [List.forall_mem_append, List.forall_mem_singleton]
    exact ⟨run.stand, stands⟩
  have further := run.longest (trees ++ [tree]) behind stand (by
    simpa [begins] using run.tokens_eq)
  have some := List.length_pos_iff.mpr (stands.tokens_ne_nil opens)
  rw [Tree.tokensOfList_append, List.length_append, Tree.tokensOfList_cons, Tree.tokensOfList_nil,
    List.append_nil] at further
  omega

/-- A run behind which no construct begins is the longest one: any other one begins with the same
constructs. -/
theorem longestRun_of_stops (follows : ∀ ahead, rule.Follows ahead)
    (stand : ∀ tree ∈ trees, rule.Stands tree)
    (stops : ∀ tree behind, rule.Stands tree → rest ≠ tree.tokens ++ behind) :
    rule.LongestRun (Tree.tokensOfList trees ++ rest) trees rest := by
  refine ⟨stand, rfl, ?_⟩
  intro others behind stand' same
  induction trees generalizing others with
  | nil =>
    cases others with
    | nil => exact Nat.le_refl _
    | cons tree later =>
      rw [Tree.tokensOfList_cons, List.append_assoc] at same
      exact absurd same (stops tree _ (stand' tree List.mem_cons_self))
  | cons tree later ih =>
    cases others with
    | nil => exact Nat.zero_le _
    | cons other more =>
      rw [List.forall_mem_cons] at stand stand'
      rw [Tree.tokensOfList_cons, Tree.tokensOfList_cons, List.append_assoc,
        List.append_assoc] at same
      obtain rfl := stand.1.eq_of_tokens follows stand'.1 same
      have rest := ih stand.2 more stand'.2 (List.append_cancel_left same)
      rw [Tree.tokensOfList_cons, Tree.tokensOfList_cons, List.length_append, List.length_append]
      omega

theorem exists_longestRun (rule : Rule) (opens : rule.openings ≠ [])
    (follows : ∀ ahead, rule.Follows ahead) (tokens : List Token) :
    ∃ trees rest, rule.LongestRun tokens trees rest := by
  induction left : tokens.length using Nat.strongRecOn generalizing tokens with
  | ind count ih =>
    by_cases begins : ∃ tree behind, rule.Stands tree ∧ tokens = tree.tokens ++ behind
    · obtain ⟨tree, behind, stands, rfl⟩ := begins
      have fewer : behind.length < count := by
        have some := List.length_pos_iff.mpr (stands.tokens_ne_nil opens)
        rw [← left, List.length_append]
        omega
      obtain ⟨trees, rest, run⟩ := ih _ fewer behind rfl
      have whole := longestRun_of_stops follows (List.forall_mem_cons.mpr ⟨stands, run.stand⟩)
        (run.stops opens)
      rw [Tree.tokensOfList_cons, List.append_assoc, ← run.tokens_eq] at whole
      exact ⟨tree :: trees, rest, whole⟩
    · have none := @longestRun_of_stops rule [] tokens follows nofun
        fun tree behind stands eq => begins ⟨tree, behind, stands, eq⟩
      exact ⟨[], tokens, none⟩

theorem exists_stands_of_entering {depth : Nat} {cursor next : Cursor}
    (reads : (entering depth rule cursor).result = .ok (trees, next)) :
    ∃ tree, rule.Stands tree ∧ cursor.ahead = tree.tokens ++ next.ahead := by
  rw [entering, Parser.single, Logged.result_map] at reads
  cases inside : (parseWithin depth rule cursor).result with
  | error error =>
    rw [inside] at reads
    cases reads
  | ok read =>
    obtain ⟨tree, last⟩ := read
    rw [inside] at reads
    cases reads
    obtain ⟨consumed, stands⟩ := parseWithin_sound _ _ _ _ _ inside
    exact ⟨tree, stands, by simpa using consumed.ahead⟩

/-- The repetition of a rule reads a run behind which no construct begins. -/
theorem reads_run {depth : Nat} (opens : rule.openings ≠ [])
    (follows : ∀ ahead, rule.Follows ahead) (stand : ∀ tree ∈ trees, rule.Stands tree)
    (stops : ∀ tree behind, rule.Stands tree → rest ≠ tree.tokens ++ behind)
    (deep : 8 * (Tree.tokensOfList trees).length + 2 ≤ depth) :
    Grammar.Reads (entering depth) (.many (.rule rule)) trees rest := by
  induction trees with
  | nil =>
    apply Grammar.Reads.done
    intro position
    rw [Grammar.parser_rule]
    cases reads : (entering depth rule ⟨position, rest⟩).result with
    | error error => exact ⟨error, rfl⟩
    | ok parsed =>
      obtain ⟨tree, stands, ahead⟩ := exists_stands_of_entering reads
      exact absurd ahead (stops tree _ stands)
  | cons tree later ih =>
    rw [List.forall_mem_cons] at stand
    rw [Tree.tokensOfList_cons, List.length_append] at deep
    have nested := stand.1.2.nesting_le
    refine .round [tree] ?_ ?_ (ih stand.2 (by omega))
    · exact stand.1.2.readBack depth rule _ stand.1.1 (by omega) (follows _)
    · rw [Tree.tokensOfList_cons, Tree.tokensOfList_nil, List.append_nil]
      exact stand.1.tokens_ne_nil opens

end Run

end Rule

/-! ## The parts of a class -/

/-- The error of the first token that is not as expected, or of the first one that is missing. -/
def firstMisfit : List (TokenKind × List String) → List Token → Option CompileError
  | [], _ => none
  | (kind, texts) :: _, [] => some (.unexpectedEnd (.token kind texts))
  | (kind, texts) :: later, token :: rest =>
    if token.kind = kind ∧ (texts = [] ∨ token.text ∈ texts) then firstMisfit later rest
    else some (.unexpectedToken token.line token.text (.token kind texts))

/-- What a class begins with. -/
def classHeader : List (TokenKind × List String) :=
  [(.keyword, ["class"]), (.identifier, []), (.symbol, ["\x7b"])]

/-- `BehindMembers tokens rest`: the rest is what stands behind the header of a class and its
complete members. -/
inductive BehindMembers : List Token → List Token → Prop
  | intro {declared subroutines : List Tree} {ahead middle rest : List Token} (text : String)
      (l₁ l₂ l₃ : Nat) (variableRun : Rule.classVarDec.LongestRun ahead declared middle)
      (subroutineRun : Rule.subroutineDec.LongestRun middle subroutines rest) :
      BehindMembers (⟨.keyword, "class", l₁⟩ :: ⟨.identifier, text, l₂⟩ ::
        ⟨.symbol, "\x7b", l₃⟩ :: ahead) rest

/-- The error with which tokens are rejected. -/
inductive SyntaxFault (tokens : List Token) : CompileError → Prop
  | header {error : CompileError} (misfit : firstMisfit classHeader tokens = some error) :
      SyntaxFault tokens error
  | noClosing (behind : BehindMembers tokens []) :
      SyntaxFault tokens (.unexpectedEnd (.token .symbol ["\x7d"]))
  | notClosing {token : Token} {rest : List Token} (behind : BehindMembers tokens (token :: rest))
      (other : ¬ Begins .symbol ["\x7d"] (token :: rest)) :
      SyntaxFault tokens (.unexpectedToken token.line token.text (.token .symbol ["\x7d"]))
  | trailing {line : Nat} {token : Token} {rest : List Token}
      (behind : BehindMembers tokens (⟨.symbol, "\x7d", line⟩ :: token :: rest)) :
      SyntaxFault tokens (.unexpectedToken token.line token.text .endOfInput)

theorem exists_cons_of_firstMisfit {kind : TokenKind} {texts : List String}
    {later : List (TokenKind × List String)} {tokens : List Token}
    (fits : firstMisfit ((kind, texts) :: later) tokens = none) :
    ∃ token rest, tokens = token :: rest ∧ token.kind = kind ∧
      (texts = [] ∨ token.text ∈ texts) ∧ firstMisfit later rest = none := by
  cases tokens with
  | nil => cases fits
  | cons token rest =>
    rw [firstMisfit] at fits
    split at fits
    case isTrue here => exact ⟨token, rest, rfl, here.1, here.2, fits⟩
    case isFalse => cases fits

/-- Behind a header that fits stand members, or none, and what is behind them. -/
theorem exists_behindMembers {tokens : List Token} (fits : firstMisfit classHeader tokens = none) :
    ∃ rest, BehindMembers tokens rest := by
  obtain ⟨⟨_, text, l₁⟩, _, rfl, rfl, isClass, fits⟩ := exists_cons_of_firstMisfit fits
  obtain ⟨⟨_, name, l₂⟩, _, rfl, rfl, -, fits⟩ := exists_cons_of_firstMisfit fits
  obtain ⟨⟨_, opening, l₃⟩, ahead, rfl, rfl, opens, -⟩ := exists_cons_of_firstMisfit fits
  obtain rfl : text = "class" := by simpa using isClass
  obtain rfl : opening = "\x7b" := by simpa using opens
  obtain ⟨declared, middle, variableRun⟩ :=
    Rule.exists_longestRun .classVarDec (by decide) (fun _ => trivial) ahead
  obtain ⟨subroutines, rest, subroutineRun⟩ :=
    Rule.exists_longestRun .subroutineDec (by decide) (fun _ => trivial) middle
  exact ⟨rest, .intro name l₁ l₂ l₃ variableRun subroutineRun⟩

/-! ## What the parser makes of them -/

/-- An error of the first tokens is the error of a sequence that begins with them. -/
theorem result_sequence_of_firstMisfit {ν : Type} {enter : ν → Parser}
    {expected : List (TokenKind × List String)} {tokens : List Token} {error : CompileError}
    (misfit : firstMisfit expected tokens = some error) (later : List (Grammar ν))
    (position : Nat) :
    ((Grammar.sequence (expected.map (fun part => .terminal part.1 part.2) ++ later)).parser enter
      ⟨position, tokens⟩).result = .error error := by
  induction expected generalizing tokens position with
  | nil => cases misfit
  | cons part parts ih =>
    rw [List.map_cons, List.cons_append, Grammar.parser_sequence, List.map_cons,
      Parser.result_sequence_cons, Grammar.parser_terminal, Parser.terminal]
    cases tokens with
    | nil =>
      cases misfit
      rfl
    | cons token rest =>
      rw [firstMisfit] at misfit
      by_cases fits : token.kind = part.1 ∧ (part.2 = [] ∨ token.text ∈ part.2)
      · rw [if_pos fits] at misfit
        have others := ih misfit (position + 1)
        rw [Grammar.parser_sequence] at others
        simp only [if_pos fits, Logged.result_pure, bind, Except.bind, Cursor.advance, others,
          Except.map]
      · rw [if_neg fits] at misfit
        cases misfit
        simp only [if_neg fits]
        rfl

/-- A sequence ends as its last part does, behind what the others read. -/
theorem result_sequence_of_reads {ν : Type} {enter : ν → Parser} {front : List (Grammar ν)}
    {trees : List Tree} {rest : List Token}
    (reads : Grammar.Reads enter (.sequence front) trees rest) (last : Grammar ν)
    (position : Nat) :
    ((Grammar.sequence (front ++ [last])).parser enter
      ⟨position, Tree.tokensOfList trees ++ rest⟩).result =
      (last.parser enter ⟨position + (Tree.tokensOfList trees).length, rest⟩).result.map
        (Prod.map (trees ++ ·) id) := by
  have before := reads position
  rw [Grammar.parser_sequence] at before ⊢
  rw [List.map_append, Parser.result_sequence_append, before, List.map_singleton]
  simp only [bind, Except.bind, Parser.result_sequence_singleton]

/-- The production of a class is its header, its members and a closing brace. -/
theorem production_classDec : Rule.classDec.production =
    .sequence (classHeader.map (fun part => .terminal part.1 part.2) ++
      [.many (.rule .classVarDec), .many (.rule .subroutineDec)] ++ [Grammar.symbol ["\x7d"]]) :=
  rfl

/-- The outcome of the parser, read off the production of a class. -/
theorem result_parseTokens (tokens : List Token) :
    (parseTokens tokens).result =
      (Rule.classDec.production.parser (Rule.entering (8 * tokens.length + 7))
        (.start tokens)).result >>= fun parsed =>
          match parsed.2.ahead with
          | [] => .ok (.node .classDec parsed.1)
          | token :: _ => .error (.unexpectedToken token.line token.text .endOfInput) := by
  have deep : Rule.depth (Cursor.start tokens).ahead.length = 8 * tokens.length + 7 + 1 := by
    simp only [Rule.depth, Cursor.start]
    omega
  rw [parseTokens, Logged.result_bind, Rule.parse, deep, Rule.parseWithin, Logged.result_map]
  cases (Rule.classDec.production.parser (Rule.entering (8 * tokens.length + 7))
    (.start tokens)).result with
  | error error => rfl
  | ok parsed =>
    obtain ⟨children, behind⟩ := parsed
    simp only [Except.map, Prod.map, id, bind, Except.bind]
    cases behind.ahead <;> rfl

/-- Tokens are rejected with the error of their header. -/
theorem parseTokens_of_firstMisfit {tokens : List Token} {error : CompileError}
    (misfit : firstMisfit classHeader tokens = some error) :
    (parseTokens tokens).result = .error error := by
  rw [result_parseTokens, production_classDec, List.append_assoc, Cursor.start,
    result_sequence_of_firstMisfit misfit]
  rfl

/-- Behind its members a class is closed and ends, or else it is rejected there. -/
theorem BehindMembers.exists_result {tokens rest : List Token}
    (behind : BehindMembers tokens rest) : ∃ position trees, (parseTokens tokens).result =
      (Parser.terminal .symbol ["\x7d"] ⟨position, rest⟩).result >>= fun parsed =>
        match parsed.2.ahead with
        | [] => .ok (.node .classDec (trees ++ parsed.1))
        | token :: _ => .error (.unexpectedToken token.line token.text .endOfInput) := by
  cases behind with
  | @intro declared subroutines ahead middle rest text l₁ l₂ l₃ variableRun subroutineRun =>
    have variablesStop := variableRun.stops (by decide)
    have subroutinesStop := subroutineRun.stops (by decide)
    obtain ⟨variablesStand, rfl, -⟩ := variableRun
    obtain ⟨subroutinesStand, rfl, -⟩ := subroutineRun
    let front := [Tree.keyword "class" l₁, .identifier text l₂, .symbol "\x7b" l₃] ++
      (declared ++ (subroutines ++ []))
    have tokens_eq : (⟨.keyword, "class", l₁⟩ :: ⟨.identifier, text, l₂⟩ ::
        ⟨.symbol, "\x7b", l₃⟩ :: (Tree.tokensOfList declared ++
          (Tree.tokensOfList subroutines ++ rest)) : List Token) =
        Tree.tokensOfList front ++ rest := by
      simp [front]
    rw [tokens_eq, result_parseTokens, production_classDec]
    generalize enough : 8 * (Tree.tokensOfList front ++ rest).length + 7 = depth
    simp only [front, List.length_append, Tree.tokensOfList_append] at enough
    have variablesRead : Grammar.Reads (Rule.entering depth) (.many (.rule .classVarDec)) declared
        (Tree.tokensOfList subroutines ++ rest) :=
      Rule.reads_run (by decide) (fun _ => trivial) variablesStand variablesStop (by omega)
    have subroutinesRead : Grammar.Reads (Rule.entering depth) (.many (.rule .subroutineDec))
        subroutines rest :=
      Rule.reads_run (by decide) (fun _ => trivial) subroutinesStand subroutinesStop (by omega)
    have reads : Grammar.Reads (Rule.entering depth) (.sequence (classHeader.map
        (fun part => .terminal part.1 part.2) ++
          [.many (.rule .classVarDec), .many (.rule .subroutineDec)])) front rest := by
      refine .cons (.oneKeyword l₁) (.cons (.identifier text l₂) (.cons (.oneSymbol l₃)
        (.append declared ?_ (.append subroutines ?_ .nil))))
      · rw [List.append_nil]
        exact variablesRead
      · exact subroutinesRead
    refine ⟨0 + (Tree.tokensOfList front).length, front, ?_⟩
    rw [Cursor.start, result_sequence_of_reads reads, Grammar.symbol, Grammar.parser_terminal]
    cases (Parser.terminal .symbol ["\x7d"]
        ⟨0 + (Tree.tokensOfList front).length, rest⟩).result with
    | error error => rfl
    | ok parsed => rfl

/-! ## Rejected tokens -/

section Rejected

variable {tokens : List Token} {error : CompileError}

theorem result_terminal_of_not_begins {texts : List String} {kind : TokenKind} {token : Token}
    {rest : List Token} (restricted : texts ≠ []) (other : ¬ Begins kind texts (token :: rest))
    (position : Nat) : (Parser.terminal kind texts ⟨position, token :: rest⟩).result =
      .error (.unexpectedToken token.line token.text (.token kind texts)) := by
  obtain ⟨found, text, line⟩ := token
  have misfit : ¬ (found = kind ∧ (texts = [] ∨ text ∈ texts)) := by
    rintro ⟨rfl, none | among⟩
    · exact restricted none
    · exact other (.head line rest among)
  simp only [Parser.terminal, if_neg misfit, Logged.result_fail]

/-- A fault is the error that the parser fails with. -/
theorem SyntaxFault.result_eq (fault : SyntaxFault tokens error) :
    (parseTokens tokens).result = .error error := by
  cases fault with
  | header misfit => exact parseTokens_of_firstMisfit misfit
  | noClosing behind =>
    obtain ⟨position, trees, ends⟩ := behind.exists_result
    rw [ends]
    rfl
  | notClosing behind other =>
    obtain ⟨position, trees, ends⟩ := behind.exists_result
    rw [ends, result_terminal_of_not_begins (List.cons_ne_nil _ _) other]
    rfl
  | trailing behind =>
    obtain ⟨position, trees, ends⟩ := behind.exists_result
    rw [ends]
    rfl

/-- Tokens that the parser rejects have a fault. -/
theorem exists_syntaxFault (rejected : (parseTokens tokens).result = .error error) :
    ∃ error, SyntaxFault tokens error := by
  cases misfit : firstMisfit classHeader tokens with
  | some error => exact ⟨error, .header misfit⟩
  | none =>
    obtain ⟨rest, behind⟩ := exists_behindMembers misfit
    cases rest with
    | nil => exact ⟨_, .noClosing behind⟩
    | cons token rest =>
      by_cases closes : Begins .symbol ["\x7d"] (token :: rest)
      · obtain ⟨text, line, later, eq, among⟩ := closes
        obtain rfl := List.mem_singleton.mp among
        cases eq
        cases rest with
        | nil =>
          -- nothing stands behind the class, so that it is accepted
          obtain ⟨position, trees, ends⟩ := behind.exists_result
          rw [ends] at rejected
          cases rejected
        | cons token rest => exact ⟨_, .trailing behind⟩
      · exact ⟨_, .notClosing behind closes⟩

theorem firstMisfit_ne_malformed {expected : List (TokenKind × List String)} {construct : Construct}
    {flaw : Flaw} : firstMisfit expected tokens ≠ some (.malformed construct flaw) := by
  induction expected generalizing tokens with
  | nil => nofun
  | cons part later ih =>
    cases tokens with
    | nil => nofun
    | cons token rest =>
      rw [firstMisfit]
      split
      · exact ih
      · nofun

/-- A fault is a token, or the end of the tokens, that is not as expected. -/
theorem SyntaxFault.not_malformed {construct : Construct} {flaw : Flaw} :
    ¬ SyntaxFault tokens (.malformed construct flaw) := by
  rintro ⟨misfit⟩
  exact firstMisfit_ne_malformed misfit

/-- Behind complete members stands what does not begin one. -/
theorem behindMembers_of_stops {declared subroutines : List Tree} {rest : List Token}
    (text : String) (l₁ l₂ l₃ : Nat) (fields : ∀ tree ∈ declared, Rule.classVarDec.Stands tree)
    (members : ∀ tree ∈ subroutines, Rule.subroutineDec.Stands tree)
    (stops : ∀ rule ∈ [Rule.classVarDec, .subroutineDec], ∀ tree behind, rule.Stands tree →
      rest ≠ tree.tokens ++ behind) :
    BehindMembers (⟨.keyword, "class", l₁⟩ :: ⟨.identifier, text, l₂⟩ :: ⟨.symbol, "\x7b", l₃⟩ ::
      (Tree.tokensOfList declared ++ (Tree.tokensOfList subroutines ++ rest))) rest := by
  refine .intro text l₁ l₂ l₃ (Rule.longestRun_of_stops (fun _ => trivial) fields ?_)
    (Rule.longestRun_of_stops (fun _ => trivial) members (stops .subroutineDec (by simp)))
  intro tree behind stands
  cases subroutines with
  | nil => exact stops .classVarDec (by simp) tree behind stands
  | cons first later =>
    -- a subroutine begins with other keywords than a variable
    intro eq
    have own := (members first List.mem_cons_self)
    have begins := own.2.begins own.1 (by decide) (Tree.tokensOfList later ++ rest)
    rw [Tree.tokensOfList_cons, List.append_assoc] at eq
    rw [eq] at begins
    exact begins.not_begins (.inr (by decide)) (stands.2.begins stands.1 (by decide) behind)

end Rejected

/-- The parser fails exactly with the fault of the tokens, and never with a malformed construct. In
front of it stand complete members only: if the first token of a member is reached and the member
is not complete, that token is reported, wherever within the member the error is. Tokens behind a
class that is accepted are reported at the first of them. -/
theorem parseTokens_eq_error_iff (tokens : List Token) :
    (∀ error, (parseTokens tokens).result = .error error ↔ SyntaxFault tokens error) ∧
    (∀ construct flaw, (parseTokens tokens).result ≠ .error (.malformed construct flaw)) ∧
    (∀ text l₁ l₂ l₃ declared subroutines token later,
      (∀ tree ∈ declared, Rule.classVarDec.Stands tree) →
      (∀ tree ∈ subroutines, Rule.subroutineDec.Stands tree) →
      (∀ rule ∈ [Rule.classVarDec, .subroutineDec], ∀ tree behind, rule.Stands tree →
        token :: later ≠ tree.tokens ++ behind) →
      ¬ Begins .symbol ["\x7d"] (token :: later) →
      tokens = ⟨.keyword, "class", l₁⟩ :: ⟨.identifier, text, l₂⟩ :: ⟨.symbol, "\x7b", l₃⟩ ::
        (Tree.tokensOfList declared ++ (Tree.tokensOfList subroutines ++ token :: later)) →
      (parseTokens tokens).result =
        .error (.unexpectedToken token.line token.text (.token .symbol ["\x7d"]))) ∧
    (∀ tree token later, (parseTokens tokens).result = .ok tree →
      (parseTokens (tokens ++ token :: later)).result =
        .error (.unexpectedToken token.line token.text .endOfInput)) := by
  have complete (error : CompileError) (rejected : (parseTokens tokens).result = .error error) :
      SyntaxFault tokens error := by
    obtain ⟨other, fault⟩ := exists_syntaxFault rejected
    have same := fault.result_eq
    rw [rejected, Except.error.injEq] at same
    rwa [same]
  refine ⟨fun error => ⟨complete error, SyntaxFault.result_eq⟩, ?_, ?_, ?_⟩
  · intro construct flaw rejected
    exact SyntaxFault.not_malformed (complete _ rejected)
  · intro text l₁ l₂ l₃ declared subroutines token later fields members stops other eq
    have behind := behindMembers_of_stops text l₁ l₂ l₃ fields members stops
    rw [eq]
    exact (SyntaxFault.notClosing behind other).result_eq
  · intro tree token later accepted
    obtain ⟨isClass, derives, rfl⟩ := derivation_of_parseTokens accepted
    have read : (Rule.classDec.parse ⟨0, tree.tokens ++ token :: later⟩).result =
        .ok (tree, ⟨0 + tree.tokens.length, token :: later⟩) := derives.read isClass trivial 0
    rw [parseTokens, Logged.result_bind, Cursor.start, read]
    rfl

/-- In `class A { field int; }` a name is missing. What is reported is `field`. -/
theorem parseTokens_eq_error_iff_noName :
    let member : List Token := [⟨.keyword, "field", 2⟩, ⟨.keyword, "int", 2⟩, ⟨.symbol, ";", 2⟩,
      ⟨.symbol, "\x7d", 3⟩]
    (∀ rule ∈ [Rule.classVarDec, .subroutineDec], ∀ tree behind, rule.Stands tree →
        member ≠ tree.tokens ++ behind) ∧
      (parseTokens (⟨.keyword, "class", 1⟩ :: ⟨.identifier, "A", 1⟩ :: ⟨.symbol, "\x7b", 1⟩ ::
        member)).result = .error (.unexpectedToken 2 "field" (.token .symbol ["\x7d"])) := by
  intro member
  have noVariable (tree : Tree) (behind : List Token) (stands : Rule.classVarDec.Stands tree) :
      member ≠ tree.tokens ++ behind := by
    obtain ⟨isRule, derives⟩ := stands
    cases derives <;> cases isRule
    case classVarDec type names kind text l₁ l₂ l₃ isKind isType further =>
      cases isType <;> simp [member]
  have noSubroutine (tree : Tree) (behind : List Token) (stands : Rule.subroutineDec.Stands tree) :
      member ≠ tree.tokens ++ behind := by
    intro eq
    have field : Begins .keyword ["field"] member := .only _ _
    rw [eq] at field
    exact field.not_begins (.inr (by decide)) (stands.2.begins stands.1 (by decide) behind)
  have stops : ∀ rule ∈ [Rule.classVarDec, .subroutineDec], ∀ tree behind, rule.Stands tree →
      member ≠ tree.tokens ++ behind := by
    simp only [List.forall_mem_cons, List.not_mem_nil, false_imp_iff, implies_true, and_true]
    exact ⟨noVariable, noSubroutine⟩
  have other : ¬ Begins .symbol ["\x7d"] member := Begins.not_begins (.only _ _) (.inl (by decide))
  exact ⟨stops, (parseTokens_eq_error_iff _).2.2.1 "A" 1 1 1 [] [] _ _ nofun nofun stops other rfl⟩

end JackCompiler
