import JackCompiler.Syntax.Parse
import JackCompiler.Proofs.Syntax.Combinator
import JackCompiler.Proofs.Syntax.Derivation

/-!
# What grammars read and refuse

`Grammar.Reads` says that a grammar reads given trees from their own tokens, with given tokens
behind them, and `Grammar.Refuses` that it fails. Both are built up along the grammar. The choice
between alternatives and the end of a repetition or of an option are decided by the next tokens
alone, and `Grammar.rejects` computes that decision.
-/

set_option autoImplicit false

namespace JackCompiler

/-- Whether the next token is of a class and has one of some texts. -/
def Begins (kind : TokenKind) (texts : List String) (ahead : List Token) : Prop :=
  ∃ text line later, ahead = ⟨kind, text, line⟩ :: later ∧ text ∈ texts

namespace Begins

variable {kind kind' : TokenKind} {texts texts' : List String} {ahead : List Token}

theorem head {text : String} (line : Nat) (later : List Token) (among : text ∈ texts) :
    Begins kind texts (⟨kind, text, line⟩ :: later) :=
  ⟨text, line, later, rfl, among⟩

theorem only {text : String} (line : Nat) (later : List Token) :
    Begins kind [text] (⟨kind, text, line⟩ :: later) :=
  head line later (List.mem_singleton.mpr rfl)

theorem mono (h : Begins kind texts ahead) (more : ∀ text ∈ texts, text ∈ texts') :
    Begins kind texts' ahead := by
  obtain ⟨text, line, later, rfl, among⟩ := h
  exact head line later (more text among)

theorem ne_nil (h : Begins kind texts ahead) : ahead ≠ [] := by
  obtain ⟨text, line, later, rfl, -⟩ := h
  exact List.cons_ne_nil _ _

/-- What begins with one token does not begin with another one. -/
theorem not_begins (h : Begins kind texts ahead)
    (apart : kind ≠ kind' ∨ ∀ text ∈ texts, text ∉ texts') : ¬ Begins kind' texts' ahead := by
  rintro ⟨text', line', later', eq', among'⟩
  obtain ⟨text, line, later, eq, among⟩ := h
  rw [eq] at eq'
  simp only [List.cons.injEq, Token.mk.injEq] at eq'
  obtain ⟨⟨sameKind, sameText, -⟩, -⟩ := eq'
  rcases apart with kinds | texts
  · exact kinds sameKind
  · exact texts text among (sameText ▸ among')

end Begins

namespace Grammar

variable {ν : Type} (enter : ν → Parser)

/-- Whether a grammar reads exactly these trees from their tokens, whatever the position, when the
tokens `rest` follow. -/
def Reads (grammar : Grammar ν) (trees : List Tree) (rest : List Token) : Prop :=
  ∀ position, (grammar.parser enter ⟨position, Tree.tokensOfList trees ++ rest⟩).result =
    .ok (trees, ⟨position + (Tree.tokensOfList trees).length, rest⟩)

/-- Whether a grammar fails on these tokens, whatever the position. -/
def Refuses (grammar : Grammar ν) (ahead : List Token) : Prop :=
  ∀ position, ∃ error, (grammar.parser enter ⟨position, ahead⟩).result = .error error

variable {enter} {part : Grammar ν} {later : List (Grammar ν)} {tree : Tree}
  {trees second : List Tree} {rest : List Token}

namespace Reads

theorem terminal {kind : TokenKind} {texts : List String} (token : Token)
    (kinds : token.kind = kind) (among : texts = [] ∨ token.text ∈ texts) :
    Reads enter (.terminal kind texts) [.leaf token] rest := by
  intro position
  simp [parser_terminal, Parser.terminal, Cursor.advance, kinds, among]

theorem keyword {texts : List String} {text : String} (line : Nat) (among : text ∈ texts) :
    Reads enter (.keyword texts) [.keyword text line] rest :=
  terminal _ rfl (.inr among)

theorem symbol {texts : List String} {text : String} (line : Nat) (among : text ∈ texts) :
    Reads enter (.symbol texts) [.symbol text line] rest :=
  terminal _ rfl (.inr among)

theorem oneKeyword {text : String} (line : Nat) :
    Reads enter (.keyword [text]) [.keyword text line] rest :=
  keyword line (List.mem_singleton.mpr rfl)

theorem oneSymbol {text : String} (line : Nat) :
    Reads enter (.symbol [text]) [.symbol text line] rest :=
  symbol line (List.mem_singleton.mpr rfl)

theorem identifier (text : String) (line : Nat) :
    Reads enter .identifier [.identifier text line] rest :=
  terminal _ rfl (.inl rfl)

theorem nil : Reads enter (.sequence []) [] rest := by
  intro position
  simp [parser_sequence, Parser.sequence]

/-- A sequence reads what its parts read, each with the tokens of the others behind it. -/
theorem append (first : List Tree)
    (head : Reads enter part first (Tree.tokensOfList second ++ rest))
    (tail : Reads enter (.sequence later) second rest) :
    Reads enter (.sequence (part :: later)) (first ++ second) rest := by
  intro position
  have one := head position
  have two := tail (position + (Tree.tokensOfList first).length)
  rw [parser_sequence] at two ⊢
  rw [List.map_cons, Parser.result_sequence_cons, Tree.tokensOfList_append, List.append_assoc, one]
  simp only [bind, Except.bind, two, Except.map, Prod.map, id, List.length_append, Nat.add_assoc]

theorem cons (head : Reads enter part [tree] (Tree.tokensOfList trees ++ rest))
    (tail : Reads enter (.sequence later) trees rest) :
    Reads enter (.sequence (part :: later)) (tree :: trees) rest :=
  append [tree] head tail

theorem here (head : Reads enter part trees rest) :
    Reads enter (.alternatives (part :: later)) trees rest := by
  intro position
  rw [parser_alternatives, List.map_cons, Parser.alternatives]
  rw [Parser.result_firstOf_cons, head position]

/-- A later alternative reads what it reads if the first one refuses. -/
theorem there (refuses : Refuses enter part (Tree.tokensOfList trees ++ rest))
    (others : Reads enter (.alternatives later) trees rest) :
    Reads enter (.alternatives (part :: later)) trees rest := by
  intro position
  obtain ⟨error, failed⟩ := refuses position
  have found := others position
  rw [parser_alternatives, Parser.alternatives] at found ⊢
  rw [List.map_cons]
  rw [Parser.result_firstOf_cons, failed]
  exact Parser.result_firstOf_of_ok _ _ _ _ _ _ _ found

theorem present (inside : Reads enter part trees rest) :
    Reads enter (.maybe part) trees rest := by
  intro position
  rw [parser_maybe, Parser.result_maybe, inside position]

theorem absent (refuses : Refuses enter part rest) : Reads enter (.maybe part) [] rest := by
  intro position
  obtain ⟨error, failed⟩ := refuses position
  rw [parser_maybe, Parser.result_maybe]
  simp [failed]

theorem done (refuses : Refuses enter part rest) : Reads enter (.many part) [] rest := by
  intro position
  obtain ⟨error, failed⟩ := refuses position
  rw [parser_many, Parser.result_many]
  simp [failed]

/-- A repetition reads one round and then the others, where a round has at least one token. -/
theorem round (first : List Tree)
    (head : Reads enter part first (Tree.tokensOfList second ++ rest))
    (some : Tree.tokensOfList first ≠ []) (tail : Reads enter (.many part) second rest) :
    Reads enter (.many part) (first ++ second) rest := by
  intro position
  have one := head position
  have two := tail (position + (Tree.tokensOfList first).length)
  have longer : 0 < (Tree.tokensOfList first).length := List.length_pos_iff.mpr some
  rw [parser_many] at two ⊢
  rw [Parser.result_many, Tree.tokensOfList_append, List.append_assoc, one]
  have progress : (Tree.tokensOfList second ++ rest).length <
      (Tree.tokensOfList first ++ (Tree.tokensOfList second ++ rest)).length := by
    have parts := @List.length_append _ (Tree.tokensOfList first)
      (Tree.tokensOfList second ++ rest)
    omega
  dsimp only
  rw [if_pos progress, two]
  simp only [Except.map, Prod.map, id, List.length_append, Nat.add_assoc]

theorem typeName (isType : tree.IsType) : Reads enter .typeName [tree] rest := by
  cases isType with
  | primitive text line among => exact here (keyword line among)
  | «class» text line =>
    refine there ?_ (here (identifier text line))
    intro position
    exact ⟨_, by simp [Grammar.keyword, parser_terminal, Parser.terminal]; rfl⟩

end Reads

mutual

/-- Whether the next tokens alone show that a grammar fails. What the references fail on is said by
`entry`. -/
def rejects (entry : ν → List Token → Bool) : Grammar ν → List Token → Bool
  | .terminal _ _, [] => true
  | .terminal kind texts, token :: _ =>
    !(token.kind = kind && (texts.isEmpty || texts.contains token.text))
  | .sequence parts, ahead => rejectsInTurn entry parts ahead
  | .alternatives candidates, ahead => rejectsEach entry candidates ahead
  | .many _, _ => false
  | .maybe _, _ => false
  | .rule name, ahead => entry name ahead

/-- Whether a sequence fails with its first part, or with a later one behind terminals that fit. -/
def rejectsInTurn (entry : ν → List Token → Bool) : List (Grammar ν) → List Token → Bool
  | [], _ => false
  | part :: later, ahead =>
    rejects entry part ahead ||
      match part, ahead with
      | .terminal _ _, _ :: rest => rejectsInTurn entry later rest
      | _, _ => false

/-- Whether all of some alternatives fail. -/
def rejectsEach (entry : ν → List Token → Bool) : List (Grammar ν) → List Token → Bool
  | [], _ => true
  | part :: later, ahead => rejects entry part ahead && rejectsEach entry later ahead

end

/-- A sequence that starts with a terminal rejects tokens that begin otherwise. -/
theorem rejects_of_not_begins {entry : ν → List Token → Bool} {kind : TokenKind}
    {texts : List String} {ahead : List Token} (restricted : texts ≠ [])
    (other : ¬ Begins kind texts ahead) :
    (sequence (terminal kind texts :: later)).rejects entry ahead = true := by
  unfold rejects rejectsInTurn
  rw [Bool.or_eq_true]
  left
  cases ahead with
  | nil => rfl
  | cons token ahead =>
    obtain ⟨found, text, line⟩ := token
    by_cases kinds : found = kind
    · subst kinds
      have misfit : text ∉ texts := fun among => other ⟨text, line, ahead, rfl, among⟩
      simp [rejects, restricted, misfit]
    · simp [rejects, kinds]

/-- A sequence that starts with an identifier and a terminal rejects an identifier with something
else behind it. -/
theorem rejects_behind_identifier {entry : ν → List Token → Bool} {kind : TokenKind}
    {texts : List String} {ahead : List Token} (text : String) (line : Nat)
    (restricted : texts ≠ []) (other : ¬ Begins kind texts ahead) :
    (sequence (identifier :: terminal kind texts :: later)).rejects entry
      (⟨.identifier, text, line⟩ :: ahead) = true := by
  unfold rejects rejectsInTurn
  rw [Bool.or_eq_true]
  right
  exact rejects_of_not_begins restricted other

/-- A grammar fails on what it rejects. -/
theorem refuses_of_rejects {entry : ν → List Token → Bool}
    (sound : ∀ name ahead, entry name ahead = true → Refuses enter (.rule name) ahead)
    (grammar : Grammar ν) (ahead : List Token) (h : grammar.rejects entry ahead = true) :
    Refuses enter grammar ahead := by
  induction grammar generalizing ahead with
  | terminal kind texts =>
    intro position
    cases ahead with
    | nil => exact ⟨_, rfl⟩
    | cons token later =>
      have misfit : ¬ (token.kind = kind ∧ (texts = [] ∨ token.text ∈ texts)) := by
        rintro ⟨kinds, among⟩
        simp only [rejects, kinds] at h
        rcases among with rfl | among <;> simp_all
      refine ⟨.unexpectedToken token.line token.text (.token kind texts), ?_⟩
      rw [parser_terminal, Parser.terminal]
      dsimp only
      rw [if_neg misfit, Logged.result_fail]
  | sequence parts ih =>
    rw [rejects] at h
    intro position
    rw [parser_sequence]
    induction parts generalizing ahead position with
    | nil => simp [rejectsInTurn] at h
    | cons part later ihLater =>
      rw [List.map_cons, Parser.result_sequence_cons]
      cases hp : (part.parser enter ⟨position, ahead⟩).result with
      | error error => exact ⟨error, rfl⟩
      | ok parsed =>
        unfold rejectsInTurn at h
        rw [Bool.or_eq_true] at h
        rcases h with atOnce | behind
        · obtain ⟨error, failed⟩ := ih part List.mem_cons_self ahead atOnce position
          simp [hp] at failed
        · split at behind
          · rename_i kind texts token rest
            have next := ihLater (fun p among => ih p (List.mem_cons_of_mem _ among)) rest behind
              (position + 1)
            simp only [parser_terminal, Parser.terminal] at hp
            split at hp
            · simp only [Logged.result_pure, Except.ok.injEq] at hp
              obtain ⟨error, failed⟩ := next
              subst hp
              exact ⟨error, by simp [bind, Except.bind, Cursor.advance, failed, Except.map]⟩
            · simp at hp
          · simp at behind
  | alternatives candidates ih =>
    rw [rejects] at h
    intro position
    rw [parser_alternatives, Parser.alternatives]
    generalize 0 = number, CompileError.malformed .alternatives .noCandidates = failure
    induction candidates generalizing number failure with
    | nil => exact ⟨failure, rfl⟩
    | cons part later ihLater =>
      rw [rejectsEach, Bool.and_eq_true] at h
      obtain ⟨error, failed⟩ := ih part List.mem_cons_self ahead h.1 position
      rw [List.map_cons, Parser.result_firstOf_cons, failed]
      exact ihLater (fun p among => ih p (List.mem_cons_of_mem _ among)) h.2 _ _
  | many part ih => simp [rejects] at h
  | maybe part ih => simp [rejects] at h
  | rule name => exact sound name ahead h

end Grammar

end JackCompiler
