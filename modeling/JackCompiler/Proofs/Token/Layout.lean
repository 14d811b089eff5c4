import JackCompiler.Proofs.Token.Spacing

/-!
# Tokens laid out on lines

`layout` writes tokens down: each on its line, those of one line with a blank between them, and the
lines with newlines between them. Cutting that text gives the tokens back (`tokenize_layout`), even
if strings hold comment marks, symbols, blanks or carriage returns, and if the characters of a
comment mark follow each other as symbols.

No step of the way from the text to the tokens does any harm: nothing is taken for a comment, since
a blank or a newline follows each symbol (`stripFrom_intercalate`); the lines are the ones that were
written, since no token holds a newline or ends with a carriage return (`lines_intercalate`); and
each of them is a proper line of its tokens (`TokenLine.proper_ofTokens`).
-/

set_option autoImplicit false

namespace JackCompiler

/-- Tokens with a blank between them. -/
def blankSeparated (tokens : List Token) : List Char :=
  [' '].intercalate (tokens.map fun token => token.text.toList)

/-- The tokens that stand on a line. -/
def tokensOn (tokens : List Token) (line : Nat) : List Token := tokens.filter (·.line = line)

/-- The line of the last token. -/
def lastLine (tokens : List Token) : Nat := (tokens.getLast?.map (·.line)).getD 0

/-- Tokens written down: each on its line, with a blank between those of one line. Lines without
tokens are empty. -/
def layout (tokens : List Token) : String :=
  String.ofList (['\n'].intercalate
    ((List.range' 1 (lastLine tokens)).map fun line => blankSeparated (tokensOn tokens line)))

/-! ## No text of a token holds a comment or a line end -/

theorem not_opensComment_cons {c : Char} {rest : List Char}
    (apart : c = '/' → ∀ d ∈ rest.head?, d ≠ '/' ∧ d ≠ '*') : ¬ OpensComment (c :: rest) := by
  rintro (⟨behind, eq⟩ | ⟨behind, eq⟩)
  · obtain ⟨rfl, rfl⟩ := List.cons.inj eq
    exact (apart rfl '/' rfl).1 rfl
  · obtain ⟨rfl, rfl⟩ := List.cons.inj eq
    exact (apart rfl '*' rfl).2 rfl

/-- Nothing is taken out of a word. -/
theorem stripFrom_word_append {word rest : List Char}
    (areWordChars : ∀ c ∈ word, isWordChar c = true) :
    stripFrom .code (word ++ rest) = word ++ stripFrom .code rest := by
  induction word with
  | nil => rfl
  | cons c word ih =>
    rw [List.forall_mem_cons] at areWordChars
    obtain ⟨-, noSymbol, noQuote⟩ := isWordChar_iff.mp areWordChars.1
    have noComment : ¬ OpensComment (c :: (word ++ rest)) := by
      refine not_opensComment_cons ?_
      rintro rfl
      cases noSymbol
    rw [List.cons_append, stripFrom_code_cons noComment, if_neg noQuote, ih areWordChars.2]
    rfl

/-- Nothing is taken out of a string, which its second quote ends. -/
theorem stripFrom_value_append {value rest : List Char}
    (plain : ∀ c ∈ value, c ≠ '"' ∧ c ≠ '\n') :
    stripFrom .string (value ++ '"' :: rest) = value ++ '"' :: stripFrom .code rest := by
  induction value with
  | nil => rfl
  | cons c value ih =>
    rw [List.forall_mem_cons] at plain
    rw [List.cons_append, stripFrom, if_neg (by simpa using plain.1), ih plain.2]
    rfl

namespace Token.WellFormed

variable {token : Token}

/-- Nothing is taken out of the text of a token in front of a character that makes no comment mark
with it. -/
theorem stripFrom_append {rest : List Char} (wellFormed : token.WellFormed)
    (apart : ∀ c ∈ rest.head?, c ≠ '/' ∧ c ≠ '*') :
    stripFrom .code (token.text.toList ++ rest) = token.text.toList ++ stripFrom .code rest := by
  unfold Token.WellFormed at wellFormed
  generalize token.kind = kind at *
  generalize token.text.toList = lexeme at *
  by_cases noSymbol : kind = .symbol
  · subst noSymbol
    cases wellFormed with
    | symbol c among =>
      rw [List.singleton_append, stripFrom_code_cons (not_opensComment_cons fun _ => apart),
        if_neg (symbol_chars among).2.2.1]
      rfl
  by_cases noString : kind = .stringConstant
  · subst noString
    cases wellFormed with
    | @stringConstant value plain =>
      have noComment : ¬ OpensComment ('"' :: (value ++ '"' :: rest)) :=
        not_opensComment_cons (by simp)
      rw [List.cons_append, List.append_assoc, List.singleton_append,
        stripFrom_code_cons noComment, if_pos rfl, stripFrom_value_append plain]
      simp
  · exact stripFrom_word_append (wellFormed.word noSymbol noString).2

/-- The text of a token is on one line and does not end with a carriage return. -/
theorem oneLine (wellFormed : token.WellFormed) :
    '\n' ∉ token.text.toList ∧ token.text.toList.getLast? ≠ some '\r' := by
  unfold Token.WellFormed at wellFormed
  generalize token.kind = kind at *
  generalize token.text.toList = lexeme at *
  by_cases noSymbol : kind = .symbol
  · subst noSymbol
    cases wellFormed with
    | symbol c among =>
      have noBlank := (symbol_chars among).2.2.2
      refine ⟨?_, ?_⟩
      · rw [List.mem_singleton]
        rintro rfl
        cases noBlank
      · rintro last
        cases last
        cases noBlank
  by_cases noString : kind = .stringConstant
  · subst noString
    cases wellFormed with
    | @stringConstant value plain =>
      refine ⟨?_, ?_⟩
      · simpa using fun newline => (plain '\n' newline).2 rfl
      · rw [← List.cons_append, List.getLast?_concat]
        simp
  · have areWordChars := (wellFormed.word noSymbol noString).2
    refine ⟨?_, ?_⟩
    · intro newline
      have wordChar := areWordChars _ newline
      cases wordChar
    · intro last
      have wordChar := areWordChars _ (List.mem_of_getLast? last)
      cases wordChar

end Token.WellFormed

/-! ## Lines -/

/-- A line is read up to its newline, unless a carriage return in front of that belongs to the line
end. -/
theorem lines_append_newline {line rest : List Char} (oneLine : '\n' ∉ line)
    (noReturn : line.getLast? ≠ some '\r') : lines (line ++ '\n' :: rest) = line :: lines rest := by
  induction line with
  | nil => rw [List.nil_append, lines]
  | cons c line ih =>
    rw [List.mem_cons, not_or] at oneLine
    have here : c ≠ '\n' := fun newline => oneLine.1 newline.symm
    cases line with
    | nil =>
      have noEnd : c ≠ '\r' := by simpa using noReturn
      rw [List.singleton_append, lines.eq_4 c _ here fun _ isReturn _ => noEnd isReturn, lines]
    | cons d line =>
      rw [List.getLast?_cons_cons] at noReturn
      have next : d ≠ '\n' := fun newline => oneLine.2 (newline ▸ List.mem_cons_self)
      rw [List.cons_append, List.cons_append,
        lines.eq_4 c _ here fun _ _ eq => next (List.cons.inj eq).1, ← List.cons_append,
        ih oneLine.2 noReturn]

/-- The last line needs no newline if it is not empty. -/
theorem lines_of_ne_nil {line : List Char} (oneLine : '\n' ∉ line) (nonempty : line ≠ []) :
    lines line = [line] := by
  obtain ⟨front, ending, rest, rfl, -, eq, kinds⟩ := exists_first_line nonempty
  rcases kinds with rfl | rfl | ⟨rfl, -, rfl⟩
  · simp at oneLine
  · simp at oneLine
  · rw [eq, List.append_nil, List.append_nil, lines]

/-- The lines of texts with newlines between them are these texts. -/
theorem lines_intercalate {texts : List (List Char)}
    (areLines : ∀ line ∈ texts, '\n' ∉ line ∧ line.getLast? ≠ some '\r')
    (ends : ∀ line ∈ texts.getLast?, line ≠ []) : lines (['\n'].intercalate texts) = texts := by
  induction texts with
  | nil => rw [List.intercalate_nil, lines]
  | cons line later ih =>
    rw [List.forall_mem_cons] at areLines
    cases later with
    | nil =>
      rw [List.intercalate_singleton]
      exact lines_of_ne_nil areLines.1.1 (ends line rfl)
    | cons next later =>
      rw [List.getLast?_cons_cons] at ends
      rw [List.intercalate_cons_cons, List.append_assoc, List.singleton_append,
        lines_append_newline areLines.1.1 areLines.1.2, ih areLines.2 ends]

/-! ## Tokens of one line -/

section BlankSeparated

variable {token next : Token} {tokens later : List Token}

theorem blankSeparated_cons_cons :
    blankSeparated (token :: next :: later) =
      token.text.toList ++ ' ' :: blankSeparated (next :: later) := by
  simp [blankSeparated]

theorem blankSeparated_singleton : blankSeparated [token] = token.text.toList :=
  List.intercalate_singleton

/-- Nothing is taken out of a line of tokens. -/
theorem stripFrom_blankSeparated {rest : List Char}
    (wellFormed : ∀ token ∈ tokens, token.WellFormed) (ends : AtNewline rest) :
    stripFrom .code (blankSeparated tokens ++ rest) =
      blankSeparated tokens ++ stripFrom .code rest := by
  induction tokens with
  | nil => rfl
  | cons token later ih =>
    rw [List.forall_mem_cons] at wellFormed
    cases later with
    | nil =>
      rw [blankSeparated_singleton]
      refine wellFormed.1.stripFrom_append ?_
      rcases ends with rfl | head
      · simp
      · rw [head]
        simp
    | cons next later =>
      rw [blankSeparated_cons_cons, List.append_assoc, List.cons_append,
        wellFormed.1.stripFrom_append (by simp), List.append_assoc, List.cons_append,
        ← ih wellFormed.2]
      rfl

theorem blankSeparated_oneLine (wellFormed : ∀ token ∈ tokens, token.WellFormed) :
    '\n' ∉ blankSeparated tokens ∧ (blankSeparated tokens).getLast? ≠ some '\r' := by
  induction tokens with
  | nil => exact ⟨List.not_mem_nil, by simp [blankSeparated]⟩
  | cons token later ih =>
    rw [List.forall_mem_cons] at wellFormed
    cases later with
    | nil =>
      rw [blankSeparated_singleton]
      exact wellFormed.1.oneLine
    | cons next later =>
      obtain ⟨noNewline, noReturn⟩ := ih wellFormed.2
      rw [blankSeparated_cons_cons]
      refine ⟨?_, ?_⟩
      · simp [wellFormed.1.oneLine.1, noNewline]
      · rw [List.getLast?_append, List.getLast?_cons, Option.some_or]
        cases last : (blankSeparated (next :: later)).getLast? with
        | none => simp
        | some c =>
          rw [last] at noReturn
          exact noReturn

theorem blankSeparated_ne_nil (wellFormed : ∀ token ∈ tokens, token.WellFormed)
    (nonempty : tokens ≠ []) : blankSeparated tokens ≠ [] := by
  obtain ⟨token, later, rfl⟩ := List.exists_cons_of_ne_nil nonempty
  cases later with
  | nil =>
    rw [blankSeparated_singleton]
    exact (wellFormed token List.mem_cons_self).ne_nil
  | cons next later =>
    rw [blankSeparated_cons_cons]
    simp

/-- Nothing is taken out of lines of tokens. -/
theorem stripFrom_intercalate {blocks : List (List Token)}
    (wellFormed : ∀ block ∈ blocks, ∀ token ∈ block, token.WellFormed) :
    stripFrom .code (['\n'].intercalate (blocks.map blankSeparated)) =
      ['\n'].intercalate (blocks.map blankSeparated) := by
  induction blocks with
  | nil => rfl
  | cons block later ih =>
    rw [List.forall_mem_cons] at wellFormed
    cases later with
    | nil =>
      have whole := @stripFrom_blankSeparated block [] wellFormed.1 (.inl rfl)
      have nothing : stripFrom .code [] = [] := rfl
      rw [nothing, List.append_nil] at whole
      rw [List.map_singleton, List.intercalate_singleton, whole]
    | cons next later =>
      specialize ih wellFormed.2
      rw [List.map_cons] at ih
      rw [List.map_cons, List.map_cons, List.intercalate_cons_cons, List.append_assoc,
        List.singleton_append, stripFrom_blankSeparated wellFormed.1 (.inr rfl),
        stripFrom_code_cons (by simp [OpensComment]), if_neg (by decide), ih]

/-- A line on which tokens are written with a blank between them. -/
def TokenLine.ofTokens : List Token → TokenLine
  | [] => ⟨[], []⟩
  | [token] => ⟨[], [(token, [])]⟩
  | token :: next :: later => ⟨[], (token, [' ']) :: (ofTokens (next :: later)).parts⟩

namespace TokenLine

theorem tokens_ofTokens : (ofTokens tokens).tokens = tokens := by
  induction tokens using ofTokens.induct with
  | case1 => rfl
  | case2 token => rfl
  | case3 token next later ih => exact congrArg (token :: ·) ih

theorem lead_ofTokens (tokens : List Token) : (ofTokens tokens).lead = [] := by
  unfold ofTokens
  split <;> rfl

theorem text_ofTokens : (ofTokens tokens).text = blankSeparated tokens := by
  induction tokens using ofTokens.induct with
  | case1 => rfl
  | case2 token => simp [ofTokens, text, blankSeparated]
  | case3 token next later ih =>
    rw [blankSeparated_cons_cons, ← ih, text, text, lead_ofTokens, lead_ofTokens]
    simp [ofTokens]

/-- Tokens of a line with a blank between them are properly written. -/
theorem proper_ofTokens {line : Nat}
    (wellFormed : ∀ token ∈ tokens, token.WellFormed ∧ token.line = line) :
    (ofTokens tokens).Proper line := by
  induction tokens using ofTokens.induct with
  | case1 =>
    exact ⟨List.forall_mem_nil _, List.forall_mem_nil _, List.forall_mem_nil _, .nil⟩
  | case2 token =>
    rw [List.forall_mem_singleton] at wellFormed
    exact ⟨List.forall_mem_nil _, by simp [ofTokens], by simpa [ofTokens] using wellFormed,
      .singleton _⟩
  | case3 token next later ih =>
    rw [List.forall_mem_cons] at wellFormed
    have behind := ih wellFormed.2
    refine ⟨List.forall_mem_nil _, List.forall_mem_cons.mpr ⟨?_, behind.gapsBlank⟩,
      List.forall_mem_cons.mpr ⟨wellFormed.1, behind.wellFormed⟩, ?_⟩
    · simp [isBlank]
    · exact behind.apart.cons (by simp)

end TokenLine

/-- The tokens of a line on which they are written with a blank between them. -/
theorem tokenizeLine_blankSeparated {line : Nat}
    (wellFormed : ∀ token ∈ tokens, token.WellFormed ∧ token.line = line) :
    tokenizeLine line (blankSeparated tokens) = .ok tokens := by
  have read := (TokenLine.proper_ofTokens wellFormed).tokenizeLine_text
  rwa [TokenLine.text_ofTokens, TokenLine.tokens_ofTokens] at read

end BlankSeparated

/-! ## Tokens of several lines -/

section Lines

variable {tokens : List Token} {first count : Nat}

theorem mem_tokensOn {token : Token} {line : Nat} :
    token ∈ tokensOn tokens line ↔ token ∈ tokens ∧ token.line = line := by
  simp [tokensOn]

/-- Tokens in the order of their lines are those of the first line and then the others. -/
theorem tokensOn_append_filter (sorted : tokens.Pairwise fun a b => a.line ≤ b.line)
    (within : ∀ token ∈ tokens, first ≤ token.line) :
    tokensOn tokens first ++ tokens.filter (first < ·.line) = tokens := by
  induction tokens with
  | nil => rfl
  | cons token later ih =>
    rw [List.forall_mem_cons] at within
    rw [List.pairwise_cons] at sorted
    by_cases here : token.line = first
    · have others := ih sorted.2 within.2
      rw [tokensOn, List.filter_cons_of_pos (by simpa using here),
        List.filter_cons_of_neg (by simp [here]), List.cons_append]
      exact congrArg (token :: ·) others
    · have behind : ∀ other ∈ token :: later, first < other.line := by
        have next : first < token.line := Nat.lt_of_le_of_ne within.1 (Ne.symm here)
        refine List.forall_mem_cons.mpr ⟨next, ?_⟩
        exact fun other among => Nat.lt_of_lt_of_le next (sorted.1 other among)
      have none : tokensOn (token :: later) first = [] := by
        refine List.filter_eq_nil_iff.mpr fun other among => ?_
        have different := behind other among
        simp only [decide_eq_true_eq]
        omega
      rw [none, List.nil_append, List.filter_eq_self]
      simpa using behind

/-- Tokens in the order of their lines are those of one line after the other. -/
theorem flatMap_tokensOn (sorted : tokens.Pairwise fun a b => a.line ≤ b.line)
    (within : ∀ token ∈ tokens, first ≤ token.line ∧ token.line < first + count) :
    (List.range' first count).flatMap (tokensOn tokens) = tokens := by
  induction count generalizing first tokens with
  | zero =>
    have empty : tokens = [] := by
      rw [List.eq_nil_iff_forall_not_mem]
      intro token among
      have range := within token among
      omega
    rw [empty]
    rfl
  | succ count ih =>
    have split := tokensOn_append_filter sorted fun token among => (within token among).1
    -- on the lines behind the first one it makes no difference if the tokens of that are left out
    have others : (List.range' (first + 1) count).flatMap (tokensOn tokens) =
        (List.range' (first + 1) count).flatMap
          (tokensOn (tokens.filter (first < ·.line))) := by
      refine List.flatMap_congr fun line among => ?_
      have later := (List.mem_range'_1.mp among).1
      rw [tokensOn, tokensOn, List.filter_filter]
      refine List.filter_congr fun token _ => ?_
      by_cases here : token.line = line
      · simp [here]
        omega
      · simp [here]
    rw [List.range'_succ, List.flatMap_cons, others, ih (sorted.filter _), split]
    intro token among
    rw [List.mem_filter, decide_eq_true_eq] at among
    have range := within token among.1
    omega

/-- The last line is that of some token, and no token stands behind it. -/
theorem lastLine_spec (nonempty : tokens ≠ [])
    (sorted : tokens.Pairwise fun a b => a.line ≤ b.line) :
    tokensOn tokens (lastLine tokens) ≠ [] ∧ ∀ token ∈ tokens, token.line ≤ lastLine tokens := by
  obtain ⟨earlier, last, rfl⟩ := (List.eq_nil_or_concat' tokens).resolve_left nonempty
  have line : lastLine (earlier ++ [last]) = last.line := by simp [lastLine]
  rw [line]
  refine ⟨List.ne_nil_of_mem (mem_tokensOn.mpr ⟨List.mem_concat_self, rfl⟩), ?_⟩
  rw [List.pairwise_append] at sorted
  intro token among
  rcases List.mem_append.mp among with before | here
  · exact sorted.2.2 token before last List.mem_cons_self
  · rw [List.mem_singleton.mp here]

theorem tokenizeLines_tokensOn (wellFormed : ∀ token ∈ tokens, token.WellFormed)
    (first count : Nat) :
    tokenizeLines first
        ((List.range' first count).map fun line => blankSeparated (tokensOn tokens line)) =
      .ok ((List.range' first count).flatMap (tokensOn tokens)) := by
  induction count generalizing first with
  | zero => rfl
  | succ count ih =>
    have here : tokenizeLine first (blankSeparated (tokensOn tokens first)) =
        .ok (tokensOn tokens first) := by
      refine tokenizeLine_blankSeparated fun token among => ?_
      obtain ⟨among, line⟩ := mem_tokensOn.mp among
      exact ⟨wellFormed token among, line⟩
    rw [List.range'_succ, List.map_cons, tokenizeLines, here, ih]
    rfl

end Lines

/-- The text of tokens that are written down on their lines has these tokens, with their lines. -/
theorem tokenize_layout {tokens : List Token} (wellFormed : ∀ token ∈ tokens, token.WellFormed)
    (numbered : ∀ token ∈ tokens, 1 ≤ token.line)
    (sorted : tokens.Pairwise fun a b => a.line ≤ b.line) :
    (tokenize (layout tokens)).result = .ok tokens := by
  let blocks := (List.range' 1 (lastLine tokens)).map (tokensOn tokens)
  have formed : ∀ block ∈ blocks, ∀ token ∈ block, token.WellFormed := by
    intro block among token inside
    obtain ⟨line, -, rfl⟩ := List.mem_map.mp among
    exact wellFormed token (mem_tokensOn.mp inside).1
  have written : (layout tokens).toList = ['\n'].intercalate (blocks.map blankSeparated) := by
    rw [layout, String.toList_ofList, List.map_map]
    rfl
  have read : lines (['\n'].intercalate (blocks.map blankSeparated)) =
      blocks.map blankSeparated := by
    refine lines_intercalate ?_ ?_
    · intro line among
      obtain ⟨block, inside, rfl⟩ := List.mem_map.mp among
      exact blankSeparated_oneLine (formed block inside)
    · -- the last line has a token, as there is no line if there is no token
      intro line among
      by_cases none : tokens = []
      · subst none
        cases among
      · obtain ⟨filled, behind⟩ := lastLine_spec none sorted
        obtain ⟨count, eq⟩ : ∃ count, lastLine tokens = count + 1 := by
          obtain ⟨token, here⟩ := List.exists_mem_of_ne_nil tokens none
          have first := numbered token here
          have last := behind token here
          exact ⟨lastLine tokens - 1, by omega⟩
        have last : blocks.getLast? = some (tokensOn tokens (lastLine tokens)) := by
          simp only [blocks, eq, List.range'_concat, List.map_append, List.map_singleton,
            List.getLast?_concat, Nat.one_mul, Nat.add_comm 1 count]
        rw [List.getLast?_map, last] at among
        cases among
        exact blankSeparated_ne_nil
          (fun token inside => wellFormed token (mem_tokensOn.mp inside).1) filled
  have complete : (List.range' 1 (lastLine tokens)).flatMap (tokensOn tokens) = tokens := by
    refine flatMap_tokensOn sorted fun token among => ⟨numbered token among, ?_⟩
    have last := (lastLine_spec (List.ne_nil_of_mem among) sorted).2 token among
    omega
  rw [result_tokenize, ← tokenizeLines_eq, written, stripFrom_intercalate formed, read,
    List.map_map]
  exact (tokenizeLines_tokensOn wellFormed 1 _).trans (congrArg _ complete)

/-- Symbols that would make a comment mark, a string that holds some, and lines without tokens. -/
theorem tokenize_layout_commentMarks :
    let tokens : List Token := [⟨.symbol, "/", 2⟩, ⟨.symbol, "*", 2⟩,
      ⟨.stringConstant, "\"// /*;\r\"", 2⟩, ⟨.symbol, "/", 2⟩, ⟨.symbol, "/", 4⟩,
      ⟨.integerConstant, "007", 4⟩]
    (∀ token ∈ tokens, token.WellFormed) ∧ (∀ token ∈ tokens, 1 ≤ token.line) ∧
      (tokens.Pairwise fun a b => a.line ≤ b.line) ∧
      layout tokens = "\n/ * \"// /*;\r\" /\n\n/ 007" ∧
      (tokenize (layout tokens)).result = .ok tokens := by
  intro tokens
  have formed : ∀ token ∈ tokens, token.WellFormed := by
    have each : ∀ token ∈ tokens, token.text.toList ≠ [] ∧
        classOf token.text.toList = .ok token.kind := by decide +kernel
    exact fun token among => admits_of_classOf (each token among).1 (each token among).2
  have numbered : ∀ token ∈ tokens, 1 ≤ token.line := by decide
  have sorted : tokens.Pairwise fun a b => a.line ≤ b.line := by decide
  exact ⟨formed, numbered, sorted, by decide +kernel, tokenize_layout formed numbered sorted⟩

end JackCompiler
